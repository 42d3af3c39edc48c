import NumScript.Proofs.Codegen.Lexical
import NumScript.Proofs.Json.Reader
import NumScript.Proofs.Number.ReadBack

/-!
# NumScript.Proofs.Json.Written

The text of a JSON value is a text of the grammar, and of that value (`render_valueText`), at every
depth. This holds of values without a NaN, in whose strings and keys the only control characters are
the three that are escaped. So the text of such a value is read as the value (`text_documentText`).
-/

namespace NumScript

/-! ### Digits without zeros in front -/

theorem head?_natDigits_ne_zero {n : Nat} (hn : n ≠ 0) : (natDigits n).head? ≠ some '0' := by
  induction n using Nat.strongRecOn with
  | ind n ih =>
    rw [natDigits, Nat.toDigits_eq_if (by decide)]
    split
    · rename_i hlt
      have hdigit : ∀ d : Fin 10, d.val ≠ 0 → some d.val.digitChar ≠ some '0' := by decide
      exact hdigit ⟨n, hlt⟩ hn
    · rw [List.head?_append_of_ne_nil _ Nat.toDigits_ne_nil]
      exact ih (n / 10) (by omega) (by omega)

theorem head?_dropTrailingZeros {ds : List Char} (hne : dropTrailingZeros ds ≠ []) :
    (dropTrailingZeros ds).head? = ds.head? := by
  obtain ⟨k, hk⟩ := exists_dropTrailingZeros ds
  have hhead : (dropTrailingZeros ds ++ zeros k).head? = (dropTrailingZeros ds).head? :=
    List.head?_append_of_ne_nil _ hne
  rw [← hk] at hhead
  exact hhead.symm

namespace Json

theorem isWhole_of_head? {ds : List Char} (hds : ds.all Char.isDigit = true) (hne : ds ≠ [])
    (hhead : ds.head? ≠ some '0') : isWhole ds = true := by
  simp [isWhole, hds, hne, hhead]

theorem isWhole_natDigits (n : Nat) : isWhole (natDigits n) = true := by
  by_cases hn : n = 0
  · subst hn
    decide
  · exact isWhole_of_head? (isDigit_natDigits n) (natDigits_ne_nil n) (head?_natDigits_ne_zero hn)

theorem isWhole_takeWhile_append {ds rest : List Char} (h : isWhole ds = true)
    (hrest : ∀ c ∈ rest.head?, c.isDigit = false) :
    isWhole ((ds ++ rest).takeWhile Char.isDigit) = true := by
  rw [takeWhile_append_stop (isWhole_digits h) hrest]
  exact h

theorem isWhole_takeWhile_positional {ds : List Char} (hds : ds.all Char.isDigit = true)
    (hne : ds ≠ []) (hhead : ds.head? ≠ some '0') (point : Int) :
    isWhole ((positional ds point).takeWhile Char.isDigit) = true := by
  unfold positional
  split
  · -- only here a zero stands in front, and the point follows it
    exact isWhole_takeWhile_append (by decide : isWhole ['0'] = true) (by simp)
  · rename_i hpoint
    split
    · have htake : isWhole (ds.take point.toNat) = true := by
        refine isWhole_of_head? (List.all_eq_true.mpr ?_) ?_ ?_
        · exact fun c hc => List.all_eq_true.mp hds c (List.mem_of_mem_take hc)
        · rw [Ne, List.take_eq_nil_iff]
          intro hnil
          obtain hzero | hnil := hnil
          · omega
          · exact hne hnil
        · rw [List.head?_take, if_neg (by omega)]
          exact hhead
      exact isWhole_takeWhile_append htake (by simp)
    · have hzeros : isWhole (ds ++ zeros (point.toNat - ds.length)) = true := by
        refine isWhole_of_head? ?_ (by simp [hne]) ?_
        · rw [List.all_append, hds, isDigit_zeros]
          rfl
        · rw [List.head?_append_of_ne_nil _ hne]
          exact hhead
      exact isWhole_takeWhile_append hzeros (by simp)

theorem isWhole_takeWhile_scientific {ds : List Char} (hds : ds.all Char.isDigit = true)
    (hne : ds ≠ []) (hhead : ds.head? ≠ some '0') (width : Nat) (point : Int) :
    isWhole ((scientific width ds point).takeWhile Char.isDigit) = true := by
  cases ds with
  | nil => exact absurd rfl hne
  | cons d rest =>
    have hd : isWhole [d] = true := by
      rw [List.all_cons, Bool.and_eq_true] at hds
      exact isWhole_of_head? (by simp [hds.1]) (by simp) hhead
    cases rest with
    | nil => exact isWhole_takeWhile_append hd (by simp)
    | cons d' rest =>
      have hsplit : scientific width (d :: d' :: rest) point =
          [d] ++ '.' :: (d' :: rest ++ 'e' :: exponentText width (point - 1)) := rfl
      rw [hsplit]
      exact isWhole_takeWhile_append hd (by simp)

/-- The text of a size starts with a whole number. -/
theorem isWhole_takeWhile_text (m : Magnitude) (format : NumberFormat) :
    isWhole ((m.text format).takeWhile Char.isDigit) = true := by
  unfold Magnitude.text
  split
  · decide
  · rename_i hpos
    have hdigits := Decimal.shortest_digits_ne_zero hpos
    have hall := isDigit_dropTrailingZeros (isDigit_natDigits (Decimal.shortest m).digits)
    have hne : dropTrailingZeros (natDigits (Decimal.shortest m).digits) ≠ [] := by
      intro hnil
      refine natOfDigits_dropTrailingZeros_ne_zero ?_ (by rw [hnil]; rfl)
      rw [natOfDigits_natDigits]
      exact hdigits
    have hhead : (dropTrailingZeros (natDigits (Decimal.shortest m).digits)).head? ≠ some '0' := by
      rw [head?_dropTrailingZeros hne]
      exact head?_natDigits_ne_zero hdigits
    unfold Decimal.text
    dsimp only
    split
    · exact isWhole_takeWhile_positional hall hne hhead _
    · exact isWhole_takeWhile_scientific hall hne hhead _ _

end Json

/-- A decimal of finite size has this size with either sign. -/
theorem Decimal.toDouble_of_finite {d : Decimal} {m : Magnitude} (negative : Bool)
    (h : d.toDouble false = .finite false m) : d.toDouble negative = .finite negative m := by
  obtain ⟨size, hsize⟩ := d.exists_toDouble_eq_ofSize
  rw [hsize] at h ⊢
  cases size with
  | none => cases h
  | some size =>
    cases h
    rfl

namespace Json

/-! ### Scalars -/

/-- The parts of a written decimal are those of a number. -/
theorem valueText_parts (negative : Bool) {t : DecimalParts} (hw : isWhole t.whole = true)
    (hfloat : t.fraction.isSome = true ∨ t.exponent.isSome = true) :
    ValueText (.number (t.decimal.toDouble negative)) (minusChars negative ++ t.chars) := by
  have hfraction : FractionText (t.fraction.getD []) t.fractionChars := by
    unfold DecimalParts.fractionChars
    cases h : t.fraction with
    | none => exact .none
    | some ds => exact .digits (t.fraction_digits ds h) (t.fraction_ne_nil ds h)
  have hexponent : ExponentText t.scale t.exponentChars := by
    unfold DecimalParts.scale DecimalParts.exponentChars
    cases h : t.exponent with
    | none => exact .none
    | some e =>
      obtain ⟨hdigits, hne⟩ := t.exponent_digits e h
      exact .signed e.1 (.inl rfl) hdigits hne
  refine .number negative hw hfraction hexponent ?_
  unfold DecimalParts.fractionChars DecimalParts.exponentChars
  cases hf : t.fraction with
  | some ds => simp
  | none =>
    cases he : t.exponent with
    | some e => simp
    | none => simp [hf, he] at hfloat

theorem valueText_numberText {v : Double} (h : v.isNan = false) :
    ValueText (.number v) (numberText v).toList := by
  cases v with
  | nan => cases h
  | infinite negative =>
    have hexponent : ExponentText (natOfDigits ['9', '9', '9']) ['e', '9', '9', '9'] :=
      .unsigned (.inl rfl) (by decide) (by simp)
    have hlarge := ValueText.number negative (by decide : isWhole ['1'] = true) .none hexponent
      (by simp)
    cases negative <;> exact hlarge
  | finite negative m =>
    obtain ⟨t, hchars, hfloat, hdouble⟩ := m.exists_parts .standard
    have hw : isWhole t.whole = true := by
      have htake := isWhole_takeWhile_text m .standard
      rw [hchars, DecimalParts.chars, takeWhile_append_stop t.whole_digits] at htake
      · exact htake
      · unfold DecimalParts.fractionChars
        cases t.fraction with
        | none => exact t.isDigit_head?_exponentChars
        | some ds => simp
    have hvalue := valueText_parts negative hw hfloat
    rw [Decimal.toDouble_of_finite negative hdouble, ← hchars] at hvalue
    rw [numberText, Double.text, String.toList_ofList]
    exact hvalue
    · intro negative' heq
      cases heq

theorem valueText_int (value : Int) : ValueText (.int value) (toString value).toList := by
  have hdigits : ∀ negative, ValueText
      (.int (if negative then -(value.natAbs : Int) else value.natAbs))
      (minusChars negative ++ natDigits value.natAbs) := by
    intro negative
    have hvalue := ValueText.int negative (isWhole_natDigits value.natAbs)
    rw [natOfDigits_natDigits] at hvalue
    exact hvalue
  cases value with
  | ofNat n =>
    have htext : (toString (Int.ofNat n)).toList = natDigits n := by
      rw [Int.toString_eq_repr, Int.repr, Nat.repr_eq_ofList_toDigits,
        String.toList_ofList, natDigits]
    rw [htext]
    exact hdigits false
  | negSucc n =>
    have htext : (toString (Int.negSucc n)).toList = '-' :: natDigits (n + 1) := by
      simp [Int.toString_eq_repr, Int.repr, Nat.repr_eq_ofList_toDigits, natDigits]
    rw [htext]
    exact hdigits true

/-- Control characters other than the three that are escaped cannot be written. -/
def isWritableChar (c : Char) : Bool := decide (' ' ≤ c) || c == '\n' || c == '\r' || c == '\t'

/-- Whether all characters of a string can be written. -/
def isWritableText (text : String) : Bool := text.toList.all isWritableChar

theorem escapeChar_cases {c : Char} (h : isWritableChar c = true) :
    (escapeChar c = [c] ∧ isPlainChar c = true) ∨
      ∃ e, escapeChar c = ['\\', e] ∧ unescape? e = some c := by
  by_cases hbackslash : c = '\\'
  · subst hbackslash
    exact .inr ⟨'\\', rfl, rfl⟩
  by_cases hquote : c = '"'
  · subst hquote
    exact .inr ⟨'"', rfl, rfl⟩
  by_cases hnewline : c = '\n'
  · subst hnewline
    exact .inr ⟨'n', rfl, rfl⟩
  by_cases hreturn : c = '\r'
  · subst hreturn
    exact .inr ⟨'r', rfl, rfl⟩
  by_cases htab : c = '\t'
  · subst htab
    exact .inr ⟨'t', rfl, rfl⟩
  · refine .inl ⟨by simp [escapeChar, *], ?_⟩
    simpa [isPlainChar, isWritableChar, *] using h

theorem stringText_flatMap {cs : List Char} (h : cs.all isWritableChar = true) :
    StringText cs (cs.flatMap escapeChar) := by
  induction cs with
  | nil => exact .nil
  | cons c cs ih =>
    rw [List.all_cons, Bool.and_eq_true] at h
    rw [List.flatMap_cons]
    obtain ⟨hescape, hplain⟩ | ⟨e, hescape, hletter⟩ := escapeChar_cases h.1
    · rw [hescape]
      exact .plain hplain (ih h.2)
    · rw [hescape]
      exact .escape (.letter hletter) (ih h.2)

theorem toList_stringText (text : String) :
    (stringText text).toList = '"' :: (text.toList.flatMap escapeChar ++ ['"']) :=
  String.toList_ofList

/-! ### Layout -/

/-- The characters between the brackets around texts, of which each is on a line of its own behind
the characters `ws`; the characters `us` are those before the closing bracket. -/
def lineChars (ws us : List Char) : List String → List Char
  | [] => []
  | [text] => '\n' :: ws ++ (text.toList ++ '\n' :: us)
  | text :: texts => '\n' :: ws ++ (text.toList ++ ',' :: lineChars ws us texts)

theorem lineChars_cons_cons (ws us : List Char) (text next : String) (texts : List String) :
    lineChars ws us (text :: next :: texts) =
      ('\n' :: ws) ++ (text.toList ++ ([] ++ ',' :: lineChars ws us (next :: texts))) := rfl

theorem isBlankChar_indentation (depth : Int) :
    (indentation depth).toList.all isBlankChar = true := by
  rw [indentation, String.toList_ofList, List.all_replicate]
  simp [isBlankChar]

theorem isBlankChar_newline {ws : List Char} (hws : ws.all isBlankChar = true) :
    ('\n' :: ws).all isBlankChar = true := by
  rw [List.all_cons, hws]
  rfl

theorem toList_intercalate_lineChars (depth : Int) (us : List Char) (text : String)
    (texts : List String) :
    '\n' :: ((",\n".intercalate ((text :: texts).map (indentation depth ++ ·))).toList ++
        '\n' :: us) =
      lineChars (indentation depth).toList us (text :: texts) := by
  induction texts generalizing text with
  | nil => simp [lineChars]
  | cons next texts ih =>
    rw [lineChars, ← ih next, List.map_cons, List.map_cons, String.intercalate_cons_cons]
    · simp
    · simp

theorem toList_bracketed (opening closing : String) (depth : Int) (text : String)
    (texts : List String) :
    (bracketed opening closing depth (text :: texts)).toList =
      opening.toList ++ (lineChars (indentation (depth + 1)).toList (indentation depth).toList
        (text :: texts) ++ closing.toList) := by
  rw [← toList_intercalate_lineChars, bracketed, if_neg (by simp)]
  simp

theorem infix_lineChars {ws us : List Char} {text : String} {texts : List String}
    (h : text ∈ texts) : text.toList <:+: lineChars ws us texts := by
  induction texts with
  | nil => exact absurd h List.not_mem_nil
  | cons first texts ih =>
    cases texts with
    | nil =>
      obtain rfl := List.mem_singleton.mp h
      exact ⟨'\n' :: ws, '\n' :: us, by simp [lineChars]⟩
    | cons next texts =>
      rw [lineChars_cons_cons]
      obtain rfl | hmore := List.mem_cons.mp h
      · exact ⟨'\n' :: ws, _, List.append_assoc _ _ _⟩
      · obtain ⟨before, behind, heq⟩ := ih hmore
        exact ⟨'\n' :: ws ++ (first.toList ++ ',' :: before), behind, by simp [← heq]⟩

/-- A text stands between the brackets as it is. -/
theorem infix_bracketed {text : String} {texts : List String} (h : text ∈ texts)
    (opening closing : String) (depth : Int) :
    text.toList <:+: (bracketed opening closing depth texts).toList := by
  cases texts with
  | nil => exact absurd h List.not_mem_nil
  | cons first texts =>
    rw [toList_bracketed]
    refine List.IsInfix.trans ?_ (List.suffix_append _ _).isInfix
    exact (infix_lineChars h).trans (List.prefix_append _ _).isInfix

/-! ### Values -/

mutual

/-- Whether the value has a text: it has no NaN, and no control character that is not escaped. -/
def isWritable : Json → Bool
  | .null => true
  | .bool _ => true
  | .int _ => true
  | .number value => !value.isNan
  | .str text => isWritableText text
  | .arr items => areWritable items
  | .obj fields => areWritableFields fields

/-- Whether all items have texts. -/
def areWritable : List Json → Bool
  | [] => true
  | item :: items => item.isWritable && areWritable items

/-- Whether all keys and values have texts. -/
def areWritableFields : List (String × Json) → Bool
  | [] => true
  | (key, value) :: fields =>
    isWritableText key && value.isWritable && areWritableFields fields

end

mutual

/-- The text of a value is one that the grammar gives it. -/
theorem render_valueText (depth : Int) (j : Json) (h : j.isWritable = true) :
    ValueText j (j.render depth).toList := by
  cases j with
  | null => simpa [render] using ValueText.null
  | bool value =>
    cases value with
    | true => simpa [render] using ValueText.boolTrue
    | false => simpa [render] using ValueText.boolFalse
  | int value => exact valueText_int value
  | number value => exact valueText_numberText (by simpa [isWritable] using h)
  | str text =>
    have hvalue := ValueText.str (stringText_flatMap h)
    rw [String.ofList_toList] at hvalue
    rw [render, toList_stringText]
    exact hvalue
  | arr items =>
    cases items with
    | nil =>
      have hempty := ValueText.noItems (rfl : [].all isBlankChar = true)
      simpa [render, renderItems, bracketed] using hempty
    | cons item items =>
      rw [render, renderItems, toList_bracketed]
      exact .arr (render_itemsText (depth + 1) depth (item :: items) (by simp) h)
  | obj fields =>
    cases fields with
    | nil =>
      have hempty := ValueText.noFields (rfl : [].all isBlankChar = true)
      simpa [render, renderFields, bracketed] using hempty
    | cons field fields =>
      rw [render, renderFields, toList_bracketed]
      exact .obj (render_fieldsText (depth + 1) depth (field :: fields) (by simp) h)

/-- The lines of items are texts of them. -/
theorem render_itemsText (depth outer : Int) (items : List Json) (hne : items ≠ [])
    (h : areWritable items = true) :
    ItemsText items (lineChars (indentation depth).toList (indentation outer).toList
      (renderItems depth items)) := by
  have hblank := isBlankChar_newline (isBlankChar_indentation depth)
  cases items with
  | nil => exact absurd rfl hne
  | cons item items =>
    rw [areWritable, Bool.and_eq_true] at h
    have hitem := render_valueText depth item h.1
    cases items with
    | nil => exact .last hblank hitem (isBlankChar_newline (isBlankChar_indentation outer))
    | cons next items =>
      have hitems := render_itemsText depth outer (next :: items) (by simp) h.2
      rw [renderItems] at hitems
      rw [renderItems, renderItems, lineChars_cons_cons]
      exact .cons hblank hitem rfl hitems

/-- The lines of fields are texts of them. -/
theorem render_fieldsText (depth outer : Int) (fields : List (String × Json)) (hne : fields ≠ [])
    (h : areWritableFields fields = true) :
    FieldsText fields (lineChars (indentation depth).toList (indentation outer).toList
      (renderFields depth fields)) := by
  have hblank := isBlankChar_newline (isBlankChar_indentation depth)
  cases fields with
  | nil => exact absurd rfl hne
  | cons field fields =>
    obtain ⟨key, value⟩ := field
    simp only [areWritableFields, Bool.and_eq_true] at h
    have hmember : MemberText (key, value)
        (stringText key ++ ": " ++ value.render depth).toList := by
      have hmk := MemberText.mk (stringText_flatMap h.1.1) (rfl : [].all isBlankChar = true)
        (by decide : [' '].all isBlankChar = true) (render_valueText depth value h.1.2)
      rw [String.ofList_toList] at hmk
      rw [String.toList_append, String.toList_append, toList_stringText]
      simpa using hmk
    cases fields with
    | nil => exact .last hblank hmember (isBlankChar_newline (isBlankChar_indentation outer))
    | cons next fields =>
      have hfields := render_fieldsText depth outer (next :: fields) (by simp) h.2
      rw [renderFields] at hfields
      rw [renderFields, renderFields, lineChars_cons_cons]
      exact .cons hblank hmember rfl hfields

end

/-- The text of a value is a text of the grammar, with that value. -/
theorem text_documentText {j : Json} (h : j.isWritable = true) :
    DocumentText j j.text.toList := by
  have hvalue := render_valueText 0 j h
  have hdocument := DocumentText.mk (rfl : [].all isBlankChar = true) hvalue
    (rfl : [].all isBlankChar = true)
  rw [List.append_nil] at hdocument
  exact hdocument

end Json

end NumScript
