import NumScript.Proofs.Json.Validity

/-!
# NumScript.Proofs.Json.Depth

The depth at which a value is laid out only shifts its lines. From depth zero to depth `d` every
line but the first has `2 * d` blanks more in front, or less if `d` is below zero, as far as there
are any (`Datum.render_shifted`). The text of a string or a key has no line end, because line ends
are escaped, so it is the same at every depth.

The text is taken apart into pieces that start and end inside a line. A piece is shifted on its own
(`ShiftsTo`): pieces without a line end stay as they are (`IsInline.shiftsTo`), and pieces are put
together one after the other and on new lines (`ShiftsTo.append`, `ShiftsTo.line`).
-/

namespace NumScript

/-! ### Shifting lines -/

/-- The characters with `n` blanks more behind each line end, or with `-n` blanks less as far as
there are any. At the start `less` blanks are still to be taken away. -/
def shiftFrom (n : Int) : Nat → List Char → List Char
  | _, [] => []
  | less, c :: cs =>
    if c = '\n' then '\n' :: (List.replicate n.toNat ' ' ++ shiftFrom n (-n).toNat cs)
    else if c = ' ' ∧ 0 < less then shiftFrom n (less - 1) cs
    else c :: shiftFrom n 0 cs

/-- The text with all lines but the first shifted by `n` blanks, to the left if `n` is below
zero. -/
def shiftLines (n : Int) (text : String) : String := String.ofList (shiftFrom n 0 text.toList)

/-- The text with `n` blanks inserted behind each line end. -/
def indentLines (n : Nat) (text : String) : String :=
  String.ofList <| text.toList.flatMap fun c =>
    if c = '\n' then '\n' :: List.replicate n ' ' else [c]

/-- The characters before the first line end. -/
def firstLine (text : String) : List Char := text.toList.takeWhile (· != '\n')

section Characters

variable (n : Int)

theorem shiftFrom_newline (less : Nat) (cs : List Char) :
    shiftFrom n less ('\n' :: cs) =
      '\n' :: (List.replicate n.toNat ' ' ++ shiftFrom n (-n).toNat cs) := by
  rw [shiftFrom, if_pos rfl]

/-- A character that is no line end stays, unless it is a blank to be taken away. -/
theorem shiftFrom_char {c : Char} (hc : c ≠ '\n') {less : Nat} (hless : c ≠ ' ' ∨ less = 0)
    (cs : List Char) : shiftFrom n less (c :: cs) = c :: shiftFrom n 0 cs := by
  rw [shiftFrom, if_neg hc, if_neg]
  rintro ⟨rfl, hpos⟩
  rcases hless with hne | rfl
  · exact hne rfl
  · exact Nat.lt_irrefl 0 hpos

/-- Of blanks at the start of a line, as many as are to be taken away are. -/
theorem shiftFrom_blanks (less count : Nat) (cs : List Char) :
    ∃ less', shiftFrom n less (List.replicate count ' ' ++ cs) =
      List.replicate (count - less) ' ' ++ shiftFrom n less' cs := by
  induction count generalizing less with
  | zero => exact ⟨less, by simp⟩
  | succ count ih =>
    rw [List.replicate_succ, List.cons_append]
    cases less with
    | zero =>
      obtain ⟨less', hrest⟩ := ih 0
      refine ⟨less', ?_⟩
      rw [shiftFrom_char n (by decide) (.inr rfl), hrest, Nat.sub_zero, Nat.sub_zero,
        List.replicate_succ, List.cons_append]
    | succ less =>
      obtain ⟨less', hrest⟩ := ih less
      refine ⟨less', ?_⟩
      rw [shiftFrom, if_neg (by decide), if_pos ⟨rfl, Nat.succ_pos _⟩, Nat.add_sub_cancel, hrest,
        Nat.add_sub_add_right]

theorem shiftFrom_of_newline_not_mem {cs : List Char} (h : '\n' ∉ cs) (s : List Char) :
    shiftFrom n 0 (cs ++ s) = cs ++ shiftFrom n 0 s := by
  induction cs with
  | nil => rfl
  | cons c cs ih =>
    rw [List.mem_cons, not_or] at h
    obtain ⟨hc, hcs⟩ := h
    rw [List.cons_append, shiftFrom_char n (Ne.symm hc) (.inr rfl), ih hcs, List.cons_append]

/-- The first line is not shifted. -/
theorem takeWhile_shiftFrom (cs : List Char) :
    (shiftFrom n 0 cs).takeWhile (· != '\n') = cs.takeWhile (· != '\n') := by
  induction cs with
  | nil => rfl
  | cons c cs ih =>
    by_cases hc : c = '\n'
    · subst hc
      rw [shiftFrom_newline]
      rfl
    · rw [shiftFrom_char n hc (.inr rfl), List.takeWhile_cons, List.takeWhile_cons, ih]

end Characters

/-- A shift to the right inserts blanks and takes none away. -/
theorem shiftLines_natCast (n : Nat) (text : String) : shiftLines n text = indentLines n text := by
  rw [shiftLines, indentLines]
  congr 1
  induction text.toList with
  | nil => rfl
  | cons c cs ih =>
    rw [List.flatMap_cons, ← ih]
    by_cases hc : c = '\n'
    · subst hc
      have hless : (-(n : Int)).toNat = 0 := by omega
      rw [shiftFrom_newline, hless, Int.toNat_natCast, if_pos rfl]
      rfl
    · rw [shiftFrom_char n hc (.inr rfl), if_neg hc]
      rfl

/-! ### Pieces of a text -/

/-- The piece `cs`, which starts and ends inside a line, becomes `cs'`. -/
def ShiftsTo (n : Int) (cs cs' : List Char) : Prop :=
  ∀ less s, shiftFrom n less (cs ++ s) = cs' ++ shiftFrom n 0 s

theorem ShiftsTo.append {n : Int} {cs cs' ds ds' : List Char} (h : ShiftsTo n cs cs')
    (h' : ShiftsTo n ds ds') : ShiftsTo n (cs ++ ds) (cs' ++ ds') := by
  intro less s
  rw [List.append_assoc, h, h', List.append_assoc]

/-- A piece on a new line: the blanks before it become `n` more. -/
theorem ShiftsTo.line {n : Int} {cs cs' : List Char} (h : ShiftsTo n cs cs') (count : Nat) :
    ShiftsTo n ('\n' :: (List.replicate count ' ' ++ cs))
      ('\n' :: (List.replicate (count + n).toNat ' ' ++ cs')) := by
  intro less s
  have hcount : n.toNat + (count - (-n).toNat) = (count + n).toNat := by omega
  rw [List.cons_append, List.append_assoc, shiftFrom_newline]
  obtain ⟨less', hblanks⟩ := shiftFrom_blanks n (-n).toNat count (cs ++ s)
  rw [hblanks, h less' s, ← List.append_assoc, List.replicate_append_replicate, hcount,
    List.cons_append, List.append_assoc]

/-- A piece on a new line of a depth, which becomes a line of another depth. -/
theorem ShiftsTo.indented {depth level : Int} (hlevel : 0 ≤ level) {cs cs' : List Char}
    (h : ShiftsTo (2 * depth) cs cs') :
    ShiftsTo (2 * depth) ('\n' :: ((Json.indentation level).toList ++ cs))
      ('\n' :: ((Json.indentation (depth + level)).toList ++ cs')) := by
  have hline := h.line (2 * level.toNat)
  have hcount : ((2 * level.toNat : Nat) + 2 * depth).toNat = 2 * (depth + level).toNat := by omega
  rw [hcount] at hline
  rw [Json.indentation, Json.indentation, String.toList_ofList, String.toList_ofList]
  exact hline

/-- The characters have no line end and do not start with a blank. -/
structure IsInline (cs : List Char) : Prop where
  newline_not_mem : '\n' ∉ cs
  exists_cons : ∃ c rest, cs = c :: rest ∧ c ≠ ' '

theorem IsInline.shiftsTo {cs : List Char} (h : IsInline cs) (n : Int) : ShiftsTo n cs cs := by
  obtain ⟨hnewline, c, rest, rfl, hblank⟩ := h
  rw [List.mem_cons, not_or] at hnewline
  obtain ⟨hc, hrest⟩ := hnewline
  intro less s
  rw [List.cons_append, shiftFrom_char n (Ne.symm hc) (.inl hblank),
    shiftFrom_of_newline_not_mem n hrest, List.cons_append]

namespace Json

/-! ### Scalars -/

theorem newline_not_mem_escapeChar (c : Char) : '\n' ∉ escapeChar c := by
  by_cases hc : isWritableChar c = true
  · obtain ⟨hchars, hplain⟩ | ⟨e, hchars, hletter⟩ := escapeChar_cases hc
    · rw [hchars, List.mem_singleton]
      rintro rfl
      exact absurd hplain (by decide)
    · -- the letter behind a backslash is none of the blanks
      intro hmem
      obtain rfl : '\n' = e := by simpa [hchars] using hmem
      cases hletter
  · rw [escapeChar_of_not_isWritableChar (Bool.not_eq_true _ ▸ hc), List.mem_singleton]
    rintro rfl
    exact hc rfl

theorem newline_not_mem_stringText (text : String) : '\n' ∉ (stringText text).toList := by
  have hinner : '\n' ∉ text.toList.flatMap escapeChar := by
    rw [List.mem_flatMap]
    rintro ⟨c, -, hc⟩
    exact newline_not_mem_escapeChar c hc
  rw [toList_stringText]
  simp [hinner]

theorem isInline_stringText (text : String) : IsInline (stringText text).toList :=
  ⟨newline_not_mem_stringText text, _, _, toList_stringText text, by decide⟩

theorem ValueText.isInline {j : Json} {cs : List Char} (h : ValueText j cs)
    (hcs : cs.all isNumberChar = true) : IsInline cs := by
  obtain ⟨c, rest, rfl, hc⟩ := h.startsValue
  refine ⟨fun hmem => absurd (List.all_eq_true.mp hcs _ hmem) (by decide), c, rest, rfl, ?_⟩
  intro hblank
  rw [hblank] at hc
  exact absurd hc (by decide)

theorem ValueText.isInline_int {value : Int} {cs : List Char} (h : ValueText (.int value) cs) :
    IsInline cs := by
  refine h.isInline ?_
  cases h with
  | int negative hw => exact all_isNumberChar_int negative hw

theorem ValueText.isInline_number {value : Double} {cs : List Char}
    (h : ValueText (.number value) cs) : IsInline cs := by
  refine h.isInline ?_
  cases h with
  | number negative hw hf he => exact all_isNumberChar_number negative hw hf he

theorem isInline_numberText (value : Double) : IsInline (numberText value).toList := by
  cases h : value.isNan with
  | false => exact (valueText_numberText h).isInline_number
  | true =>
    cases value with
    | nan => exact ⟨by decide, 'n', ['a', 'n'], rfl, by decide⟩
    | finite negative magnitude => cases h
    | infinite negative => cases h

/-! ### Layout -/

/-- The texts become the other texts. -/
def AllShift (n : Int) (texts texts' : List String) : Prop :=
  List.Forall₂ (fun text text' => ShiftsTo n text.toList text'.toList) texts texts'

theorem AllShift.lineChars {depth level : Int} (hlevel : 0 ≤ level) {closing : List Char}
    (hclosing : IsInline closing) {texts texts' : List String}
    (h : AllShift (2 * depth) texts texts') (hne : texts ≠ []) :
    ShiftsTo (2 * depth)
      (Json.lineChars (indentation (level + 1)).toList (indentation level).toList texts ++ closing)
      (Json.lineChars (indentation (depth + level + 1)).toList (indentation (depth + level)).toList
        texts' ++ closing) := by
  have hinner : 0 ≤ level + 1 := by omega
  rw [Int.add_assoc]
  induction h with
  | nil => exact absurd rfl hne
  | @cons text text' texts texts' htext htexts ih =>
    cases htexts with
    | nil =>
      have hend := (hclosing.shiftsTo (2 * depth)).indented hlevel
      have hlines := (htext.append hend).indented hinner
      simpa [Json.lineChars] using hlines
    | cons hnext hmore =>
      have hcomma : IsInline [','] := ⟨by decide, ',', [], rfl, by decide⟩
      have hlines := (htext.append ((hcomma.shiftsTo _).append (ih (by simp)))).indented hinner
      simpa [lineChars_cons_cons] using hlines

/-- Brackets around texts, at a depth and at another one. -/
theorem AllShift.bracketed {depth level : Int} (hlevel : 0 ≤ level) {opening closing : String}
    (hopening : IsInline opening.toList) (hclosing : IsInline closing.toList)
    {texts texts' : List String} (h : AllShift (2 * depth) texts texts') :
    ShiftsTo (2 * depth) (Json.bracketed opening closing level texts).toList
      (Json.bracketed opening closing (depth + level) texts').toList := by
  have hfirst := hopening.shiftsTo (2 * depth)
  cases h with
  | nil =>
    have hempty := hfirst.append (hclosing.shiftsTo (2 * depth))
    simpa [Json.bracketed] using hempty
  | cons htext htexts =>
    rw [toList_bracketed, toList_bracketed]
    exact hfirst.append (AllShift.lineChars hlevel hclosing (.cons htext htexts) (by simp))

mutual

/-- A value at a level becomes the same value at a level that is `depth` deeper. -/
theorem render_shiftsTo (depth : Int) {level : Int} (hlevel : 0 ≤ level) (j : Json) :
    ShiftsTo (2 * depth) (j.render level).toList (j.render (depth + level)).toList := by
  have hinner : 0 ≤ level + 1 := by omega
  cases j with
  | null =>
    have hnull : IsInline "null".toList := ⟨by decide, 'n', ['u', 'l', 'l'], rfl, by decide⟩
    exact hnull.shiftsTo _
  | bool value =>
    have htrue : IsInline "true".toList := ⟨by decide, 't', ['r', 'u', 'e'], rfl, by decide⟩
    have hfalse : IsInline "false".toList := ⟨by decide, 'f', ['a', 'l', 's', 'e'], rfl, by decide⟩
    cases value with
    | true => exact htrue.shiftsTo _
    | false => exact hfalse.shiftsTo _
  | int value => exact (valueText_int value).isInline_int.shiftsTo _
  | number value => exact (isInline_numberText value).shiftsTo _
  | str text => exact (isInline_stringText text).shiftsTo _
  | arr items =>
    have hitems := renderItems_allShift depth hinner items
    rw [← Int.add_assoc] at hitems
    exact hitems.bracketed hlevel ⟨by decide, '[', [], rfl, by decide⟩
      ⟨by decide, ']', [], rfl, by decide⟩
  | obj fields =>
    have hfields := renderFields_allShift depth hinner fields
    rw [← Int.add_assoc] at hfields
    exact hfields.bracketed hlevel ⟨by decide, '\x7b', [], rfl, by decide⟩
      ⟨by decide, '\x7d', [], rfl, by decide⟩

theorem renderItems_allShift (depth : Int) {level : Int} (hlevel : 0 ≤ level) (items : List Json) :
    AllShift (2 * depth) (renderItems level items) (renderItems (depth + level) items) := by
  cases items with
  | nil => exact .nil
  | cons item items =>
    exact .cons (render_shiftsTo depth hlevel item) (renderItems_allShift depth hlevel items)

theorem renderFields_allShift (depth : Int) {level : Int} (hlevel : 0 ≤ level)
    (fields : List (String × Json)) :
    AllShift (2 * depth) (renderFields level fields) (renderFields (depth + level) fields) := by
  cases fields with
  | nil => exact .nil
  | cons field fields =>
    obtain ⟨key, value⟩ := field
    have hkey : IsInline (stringText key ++ ": ").toList := by
      obtain ⟨hnewline, c, rest, hcons, hblank⟩ := isInline_stringText key
      rw [String.toList_append]
      refine ⟨?_, c, rest ++ [':', ' '], by rw [hcons]; rfl, hblank⟩
      simp [hnewline]
    have hvalue := (hkey.shiftsTo _).append (render_shiftsTo depth hlevel value)
    rw [← String.toList_append, ← String.toList_append] at hvalue
    exact .cons hvalue (renderFields_allShift depth hlevel fields)

end

/-- The text at a depth is the text at depth zero with its lines shifted. -/
theorem render_eq_shiftLines (depth : Int) (j : Json) :
    j.render depth = shiftLines (2 * depth) (j.render 0) := by
  have hshift := render_shiftsTo depth (Int.le_refl 0) j 0 []
  rw [List.append_nil, Int.add_zero, shiftFrom, List.append_nil] at hshift
  rw [shiftLines, hshift, String.ofList_toList]

/-! ### Strings in a value -/

mutual

/-- The strings and keys in a value, in the order of its text. -/
def strings : Json → List String
  | .null => []
  | .bool _ => []
  | .int _ => []
  | .number _ => []
  | .str text => [text]
  | .arr items => itemStrings items
  | .obj fields => fieldStrings fields

/-- The strings and keys in items. -/
def itemStrings : List Json → List String
  | [] => []
  | item :: items => item.strings ++ itemStrings items

/-- The keys of fields, and the strings and keys in their values. -/
def fieldStrings : List (String × Json) → List String
  | [] => []
  | (key, value) :: fields => key :: (value.strings ++ fieldStrings fields)

end

/-- The text `part` occurs in the text `whole`. -/
def Occurs (part whole : String) : Prop := part.toList <:+: whole.toList

mutual

/-- Every string and key of a value occurs in its text at every depth, with the same spelling. -/
theorem occurs_render (depth : Int) (j : Json) {s : String} (h : s ∈ j.strings) :
    Occurs (stringText s) (j.render depth) := by
  cases j with
  | null => cases h
  | bool value => cases h
  | int value => cases h
  | number value => cases h
  | str text =>
    obtain rfl := List.mem_singleton.mp h
    exact List.infix_refl _
  | arr items =>
    obtain ⟨text, htext, hoccurs⟩ := occurs_renderItems (depth + 1) items h
    exact hoccurs.trans (infix_bracketed htext _ _ depth)
  | obj fields =>
    obtain ⟨text, htext, hoccurs⟩ := occurs_renderFields (depth + 1) fields h
    exact hoccurs.trans (infix_bracketed htext _ _ depth)

theorem occurs_renderItems (depth : Int) (items : List Json) {s : String}
    (h : s ∈ itemStrings items) : ∃ text ∈ renderItems depth items, Occurs (stringText s) text := by
  cases items with
  | nil => cases h
  | cons item items =>
    obtain hitem | hmore := List.mem_append.mp h
    · exact ⟨_, List.mem_cons_self, occurs_render depth item hitem⟩
    · obtain ⟨text, htext, hoccurs⟩ := occurs_renderItems depth items hmore
      exact ⟨text, List.mem_cons_of_mem _ htext, hoccurs⟩

theorem occurs_renderFields (depth : Int) (fields : List (String × Json)) {s : String}
    (h : s ∈ fieldStrings fields) :
    ∃ text ∈ renderFields depth fields, Occurs (stringText s) text := by
  cases fields with
  | nil => cases h
  | cons field fields =>
    obtain ⟨key, value⟩ := field
    obtain rfl | hrest := List.mem_cons.mp h
    · refine ⟨_, List.mem_cons_self, ?_⟩
      rw [Occurs, String.toList_append, String.toList_append, List.append_assoc]
      exact (List.prefix_append _ _).isInfix
    · obtain hvalue | hmore := List.mem_append.mp hrest
      · refine ⟨_, List.mem_cons_self, ?_⟩
        rw [Occurs, String.toList_append]
        exact (occurs_render depth value hvalue).trans (List.suffix_append _ _).isInfix
      · obtain ⟨text, htext, hoccurs⟩ := occurs_renderFields depth fields hmore
        exact ⟨text, List.mem_cons_of_mem _ htext, hoccurs⟩

end

end Json

/-! ### Data at all depths -/

namespace Datum

mutual

/-- A datum that is JSON at one depth is treated as that JSON value at all depths. -/
theorem strict_eq_ofJson {depth : Int} (v : Datum) {j : Json} (h : v.strict depth = .ok j)
    (depth' : Int) : v.strict depth' = (ofJson j).strict depth' := by
  cases v with
  | null => cases h; rfl
  | bool value => cases h; rfl
  | int value => cases h; rfl
  | number value => cases h; rfl
  | str text => cases h; rfl
  | list items =>
    obtain ⟨js, hjs, hrest⟩ := bind_eq_ok_iff.mp h
    obtain ⟨_, -, hj⟩ := bind_eq_ok_iff.mp hrest
    cases hj
    rw [strict, ofJson, strict, strictItems_eq_ofItems items hjs]
  | record fields =>
    obtain ⟨js, hjs, hrest⟩ := bind_eq_ok_iff.mp h
    obtain ⟨_, -, hj⟩ := bind_eq_ok_iff.mp hrest
    cases hj
    rw [strict, ofJson, strict, strictFields_eq_ofFields fields hjs]
  | tuple items => cases h
  | pos p => cases h
  | item i => cases h
  | expr e => cases h
  | stmt s => cases h

theorem strictItems_eq_ofItems {depth : Int} (items : List Datum) {js : List Json}
    (h : strictItems depth items = .ok js) (depth' : Int) :
    strictItems depth' items = strictItems depth' (ofItems js) := by
  cases items with
  | nil => cases h; rfl
  | cons d ds =>
    obtain ⟨j, hj, hrest⟩ := bind_eq_ok_iff.mp h
    obtain ⟨js', hjs', hjs⟩ := bind_eq_ok_iff.mp hrest
    cases hjs
    rw [strictItems, ofItems, strictItems, strict_eq_ofJson d hj, strictItems_eq_ofItems ds hjs']

theorem strictFields_eq_ofFields {depth : Int} (fields : List (Key × Datum))
    {js : List (String × Json)} (h : strictFields depth fields = .ok js) (depth' : Int) :
    strictFields depth' fields = strictFields depth' (ofFields js) := by
  cases fields with
  | nil => cases h; rfl
  | cons field fields =>
    obtain ⟨key, d⟩ := field
    obtain ⟨j, hj, hrest⟩ := bind_eq_ok_iff.mp h
    obtain ⟨js', hjs', hjs⟩ := bind_eq_ok_iff.mp hrest
    cases hjs
    rw [strictFields, ofFields, strictFields, strict_eq_ofJson d hj,
      strictFields_eq_ofFields fields hjs']
    rfl

end

theorem render_eq_ofJson {depth : Int} {v : Datum} {j : Json} (h : v.strict depth = .ok j)
    (depth' : Int) : v.render depth' = (ofJson j).render depth' := by
  rw [render, render, strict_eq_ofJson v h]

/-- What fits at some depth that is not below zero fits at depth zero. -/
theorem FitsAt.zero {depth : Int} {levels : Nat} (h : FitsAt depth levels) (hdepth : 0 ≤ depth) :
    FitsAt 0 levels := by
  unfold FitsAt wordLimit at *
  omega

/-- A datum with a text at some depth that is not below zero has one at every depth that its lines
fit at. From depth zero to any other one, every line but the first is shifted by two blanks for each
level; where the depth is not below zero, this means that so many blanks are inserted behind each
line end. The first line is the same, and all strings and keys, in which there are no line ends, are
spelled the same. -/
theorem render_shifted {v : Datum} {given : Int} {text₀ : String} (hgiven : 0 ≤ given)
    (h : v.render given = .ok text₀) :
    ∃ j base, v.strict 0 = .ok j ∧ v.render 0 = .ok base ∧ ∀ depth : Int,
      ((∃ text, v.render depth = .ok text) ↔ FitsAt depth j.levels) ∧
      ∀ text, v.render depth = .ok text →
        text = shiftLines (2 * depth) base ∧
        (0 ≤ depth → text = indentLines (2 * depth.toNat) base) ∧
        firstLine text = firstLine base ∧
        ∀ s ∈ j.strings, '\n' ∉ (Json.stringText s).toList ∧
          Json.Occurs (Json.stringText s) base ∧ Json.Occurs (Json.stringText s) text := by
  obtain ⟨j, hj, -⟩ := bind_eq_ok_iff.mp h
  have hrender := render_eq_ofJson hj
  have hfits := ((render_ofJson_eq_ok_iff given j).mp ((hrender given).symm.trans h)).1
  have hzero := (render_ofJson_eq_ok_iff 0 j).mpr ⟨hfits.zero hgiven, rfl⟩
  have hstrict : v.strict 0 = .ok j := by
    rw [strict_eq_ofJson v hj, strict_ofJson_eq_ok_iff]
    exact ⟨hfits.zero hgiven, rfl⟩
  refine ⟨j, j.render 0, hstrict, (hrender 0).trans hzero, fun depth => ?_⟩
  simp only [hrender depth, render_ofJson_eq_ok_iff]
  refine ⟨⟨fun ⟨_, hfit, _⟩ => hfit, fun hfit => ⟨_, hfit, rfl⟩⟩, ?_⟩
  rintro text ⟨-, rfl⟩
  have hshift := j.render_eq_shiftLines depth
  refine ⟨hshift, fun hdepth => ?_, ?_, fun s hs => ?_⟩
  · have hcast : 2 * depth = (2 * depth.toNat : Nat) := by omega
    rw [hshift, hcast, shiftLines_natCast]
  · rw [hshift, firstLine, shiftLines, String.toList_ofList, takeWhile_shiftFrom]
    rfl
  · exact ⟨Json.newline_not_mem_stringText s, j.occurs_render 0 hs, j.occurs_render depth hs⟩

/-- A record with line ends and blanks in a key and in a string, and with a number for a key. -/
def brokenLines : Datum :=
  .record [(.text "a\n  b", .list [.str "\n", .list [], .null]), (.int 7, .bool true)]

/-- Its lines at depth zero, at depth two and one level below zero. The line ends in the key and in
the string are escaped, so none of the lines starts there. -/
theorem brokenLines_render_shifted :
    brokenLines.render 0 = .ok ("\n".intercalate ["\x7b", "  \"a\\n  b\": [", "    \"\\n\",",
      "    [],", "    null", "  ],", "  \"7\": true", "\x7d"]) ∧
    brokenLines.render 2 = .ok ("\n".intercalate ["\x7b", "      \"a\\n  b\": [",
      "        \"\\n\",", "        [],", "        null", "      ],", "      \"7\": true",
      "    \x7d"]) ∧
    brokenLines.render (-1) = .ok ("\n".intercalate ["\x7b", "\"a\\n  b\": [", "  \"\\n\",",
      "  [],", "  null", "],", "\"7\": true", "\x7d"]) := by
  have hzero : brokenLines.render 0 = .ok ("\n".intercalate ["\x7b", "  \"a\\n  b\": [",
      "    \"\\n\",", "    [],", "    null", "  ],", "  \"7\": true", "\x7d"]) := by
    with_unfolding_all rfl
  obtain ⟨j, base, hj, hbase, htexts⟩ := render_shifted (Int.le_refl 0) hzero
  cases hbase.symm.trans hzero
  cases hj
  obtain ⟨right, hright⟩ := (htexts 2).1.mpr (.inr (by decide))
  obtain ⟨left, hleft⟩ := (htexts (-1)).1.mpr (.inr (by decide))
  refine ⟨hzero, ?_, ?_⟩
  · rw [hright, ((htexts 2).2 right hright).2.1 (by decide)]
    with_unfolding_all rfl
  · rw [hleft, ((htexts (-1)).2 left hleft).1]
    with_unfolding_all rfl

end Datum

end NumScript
