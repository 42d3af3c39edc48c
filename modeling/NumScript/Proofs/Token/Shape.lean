import Mathlib.Data.List.TakeWhile
import NumScript.Number.Text
import NumScript.Token.Lexer

/-!
# NumScript.Proofs.Token.Shape

Which lexemes a text can hold. A numeral has one of the three shapes `12`, `1.5` and `.5`, and an
identifier is a word that is no keyword. Every lexeme that is read has such a shape and is what the
text starts with (`readLexeme_eq_ok`); so a numeral that is read always denotes a number
(`Numeral.read?_chars`).
-/

namespace NumScript

/-! ### Shapes -/

/-- Whether a numeral has digits before the point or after it, and after it if there is a point. -/
def Numeral.isValid (n : Numeral) : Bool :=
  n.whole.all Char.isDigit &&
    match n.fraction with
    | none => !n.whole.isEmpty
    | some fraction => fraction.all Char.isDigit && !fraction.isEmpty

/-- Whether a text is a word that is no keyword. -/
def isIdentifier (name : String) : Bool :=
  match name.toList with
  | [] => false
  | c :: cs => isWordStart c && cs.all isWordChar && (Keyword.ofText? name).isNone

/-- Whether a lexeme can be read from a text. -/
def Lexeme.isValid : Lexeme → Bool
  | .number n => n.isValid
  | .ident name => isIdentifier name
  | .keyword _ => true
  | .symbol _ => true

/-! ### What is read -/

theorem startsWithDigit_takeWhile {cs : List Char} (h : startsWithDigit cs = true) :
    (cs.takeWhile Char.isDigit).isEmpty = false := by
  cases cs with
  | nil => exact absurd h (by simp [startsWithDigit])
  | cons c cs =>
    rw [startsWithDigit] at h
    simp [h]

theorem readNumeral_eq_ok {cs rest : List Char} {n : Numeral}
    (hstart : startsWithNumeral cs = true) (h : readNumeral cs = .ok (n, rest)) :
    n.isValid = true ∧ cs = n.chars ++ rest := by
  have hsplit := List.takeWhile_append_dropWhile (p := Char.isDigit) (l := cs)
  have hdigits : (cs.takeWhile Char.isDigit).all Char.isDigit = true := List.all_takeWhile
  unfold readNumeral readFraction at h
  split at h
  · rename_i cs' hpoint
    split at h
    · rename_i hdigit
      obtain ⟨rfl, rfl⟩ := Prod.mk.inj (Except.ok.inj h)
      rw [hpoint] at hsplit
      refine ⟨by simp [Numeral.isValid, startsWithDigit_takeWhile hdigit], ?_⟩
      simp [Numeral.chars, hsplit]
    · exact absurd h (by simp)
  · -- without a point, the digits before it are all there is
    rename_i hpoint
    obtain ⟨rfl, rfl⟩ := Prod.mk.inj (Except.ok.inj h)
    have hdigit : startsWithDigit cs = true := by
      unfold startsWithNumeral at hstart
      split at hstart
      · rename_i cs'
        exact absurd rfl (hpoint cs')
      · exact hstart
    exact ⟨by simp [Numeral.isValid, startsWithDigit_takeWhile hdigit], hsplit.symm⟩

theorem wordLexeme_text (word : String) : (wordLexeme word).text = word := by
  unfold wordLexeme
  split
  · rename_i k hk
    exact Keyword.text_of_ofText? hk
  · rfl

theorem wordLexeme_isValid {c : Char} {cs : List Char} (hc : isWordStart c = true)
    (hcs : cs.all isWordChar = true) : (wordLexeme (String.ofList (c :: cs))).isValid = true := by
  unfold wordLexeme
  split
  · rfl
  · rename_i hnone
    simp only [Lexeme.isValid, isIdentifier, String.toList_ofList, hnone]
    simp [hc, hcs]

theorem readSymbol?_text {cs rest : List Char} {s : Symbol}
    (h : readSymbol? cs = some (s, rest)) : cs = s.text.toList ++ rest := by
  unfold readSymbol? at h
  split at h
  all_goals first
    | (obtain ⟨rfl, rfl⟩ := Prod.mk.inj (Option.some.inj h)
       rfl)
    | exact absurd h (by simp)

/-- A lexeme that is read can be read, and the text starts with its characters. -/
theorem readLexeme_eq_ok {c : Char} {cs rest : List Char} {l : Lexeme}
    (h : readLexeme c cs = .ok (l, rest)) :
    l.isValid = true ∧ c :: cs = l.text.toList ++ rest := by
  unfold readLexeme at h
  split at h
  · rename_i hstart
    cases hn : readNumeral (c :: cs) with
    | error cause => rw [hn] at h; exact absurd h (by simp [Except.map])
    | ok read =>
      obtain ⟨n, rest'⟩ := read
      rw [hn] at h
      obtain ⟨rfl, rfl⟩ := Prod.mk.inj (Except.ok.inj h)
      obtain ⟨hvalid, hcs⟩ := readNumeral_eq_ok hstart hn
      exact ⟨hvalid, by simpa [Lexeme.text] using hcs⟩
  · split at h
    · rename_i hword
      obtain ⟨rfl, rfl⟩ := Prod.mk.inj (Except.ok.inj h)
      refine ⟨wordLexeme_isValid hword List.all_takeWhile, ?_⟩
      simp [wordLexeme_text, List.takeWhile_append_dropWhile]
    · split at h
      · rename_i hs
        obtain ⟨rfl, rfl⟩ := Prod.mk.inj (Except.ok.inj h)
        exact ⟨rfl, readSymbol?_text hs⟩
      · exact absurd h (by simp)

/-- Every token of a text has a lexeme that can be read. -/
theorem lexFrom_isValid {p : Pos} {cs : List Char} {stream : TokenStream}
    (h : lexFrom p cs = .ok stream) : ∀ t ∈ stream.tokens, t.lexeme.isValid = true := by
  fun_induction lexFrom p cs generalizing stream with
  | case1 p =>
    obtain rfl := Except.ok.inj h
    simp
  | case2 p rest ih => exact ih h
  | case3 p rest ih => exact ih h
  | case4 p c rest _ _ _ ih => exact ih h
  | case5 => exact absurd h (by simp)
  | case6 p c rest _ _ _ l rest' hread ih =>
    cases hrest : lexFrom (p.advance l.text.length) rest' with
    | error e => rw [hrest] at h; exact absurd h (by simp [Except.map])
    | ok stream' =>
      rw [hrest] at h
      obtain rfl := Except.ok.inj h
      intro t ht
      rcases List.mem_cons.mp ht with rfl | ht
      · exact (readLexeme_eq_ok hread).1
      · exact ih hrest t ht

/-! ### What a numeral denotes -/

/-- Taking characters of a class stops at the first one outside of it. -/
theorem takeWhile_append_stop {p : Char → Bool} {ds rest : List Char} (hds : ds.all p = true)
    (hrest : ∀ c ∈ rest.head?, p c = false) : (ds ++ rest).takeWhile p = ds := by
  rw [List.takeWhile_append_of_pos (List.all_eq_true.mp hds)]
  cases rest with
  | nil => simp
  | cons c rest => simp [hrest c rfl]

theorem dropWhile_append_stop {p : Char → Bool} {ds rest : List Char} (hds : ds.all p = true)
    (hrest : ∀ c ∈ rest.head?, p c = false) : (ds ++ rest).dropWhile p = rest := by
  rw [List.dropWhile_append_of_pos (List.all_eq_true.mp hds)]
  cases rest with
  | nil => simp
  | cons c rest => simp [hrest c rfl]

theorem Numeral.decimal_read? {n : Numeral} (h : n.isValid = true) :
    Decimal.read? n.chars = some n.decimal := by
  obtain ⟨whole, fraction⟩ := n
  unfold Numeral.isValid at h
  cases fraction with
  | none =>
    simp only [Bool.and_eq_true, Bool.not_eq_true'] at h
    have hdigits := List.all_eq_true.mp h.1
    simp [Decimal.read?, Numeral.chars, Numeral.decimal, List.takeWhile_eq_self_iff.mpr hdigits,
      List.dropWhile_eq_nil_iff.mpr hdigits, h.2, readExponent?]
  | some fraction =>
    simp only [Bool.and_eq_true, Bool.not_eq_true'] at h
    have hdigits := List.all_eq_true.mp h.2.1
    have hstop : ∀ c ∈ ('.' :: fraction).head?, c.isDigit = false := by simp
    simp only [Decimal.read?, Numeral.chars, takeWhile_append_stop h.1 hstop,
      dropWhile_append_stop h.1 hstop, List.takeWhile_eq_self_iff.mpr hdigits,
      List.dropWhile_eq_nil_iff.mpr hdigits]
    simp [Numeral.decimal, h.2.2, readExponent?]

theorem Numeral.startsWithNumeral_chars {n : Numeral} (h : n.isValid = true) (rest : List Char) :
    startsWithNumeral (n.chars ++ rest) = true := by
  obtain ⟨whole, fraction⟩ := n
  unfold Numeral.isValid at h
  cases whole with
  | nil =>
    cases fraction with
    | none => exact absurd h (by simp)
    | some fraction =>
      cases fraction with
      | nil => exact absurd h (by simp)
      | cons c cs =>
        simp only [List.all_cons, Bool.and_eq_true] at h
        exact h.2.1.1
  | cons c cs =>
    simp only [List.all_cons, Bool.and_eq_true] at h
    have hpoint : c ≠ '.' := by
      rintro rfl
      exact absurd h.1.1 (by decide)
    cases fraction <;> simp [Numeral.chars, startsWithNumeral, startsWithDigit, hpoint, h.1.1]

/-- A numeral starts with a digit or a point. -/
theorem isDigit_or_point_of_startsWithNumeral {c : Char} {cs : List Char}
    (h : startsWithNumeral (c :: cs) = true) : c.isDigit = true ∨ c = '.' := by
  unfold startsWithNumeral at h
  split at h
  · rename_i heq
    exact .inr (List.cons.inj heq).1
  · exact .inl h

theorem Numeral.exists_chars {n : Numeral} (h : n.isValid = true) :
    ∃ c cs, n.chars = c :: cs ∧ (c.isDigit = true ∨ c = '.') := by
  have hstart := Numeral.startsWithNumeral_chars h []
  rw [List.append_nil] at hstart
  cases hn : n.chars with
  | nil => rw [hn] at hstart; exact absurd hstart (by decide)
  | cons c cs =>
    rw [hn] at hstart
    exact ⟨c, cs, rfl, isDigit_or_point_of_startsWithNumeral hstart⟩

/-- The text of a numeral reads as its value. -/
theorem Numeral.read?_chars {n : Numeral} (h : n.isValid = true) :
    Double.read? (String.ofList n.chars) = some n.value := by
  have hread := Numeral.decimal_read? h
  obtain ⟨c, cs, hcs, hstart⟩ := Numeral.exists_chars h
  rw [hcs] at hread ⊢
  have hne : c ≠ '-' ∧ c ≠ 'i' ∧ c ≠ 'n' := by
    rcases hstart with hdigit | rfl
    · refine ⟨?_, ?_, ?_⟩ <;> rintro rfl <;> exact absurd hdigit (by decide)
    · decide
  simp [Double.read?, Double.readUnsigned?, hne, hread, Numeral.value]

end NumScript
