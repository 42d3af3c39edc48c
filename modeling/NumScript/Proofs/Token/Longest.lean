import NumScript.Proofs.Token.Spaced

/-!
# NumScript.Proofs.Token.Longest

The reader of single lexemes against the lexemes there are. `Lexeme.IsLongestAt` says that a text
starts with a lexeme and with no longer one; it does not mention the reader. What the reader takes
is the longest lexeme (`readLexeme_isLongestAt`), and it reports an unexpected character where no
lexeme starts at all (`not_isPrefix_of_unexpected`). Only at a numeral with a point and no digit
behind it there is a lexeme which it refuses (`exists_of_danglingPoint`).

What decides is the first character: it belongs to a numeral, to a word or to a symbol.
-/

namespace NumScript

/-- The text starts with the lexeme, and with no longer one. -/
structure Lexeme.IsLongestAt (l : Lexeme) (cs : List Char) : Prop where
  isValid : l.isValid = true
  starts : l.text.toList <+: cs
  longest : ∀ l' : Lexeme, l'.isValid = true → l'.text.toList <+: cs →
    l'.text.length ≤ l.text.length

/-! ### Lexemes and their texts -/

theorem breaks_nil : Breaks [] := by
  intro c hc
  cases hc

/-- A lexeme has characters, and the first one is no separator. -/
theorem Lexeme.exists_text_eq_cons {l : Lexeme} (h : l.isValid = true) :
    ∃ c cs, l.text.toList = c :: cs ∧ isSeparator c = false := by
  obtain ⟨c, cs, htext, -, hsep, -⟩ := l.readLexeme_text h breaks_nil
  exact ⟨c, cs, htext, hsep⟩

/-- Lexemes are told apart by their texts. -/
theorem Lexeme.eq_of_text_eq {l l' : Lexeme} (h : l.isValid = true) (h' : l'.isValid = true)
    (htext : l.text = l'.text) : l = l' := by
  obtain ⟨c, cs, hchars, hread, -⟩ := l.readLexeme_text h breaks_nil
  obtain ⟨c', cs', hchars', hread', -⟩ := l'.readLexeme_text h' breaks_nil
  rw [htext, hchars'] at hchars
  obtain ⟨rfl, rfl⟩ := List.cons.inj hchars
  rw [hread] at hread'
  exact (Prod.mk.inj (Except.ok.inj hread')).1

/-- There is one longest lexeme at most. -/
theorem Lexeme.IsLongestAt.unique {l l' : Lexeme} {cs : List Char} (h : l.IsLongestAt cs)
    (h' : l'.IsLongestAt cs) : l = l' := by
  have hlength : l.text.toList.length = l'.text.toList.length := by
    rw [String.length_toList, String.length_toList]
    exact Nat.le_antisymm (h'.longest l h.isValid h.starts) (h.longest l' h'.isValid h'.starts)
  have hstarts := List.prefix_of_prefix_length_le h.starts h'.starts (Nat.le_of_eq hlength)
  exact Lexeme.eq_of_text_eq h.isValid h'.isValid
    (String.toList_inj.mp (hstarts.eq_of_length hlength))

/-- The first character of a word, an identifier or a keyword, and the others. -/
theorem exists_of_isIdentifier {name : String} (h : isIdentifier name = true) :
    ∃ c cs, name.toList = c :: cs ∧ isWordStart c = true ∧ cs.all isWordChar = true := by
  unfold isIdentifier at h
  split at h
  · cases h
  · rename_i c cs hname
    simp only [Bool.and_eq_true] at h
    exact ⟨c, cs, hname, h.1.1, h.1.2⟩

/-- What a lexeme is, by its first character. -/
theorem Lexeme.cases_of_isValid {l : Lexeme} (h : l.isValid = true) :
    (∃ n, l = .number n ∧ n.isValid = true) ∨
    (∃ c cs, l.text.toList = c :: cs ∧ isWordStart c = true ∧ cs.all isWordChar = true) ∨
    ∃ s, l = .symbol s := by
  cases l with
  | number n => exact .inl ⟨n, rfl, h⟩
  | ident name => exact .inr (.inl (exists_of_isIdentifier h))
  | keyword k => exact .inr (.inl k.exists_toList)
  | symbol s => exact .inr (.inr ⟨s, rfl⟩)

/-! ### Prefixes -/

theorem length_le_of_isPrefix {p : Char → Bool} {w cs : List Char} (hw : w.all p = true)
    (h : w <+: cs) : w.length ≤ (cs.takeWhile p).length := by
  obtain ⟨rest, rfl⟩ := h
  rw [List.takeWhile_append_of_pos (List.all_eq_true.mp hw), List.length_append]
  exact Nat.le_add_right _ _

/-- A numeral at the start of a text has all the digits there before its point, if it has one. -/
theorem Numeral.of_isPrefix {n : Numeral} {cs : List Char} (hn : n.isValid = true)
    (h : n.chars <+: cs) :
    (n.fraction = none ∧ n.whole.length ≤ (cs.takeWhile Char.isDigit).length) ∨
    ∃ fraction rest, n.fraction = some fraction ∧ n.whole = cs.takeWhile Char.isDigit ∧
      cs.dropWhile Char.isDigit = '.' :: rest ∧ startsWithDigit rest = true ∧
      fraction.length ≤ (rest.takeWhile Char.isDigit).length := by
  obtain ⟨whole, fraction⟩ := n
  unfold Numeral.isValid at hn
  cases fraction with
  | none =>
    simp only [Bool.and_eq_true] at hn
    exact .inl ⟨rfl, length_le_of_isPrefix hn.1 h⟩
  | some fraction =>
    simp only [Bool.and_eq_true, Bool.not_eq_true'] at hn
    obtain ⟨hwhole, hfraction, hne⟩ := hn
    obtain ⟨rest, rfl⟩ := h
    have hstop : ∀ c ∈ ('.' :: (fraction ++ rest)).head?, c.isDigit = false := by simp
    rw [Numeral.chars, List.append_assoc, List.cons_append]
    refine .inr ⟨fraction, fraction ++ rest, rfl, (takeWhile_append_stop hwhole hstop).symm,
      dropWhile_append_stop hwhole hstop, ?_,
      length_le_of_isPrefix hfraction (List.prefix_append _ _)⟩
    cases fraction with
    | nil => exact absurd hne (by simp)
    | cons d ds => exact List.all_eq_true.mp hfraction d List.mem_cons_self

/-- Three symbols are others if a sign of equality follows. -/
theorem readSymbol?_single {rest : List Char} (h : rest.head? ≠ some '=') :
    readSymbol? ('<' :: rest) = some (.op .lt, rest) ∧
    readSymbol? ('>' :: rest) = some (.op .gt, rest) ∧
    readSymbol? ('=' :: rest) = some (.assign, rest) := by
  cases rest with
  | nil => exact ⟨rfl, rfl, rfl⟩
  | cons d rest =>
    have hd : d ≠ '=' := by simpa using h
    simp [readSymbol?, hd]

/-- Where a symbol starts, one that is at least as long is read. -/
theorem readSymbol?_of_isPrefix (s : Symbol) {cs : List Char} (h : s.text.toList <+: cs) :
    ∃ s' rest, readSymbol? cs = some (s', rest) ∧ s.text.length ≤ s'.text.length := by
  obtain ⟨rest, rfl⟩ := h
  by_cases hequals : rest.head? = some '='
  · obtain ⟨more, rfl⟩ := List.head?_eq_some_iff.mp hequals
    cases s with
    | op o => cases o <;> exact ⟨_, _, rfl, by decide⟩
    | _ => exact ⟨_, _, rfl, by decide⟩
  · obtain ⟨hlt, hgt, hassign⟩ := readSymbol?_single hequals
    cases s with
    | op o =>
      cases o with
      | lt => exact ⟨_, _, hlt, Nat.le_refl _⟩
      | gt => exact ⟨_, _, hgt, Nat.le_refl _⟩
      | _ => exact ⟨_, _, rfl, Nat.le_refl _⟩
    | assign => exact ⟨_, _, hassign, Nat.le_refl _⟩
    | _ => exact ⟨_, _, rfl, Nat.le_refl _⟩

/-! ### Lexemes by their first character -/

theorem Symbol.exists_head (s : Symbol) : ∃ c cs, s.text.toList = c :: cs ∧
    c.isDigit = false ∧ c ≠ '.' ∧ isWordStart c = false := by
  cases s with
  | op o => cases o <;> exact ⟨_, _, rfl, by decide, by decide, by decide⟩
  | _ => exact ⟨_, _, rfl, by decide, by decide, by decide⟩

/-- Where a numeral starts, only numerals start. -/
theorem Lexeme.eq_number_of_isPrefix {l : Lexeme} {c : Char} {cs : List Char}
    (hl : l.isValid = true) (h : l.text.toList <+: c :: cs)
    (hc : startsWithNumeral (c :: cs) = true) :
    ∃ n, l = .number n ∧ n.isValid = true ∧ n.chars <+: c :: cs := by
  have hfirst := isDigit_or_point_of_startsWithNumeral hc
  rcases Lexeme.cases_of_isValid hl with ⟨n, rfl, hn⟩ | ⟨d, ds, htext, hd, -⟩ | ⟨s, rfl⟩
  · rw [Lexeme.text, String.toList_ofList] at h
    exact ⟨n, rfl, hn, h⟩
  · rw [htext] at h
    obtain ⟨rfl, -⟩ := List.cons_prefix_cons.mp h
    rcases hfirst with hdigit | rfl
    · rw [isDigit_of_isWordStart hd] at hdigit
      cases hdigit
    · exact absurd hd (by decide)
  · obtain ⟨d, ds, htext, hdigit, hpoint, -⟩ := s.exists_head
    rw [Lexeme.text, htext] at h
    obtain ⟨rfl, -⟩ := List.cons_prefix_cons.mp h
    rcases hfirst with hfirst | hfirst
    · rw [hdigit] at hfirst
      cases hfirst
    · exact absurd hfirst hpoint

/-- Where a word starts, only words start. -/
theorem Lexeme.isWord_of_isPrefix {l : Lexeme} {c : Char} {cs : List Char}
    (hl : l.isValid = true) (h : l.text.toList <+: c :: cs) (hc : isWordStart c = true) :
    ∃ ds, l.text.toList = c :: ds ∧ ds.all isWordChar = true ∧ ds <+: cs := by
  rcases Lexeme.cases_of_isValid hl with ⟨n, rfl, hn⟩ | ⟨d, ds, htext, -, hds⟩ | ⟨s, rfl⟩
  · rw [Lexeme.text, String.toList_ofList] at h
    obtain ⟨d, ds, hchars, hfirst⟩ := Numeral.exists_chars hn
    rw [hchars] at h
    obtain ⟨rfl, -⟩ := List.cons_prefix_cons.mp h
    rcases hfirst with hdigit | rfl
    · rw [isDigit_of_isWordStart hc] at hdigit
      cases hdigit
    · exact absurd hc (by decide)
  · rw [htext] at h
    obtain ⟨rfl, hstarts⟩ := List.cons_prefix_cons.mp h
    exact ⟨ds, htext, hds, hstarts⟩
  · obtain ⟨d, ds, htext, -, -, hd⟩ := s.exists_head
    rw [Lexeme.text, htext] at h
    obtain ⟨rfl, -⟩ := List.cons_prefix_cons.mp h
    rw [hd] at hc
    cases hc

/-- Elsewhere only symbols start. -/
theorem Lexeme.eq_symbol_of_isPrefix {l : Lexeme} {c : Char} {cs : List Char}
    (hl : l.isValid = true) (h : l.text.toList <+: c :: cs)
    (hnumeral : startsWithNumeral (c :: cs) = false) (hword : isWordStart c = false) :
    ∃ s, l = .symbol s := by
  rcases Lexeme.cases_of_isValid hl with ⟨n, rfl, hn⟩ | ⟨d, ds, htext, hd, -⟩ | ⟨s, rfl⟩
  · rw [Lexeme.text, String.toList_ofList] at h
    obtain ⟨rest, hrest⟩ := h
    have hstart := Numeral.startsWithNumeral_chars hn rest
    rw [hrest, hnumeral] at hstart
    cases hstart
  · rw [htext] at h
    obtain ⟨rfl, -⟩ := List.cons_prefix_cons.mp h
    rw [hd] at hword
    cases hword
  · exact ⟨s, rfl⟩

/-! ### The reader -/

/-- The numeral that is read is the longest one. -/
theorem readNumeral_longest {cs rest : List Char} {n n' : Numeral}
    (h : readNumeral cs = .ok (n, rest)) (hn' : n'.isValid = true) (hstarts : n'.chars <+: cs) :
    n'.chars.length ≤ n.chars.length := by
  have hparts := Numeral.of_isPrefix hn' hstarts
  obtain ⟨whole', fraction'⟩ := n'
  unfold readNumeral readFraction at h
  split at h
  · rename_i more hpoint
    split at h
    · obtain ⟨rfl, -⟩ := Prod.mk.inj (Except.ok.inj h)
      rcases hparts with ⟨hnone, hle⟩ | ⟨fraction, rest', hsome, hwhole, hdrop, -, hle⟩
      · cases hnone
        simp only [Numeral.chars, List.length_append]
        exact Nat.le_add_right_of_le hle
      · cases hsome
        cases hwhole
        rw [hpoint] at hdrop
        obtain ⟨-, rfl⟩ := List.cons.inj hdrop
        simp only [Numeral.chars, List.length_append, List.length_cons]
        omega
    · cases h
  · rename_i hpoint
    obtain ⟨rfl, -⟩ := Prod.mk.inj (Except.ok.inj h)
    rcases hparts with ⟨hnone, hle⟩ | ⟨fraction, rest', -, -, hdrop, -, -⟩
    · cases hnone
      exact hle
    · exact absurd hdrop (hpoint rest')

/-- A lexeme that is read is the longest one. -/
theorem readLexeme_isLongestAt {c : Char} {cs rest : List Char} {l : Lexeme}
    (h : readLexeme c cs = .ok (l, rest)) : l.IsLongestAt (c :: cs) := by
  obtain ⟨hvalid, htext⟩ := readLexeme_eq_ok h
  refine ⟨hvalid, ⟨rest, htext.symm⟩, ?_⟩
  intro l' hl' hstarts
  rw [← String.length_toList, ← String.length_toList]
  unfold readLexeme at h
  split at h
  · rename_i hstart
    obtain ⟨n', rfl, hn', hchars⟩ := Lexeme.eq_number_of_isPrefix hl' hstarts hstart
    cases hread : readNumeral (c :: cs) with
    | error cause => rw [hread] at h; cases h
    | ok read =>
      rw [hread] at h
      cases h
      rw [Lexeme.text, Lexeme.text, String.toList_ofList, String.toList_ofList]
      exact readNumeral_longest hread hn' hchars
  · rename_i hnumeral
    split at h
    · rename_i hword
      obtain ⟨ds, hds, hall, hds'⟩ := Lexeme.isWord_of_isPrefix hl' hstarts hword
      cases h
      rw [wordLexeme_text, String.toList_ofList, hds]
      exact Nat.succ_le_succ (length_le_of_isPrefix hall hds')
    · rename_i hword
      obtain ⟨s', rfl⟩ := Lexeme.eq_symbol_of_isPrefix hl' hstarts
        (Bool.eq_false_iff.mpr hnumeral) (Bool.eq_false_iff.mpr hword)
      obtain ⟨s, more, hread, hle⟩ := readSymbol?_of_isPrefix s' hstarts
      rw [hread] at h
      cases h
      rw [String.length_toList, String.length_toList]
      exact hle

/-- A numeral is refused for one reason only. -/
theorem readNumeral_eq_error {cs : List Char} {cause : LexCause}
    (h : readNumeral cs = .error cause) :
    cause = .danglingPoint ∧ ∃ rest, cs.dropWhile Char.isDigit = '.' :: rest ∧
      startsWithDigit rest = false := by
  unfold readNumeral readFraction at h
  split at h
  · rename_i rest hpoint
    split at h
    · cases h
    · rename_i hdigit
      cases h
      exact ⟨rfl, rest, hpoint, Bool.eq_false_iff.mpr hdigit⟩
  · cases h

/-- Where the reader reports an unexpected character, no lexeme starts. -/
theorem not_isPrefix_of_unexpected {c d : Char} {cs : List Char}
    (h : readLexeme c cs = .error (.unexpected d)) :
    d = c ∧ ∀ l : Lexeme, l.isValid = true → ¬ l.text.toList <+: c :: cs := by
  unfold readLexeme at h
  split at h
  · cases hread : readNumeral (c :: cs) with
    | error cause =>
      obtain ⟨rfl, -⟩ := readNumeral_eq_error hread
      rw [hread] at h
      cases h
    | ok read => rw [hread] at h; cases h
  · rename_i hnumeral
    split at h
    · cases h
    · rename_i hword
      split at h
      · cases h
      · rename_i hnone
        cases h
        refine ⟨rfl, ?_⟩
        intro l hl hstarts
        obtain ⟨s, rfl⟩ := Lexeme.eq_symbol_of_isPrefix hl hstarts
          (Bool.eq_false_iff.mpr hnumeral) (Bool.eq_false_iff.mpr hword)
        obtain ⟨s', rest, hread, -⟩ := readSymbol?_of_isPrefix s hstarts
        rw [hnone] at hread
        cases hread

theorem readLexeme_eq_danglingPoint {c : Char} {cs : List Char}
    (h : readLexeme c cs = .error .danglingPoint) :
    startsWithNumeral (c :: cs) = true ∧ readNumeral (c :: cs) = .error .danglingPoint := by
  unfold readLexeme at h
  split at h
  · rename_i hstart
    cases hread : readNumeral (c :: cs) with
    | ok read => rw [hread] at h; cases h
    | error cause => exact ⟨hstart, by rw [(readNumeral_eq_error hread).1]⟩
  · split at h
    · cases h
    · split at h <;> cases h

/-- Where the reader reports a point without digits, there are digits before it, and they are the
longest lexeme. -/
theorem exists_of_danglingPoint {c : Char} {cs : List Char}
    (h : readLexeme c cs = .error .danglingPoint) :
    ∃ digits rest, c :: cs = digits ++ '.' :: rest ∧ digits.all Char.isDigit = true ∧
      startsWithDigit rest = false ∧ (Lexeme.number ⟨digits, none⟩).IsLongestAt (c :: cs) := by
  obtain ⟨hstart, hread⟩ := readLexeme_eq_danglingPoint h
  obtain ⟨-, rest, hpoint, hdigit⟩ := readNumeral_eq_error hread
  have hsplit := List.takeWhile_append_dropWhile (p := Char.isDigit) (l := c :: cs)
  rw [hpoint] at hsplit
  have hdigits : ((c :: cs).takeWhile Char.isDigit).all Char.isDigit = true := List.all_takeWhile
  have hne : ((c :: cs).takeWhile Char.isDigit).isEmpty = false := by
    refine List.isEmpty_eq_false_iff.mpr fun hnil => ?_
    -- a numeral without digits before its point has them behind it
    rw [hnil, List.nil_append] at hsplit
    rw [← hsplit] at hstart
    exact absurd (hdigit.symm.trans hstart) (by decide)
  refine ⟨_, rest, hsplit.symm, hdigits, hdigit, ?_, ?_, ?_⟩
  · simp only [Lexeme.isValid, Numeral.isValid, hdigits, hne]
    rfl
  · rw [Lexeme.text, Numeral.chars, String.toList_ofList]
    exact List.takeWhile_prefix _
  · intro l' hl' hstarts
    obtain ⟨n', rfl, hn', hchars⟩ := Lexeme.eq_number_of_isPrefix hl' hstarts hstart
    rw [← String.length_toList, ← String.length_toList, Lexeme.text, Lexeme.text,
      String.toList_ofList, String.toList_ofList]
    have hparts := Numeral.of_isPrefix hn' hchars
    obtain ⟨whole', fraction'⟩ := n'
    rcases hparts with ⟨hnone, hle⟩ | ⟨fraction, rest', -, -, hdrop, hdigit', -⟩
    · cases hnone
      exact hle
    · rw [hpoint] at hdrop
      obtain ⟨-, rfl⟩ := List.cons.inj hdrop
      exact absurd (hdigit.symm.trans hdigit') (by decide)

/-- Behind digits that are read there is no point. -/
theorem head?_ne_point_of_readLexeme {c : Char} {cs rest : List Char} {l : Lexeme}
    (h : readLexeme c cs = .ok (l, rest)) (hl : l.text.toList.all Char.isDigit = true) :
    rest.head? ≠ some '.' := by
  obtain ⟨hvalid, htext⟩ := readLexeme_eq_ok h
  have hfirst : c.isDigit = true := by
    obtain ⟨d, ds, hchars, -⟩ := Lexeme.exists_text_eq_cons hvalid
    rw [hchars] at htext hl
    obtain ⟨rfl, -⟩ := List.cons.inj htext
    exact List.all_eq_true.mp hl c List.mem_cons_self
  have hstart : startsWithNumeral (c :: cs) = true := by
    unfold startsWithNumeral
    split
    · rename_i heq
      obtain ⟨rfl, -⟩ := List.cons.inj heq
      exact absurd hfirst (by decide)
    · exact hfirst
  rw [readLexeme, if_pos hstart] at h
  cases hread : readNumeral (c :: cs) with
  | error cause => rw [hread] at h; cases h
  | ok read =>
    rw [hread] at h
    cases h
    unfold readNumeral readFraction at hread
    split at hread
    · -- a point that was read is no digit
      split at hread
      · cases hread
        rw [Lexeme.text, String.toList_ofList, Numeral.chars] at hl
        exact absurd (List.all_eq_true.mp hl '.' (by simp)) (by decide)
      · cases hread
    · rename_i hpoint
      cases hread
      intro hhead
      obtain ⟨more, hmore⟩ := List.head?_eq_some_iff.mp hhead
      exact hpoint more hmore

end NumScript
