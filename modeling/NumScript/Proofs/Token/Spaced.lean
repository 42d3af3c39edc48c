import NumScript.Proofs.Flat.Words
import NumScript.Proofs.Token.Shape

/-!
# NumScript.Proofs.Token.Spaced

Lexemes written out with gaps between them. A gap starts with a blank or a line end, and goes on
with blanks, line ends and comments. A lexeme cannot go on into a gap, so it is read as it was
written (`Lexeme.lexFrom_text`), a gap is read as nothing (`Filler.lexFrom_append`), and what is
spaced out in this way lexes to the lexemes it was made from (`Spaced.exists_lexFrom`).
-/

namespace NumScript

/-! ### Gaps -/

/-- Whether a character separates lexemes. -/
def isSeparator (c : Char) : Bool := isBlank c || c == '\n'

/-- Blanks, line ends, and comments that end with their line. -/
inductive Filler : List Char → Prop
  | nil : Filler []
  | separator {c : Char} {cs : List Char} (hc : isSeparator c = true) (h : Filler cs) :
      Filler (c :: cs)
  | comment {note cs : List Char} (hnote : '\n' ∉ note) (h : Filler cs) :
      Filler ('-' :: '-' :: (note ++ '\n' :: cs))

/-- Lexemes written out with gaps between them. -/
inductive Spaced : List Lexeme → List Char → Prop
  | nil : Spaced [] []
  | last (l : Lexeme) : Spaced [l] l.text.toList
  | cons (l : Lexeme) {ls : List Lexeme} {c : Char} {gap cs : List Char}
      (hc : isSeparator c = true) (hgap : Filler gap) (h : Spaced ls cs) :
      Spaced (l :: ls) (l.text.toList ++ c :: (gap ++ cs))

/-- The text can stand between lexemes: it starts with a blank or a line end, and goes on with
blanks, line ends and comments that end with their line. -/
def IsGap (gap : String) : Prop :=
  ∃ c cs, gap.toList = c :: cs ∧ isSeparator c = true ∧ Filler cs

theorem isGap_space : IsGap " " := ⟨' ', [], rfl, rfl, .nil⟩

/-- The lexemes as one text, with `gap n` behind the lexeme at the index `n`, except for the last
one. -/
def joinedWith (gap : Nat → String) : List Lexeme → String
  | [] => ""
  | [l] => l.text
  | l :: l' :: ls => l.text ++ gap 0 ++ joinedWith (fun n => gap (n + 1)) (l' :: ls)

theorem spaced_joined {gap : Nat → String} (hgap : ∀ n, IsGap (gap n)) (ls : List Lexeme) :
    Spaced ls (joinedWith gap ls).toList := by
  induction ls generalizing gap with
  | nil => exact .nil
  | cons l ls ih =>
    cases ls with
    | nil => exact .last l
    | cons l' ls =>
      obtain ⟨c, cs, hchars, hc, hcs⟩ := hgap 0
      have hrest : Spaced (l' :: ls) (joinedWith (fun n => gap (n + 1)) (l' :: ls)).toList :=
        ih fun n => hgap (n + 1)
      rw [joinedWith, String.toList_append, String.toList_append, hchars, List.append_assoc]
      exact .cons l hc hcs hrest

/-- The text ends here, or goes on with a separator. -/
def Breaks (cs : List Char) : Prop := ∀ c ∈ cs.head?, isSeparator c = true

theorem isSeparator_cases {c : Char} (h : isSeparator c = true) :
    c = ' ' ∨ c = '\t' ∨ c = '\r' ∨ c = '\n' := by
  simpa [isSeparator, isBlank, or_assoc] using h

/-- What a separator is not. -/
theorem Breaks.head_eq_false {p : Char → Bool} {cs : List Char} (h : Breaks cs)
    (hp : p ' ' = false ∧ p '\t' = false ∧ p '\r' = false ∧ p '\n' = false) :
    ∀ c ∈ cs.head?, p c = false := by
  intro c hc
  rcases isSeparator_cases (h c hc) with rfl | rfl | rfl | rfl
  · exact hp.1
  · exact hp.2.1
  · exact hp.2.2.1
  · exact hp.2.2.2

/-! ### Gaps are read as nothing -/

theorem lexFrom_separator {c : Char} (hc : isSeparator c = true) (p : Pos) (cs : List Char) :
    ∃ q, lexFrom p (c :: cs) = lexFrom q cs := by
  rcases isSeparator_cases hc with rfl | rfl | rfl | rfl
  · exact ⟨p.advance 1, by rw [lexFrom] <;> simp [isBlank]⟩
  · exact ⟨p.advance 1, by rw [lexFrom] <;> simp [isBlank]⟩
  · exact ⟨p.advance 1, by rw [lexFrom] <;> simp [isBlank]⟩
  · exact ⟨p.nextLine, by rw [lexFrom]⟩

theorem Filler.lexFrom_append {gap : List Char} (h : Filler gap) (p : Pos) (cs : List Char) :
    ∃ q, lexFrom p (gap ++ cs) = lexFrom q cs := by
  induction h generalizing p with
  | nil => exact ⟨p, rfl⟩
  | @separator c gap hc _ ih =>
    obtain ⟨q, hq⟩ := lexFrom_separator hc p (gap ++ cs)
    obtain ⟨r, hr⟩ := ih q
    exact ⟨r, hq.trans hr⟩
  | @comment note gap hnote _ ih =>
    -- the comment is dropped up to its line end, which starts the next line
    obtain ⟨q, hq⟩ := ih p.nextLine
    have hall : note.all (· != '\n') = true := by
      simp only [List.all_eq_true, bne_iff_ne]
      rintro c hc rfl
      exact hnote hc
    have hdrop : (note ++ '\n' :: (gap ++ cs)).dropWhile (· != '\n') = '\n' :: (gap ++ cs) :=
      dropWhile_append_stop hall (by simp)
    refine ⟨q, ?_⟩
    simp only [List.cons_append, List.append_assoc]
    rw [lexFrom, hdrop, lexFrom, hq]

/-! ### Lexemes are read as they were written -/

theorem readFraction_of_breaks (whole : List Char) {rest : List Char} (hrest : Breaks rest) :
    readFraction whole rest = .ok (⟨whole, none⟩, rest) := by
  unfold readFraction
  split
  · exact absurd (hrest '.' rfl) (by decide)
  · rfl

theorem readNumeral_chars {n : Numeral} (h : n.isValid = true) {rest : List Char}
    (hrest : Breaks rest) : readNumeral (n.chars ++ rest) = .ok (n, rest) := by
  have hdigit : ∀ c ∈ rest.head?, c.isDigit = false := hrest.head_eq_false (by decide)
  obtain ⟨whole, fraction⟩ := n
  unfold Numeral.isValid at h
  unfold readNumeral
  cases fraction with
  | none =>
    simp only [Bool.and_eq_true] at h
    rw [Numeral.chars, takeWhile_append_stop h.1 hdigit, dropWhile_append_stop h.1 hdigit]
    exact readFraction_of_breaks whole hrest
  | some fraction =>
    simp only [Bool.and_eq_true, Bool.not_eq_true'] at h
    have hpoint : ∀ c ∈ ('.' :: (fraction ++ rest)).head?, c.isDigit = false := by simp
    have hstart : startsWithDigit (fraction ++ rest) = true := by
      cases fraction with
      | nil => exact absurd h.2.2 (by simp)
      | cons c cs => exact List.all_eq_true.mp h.2.1 c List.mem_cons_self
    rw [Numeral.chars, List.append_assoc, List.cons_append, takeWhile_append_stop h.1 hpoint,
      dropWhile_append_stop h.1 hpoint, readFraction, if_pos hstart,
      takeWhile_append_stop h.2.1 hdigit, dropWhile_append_stop h.2.1 hdigit]

theorem readSymbol?_append (s : Symbol) {rest : List Char} (hrest : Breaks rest) :
    readSymbol? (s.text.toList ++ rest) = some (s, rest) := by
  cases rest with
  | nil =>
    cases s with
    | op o => cases o <;> rfl
    | _ => rfl
  | cons c rest =>
    -- no separator makes a symbol of one character one of two
    rcases isSeparator_cases (hrest c rfl) with rfl | rfl | rfl | rfl
    all_goals
      cases s with
      | op o => cases o <;> rfl
      | _ => rfl

/-- Letters come after the digits. -/
theorem nine_lt_of_isAlpha {c : Char} (h : c.isAlpha = true) : '9'.toNat < c.toNat := by
  rcases (Bool.or_eq_true _ _).mp h with hupper | hlower
  · obtain ⟨hge, -⟩ := of_decide_eq_true hupper
    exact Nat.lt_of_lt_of_le (by decide : '9'.toNat < 'A'.toNat) hge
  · obtain ⟨hge, -⟩ := (Bool.and_eq_true _ _).mp hlower
    exact Nat.lt_of_lt_of_le (by decide : '9'.toNat < 'a'.toNat) (of_decide_eq_true hge)

/-- No word starts with a digit. -/
theorem isDigit_of_isWordStart {c : Char} (h : isWordStart c = true) : c.isDigit = false := by
  rcases (Bool.or_eq_true _ _).mp h with halpha | hunderscore
  · refine Bool.eq_false_iff.mpr fun hdigit => ?_
    have hle := (Char.isDigit_iff_toNat.mp hdigit).2
    exact absurd hle (Nat.not_le_of_lt (nine_lt_of_isAlpha halpha))
  · obtain rfl := beq_iff_eq.mp hunderscore
    rfl

theorem isSeparator_of_isWordStart {c : Char} (h : isWordStart c = true) :
    isSeparator c = false := by
  refine Bool.eq_false_iff.mpr fun hsep => ?_
  rcases isSeparator_cases hsep with rfl | rfl | rfl | rfl <;> exact absurd h (by decide)

theorem readLexeme_word {c : Char} {cs rest : List Char} (hc : isWordStart c = true)
    (hcs : cs.all isWordChar = true) (hrest : Breaks rest) :
    readLexeme c (cs ++ rest) = .ok (wordLexeme (String.ofList (c :: cs)), rest) := by
  have hnumeral : ¬ startsWithNumeral (c :: (cs ++ rest)) = true := by
    intro h
    rcases isDigit_or_point_of_startsWithNumeral h with hdigit | rfl
    · exact absurd hdigit (by simp [isDigit_of_isWordStart hc])
    · exact absurd hc (by decide)
  have hword : ∀ c ∈ rest.head?, isWordChar c = false := hrest.head_eq_false (by decide)
  rw [readLexeme, if_neg hnumeral, if_pos hc, takeWhile_append_stop hcs hword,
    dropWhile_append_stop hcs hword]

theorem Keyword.exists_toList (k : Keyword) :
    ∃ c cs, k.text.toList = c :: cs ∧ isWordStart c = true ∧ cs.all isWordChar = true := by
  cases k <;> exact ⟨_, _, rfl, by decide, by decide⟩

theorem Symbol.exists_toList (s : Symbol) (rest : List Char) :
    ∃ c cs, s.text.toList = c :: cs ∧ startsWithNumeral (c :: (cs ++ rest)) = false ∧
      isWordStart c = false ∧ isSeparator c = false ∧ (c = '-' → cs = []) := by
  cases s with
  | op o => cases o <;> exact ⟨_, _, rfl, rfl, by decide, by decide, by decide⟩
  | _ => exact ⟨_, _, rfl, rfl, by decide, by decide, by decide⟩

/-- The characters of a lexeme, with a break behind them, are read as it. They start with no
separator, and with a minus only if that is all. -/
theorem Lexeme.readLexeme_text {l : Lexeme} (h : l.isValid = true) {rest : List Char}
    (hrest : Breaks rest) :
    ∃ c cs, l.text.toList = c :: cs ∧ readLexeme c (cs ++ rest) = .ok (l, rest) ∧
      isSeparator c = false ∧ (c = '-' → cs = []) := by
  -- a word starts with neither, whether it is an identifier or a keyword
  have hstart : ∀ c, isWordStart c = true → isSeparator c = false ∧ c ≠ '-' := by
    intro c hc
    refine ⟨isSeparator_of_isWordStart hc, ?_⟩
    rintro rfl
    exact absurd hc (by decide)
  cases l with
  | number n =>
    have hnumeral := Numeral.startsWithNumeral_chars h rest
    have hread := readNumeral_chars h hrest
    obtain ⟨c, cs, hn, hfirst⟩ := Numeral.exists_chars h
    rw [hn, List.cons_append] at hread hnumeral
    have htext : (Lexeme.number n).text.toList = c :: cs := String.toList_ofList.trans hn
    refine ⟨c, cs, htext, by rw [readLexeme, if_pos hnumeral, hread]; rfl, ?_, ?_⟩
    · refine Bool.eq_false_iff.mpr fun hsep => ?_
      rcases isSeparator_cases hsep with rfl | rfl | rfl | rfl <;> revert hfirst <;> decide
    · rintro rfl
      exact absurd hfirst (by decide)
  | ident name =>
    have hvalid : isIdentifier name = true := h
    unfold isIdentifier at hvalid
    cases hname : name.toList with
    | nil => rw [hname] at hvalid; exact absurd hvalid (by simp)
    | cons c cs =>
      rw [hname] at hvalid
      simp only [Bool.and_eq_true, Option.isNone_iff_eq_none] at hvalid
      obtain ⟨⟨hc, hcs⟩, hkeyword⟩ := hvalid
      have hread := readLexeme_word hc hcs hrest
      rw [← hname, String.ofList_toList, wordLexeme, hkeyword] at hread
      exact ⟨c, cs, hname, hread, (hstart c hc).1, fun h => absurd h (hstart c hc).2⟩
  | keyword k =>
    obtain ⟨c, cs, hk, hc, hcs⟩ := k.exists_toList
    have hread := readLexeme_word hc hcs hrest
    rw [← hk, String.ofList_toList, wordLexeme, Keyword.ofText?_text] at hread
    exact ⟨c, cs, hk, hread, (hstart c hc).1, fun h => absurd h (hstart c hc).2⟩
  | symbol s =>
    obtain ⟨c, cs, hs, hnumeral, hword, hsep, hminus⟩ := s.exists_toList rest
    have hread := readSymbol?_append s hrest
    rw [hs, List.cons_append] at hread
    refine ⟨c, cs, hs, ?_, hsep, hminus⟩
    rw [readLexeme, if_neg (by simp [hnumeral]), if_neg (by simp [hword]), hread]

/-- Whether a comment starts here. -/
def startsComment : List Char → Bool
  | '-' :: '-' :: _ => true
  | _ => false

theorem exists_of_startsComment {cs : List Char} (h : startsComment cs = true) :
    ∃ more, cs = '-' :: '-' :: more := by
  unfold startsComment at h
  split at h
  · exact ⟨_, rfl⟩
  · cases h

/-- Where neither a gap nor a comment starts, a lexeme is read. -/
theorem lexFrom_readLexeme {c : Char} {cs : List Char} (hsep : isSeparator c = false)
    (hcomment : startsComment (c :: cs) = false) (p : Pos) :
    lexFrom p (c :: cs) =
      match readLexeme c cs with
      | .error cause => .error ⟨cause, p⟩
      | .ok (l, rest) => (lexFrom (p.advance l.text.length) rest).map (·.cons ⟨l, p⟩) := by
  simp only [isSeparator, Bool.or_eq_false_iff, beq_eq_false_iff_ne] at hsep
  rw [lexFrom.eq_def]
  split
  · rename_i heq
    cases heq
  · rename_i heq
    exact absurd (List.cons.inj heq).1 hsep.2
  · rename_i heq
    rw [heq] at hcomment
    cases hcomment
  · rename_i heq
    obtain ⟨rfl, rfl⟩ := List.cons.inj heq
    rw [if_neg (by simp [hsep.1])]
    split <;> rename_i hread <;> rw [hread]

theorem Lexeme.lexFrom_text {l : Lexeme} (h : l.isValid = true) (p : Pos) {rest : List Char}
    (hrest : Breaks rest) :
    lexFrom p (l.text.toList ++ rest) =
      (lexFrom (p.advance l.text.length) rest).map (·.cons ⟨l, p⟩) := by
  obtain ⟨c, cs, htext, hread, hsep, hminus⟩ := l.readLexeme_text h hrest
  have hcomment : startsComment (c :: (cs ++ rest)) = false := by
    refine Bool.eq_false_iff.mpr fun hcomment => ?_
    -- a minus is all of its lexeme, and what follows it is no minus
    obtain ⟨more, hmore⟩ := exists_of_startsComment hcomment
    obtain ⟨rfl, htail⟩ := List.cons.inj hmore
    rw [hminus rfl, List.nil_append] at htail
    rw [htail] at hrest
    exact absurd (hrest '-' rfl) (by decide)
  rw [htext, List.cons_append, lexFrom_readLexeme hsep hcomment, hread]

/-- What is spaced out lexes to the lexemes it was made from. -/
theorem Spaced.exists_lexFrom {ls : List Lexeme} {cs : List Char} (h : Spaced ls cs)
    (hvalid : ls.all Lexeme.isValid = true) (p : Pos) :
    ∃ stream, lexFrom p cs = .ok stream ∧ words stream.tokens = ls := by
  induction h generalizing p with
  | nil => exact ⟨⟨[], p⟩, by rw [lexFrom], rfl⟩
  | last l =>
    rw [List.all_cons, Bool.and_eq_true] at hvalid
    have hbreak : Breaks [] := by
      intro c hc
      cases hc
    have hlex := Lexeme.lexFrom_text hvalid.1 p hbreak
    rw [List.append_nil] at hlex
    rw [hlex, lexFrom]
    exact ⟨_, rfl, rfl⟩
  | @cons l ls c gap cs hc hgap _ ih =>
    rw [List.all_cons, Bool.and_eq_true] at hvalid
    have hbreak : Breaks (c :: (gap ++ cs)) := by
      intro c' hc'
      exact Option.some.inj hc' ▸ hc
    obtain ⟨q, hq⟩ := lexFrom_separator hc (p.advance l.text.length) (gap ++ cs)
    obtain ⟨r, hr⟩ := hgap.lexFrom_append q cs
    obtain ⟨stream, hstream, rfl⟩ := ih hvalid.2 r
    refine ⟨stream.cons ⟨l, p⟩, ?_, rfl⟩
    rw [Lexeme.lexFrom_text hvalid.1 p hbreak, hq, hr, hstream]
    rfl

end NumScript
