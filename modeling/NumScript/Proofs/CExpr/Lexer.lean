import Mathlib.Data.List.Find
import Mathlib.Data.List.Forall2
import NumScript.Proofs.CExpr.Grammar
import NumScript.Proofs.Codegen.Name
import NumScript.Proofs.Number.ReadBack
import NumScript.Proofs.Token.Spaced

/-!
# NumScript.Proofs.CExpr.Lexer

The tokens of a C expression. At each place the longest token is read: a word, a number with all
that C counts to it, or the longest punctuator. A number has to be a floating constant, and stands
for the value nearest to it.

`Lexes` says which tokens a text is made of wherever it stands before a blank, a comma or a closing
parenthesis. The lemmas on it follow the ways in which the text of an expression is put together.
-/

namespace NumScript

/-! ### The lexer -/

/-- Punctuators that no expression of numbers has; the longer ones first, and the marks of comments
among them. -/
def otherPunctuators : List String :=
  ["%:%:", "...", "<<=", ">>=", "->", "++", "--", "<<", ">>", "&&", "||", "*=", "/=", "%=", "+=",
   "-=", "&=", "^=", "|=", "##", "//", "/*", "<:", ":>", "<%", "%>", "%:"]

/-- Punctuators, the longer ones first. -/
def punctuators : List (String × CToken) :=
  otherPunctuators.map (fun text => (text, .other text)) ++
  [("<=", .op .le), (">=", .op .ge), ("==", .op .eq), ("!=", .op .ne), ("*", .op .mul),
   ("/", .op .div), ("%", .op .mod), ("+", .op .add), ("-", .op .sub), ("<", .op .lt),
   (">", .op .gt), ("(", .lparen), (")", .rparen), (",", .comma)] ++
  ["[", "]", "\x7b", "\x7d", ".", "&", "~", "!", "^", "|", "?", ":", ";", "=", "#"].map
    fun text => (text, .other text)

/-- The punctuator at the start of a text. -/
def punctuator? (cs : List Char) : Option (String × CToken) :=
  punctuators.find? fun p => p.1.toList.isPrefixOf cs

/-- What C counts to a number behind its first character: letters, digits, underscores, points, and
a sign behind the mark of an exponent. -/
def numberTail (behindMark : Bool) : List Char → List Char × List Char
  | [] => ([], [])
  | c :: cs =>
    if isWordChar c || c == '.' || (behindMark && (c == '+' || c == '-')) then
      let (body, rest) := numberTail (c == 'e' || c == 'E' || c == 'p' || c == 'P') cs
      (c :: body, rest)
    else ([], c :: cs)

/-- The value of a floating constant. Without a point and an exponent it would be an integer. -/
def floating? (cs : List Char) : Option Double :=
  if cs.any (fun c => c == '.' || c == 'e' || c == 'E') then
    (Decimal.read? cs).map (Decimal.toDouble false)
  else none

/-- Reads the token at the start of the text `c :: cs`. -/
def readToken (c : Char) (cs : List Char) : Option (CToken × List Char) :=
  if isWordStart c then
    some (.word (String.ofList (c :: cs.takeWhile isWordChar)), cs.dropWhile isWordChar)
  else if startsWithNumeral (c :: cs) then
    (floating? (c :: (numberTail false cs).1)).map fun value =>
      (.number value, (numberTail false cs).2)
  else
    (punctuator? (c :: cs)).map fun p => (p.2, cs.drop (p.1.toList.length - 1))

theorem length_numberTail (behindMark : Bool) (cs : List Char) :
    (numberTail behindMark cs).2.length ≤ cs.length := by
  induction cs generalizing behindMark with
  | nil => rfl
  | cons c cs ih =>
    rw [numberTail]
    split
    · exact Nat.le_succ_of_le (ih _)
    · exact Nat.le_refl _

theorem length_of_readToken {c : Char} {cs rest : List Char} {t : CToken}
    (h : readToken c cs = some (t, rest)) : rest.length ≤ cs.length := by
  unfold readToken at h
  split at h
  · obtain ⟨-, rfl⟩ := Prod.mk.inj (Option.some.inj h)
    exact length_dropWhile_le isWordChar cs
  · split at h
    · obtain ⟨value, -, heq⟩ := Option.map_eq_some_iff.mp h
      obtain ⟨-, rfl⟩ := Prod.mk.inj heq
      exact length_numberTail false cs
    · obtain ⟨p, -, heq⟩ := Option.map_eq_some_iff.mp h
      obtain ⟨-, rfl⟩ := Prod.mk.inj heq
      rw [List.length_drop]
      exact Nat.sub_le _ _

/-- The tokens of a text. -/
def lexC : List Char → Option (List CToken)
  | [] => some []
  | c :: cs =>
    if c.isWhitespace then lexC cs
    else
      match _h : readToken c cs with
      | none => none
      | some (t, rest) => (lexC rest).map (t :: ·)
termination_by cs => cs.length
decreasing_by
  · exact Nat.lt_succ_self _
  · exact Nat.lt_succ_of_le (length_of_readToken _h)

theorem lexC_blank (cs : List Char) : lexC (' ' :: cs) = lexC cs := by
  rw [lexC, if_pos (by decide)]

theorem lexC_token {c : Char} {cs rest : List Char} {t : CToken} (hc : c.isWhitespace = false)
    (h : readToken c cs = some (t, rest)) : lexC (c :: cs) = (lexC rest).map (t :: ·) := by
  rw [lexC, if_neg (by simp [hc])]
  split
  · rename_i hnone
    rw [h] at hnone
    cases hnone
  · rename_i t' rest' hsome
    rw [h] at hsome
    cases hsome
    rfl

/-! ### Punctuators -/

theorem isPrefixOf_append_cons {p q rest : List Char} {c : Char} (hc : c ∉ p) :
    p.isPrefixOf (q ++ c :: rest) = p.isPrefixOf q := by
  induction p generalizing q with
  | nil => simp
  | cons a p ih =>
    rw [List.mem_cons, not_or] at hc
    cases q with
    | nil =>
      have hne : (a == c) = false := beq_eq_false_iff_ne.mpr (Ne.symm hc.1)
      simp [List.isPrefixOf, hne]
    | cons b q => simp [List.isPrefixOf, ih hc.2]

/-- Characters that are in no punctuator. -/
def isOperandChar (c : Char) : Bool := isWordChar c || c == ' '

theorem isOperandChar_punctuators : ∀ p ∈ punctuators, p.1.toList.any isOperandChar = false := by
  decide +kernel

/-- A punctuator ends at the latest before an operand or a blank. -/
theorem punctuator?_append {q : List Char} {c : Char} (hc : isOperandChar c = true)
    (rest : List Char) : punctuator? (q ++ c :: rest) = punctuator? q := by
  have hsame : ∀ p ∈ punctuators, p.1.toList.isPrefixOf (q ++ c :: rest) =
      p.1.toList.isPrefixOf q := by
    intro p hp
    refine isPrefixOf_append_cons ?_
    intro hmem
    exact List.any_eq_false.mp (isOperandChar_punctuators p hp) c hmem hc
  exact List.find?_congr hsame

theorem readToken_punctuator {c : Char} {cs rest : List Char} {text : String} {t : CToken}
    (hword : isWordStart c = false) (hnumber : startsWithNumeral (c :: cs) = false)
    (h : punctuator? (c :: cs) = some (text, t)) (hrest : cs.drop (text.toList.length - 1) = rest) :
    readToken c cs = some (t, rest) := by
  rw [readToken, if_neg (by simp [hword]), if_neg (by simp [hnumber]), h, ← hrest]
  rfl

theorem lexC_lparen (cs : List Char) : lexC ('(' :: cs) = (lexC cs).map (.lparen :: ·) :=
  lexC_token (by decide) (readToken_punctuator (by decide) rfl rfl rfl)

theorem lexC_rparen (cs : List Char) : lexC (')' :: cs) = (lexC cs).map (.rparen :: ·) :=
  lexC_token (by decide) (readToken_punctuator (by decide) rfl rfl rfl)

theorem lexC_comma (cs : List Char) : lexC (',' :: cs) = (lexC cs).map (.comma :: ·) :=
  lexC_token (by decide) (readToken_punctuator (by decide) rfl rfl rfl)

/-- An operator between blanks. -/
theorem lexC_operator (o : COp) (cs : List Char) :
    lexC (o.text.toList ++ ' ' :: cs) = (lexC cs).map (.op o :: ·) := by
  rw [← lexC_blank cs]
  cases o <;> exact lexC_token (by decide) (readToken_punctuator (by decide) rfl rfl rfl)

/-- A minus before an operand. -/
theorem lexC_minus {c : Char} (hc : isWordChar c = true) (cs : List Char) :
    lexC ('-' :: c :: cs) = (lexC (c :: cs)).map (.op .sub :: ·) := by
  have hoperand : isOperandChar c = true := by simp [isOperandChar, hc]
  have hpunctuator : punctuator? ('-' :: c :: cs) = some ("-", .op .sub) :=
    (punctuator?_append (q := ['-']) hoperand cs).trans rfl
  exact lexC_token (by decide) (readToken_punctuator (by decide) rfl hpunctuator rfl)

/-! ### Numbers -/

/-- The text ends, or goes on with a blank, a closing parenthesis or a comma. -/
def Separates (rest : List Char) : Prop := ∀ c ∈ rest.head?, c = ' ' ∨ c = ')' ∨ c = ','

theorem Separates.isWordChar {rest : List Char} (h : Separates rest) :
    ∀ c ∈ rest.head?, isWordChar c = false := by
  intro c hc
  rcases h c hc with rfl | rfl | rfl <;> decide

theorem numberTail_stop {rest : List Char} (h : Separates rest) :
    numberTail false rest = ([], rest) := by
  cases rest with
  | nil => rfl
  | cons c rest => rcases h c rfl with rfl | rfl | rfl <;> rfl

theorem isWhitespace_of_isWordChar {c : Char} (h : isWordChar c = true) :
    c.isWhitespace = false := by
  refine Bool.eq_false_iff.mpr fun hblank => ?_
  simp only [Char.isWhitespace, Bool.or_eq_true, decide_eq_true_eq] at hblank
  rcases hblank with ((rfl | rfl) | rfl) | rfl <;> exact absurd h (by decide)

theorem startsWithNumeral_of_isDigit {c : Char} (h : c.isDigit = true) (cs : List Char) :
    startsWithNumeral (c :: cs) = true := by
  unfold startsWithNumeral
  split
  · rename_i heq
    obtain ⟨rfl, -⟩ := List.cons.inj heq
    exact absurd h (by decide)
  · exact h

theorem numberTail_digits {ds : List Char} (h : ds.all Char.isDigit = true) (rest : List Char) :
    numberTail false (ds ++ rest) =
      (ds ++ (numberTail false rest).1, (numberTail false rest).2) := by
  induction ds with
  | nil => rfl
  | cons d ds ih =>
    rw [List.all_cons, Bool.and_eq_true] at h
    have hmark : (d == 'e' || d == 'E' || d == 'p' || d == 'P') = false := by
      simp only [Bool.or_eq_false_iff, beq_eq_false_iff_ne]
      refine ⟨⟨⟨?_, ?_⟩, ?_⟩, ?_⟩
      all_goals
        rintro rfl
        exact absurd h.1 (by decide)
    rw [List.cons_append, numberTail, isWordChar_of_isDigit h.1, hmark, ih h.2]
    rfl

namespace DecimalParts

theorem numberTail_fractionChars (t : DecimalParts) (rest : List Char) :
    numberTail false (t.fractionChars ++ rest) =
      (t.fractionChars ++ (numberTail false rest).1, (numberTail false rest).2) := by
  unfold fractionChars
  cases h : t.fraction with
  | none => rfl
  | some ds =>
    show numberTail false ('.' :: (ds ++ rest)) = _
    rw [numberTail]
    show ('.' :: (numberTail false (ds ++ rest)).1, (numberTail false (ds ++ rest)).2) = _
    rw [numberTail_digits (t.fraction_digits ds h)]
    rfl

theorem numberTail_exponentChars (t : DecimalParts) {rest : List Char} (hrest : Separates rest) :
    numberTail false (t.exponentChars ++ rest) = (t.exponentChars, rest) := by
  unfold exponentChars
  cases h : t.exponent with
  | none => exact numberTail_stop hrest
  | some e =>
    obtain ⟨negative, ds⟩ := e
    have hds : numberTail false (ds ++ rest) = (ds, rest) := by
      rw [numberTail_digits (t.exponent_digits _ h).1, numberTail_stop hrest, List.append_nil]
    -- the sign stands behind the mark, so it belongs to the number
    have hsigned : ∀ sign : Char, sign = '-' ∨ sign = '+' →
        numberTail false ('e' :: sign :: (ds ++ rest)) = ('e' :: sign :: ds, rest) := by
      intro sign hsign
      rw [numberTail]
      show ('e' :: (numberTail true (sign :: (ds ++ rest))).1,
        (numberTail true (sign :: (ds ++ rest))).2) = _
      rcases hsign with rfl | rfl
      · show ('e' :: '-' :: (numberTail false (ds ++ rest)).1,
          (numberTail false (ds ++ rest)).2) = _
        rw [hds]
      · show ('e' :: '+' :: (numberTail false (ds ++ rest)).1,
          (numberTail false (ds ++ rest)).2) = _
        rw [hds]
    cases negative with
    | false => exact hsigned '+' (.inr rfl)
    | true => exact hsigned '-' (.inl rfl)

theorem floating?_chars (t : DecimalParts)
    (h : t.fraction.isSome = true ∨ t.exponent.isSome = true) :
    floating? t.chars = some (t.decimal.toDouble false) := by
  have hmark : t.chars.any (fun c => c == '.' || c == 'e' || c == 'E') = true := by
    rcases h with h | h
    · obtain ⟨ds, hds⟩ := Option.isSome_iff_exists.mp h
      simp [chars, fractionChars, hds]
    · obtain ⟨e, he⟩ := Option.isSome_iff_exists.mp h
      simp [chars, exponentChars, he]
  rw [floating?, if_pos hmark, t.read?_chars]
  rfl

/-- A written decimal is one token. -/
theorem lexC_chars (t : DecimalParts) (h : t.fraction.isSome = true ∨ t.exponent.isSome = true)
    {rest : List Char} (hrest : Separates rest) :
    lexC (t.chars ++ rest) = (lexC rest).map (.number (t.decimal.toDouble false) :: ·) := by
  obtain ⟨d, ds, hwhole⟩ := List.exists_cons_of_ne_nil t.whole_ne_nil
  have hdigits := t.whole_digits
  rw [hwhole, List.all_cons, Bool.and_eq_true] at hdigits
  have htail : numberTail false (ds ++ (t.fractionChars ++ t.exponentChars) ++ rest) =
      (ds ++ (t.fractionChars ++ t.exponentChars), rest) := by
    rw [List.append_assoc, List.append_assoc, numberTail_digits hdigits.2,
      t.numberTail_fractionChars, t.numberTail_exponentChars hrest]
  have hchars : t.chars = d :: (ds ++ (t.fractionChars ++ t.exponentChars)) := by
    rw [chars, hwhole]
    rfl
  have hfloating := t.floating?_chars h
  rw [hchars] at hfloating ⊢
  have hword : isWordStart d = false := by
    refine Bool.eq_false_iff.mpr fun hstart => ?_
    rw [isDigit_of_isWordStart hstart] at hdigits
    cases hdigits.1
  refine lexC_token (isWhitespace_of_isWordChar (isWordChar_of_isDigit hdigits.1)) ?_
  show readToken d (ds ++ (t.fractionChars ++ t.exponentChars) ++ rest) = _
  rw [readToken, if_neg (by simp [hword]), if_pos (startsWithNumeral_of_isDigit hdigits.1 _), htail,
    hfloating]
  rfl

end DecimalParts

/-! ### Texts and their tokens -/

theorem lexC_word {name : String} (h : isCName name = true) {rest : List Char}
    (hrest : ∀ c ∈ rest.head?, isWordChar c = false) :
    lexC (name.toList ++ rest) = (lexC rest).map (.word name :: ·) := by
  obtain ⟨c, cs, hname, hc, hcs⟩ := exists_of_isCName h
  have hword : isWordChar c = true := by simp [isWordChar, hc]
  rw [hname]
  refine lexC_token (isWhitespace_of_isWordChar hword) ?_
  show readToken c (cs ++ rest) = _
  rw [readToken, if_pos hc, takeWhile_append_stop hcs hrest, dropWhile_append_stop hcs hrest,
    ← hname, String.ofList_toList]

/-- The text has these tokens, wherever it stands before a blank, a closing parenthesis or a
comma. -/
def Lexes (text : String) (ts : List CToken) : Prop :=
  ∀ rest, Separates rest → lexC (text.toList ++ rest) = (lexC rest).map (ts ++ ·)

theorem separates_cons {c : Char} (h : c = ' ' ∨ c = ')' ∨ c = ',') (rest : List Char) :
    Separates (c :: rest) := by
  intro c' hc'
  obtain rfl := Option.some.inj hc'
  exact h

namespace Lexes

variable {t u : String} {ts us : List CToken}

theorem lexC_toList (h : Lexes t ts) : lexC t.toList = some ts := by
  have hread := h [] (by simp [Separates])
  rw [List.append_nil, lexC] at hread
  simpa using hread

theorem word (h : isCName t = true) : Lexes t [.word t] :=
  fun _ hrest => lexC_word h hrest.isWordChar

theorem number (m : Magnitude) :
    Lexes (String.ofList (m.text .standard)) [.number (.finite false m)] := by
  intro rest hrest
  obtain ⟨parts, hchars, hfloating, hvalue⟩ := m.exists_parts .standard
  rw [String.toList_ofList, hchars, parts.lexC_chars hfloating hrest, hvalue]
  rfl

theorem minus (h : Lexes t ts) {c : Char} {cs : List Char} (ht : t.toList = c :: cs)
    (hc : isWordChar c = true) : Lexes ("-" ++ t) (.op .sub :: ts) := by
  intro rest hrest
  have hread := h rest hrest
  rw [ht] at hread
  rw [String.toList_append, ht]
  show lexC ('-' :: c :: (cs ++ rest)) = _
  rw [lexC_minus hc, ← List.cons_append, hread, Option.map_map]
  rfl

theorem paren (h : Lexes t ts) : Lexes ("(" ++ t ++ ")") (.lparen :: (ts ++ [CToken.rparen])) := by
  intro rest hrest
  have hread := h (')' :: rest) (separates_cons (by simp) rest)
  have htext : ("(" ++ t ++ ")").toList ++ rest = '(' :: (t.toList ++ ')' :: rest) := by simp
  rw [htext, lexC_lparen, hread, lexC_rparen, Option.map_map, Option.map_map]
  congr 1
  funext ts'
  simp

/-- A cast stands before its operand without a blank. -/
theorem cast (type : CType) (h : Lexes t ts) :
    Lexes ("(" ++ type.text ++ ")" ++ t) (.lparen :: .word type.text :: .rparen :: ts) := by
  intro rest hrest
  have htype : isCName type.text = true := by cases type <;> decide
  have htext : ("(" ++ type.text ++ ")" ++ t).toList ++ rest =
      '(' :: (type.text.toList ++ ')' :: (t.toList ++ rest)) := by simp
  have hclose : ∀ c ∈ (')' :: (t.toList ++ rest)).head?, isWordChar c = false :=
    (separates_cons (by simp) _).isWordChar
  rw [htext, lexC_lparen, lexC_word htype hclose, lexC_rparen, h rest hrest, Option.map_map,
    Option.map_map, Option.map_map]
  rfl

theorem binary (o : COp) (ht : Lexes t ts) (hu : Lexes u us) :
    Lexes (t ++ " " ++ o.text ++ " " ++ u) (ts ++ .op o :: us) := by
  intro rest hrest
  have htext : (t ++ " " ++ o.text ++ " " ++ u).toList ++ rest =
      t.toList ++ ' ' :: (o.text.toList ++ ' ' :: (u.toList ++ rest)) := by simp
  rw [htext, ht _ (separates_cons (by simp) _), lexC_blank, lexC_operator, hu rest hrest,
    Option.map_map, Option.map_map]
  congr 1
  funext ts'
  simp

theorem intercalate {args : List String} {tss : List (List CToken)}
    (h : List.Forall₂ Lexes args tss) :
    Lexes (", ".intercalate args) ([.comma].intercalate tss) := by
  induction h with
  | nil =>
    intro rest _
    simp
  | @cons a ts args tss ha hargs ih =>
    cases hargs with
    | nil =>
      rw [String.intercalate_singleton, List.intercalate_singleton]
      exact ha
    | @cons b us args tss hb hargs =>
      intro rest hrest
      rw [String.intercalate_cons_cons, List.intercalate_cons_cons]
      have htext : (a ++ ", " ++ ", ".intercalate (b :: args)).toList ++ rest =
          a.toList ++ ',' :: ' ' :: ((", ".intercalate (b :: args)).toList ++ rest) := by
        simp only [String.toList_append, List.append_assoc]
        rfl
      rw [htext, ha _ (separates_cons (by simp) _), lexC_comma, lexC_blank, ih rest hrest,
        Option.map_map, Option.map_map]
      congr 1
      funext ts'
      simp

theorem call (hcallee : isCName t = true) {args : List String} {tss : List (List CToken)}
    (h : List.Forall₂ Lexes args tss) :
    Lexes (t ++ "(" ++ ", ".intercalate args ++ ")")
      (.word t :: .lparen :: ([CToken.comma].intercalate tss ++ [CToken.rparen])) := by
  intro rest hrest
  have hargs := (intercalate h).paren rest hrest
  have htext : (t ++ "(" ++ ", ".intercalate args ++ ")").toList ++ rest =
      t.toList ++ (("(" ++ ", ".intercalate args ++ ")").toList ++ rest) := by
    simp only [String.toList_append, List.append_assoc]
  have hopen : ∀ c ∈ (("(" ++ ", ".intercalate args ++ ")").toList ++ rest).head?,
      isWordChar c = false := by
    intro c hc
    simp only [String.toList_append, List.append_assoc] at hc
    obtain rfl := Option.some.inj hc
    decide
  rw [htext, lexC_word hcallee hopen, hargs, Option.map_map]
  rfl

end Lexes

end NumScript
