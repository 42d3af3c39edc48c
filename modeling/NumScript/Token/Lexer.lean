import NumScript.Token

/-!
# NumScript.Token.Lexer

From text to tokens. At each place the longest lexeme is read; blanks, line ends and comments
separate lexemes and are dropped. A comment runs from `--` to the end of its line and does not move
the column, so a text that ends in a comment ends, as a position, where that comment starts.
-/

namespace NumScript

/-! ### Errors -/

/-- Why no lexeme could be read. -/
inductive LexCause where
  /-- The point of a numeral is not followed by a digit. -/
  | danglingPoint
  /-- No lexeme starts with the character. -/
  | unexpected (c : Char)
deriving DecidableEq, Repr

/-- The wording of a cause. -/
def LexCause.message : LexCause → String
  | .danglingPoint => "expected digit after decimal point"
  | .unexpected c => "unexpected character: " ++ quoted (String.singleton c)

/-- A cause and the position where the unreadable lexeme starts. -/
structure LexError where
  cause : LexCause
  pos : Pos
deriving DecidableEq, Repr

/-! ### Character classes -/

/-- Characters that only separate lexemes of one line. -/
def isBlank (c : Char) : Bool := c == ' ' || c == '\t' || c == '\r'

/-- Characters that an identifier may start with. -/
def isWordStart (c : Char) : Bool := c.isAlpha || c == '_'

/-- Characters of which an identifier consists. -/
def isWordChar (c : Char) : Bool := isWordStart c || c.isDigit

/-! ### Single lexemes -/

/-- Whether the text starts with a digit. -/
def startsWithDigit : List Char → Bool
  | c :: _ => c.isDigit
  | [] => false

/-- Whether the text starts with a numeral: a digit, or a point before a digit. -/
def startsWithNumeral : List Char → Bool
  | '.' :: cs => startsWithDigit cs
  | cs => startsWithDigit cs

/-- Reads what follows the digits `whole` of a numeral: nothing, or a point and digits. -/
def readFraction (whole : List Char) : List Char → Except LexCause (Numeral × List Char)
  | '.' :: rest =>
    if startsWithDigit rest then
      .ok (⟨whole, some (rest.takeWhile Char.isDigit)⟩, rest.dropWhile Char.isDigit)
    else
      .error .danglingPoint
  | rest => .ok (⟨whole, none⟩, rest)

/-- Reads the numeral at the start of the text. -/
def readNumeral (cs : List Char) : Except LexCause (Numeral × List Char) :=
  readFraction (cs.takeWhile Char.isDigit) (cs.dropWhile Char.isDigit)

/-- The lexeme of a word: a keyword if it is one, else an identifier. -/
def wordLexeme (word : String) : Lexeme :=
  match Keyword.ofText? word with
  | some keyword => .keyword keyword
  | none => .ident word

/-- Reads the symbol at the start of the text, one of two characters if there is one. -/
def readSymbol? : List Char → Option (Symbol × List Char)
  | '<' :: '=' :: rest => some (.op .leq, rest)
  | '>' :: '=' :: rest => some (.op .geq, rest)
  | '=' :: '=' :: rest => some (.op .eq, rest)
  | '!' :: '=' :: rest => some (.op .neq, rest)
  | '+' :: rest => some (.op .add, rest)
  | '-' :: rest => some (.op .sub, rest)
  | '*' :: rest => some (.op .mul, rest)
  | '/' :: rest => some (.op .div, rest)
  | '^' :: rest => some (.op .pow, rest)
  | '%' :: rest => some (.op .mod, rest)
  | '<' :: rest => some (.op .lt, rest)
  | '>' :: rest => some (.op .gt, rest)
  | '=' :: rest => some (.assign, rest)
  | '(' :: rest => some (.lparen, rest)
  | ')' :: rest => some (.rparen, rest)
  | ',' :: rest => some (.comma, rest)
  | _ => none

/-- Reads the lexeme at the start of the text `c :: cs`. -/
def readLexeme (c : Char) (cs : List Char) : Except LexCause (Lexeme × List Char) :=
  if startsWithNumeral (c :: cs) then
    (readNumeral (c :: cs)).map fun (numeral, rest) => (.number numeral, rest)
  else if isWordStart c then
    .ok (wordLexeme (String.ofList (c :: cs.takeWhile isWordChar)), cs.dropWhile isWordChar)
  else
    match readSymbol? (c :: cs) with
    | some (symbol, rest) => .ok (.symbol symbol, rest)
    | none => .error (.unexpected c)

/-! ### A lexeme takes at least one character -/

theorem length_dropWhile_le (p : Char → Bool) (cs : List Char) :
    (cs.dropWhile p).length ≤ cs.length :=
  (List.dropWhile_sublist p).length_le

theorem length_of_readFraction_point {whole cs rest : List Char} {numeral : Numeral}
    (h : readFraction whole ('.' :: cs) = .ok (numeral, rest)) : rest.length ≤ cs.length := by
  simp only [readFraction] at h
  split at h
  · obtain ⟨-, rfl⟩ := Prod.mk.inj (Except.ok.inj h)
    exact length_dropWhile_le Char.isDigit cs
  · exact absurd h (by simp)

theorem length_of_readFraction {whole cs rest : List Char} {numeral : Numeral}
    (h : readFraction whole cs = .ok (numeral, rest)) : rest.length ≤ cs.length := by
  by_cases hpoint : ∃ cs', cs = '.' :: cs'
  · obtain ⟨cs', rfl⟩ := hpoint
    exact Nat.le_succ_of_le (length_of_readFraction_point h)
  · unfold readFraction at h
    split at h
    · rename_i cs'
      exact absurd ⟨cs', rfl⟩ hpoint
    · obtain ⟨-, rfl⟩ := Prod.mk.inj (Except.ok.inj h)
      exact Nat.le_refl _

theorem length_of_readNumeral {c : Char} {cs rest : List Char} {numeral : Numeral}
    (hstart : startsWithNumeral (c :: cs) = true)
    (h : readNumeral (c :: cs) = .ok (numeral, rest)) : rest.length ≤ cs.length := by
  unfold readNumeral at h
  by_cases hc : c.isDigit = true
  · rw [List.dropWhile_cons, if_pos hc] at h
    exact Nat.le_trans (length_of_readFraction h) (length_dropWhile_le Char.isDigit cs)
  · have hpoint : c = '.' := by
      unfold startsWithNumeral at hstart
      split at hstart
      · rename_i heq
        exact (List.cons.inj heq).1
      · exact absurd hstart hc
    subst hpoint
    rw [List.dropWhile_cons, if_neg hc] at h
    exact length_of_readFraction_point h

theorem length_of_readSymbol? {cs rest : List Char} {symbol : Symbol}
    (h : readSymbol? cs = some (symbol, rest)) : rest.length < cs.length := by
  unfold readSymbol? at h
  split at h
  all_goals first
    | (obtain ⟨-, rfl⟩ := Prod.mk.inj (Option.some.inj h)
       simp only [List.length_cons]
       omega)
    | exact absurd h (by simp)

theorem length_of_readLexeme {c : Char} {cs rest : List Char} {lexeme : Lexeme}
    (h : readLexeme c cs = .ok (lexeme, rest)) : rest.length ≤ cs.length := by
  unfold readLexeme at h
  split at h
  · rename_i hstart
    cases hn : readNumeral (c :: cs) with
    | error cause => rw [hn] at h; exact absurd h (by simp [Except.map])
    | ok read =>
      rw [hn] at h
      obtain ⟨-, rfl⟩ := Prod.mk.inj (Except.ok.inj h)
      exact length_of_readNumeral hstart hn
  · split at h
    · obtain ⟨-, rfl⟩ := Prod.mk.inj (Except.ok.inj h)
      exact length_dropWhile_le isWordChar cs
    · split at h
      · rename_i hs
        obtain ⟨-, rfl⟩ := Prod.mk.inj (Except.ok.inj h)
        exact Nat.le_of_lt_succ (length_of_readSymbol? hs)
      · exact absurd h (by simp)

/-! ### Whole texts -/

/-- Reads the tokens of the text `cs`, which starts at position `p`. -/
def lexFrom (p : Pos) (cs : List Char) : Except LexError TokenStream :=
  match cs with
  | [] => .ok ⟨[], p⟩
  | '\n' :: rest => lexFrom p.nextLine rest
  | '-' :: '-' :: rest => lexFrom p (rest.dropWhile (· != '\n'))
  | c :: rest =>
    if isBlank c then lexFrom (p.advance 1) rest
    else
      match _h : readLexeme c rest with
      | .error cause => .error ⟨cause, p⟩
      | .ok (lexeme, rest') =>
        (lexFrom (p.advance lexeme.text.length) rest').map (·.cons ⟨lexeme, p⟩)
termination_by cs.length
decreasing_by
  · simp
  · have := length_dropWhile_le (· != '\n') rest
    simp only [List.length_cons]
    omega
  · simp
  · have := length_of_readLexeme _h
    simp only [List.length_cons]
    omega

/-- Reads the tokens of a text. -/
def lex (source : String) : Except LexError TokenStream := lexFrom .start source.toList

end NumScript
