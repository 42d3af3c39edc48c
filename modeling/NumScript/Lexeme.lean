import NumScript.Number.Decimal
import NumScript.Operator

/-!
# NumScript.Lexeme

The words of the language: numerals, identifiers, keywords and symbols. Each lexeme has one text,
the characters it was read from. A `mark` is a lexeme that stands for itself, a keyword or a symbol,
as opposed to a numeral or an identifier, of which there are many with one role.
-/

namespace NumScript

/-! ### Keywords -/

/-- A reserved word. -/
inductive Keyword where
  | kwDo | kwElse | kwElseif | kwEnd | kwFor | kwFunction | kwIf | kwLocal | kwThen | kwWhile
deriving DecidableEq, Repr

namespace Keyword

/-- Every keyword. -/
def all : List Keyword :=
  [.kwDo, .kwElse, .kwElseif, .kwEnd, .kwFor, .kwFunction, .kwIf, .kwLocal, .kwThen, .kwWhile]

/-- The spelling of a keyword. -/
def text : Keyword → String
  | .kwDo => "do"
  | .kwElse => "else"
  | .kwElseif => "elseif"
  | .kwEnd => "end"
  | .kwFor => "for"
  | .kwFunction => "function"
  | .kwIf => "if"
  | .kwLocal => "local"
  | .kwThen => "then"
  | .kwWhile => "while"

/-- The keyword with a given spelling. -/
def ofText? (text : String) : Option Keyword := all.find? (·.text == text)

@[simp]
theorem ofText?_text (k : Keyword) : ofText? k.text = some k := by
  cases k <;> decide

theorem text_of_ofText? {text : String} {k : Keyword} (h : ofText? text = some k) :
    k.text = text := by
  simpa using List.find?_some h

theorem text_injective {k k' : Keyword} (h : k.text = k'.text) : k = k' := by
  have := congrArg ofText? h
  simpa using this

end Keyword

/-! ### Symbols -/

/-- An operator or a punctuation mark. -/
inductive Symbol where
  | op (o : Operator)
  | assign
  | lparen
  | rparen
  | comma
deriving DecidableEq, Repr

/-- The spelling of a symbol. -/
def Symbol.text : Symbol → String
  | .op o => o.text
  | .assign => "="
  | .lparen => "("
  | .rparen => ")"
  | .comma => ","

theorem Symbol.text_injective {s s' : Symbol} (h : s.text = s'.text) : s = s' := by
  cases s with
  | op o =>
    cases s' with
    | op o' => exact congrArg Symbol.op (Operator.text_injective h)
    | _ => revert h; cases o <;> decide
  | _ =>
    cases s' with
    | op o' => revert h; cases o' <;> decide
    | _ => revert h; decide

/-- No keyword is spelled like a symbol. -/
theorem Keyword.text_ne_symbol (k : Keyword) (s : Symbol) : k.text ≠ s.text := by
  cases s with
  | op o => cases k <;> cases o <;> decide
  | _ => cases k <;> decide

/-! ### Numerals -/

/-- A number as it was written: the digits before the point and, if there is a point, those after
it. -/
structure Numeral where
  whole : List Char
  fraction : Option (List Char)
deriving DecidableEq, Repr

namespace Numeral

/-- The characters of a numeral. -/
def chars (n : Numeral) : List Char :=
  match n.fraction with
  | none => n.whole
  | some fraction => n.whole ++ '.' :: fraction

/-- The decimal that a numeral denotes. -/
def decimal (n : Numeral) : Decimal :=
  let fraction := n.fraction.getD []
  ⟨natOfDigits (n.whole ++ fraction), -fraction.length⟩

/-- The value of a numeral, the one nearest to its decimal. -/
def value (n : Numeral) : Double := n.decimal.toDouble false

end Numeral

/-! ### Lexemes -/

/-- A word of the language. -/
inductive Lexeme where
  | number (n : Numeral)
  | ident (name : String)
  | keyword (k : Keyword)
  | symbol (s : Symbol)
deriving DecidableEq, Repr

namespace Lexeme

/-- The characters a lexeme was read from. -/
def text : Lexeme → String
  | .number n => String.ofList n.chars
  | .ident name => name
  | .keyword k => k.text
  | .symbol s => s.text

/-- The spelling of a lexeme that stands for itself. -/
def mark? : Lexeme → Option String
  | .number _ => none
  | .ident _ => none
  | .keyword k => some k.text
  | .symbol s => some s.text

/-- The name of a lexeme's class; every keyword is a class of its own. -/
def kind : Lexeme → String
  | .number _ => "NUMBER"
  | .ident _ => "IDENT"
  | .keyword k => k.text
  | .symbol _ => "OP"

/-- No lexeme is of the class of the end. -/
theorem kind_ne_eof (l : Lexeme) : l.kind ≠ "EOF" := by
  cases l with
  | keyword k => cases k <;> decide
  | number => exact show "NUMBER" ≠ "EOF" by decide
  | ident => exact show "IDENT" ≠ "EOF" by decide
  | symbol => exact show "OP" ≠ "EOF" by decide

/-- Lexemes that stand for themselves are told apart by their spelling. -/
theorem eq_of_mark? {l m : Lexeme} {text : String} (hl : l.mark? = some text)
    (hm : m.mark? = some text) : l = m := by
  cases l with
  | number n => exact absurd hl (by simp [mark?])
  | ident name => exact absurd hl (by simp [mark?])
  | keyword k =>
    obtain rfl := Option.some.inj hl
    cases m with
    | keyword k' => exact congrArg keyword (Keyword.text_injective (Option.some.inj hm)).symm
    | symbol s => exact absurd (Option.some.inj hm).symm (k.text_ne_symbol s)
    | _ => exact absurd hm (by simp [mark?])
  | symbol s =>
    obtain rfl := Option.some.inj hl
    cases m with
    | keyword k => exact absurd (Option.some.inj hm) (k.text_ne_symbol s)
    | symbol s' => exact congrArg symbol (Symbol.text_injective (Option.some.inj hm)).symm
    | _ => exact absurd hm (by simp [mark?])

end Lexeme

end NumScript
