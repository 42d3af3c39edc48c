import NumScript.Parsing

/-!
# NumScript.Flat.Parser

From tokens to flat expressions.

* An expression is a term, followed by any number of operators with a term each.
* A term is an expression in parentheses, a numeral that may have a minus before it, a call, or an
  identifier.
* The arguments of a call are expressions in parentheses, separated by commas.

A minus before a numeral is part of the term only where a term is due; after a term it is the
operator.
-/

namespace NumScript

mutual

/-- An expression. -/
def flatExpr (ts : List Token) : Outcome Flat :=
  (term ts).andThen ts.length fun items rest _ => (flatTail rest).map (items ++ ·)
termination_by 3 * ts.length + 2

/-- The operators and terms that go on an expression. -/
def flatTail (ts : List Token) : Outcome Flat :=
  match ts with
  | ⟨.symbol (.op o), _⟩ :: rest =>
    (term rest).andThen rest.length fun items rest' _ =>
      (flatTail rest').map (.op o.text :: items ++ ·)
  | ts => .ok [] ts
termination_by 3 * ts.length

/-- A term. -/
def term (ts : List Token) : Outcome Flat :=
  match ts with
  | ⟨.symbol .lparen, _⟩ :: rest =>
    (flatExpr rest).bind fun inner rest' =>
      (expect ")" rest').map fun _ => .opening :: inner ++ [.closing]
  | ⟨.symbol (.op .sub), _⟩ :: ⟨.number n, _⟩ :: rest =>
    .ok [.operand (.number n.value.neg)] rest
  | ⟨.number n, _⟩ :: rest => .ok [.operand (.number n.value)] rest
  | ⟨.ident name, _⟩ :: ⟨.symbol .lparen, _⟩ :: rest =>
    (callArgs rest).map fun args => [.operand (.call name args)]
  | ⟨.ident name, _⟩ :: rest => .ok [.operand (.ident name)] rest
  | ts => .error .expression ts
termination_by 3 * ts.length + 1

/-- The arguments of a call, after the opening parenthesis. -/
def callArgs (ts : List Token) : Outcome (List Flat) :=
  match ts with
  | ⟨.symbol .rparen, _⟩ :: rest => .ok [] rest
  | ts => (flatExpr ts).andThen ts.length fun arg rest _ => (moreArgs rest).map (arg :: ·)
termination_by 3 * ts.length + 3

/-- The arguments that follow the first one, and the closing parenthesis. -/
def moreArgs (ts : List Token) : Outcome (List Flat) :=
  match ts with
  | ⟨.symbol .comma, _⟩ :: rest =>
    (flatExpr rest).andThen rest.length fun arg rest' _ => (moreArgs rest').map (arg :: ·)
  | ts => (expect ")" ts).map fun _ => []
termination_by 3 * ts.length

end

/-- The arguments of a call, with both parentheses. -/
def argList (ts : List Token) : Outcome (List Flat) :=
  (expect "(" ts).bind fun _ rest => callArgs rest

end NumScript
