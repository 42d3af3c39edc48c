import NumScript.Pos

/-!
# NumScript.Codegen.Error

What can be wrong with a syntax tree that is to become C. The first three errors blame the program
and have a position. The others blame the tree: it has holes, or a counting loop with a number of
bounds that the language does not know.
-/

namespace NumScript

/-- An error of code generation. -/
inductive CodegenError where
  /-- A function is defined a second time; `first` is where it was defined before. -/
  | redefined (name : String) (first pos : Pos)
  /-- A call names a function that is not defined. -/
  | undefined (name : String) (pos : Pos)
  /-- A call has `given` arguments, and not the `expected` number that is on record. -/
  | arity (name : String) (expected : Int) (given : Nat) (pos : Pos)
  /-- A statement is missing. -/
  | stmtHole
  /-- An expression is missing. -/
  | exprHole
  /-- A counting loop has this number of bounds. -/
  | boundCount (count : Nat)
deriving DecidableEq, Repr

namespace CodegenError

/-- The wording of an error. -/
def message : CodegenError → String
  | .redefined name first _ => "function '" ++ name ++ "' already defined" ++ first.note
  | .undefined name _ => "call to undefined function '" ++ name ++ "'"
  | .arity name expected given _ =>
    "function '" ++ name ++ "' takes " ++ toString expected ++ " argument(s), got "
      ++ toString given
  | .stmtHole => "unhandled stmt type: Stmt"
  | .exprHole => "unhandled expr type: Expr"
  | .boundCount count => "for loop with " ++ toString count ++ " bounds"

/-- The position that an error blames. -/
def pos? : CodegenError → Option Pos
  | .redefined _ _ p => some p
  | .undefined _ p => some p
  | .arity _ _ _ p => some p
  | .stmtHole => none
  | .exprHole => none
  | .boundCount _ => none

end CodegenError

end NumScript
