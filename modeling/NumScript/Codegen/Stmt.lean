import NumScript.Codegen.Builder

/-!
# NumScript.Codegen.Stmt

Statements as lines of C. A function definition adds no line where it stands: it becomes a unit of
its own. An expression is printed, unless it is the last statement of a function, which returns it.
A choice whose second body is another choice and nothing else continues it as an `else if`.
-/

namespace NumScript

/-- Whether a body ends in an expression. -/
def endsInExpr (body : List Stmt) : Bool := body.getLast?.any Stmt.isExpr

/-- The test that a counting loop with a start goes on: above the stop on the way down, below it on
the way up. -/
def countTest (var down stop : String) : String :=
  down ++ " ? " ++ var ++ " > (int)" ++ stop ++ " : " ++ var ++ " < (int)" ++ stop

/-- The header of a counting loop. One bound is a stop, two are a start and a stop, three a start, a
stop and a step. The direction is decided by comparing start and stop. -/
def countHeader (var : String) : List String → Except CodegenError String
  | [stop] =>
    return "for (int " ++ var ++ " = 0; " ++ var ++ " < " ++ stop ++ "; " ++ var ++ "++) \x7b"
  | [first, stop] =>
    let down := first ++ " > " ++ stop
    return "for (int " ++ var ++ " = (int)" ++ first ++ "; " ++ countTest var down stop ++ "; "
      ++ down ++ " ? " ++ var ++ "-- : " ++ var ++ "++) \x7b"
  | [first, stop, step] =>
    let down := first ++ " > " ++ stop
    return "for (int " ++ var ++ " = (int)" ++ first ++ "; " ++ countTest var down stop ++ "; "
      ++ var ++ " += (int)" ++ step ++ ") \x7b"
  | bounds => .error (.boundCount bounds.length)

namespace Build

mutual

/-- Writes a statement. `returns` marks the last one of a function. -/
def stmt (returns : Bool) : Stmt → Build Unit
  | .expr p value => do
    enter p
    let v ← expr value
    line (if returns then "return " ++ v ++ ";" else "print_number(" ++ v ++ ");")
  | .declare p name value => do
    enter p
    let v ← expr value
    line ("double " ++ safeName name ++ " = " ++ v ++ ";")
  | .assign p name value => do
    enter p
    let v ← expr value
    line (safeName name ++ " = " ++ v ++ ";")
  | .branch p cond body rest => do
    enter p
    let c ← expr cond
    line ("if (" ++ c ++ ") \x7b")
    indented (stmts false body)
    otherwise rest
  | .loop p cond body => do
    enter p
    let c ← expr cond
    line ("while (" ++ c ++ ") \x7b")
    indented (stmts false body)
    line "\x7d"
  | .count p var bounds body => do
    enter p
    let bs ← exprs bounds
    line (← ofExcept (countHeader (safeName var) bs))
    indented (stmts false body)
    line "\x7d"
  | .define p name params body => do
    enter p
    let text ← function (some p) name params (!endsInExpr body) (stmts true body)
    modify fun b => { b with functions := b.functions ++ [text] }
  | .hole p => do
    enter p
    throw .stmtHole

/-- Writes statements in order. `returns` says whether they are the body of a function. -/
def stmts (returns : Bool) : List Stmt → Build Unit
  | [] => pure ()
  | s :: ss => do
    stmt (returns && ss.isEmpty) s
    stmts returns ss

/-- Writes what follows the first body of a choice, with the brace that ends it. -/
def otherwise : Option (List Stmt) → Build Unit
  | none => line "\x7d"
  | some [.branch p cond body rest] => do
    enter p
    let c ← expr cond
    line ("\x7d else if (" ++ c ++ ") \x7b")
    indented (stmts false body)
    otherwise rest
  | some body => do
    line "\x7d else \x7b"
    indented (stmts false body)
    line "\x7d"

end

end Build

end NumScript
