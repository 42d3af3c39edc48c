import NumScript.Codegen.Name
import NumScript.Codegen.NameTable
import NumScript.Expr
import NumScript.Number.Text

/-!
# NumScript.Codegen.Expr

Expressions as C text. Every application of an operator is in parentheses or is a call, so the text
needs no precedence. A quotient is computed on doubles even where C would see two integers, and a
remainder on integers.
-/

namespace NumScript

/-- A number as C text. A number below zero is in parentheses, so that its minus cannot meet another
one. -/
def Double.literal (v : Double) : String :=
  match v with
  | .infinite negative => if negative then "(-HUGE_VAL)" else "HUGE_VAL"
  | v => if v.isNegative then "(" ++ v.text ++ ")" else v.text

/-- An application of an operator to two operands, all as C text. -/
def Operator.apply (o : Operator) (left right : String) : String :=
  match o with
  | .pow => "pow(" ++ left ++ ", " ++ right ++ ")"
  | .div => "((double)" ++ left ++ " / " ++ right ++ ")"
  | .mod => "((int)" ++ left ++ " % (int)" ++ right ++ ")"
  | o => "(" ++ left ++ " " ++ o.text ++ " " ++ right ++ ")"

mutual

/-- An expression as C text, with the functions of `names`; errors blame the position `p`. A call is
checked before its arguments. -/
def Expr.lower (names : NameTable) (p : Pos) : Expr → Except CodegenError String
  | .number value => return value.literal
  | .ident name => return safeName name
  | .call name args =>
    match names.find? name with
    | none => .error (.undefined name p)
    | some d =>
      if d.arity = args.length then
        return d.symbol ++ "(" ++ ", ".intercalate (← lowerArgs names p args) ++ ")"
      else
        .error (.arity name d.arity args.length p)
  | .binary op left right => do
    let l ← left.lower names p
    let r ← right.lower names p
    return op.apply l r
  | .pair left right => do
    let l ← left.lower names p
    let r ← right.lower names p
    return "(" ++ l ++ "  " ++ r ++ ")"
  | .hole => .error .exprHole

/-- Expressions as C text, from left to right. -/
def lowerArgs (names : NameTable) (p : Pos) : List Expr → Except CodegenError (List String)
  | [] => return []
  | e :: es => do
    let text ← e.lower names p
    return text :: (← lowerArgs names p es)

end

end NumScript
