/-!
# NumScript.Operator

The twelve binary operators: how they are spelled, how tightly they bind, and to which side a run of
equally tight ones groups.
-/

namespace NumScript

/-- A binary operator. -/
inductive Operator where
  | add | sub | mul | div | pow | mod
  | leq | geq | lt | gt | eq | neq
deriving DecidableEq, Repr

namespace Operator

/-- Every operator. -/
def all : List Operator := [.add, .sub, .mul, .div, .pow, .mod, .leq, .geq, .lt, .gt, .eq, .neq]

/-- The spelling of an operator in a source text. -/
def text : Operator → String
  | .add => "+"
  | .sub => "-"
  | .mul => "*"
  | .div => "/"
  | .pow => "^"
  | .mod => "%"
  | .leq => "<="
  | .geq => ">="
  | .lt => "<"
  | .gt => ">"
  | .eq => "=="
  | .neq => "!="

/-- The operator with a given spelling. -/
def ofText? (text : String) : Option Operator := all.find? (·.text == text)

/-- How tightly an operator binds. -/
def precedence : Operator → Nat
  | .eq | .neq => 2
  | .leq | .geq | .lt | .gt => 3
  | .add | .sub => 4
  | .mul | .div | .mod => 5
  | .pow => 6

/-- Whether a run of the operator groups to the right. -/
def groupsRight : Operator → Bool
  | .pow => true
  | _ => false

@[simp]
theorem ofText?_text (o : Operator) : ofText? o.text = some o := by
  cases o <;> decide

theorem text_of_ofText? {text : String} {o : Operator} (h : ofText? text = some o) :
    o.text = text := by
  simpa using List.find?_some h

theorem text_injective {o o' : Operator} (h : o.text = o'.text) : o = o' := by
  have := congrArg ofText? h
  simpa using this

end Operator

end NumScript
