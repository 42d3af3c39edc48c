import NumScript.Number.Double
import NumScript.Operator

/-!
# NumScript.Expr

Expression trees. Grouping is in the shape of the tree, so there is no node for parentheses. A tree
can be built by hand as well as parsed, so it may hold two nodes that no source text yields: a pair
of operands that still lacks its operator, and a hole.
-/

namespace NumScript

/-- An expression. -/
inductive Expr where
  | number (value : Double)
  | ident (name : String)
  | call (name : String) (args : List Expr)
  | binary (op : Operator) (left right : Expr)
  /-- Two operands without an operator. -/
  | pair (left right : Expr)
  /-- A place where an expression is still missing. -/
  | hole

/-- The name of the node that applies an operator. -/
def Operator.kind : Operator → String
  | .add => "Add"
  | .sub => "Sub"
  | .mul => "Mul"
  | .div => "Div"
  | .pow => "Pow"
  | .mod => "Mod"
  | .leq => "Leq"
  | .geq => "Geq"
  | .lt => "Lt"
  | .gt => "Gt"
  | .eq => "Eq"
  | .neq => "Neq"

/-- The operator whose node has a given name. -/
def Operator.ofKind? (kind : String) : Option Operator := all.find? (·.kind == kind)

@[simp]
theorem Operator.ofKind?_kind (o : Operator) : ofKind? o.kind = some o := by
  cases o <;> decide

/-- The name of the node at the root of an expression. -/
def Expr.kind : Expr → String
  | .number _ => "Number"
  | .ident _ => "Ident"
  | .call _ _ => "Call"
  | .binary op _ _ => op.kind
  | .pair _ _ => "BinaryOp"
  | .hole => "Expr"

/-! ### Equality -/

mutual

/-- Whether two expressions are the same tree. -/
def Expr.same : Expr → Expr → Bool
  | .number v, .number w => v == w
  | .ident x, .ident y => x == y
  | .call f as, .call g bs => f == g && sameExprs as bs
  | .binary o l r, .binary o' l' r' => o == o' && l.same l' && r.same r'
  | .pair l r, .pair l' r' => l.same l' && r.same r'
  | .hole, .hole => true
  | _, _ => false

/-- Whether two lists hold the same trees. -/
def sameExprs : List Expr → List Expr → Bool
  | [], [] => true
  | a :: as, b :: bs => a.same b && sameExprs as bs
  | _, _ => false

end

mutual

theorem Expr.same_iff : (a b : Expr) → (a.same b = true ↔ a = b)
  | .number v, b => by cases b <;> simp [Expr.same]
  | .ident x, b => by cases b <;> simp [Expr.same]
  | .call f as, b => by cases b <;> simp [Expr.same, sameExprs_iff as]
  | .binary o l r, b => by cases b <;> simp [Expr.same, Expr.same_iff l, Expr.same_iff r, and_assoc]
  | .pair l r, b => by cases b <;> simp [Expr.same, Expr.same_iff l, Expr.same_iff r]
  | .hole, b => by cases b <;> simp [Expr.same]

theorem sameExprs_iff : (as bs : List Expr) → (sameExprs as bs = true ↔ as = bs)
  | [], bs => by cases bs <;> simp [sameExprs]
  | a :: as, bs => by cases bs <;> simp [sameExprs, Expr.same_iff a, sameExprs_iff as]

end

instance : DecidableEq Expr := fun a b => decidable_of_iff (a.same b = true) (a.same_iff b)

end NumScript
