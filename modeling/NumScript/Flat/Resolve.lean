import NumScript.Expr
import NumScript.Flat.Postfix

/-!
# NumScript.Flat.Resolve

From flat expressions to trees. A postfix sequence is folded over a stack of trees, each operator
joining the two on top. The arguments of a call are resolved on their own and do not touch the stack
around the call; what goes wrong inside them counts at the place of the call.
-/

namespace NumScript

/-! ### Folding a postfix sequence -/

/-- The tree of a postfix sequence of trees, given those that are on the stack, the last one on
top. -/
def foldFrom (stack : List Expr) :
    List (Item (Except ResolveError Expr)) → Except ResolveError Expr
  | [] =>
    match stack with
    | [e] => .ok e
    | _ => .error (.leftover stack.length)
  | .operand a :: items => do foldFrom ((← a) :: stack) items
  | .op text :: items =>
    match stack with
    | right :: left :: rest => do
      let o ← operatorNamed text
      foldFrom (.binary o left right :: rest) items
    | _ => .error (.missingOperand text)
  | .opening :: _ => .error (.notPostfix "TokOpen")
  | .closing :: _ => .error (.notPostfix "TokClose")
  | .blank :: _ => .error (.notPostfix "ExprToken")

/-- The tree of an infix sequence of trees. -/
def assemble (items : List (Item (Except ResolveError Expr))) : Except ResolveError Expr := do
  foldFrom [] (← toPostfix items)

/-! ### Resolving operands -/

mutual

/-- The tree of an operand. -/
def Operand.resolve : Operand → Except ResolveError Expr
  | .number value => return .number value
  | .ident name => return .ident name
  | .call name args => return .call name (← resolveArgs args)

/-- The trees of the arguments of a call, from left to right. -/
def resolveArgs : List (List (Item Operand)) → Except ResolveError (List Expr)
  | [] => return []
  | arg :: args => do
    let e ← assemble (resolveOperands arg)
    return e :: (← resolveArgs args)

/-- Resolves every operand of a sequence in its place. -/
def resolveOperands : List (Item Operand) → List (Item (Except ResolveError Expr))
  | [] => []
  | item :: items => resolveOperand item :: resolveOperands items

/-- Resolves the operand of an item. -/
def resolveOperand : Item Operand → Item (Except ResolveError Expr)
  | .operand a => .operand a.resolve
  | .op text => .op text
  | .opening => .opening
  | .closing => .closing
  | .blank => .blank

end

theorem resolveOperand_eq_map (item : Item Operand) :
    resolveOperand item = item.map Operand.resolve := by
  cases item <;> simp [resolveOperand, Item.map]

theorem resolveOperands_eq_map (items : Flat) :
    resolveOperands items = items.map (Item.map Operand.resolve) := by
  induction items with
  | nil => simp [resolveOperands]
  | cons item items ih => simp [resolveOperands, resolveOperand_eq_map, ih]

/-! ### Flat expressions -/

/-- The tree of a flat expression in postfix order. -/
def Flat.foldPostfix (postfixed : Flat) : Except ResolveError Expr :=
  foldFrom [] (resolveOperands postfixed)

/-- The tree of a flat expression. -/
def Flat.resolve (flat : Flat) : Except ResolveError Expr := assemble (resolveOperands flat)

/-- Resolving is reordering followed by folding: it makes no difference whether operands are
resolved before or after they are put in order. -/
theorem Flat.resolve_eq_bind (flat : Flat) :
    Flat.resolve flat = (toPostfix flat).bind Flat.foldPostfix := by
  unfold Flat.resolve assemble
  rw [resolveOperands_eq_map, toPostfix_map]
  cases toPostfix flat with
  | error e => rfl
  | ok items => simp [Except.map, bind, Except.bind, Flat.foldPostfix, resolveOperands_eq_map]

end NumScript
