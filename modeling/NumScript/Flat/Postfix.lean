import NumScript.Flat
import NumScript.Operator
import NumScript.Text.Quoted

/-!
# NumScript.Flat.Postfix

From infix to postfix order. Operators wait on a stack until their right operand is complete; an
operator that binds tighter than the next one, or as tightly when the next one groups to the left,
is released before it. The beginning of a group waits on the same stack and shields what lies below
it until the group ends. Operands pass through unchanged and in order.
-/

namespace NumScript

/-! ### Errors -/

/-- Why a flat expression denotes no tree. -/
inductive ResolveError where
  /-- A group ends that was never begun. -/
  | unmatchedClosing
  /-- A group begins that never ends. -/
  | unmatchedOpening
  /-- An item of no kind. -/
  | blankItem
  /-- A marker in a sequence that should hold operands and operators only. -/
  | notPostfix (marker : String)
  /-- An operator that is not one of the language. -/
  | unknownOperator (text : String)
  /-- An operator with fewer than two operands before it. -/
  | missingOperand (text : String)
  /-- No single tree is left at the end. -/
  | leftover (count : Nat)
deriving DecidableEq, Repr

/-- The wording of an error. -/
def ResolveError.message : ResolveError → String
  | .unmatchedClosing => "group-close marker without matching group-open"
  | .unmatchedOpening => "group-open marker without matching group-close"
  | .blankItem => "unexpected token: ExprToken()"
  | .notPostfix marker => "unexpected token in postfix sequence: " ++ marker ++ "()"
  | .unknownOperator text => "unknown operator: " ++ quoted text
  | .missingOperand text => "operator " ++ quoted text ++ " is missing an operand"
  | .leftover count => "expected exactly one expression, got " ++ toString count

/-- The operator with a given spelling. -/
def operatorNamed (text : String) : Except ResolveError Operator :=
  match Operator.ofText? text with
  | some o => .ok o
  | none => .error (.unknownOperator text)

@[simp]
theorem operatorNamed_text (o : Operator) : operatorNamed o.text = .ok o := by
  simp [operatorNamed]

/-! ### The stack of waiting operators -/

/-- What waits on the stack: an operator, or the beginning of a group. -/
inductive Waiting where
  | op (text : String)
  | group
deriving DecidableEq, Repr

/-- Whether the operator `top` takes its right operand before `incoming` does. -/
def Operator.releasedBy (top incoming : Operator) : Bool :=
  incoming.precedence < top.precedence
    || (incoming.precedence == top.precedence && !incoming.groupsRight)

/-- The operators on top of the stack that are released by `incoming`, the topmost first, and the
stack below them. Spellings are looked up only when two operators meet. -/
def release (incoming : String) : List Waiting → Except ResolveError (List String × List Waiting)
  | .op top :: stack => do
    let o ← operatorNamed top
    let o' ← operatorNamed incoming
    if o.releasedBy o' then
      let (released, rest) ← release incoming stack
      return (top :: released, rest)
    else
      return ([], .op top :: stack)
  | stack => return ([], stack)

/-- The operators waiting inside the innermost group, the topmost first, and the stack outside of
it. -/
def closeGroup : List Waiting → Except ResolveError (List String × List Waiting)
  | [] => .error .unmatchedClosing
  | .group :: stack => return ([], stack)
  | .op top :: stack => do
    let (released, rest) ← closeGroup stack
    return (top :: released, rest)

/-- All waiting operators, the topmost first. -/
def drain : List Waiting → Except ResolveError (List String)
  | [] => return []
  | .group :: _ => .error .unmatchedOpening
  | .op top :: stack => return top :: (← drain stack)

/-! ### Reordering -/

/-- The postfix order of the items, given the operators that wait on the stack. -/
def toPostfixFrom {α : Type} (stack : List Waiting) :
    List (Item α) → Except ResolveError (List (Item α))
  | [] => return (← drain stack).map .op
  | .operand a :: items => return .operand a :: (← toPostfixFrom stack items)
  | .op text :: items => do
    let (released, rest) ← release text stack
    return released.map .op ++ (← toPostfixFrom (.op text :: rest) items)
  | .opening :: items => toPostfixFrom (.group :: stack) items
  | .closing :: items => do
    let (released, rest) ← closeGroup stack
    return released.map .op ++ (← toPostfixFrom rest items)
  | .blank :: _ => .error .blankItem

/-- The postfix order of an infix sequence, without its group markers. -/
def toPostfix {α : Type} (items : List (Item α)) : Except ResolveError (List (Item α)) :=
  toPostfixFrom [] items

/-! ### Operands are not looked at -/

/-- Reordering does not look at operands. -/
theorem toPostfixFrom_map {α β : Type} (f : α → β) (stack : List Waiting) (items : List (Item α)) :
    toPostfixFrom stack (items.map (Item.map f)) =
      (toPostfixFrom stack items).map (List.map (Item.map f)) := by
  have hops : ∀ ops : List String, (ops.map Item.op : List (Item β)) =
      (ops.map Item.op).map (Item.map f) := fun ops => by simp [Item.map]
  induction items generalizing stack with
  | nil =>
    simp only [List.map_nil, toPostfixFrom]
    cases drain stack with
    | error e => rfl
    | ok ops => exact congrArg Except.ok (hops ops)
  | cons item items ih =>
    cases item with
    | operand a =>
      simp only [List.map_cons, Item.map, toPostfixFrom, ih]
      cases toPostfixFrom stack items <;> rfl
    | op text =>
      simp only [List.map_cons, Item.map, toPostfixFrom]
      cases release text stack with
      | error e => rfl
      | ok released =>
        obtain ⟨ops, rest⟩ := released
        simp only [bind, Except.bind, ih]
        cases toPostfixFrom (.op text :: rest) items with
        | error e => rfl
        | ok out => simp [Except.map, pure, Except.pure, Item.map]
    | opening => simp only [List.map_cons, Item.map, toPostfixFrom, ih]
    | closing =>
      simp only [List.map_cons, Item.map, toPostfixFrom]
      cases closeGroup stack with
      | error e => rfl
      | ok released =>
        obtain ⟨ops, rest⟩ := released
        simp only [bind, Except.bind, ih]
        cases toPostfixFrom rest items with
        | error e => rfl
        | ok out => simp [Except.map, pure, Except.pure, Item.map]
    | blank => rfl

theorem toPostfix_map {α β : Type} (f : α → β) (items : List (Item α)) :
    toPostfix (items.map (Item.map f)) = (toPostfix items).map (List.map (Item.map f)) :=
  toPostfixFrom_map f [] items

end NumScript
