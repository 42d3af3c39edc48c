import NumScript.Number.Double

/-!
# NumScript.Flat

Flat expressions: the operands, operators and group markers of an expression in the order in which
they are written, before precedence has given them a tree. The arguments of a call are flat
expressions of their own, inside its operand.

An operator is kept by its spelling, which need not be one of the language, and markers may stand
anywhere: which sequences denote a tree is for the later steps to say.
-/

namespace NumScript

/-- An item of a sequence with operands of type `α`. -/
inductive Item (α : Type) where
  | operand (a : α)
  | op (text : String)
  /-- The start of a group. -/
  | opening
  /-- The end of a group. -/
  | closing
  /-- An item of no kind. -/
  | blank
deriving DecidableEq, Repr

namespace Item

/-- Replaces the operand of an item. -/
def map {α β : Type} (f : α → β) : Item α → Item β
  | .operand a => .operand (f a)
  | .op text => .op text
  | .opening => .opening
  | .closing => .closing
  | .blank => .blank

end Item

/-- An operand of a flat expression. -/
inductive Operand where
  | number (value : Double)
  | ident (name : String)
  | call (name : String) (args : List (List (Item Operand)))

/-- A flat expression. -/
abbrev Flat := List (Item Operand)

/-- The name of an item's kind. -/
def Item.kind : Item Operand → String
  | .operand (.number _) => "TokNumber"
  | .operand (.ident _) => "TokIdent"
  | .operand (.call _ _) => "TokCall"
  | .op _ => "TokOp"
  | .opening => "TokOpen"
  | .closing => "TokClose"
  | .blank => "ExprToken"

/-! ### Equality -/

mutual

/-- Whether two operands are the same. -/
def Operand.same : Operand → Operand → Bool
  | .number v, .number w => v == w
  | .ident x, .ident y => x == y
  | .call f as, .call g bs => f == g && sameArgs as bs
  | _, _ => false

/-- Whether two argument lists are the same. -/
def sameArgs : List (List (Item Operand)) → List (List (Item Operand)) → Bool
  | [], [] => true
  | a :: as, b :: bs => sameItems a b && sameArgs as bs
  | _, _ => false

/-- Whether two sequences are the same. -/
def sameItems : List (Item Operand) → List (Item Operand) → Bool
  | [], [] => true
  | a :: as, b :: bs => sameItem a b && sameItems as bs
  | _, _ => false

/-- Whether two items are the same. -/
def sameItem : Item Operand → Item Operand → Bool
  | .operand a, .operand b => a.same b
  | .op text, .op text' => text == text'
  | .opening, .opening => true
  | .closing, .closing => true
  | .blank, .blank => true
  | _, _ => false

end

mutual

theorem Operand.same_iff : (a b : Operand) → (a.same b = true ↔ a = b)
  | .number _, b => by cases b <;> simp [Operand.same]
  | .ident _, b => by cases b <;> simp [Operand.same]
  | .call _ as, b => by cases b <;> simp [Operand.same, sameArgs_iff as]

theorem sameArgs_iff : (as bs : List (List (Item Operand))) → (sameArgs as bs = true ↔ as = bs)
  | [], bs => by cases bs <;> simp [sameArgs]
  | a :: as, bs => by cases bs <;> simp [sameArgs, sameItems_iff a, sameArgs_iff as]

theorem sameItems_iff : (as bs : List (Item Operand)) → (sameItems as bs = true ↔ as = bs)
  | [], bs => by cases bs <;> simp [sameItems]
  | a :: as, bs => by cases bs <;> simp [sameItems, sameItem_iff a, sameItems_iff as]

theorem sameItem_iff : (a b : Item Operand) → (sameItem a b = true ↔ a = b)
  | .operand a, b => by cases b <;> simp [sameItem, Operand.same_iff a]
  | .op _, b => by cases b <;> simp [sameItem]
  | .opening, b => by cases b <;> simp [sameItem]
  | .closing, b => by cases b <;> simp [sameItem]
  | .blank, b => by cases b <;> simp [sameItem]

end

instance : DecidableEq Operand := fun a b => decidable_of_iff (a.same b = true) (a.same_iff b)

end NumScript
