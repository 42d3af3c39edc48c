import Mathlib.Data.List.Perm.Basic
import NumScript.Flat.Resolve

/-!
# NumScript.Proofs.Flat.Conservation

What resolving keeps, whatever the order of the items. The two passes are described once, by what
their runs can do: `Reorders` for the reordering, which puts out operands at once and operators from
the top of a stack, and `Folds` for the folding, which joins trees on another stack. Neither says
anything about the places of operators and operands, so the descriptions cover sequences that are
not well-formed too.

Along a run of the first pass the operands that were put out stay in order, and the operators that
were put out or wait are those that were met. Along a run of the second pass the leaves of the trees
on the stack, from the bottom to the top, are the operands that were met. So the tree of a sequence
has the operands of the sequence for its leaves, in the same order, and the operators of the
sequence on its inner nodes (`Flat.resolve_conserves`).
-/

namespace NumScript

/-! ### Operands and operators -/

section Items

variable {α β : Type}

/-- The operand of an item, if it is one. -/
def Item.operand? : Item α → Option α
  | .operand a => some a
  | _ => none

/-- The spelling of an item that is an operator. -/
def Item.op? : Item α → Option String
  | .op text => some text
  | _ => none

/-- The operands of a sequence, from left to right. -/
def operandsOf (items : List (Item α)) : List α := items.filterMap Item.operand?

/-- The operators of a sequence by their spellings, from left to right. -/
def operatorsOf (items : List (Item α)) : List String := items.filterMap Item.op?

@[simp]
theorem operandsOf_nil : operandsOf ([] : List (Item α)) = [] := rfl

@[simp]
theorem operandsOf_operand (a : α) (items : List (Item α)) :
    operandsOf (.operand a :: items) = a :: operandsOf items := rfl

@[simp]
theorem operandsOf_op (text : String) (items : List (Item α)) :
    operandsOf (.op text :: items) = operandsOf items := rfl

@[simp]
theorem operandsOf_opening (items : List (Item α)) :
    operandsOf (.opening :: items) = operandsOf items := rfl

@[simp]
theorem operandsOf_closing (items : List (Item α)) :
    operandsOf (.closing :: items) = operandsOf items := rfl

@[simp]
theorem operatorsOf_nil : operatorsOf ([] : List (Item α)) = [] := rfl

@[simp]
theorem operatorsOf_operand (a : α) (items : List (Item α)) :
    operatorsOf (.operand a :: items) = operatorsOf items := rfl

@[simp]
theorem operatorsOf_op (text : String) (items : List (Item α)) :
    operatorsOf (.op text :: items) = text :: operatorsOf items := rfl

@[simp]
theorem operatorsOf_opening (items : List (Item α)) :
    operatorsOf (.opening :: items) = operatorsOf items := rfl

@[simp]
theorem operatorsOf_closing (items : List (Item α)) :
    operatorsOf (.closing :: items) = operatorsOf items := rfl

/-- Operators that are put out hold no operand. -/
@[simp]
theorem operandsOf_ops_append (ops : List String) (items : List (Item α)) :
    operandsOf (ops.map .op ++ items) = operandsOf items := by
  induction ops with
  | nil => rfl
  | cons text ops ih => exact ih

@[simp]
theorem operatorsOf_ops_append (ops : List String) (items : List (Item α)) :
    operatorsOf (ops.map .op ++ items) = ops ++ operatorsOf items := by
  induction ops with
  | nil => rfl
  | cons text ops ih => exact congrArg (text :: ·) ih

theorem operandsOf_map (f : α → β) (items : List (Item α)) :
    operandsOf (items.map (Item.map f)) = (operandsOf items).map f := by
  induction items with
  | nil => rfl
  | cons item items ih =>
    cases item with
    | operand a => exact congrArg (f a :: ·) ih
    | _ => exact ih

theorem operatorsOf_map (f : α → β) (items : List (Item α)) :
    operatorsOf (items.map (Item.map f)) = operatorsOf items := by
  induction items with
  | nil => rfl
  | cons item items ih =>
    cases item with
    | op text => exact congrArg (text :: ·) ih
    | _ => exact ih

end Items

/-! ### Runs of the reordering -/

/-- The operator that waits, if it is one. -/
def Waiting.op? : Waiting → Option String
  | .op text => some text
  | .group => none

/-- The operators on the stack, the topmost first. -/
def waitingOps (stack : List Waiting) : List String := stack.filterMap Waiting.op?

@[simp]
theorem waitingOps_op (text : String) (stack : List Waiting) :
    waitingOps (.op text :: stack) = text :: waitingOps stack := rfl

@[simp]
theorem waitingOps_group (stack : List Waiting) :
    waitingOps (.group :: stack) = waitingOps stack := rfl

@[simp]
theorem waitingOps_append (ops : List String) (stack : List Waiting) :
    waitingOps (ops.map .op ++ stack) = ops ++ waitingOps stack := by
  induction ops with
  | nil => rfl
  | cons text ops ih => exact congrArg (text :: ·) ih

/-- `Reorders stack items out`: with these operators waiting, the items are put out as `out`. An
operator and the end of a group each put out some operators from the top of the stack, and the end
of a group needs a beginning below them. -/
inductive Reorders {α : Type} : List Waiting → List (Item α) → List (Item α) → Prop
  | done (ops : List String) : Reorders (ops.map .op) [] (ops.map .op)
  | operand {stack : List Waiting} {items out : List (Item α)} (a : α)
      (h : Reorders stack items out) : Reorders stack (.operand a :: items) (.operand a :: out)
  | op {stack : List Waiting} {items out : List (Item α)} (released : List String) (text : String)
      (h : Reorders (.op text :: stack) items out) :
      Reorders (released.map .op ++ stack) (.op text :: items) (released.map .op ++ out)
  | opening {stack : List Waiting} {items out : List (Item α)}
      (h : Reorders (.group :: stack) items out) : Reorders stack (.opening :: items) out
  | closing {stack : List Waiting} {items out : List (Item α)} (released : List String)
      (h : Reorders stack items out) :
      Reorders (released.map .op ++ .group :: stack) (.closing :: items) (released.map .op ++ out)

/-- What is released lay on top of the stack. -/
theorem eq_of_release {text : String} {stack rest : List Waiting} {released : List String}
    (h : release text stack = .ok (released, rest)) : stack = released.map .op ++ rest := by
  induction stack generalizing released rest with
  | nil =>
    cases h
    rfl
  | cons top stack ih =>
    cases top with
    | group =>
      cases h
      rfl
    | op top =>
      rw [release] at h
      cases htop : operatorNamed top with
      | error e => rw [htop] at h; cases h
      | ok o =>
        cases hincoming : operatorNamed text with
        | error e => rw [htop, hincoming] at h; cases h
        | ok o' =>
          rw [htop, hincoming] at h
          simp only [bind, Except.bind] at h
          split at h
          · cases hrest : release text stack with
            | error e => rw [hrest] at h; cases h
            | ok result =>
              rw [hrest] at h
              cases h
              exact congrArg (Waiting.op top :: ·) (ih hrest)
          · cases h
            rfl

/-- What is put out at the end of a group lay on top of its beginning. -/
theorem eq_of_closeGroup {stack rest : List Waiting} {released : List String}
    (h : closeGroup stack = .ok (released, rest)) : stack = released.map .op ++ .group :: rest := by
  induction stack generalizing released with
  | nil => cases h
  | cons top stack ih =>
    cases top with
    | group =>
      cases h
      rfl
    | op top =>
      rw [closeGroup] at h
      cases hrest : closeGroup stack with
      | error e => rw [hrest] at h; cases h
      | ok result =>
        obtain ⟨released', rest'⟩ := result
        rw [hrest] at h
        cases h
        exact congrArg (Waiting.op top :: ·) (ih hrest)

/-- At the end no group waits. -/
theorem eq_of_drain {stack : List Waiting} {ops : List String} (h : drain stack = .ok ops) :
    stack = ops.map .op := by
  induction stack generalizing ops with
  | nil =>
    cases h
    rfl
  | cons top stack ih =>
    cases top with
    | group => cases h
    | op top =>
      rw [drain] at h
      cases hrest : drain stack with
      | error e => rw [hrest] at h; cases h
      | ok ops' =>
        rw [hrest] at h
        cases h
        exact congrArg (Waiting.op top :: ·) (ih hrest)

/-- The reordering does nothing else than what is described. -/
theorem reorders_of_toPostfixFrom {α : Type} {stack : List Waiting} {items out : List (Item α)}
    (h : toPostfixFrom stack items = .ok out) : Reorders stack items out := by
  induction items generalizing stack out with
  | nil =>
    rw [toPostfixFrom] at h
    cases hdrain : drain stack with
    | error e => rw [hdrain] at h; cases h
    | ok ops =>
      rw [hdrain] at h
      cases h
      rw [eq_of_drain hdrain]
      exact .done ops
  | cons item items ih =>
    cases item with
    | operand a =>
      rw [toPostfixFrom] at h
      cases hitems : toPostfixFrom stack items with
      | error e => rw [hitems] at h; cases h
      | ok out' =>
        rw [hitems] at h
        cases h
        exact .operand a (ih hitems)
    | op text =>
      rw [toPostfixFrom] at h
      cases hrelease : release text stack with
      | error e => rw [hrelease] at h; cases h
      | ok result =>
        obtain ⟨released, rest⟩ := result
        rw [hrelease] at h
        cases hitems : toPostfixFrom (.op text :: rest) items with
        | error e => simp only [bind, Except.bind, hitems] at h; cases h
        | ok out' =>
          simp only [bind, Except.bind, hitems] at h
          cases h
          rw [eq_of_release hrelease]
          exact .op released text (ih hitems)
    | opening => exact .opening (ih h)
    | closing =>
      rw [toPostfixFrom] at h
      cases hclose : closeGroup stack with
      | error e => rw [hclose] at h; cases h
      | ok result =>
        obtain ⟨released, rest⟩ := result
        rw [hclose] at h
        cases hitems : toPostfixFrom rest items with
        | error e => simp only [bind, Except.bind, hitems] at h; cases h
        | ok out' =>
          simp only [bind, Except.bind, hitems] at h
          cases h
          rw [eq_of_closeGroup hclose]
          exact .closing released (ih hitems)
    | blank => cases h

namespace Reorders

variable {α : Type} {stack : List Waiting} {items out : List (Item α)}

/-- Operands are put out in their order. -/
theorem operandsOf_eq (h : Reorders stack items out) : operandsOf out = operandsOf items := by
  induction h with
  | done ops => simpa using operandsOf_ops_append ops ([] : List (Item α))
  | operand a _ ih => simp [ih]
  | op released text _ ih => simp [ih]
  | opening _ ih => simp [ih]
  | closing released _ ih => simp [ih]

/-- The operators that are put out are those that wait and those that are met. -/
theorem operatorsOf_perm (h : Reorders stack items out) :
    (operatorsOf out).Perm (waitingOps stack ++ operatorsOf items) := by
  induction h with
  | done ops =>
    have hout := operatorsOf_ops_append ops ([] : List (Item α))
    have hstack := waitingOps_append ops []
    rw [List.append_nil] at hout hstack
    rw [hout, hstack, List.append_assoc]
    exact .refl _
  | operand a _ ih => exact ih
  | @op stack items out released text _ ih =>
    rw [operatorsOf_ops_append, waitingOps_append, operatorsOf_op, List.append_assoc]
    exact (ih.trans List.perm_middle.symm).append_left released
  | opening _ ih => exact ih
  | closing released _ ih =>
    rw [operatorsOf_ops_append, waitingOps_append, List.append_assoc]
    exact ih.append_left released

end Reorders

/-! ### Runs of the folding -/

/-- `Folds stack items e`: on top of the trees of the stack, the items are folded to `e`. An
operator joins the two trees on top. -/
inductive Folds : List Expr → List (Item (Except ResolveError Expr)) → Expr → Prop
  | done (e : Expr) : Folds [e] [] e
  | operand {stack : List Expr} {items : List (Item (Except ResolveError Expr))} {e a : Expr}
      (h : Folds (a :: stack) items e) : Folds stack (.operand (.ok a) :: items) e
  | op {stack : List Expr} {items : List (Item (Except ResolveError Expr))} {left right e : Expr}
      (o : Operator) (h : Folds (.binary o left right :: stack) items e) :
      Folds (right :: left :: stack) (.op o.text :: items) e

theorem text_of_operatorNamed {text : String} {o : Operator} (h : operatorNamed text = .ok o) :
    o.text = text := by
  unfold operatorNamed at h
  split at h
  · rename_i hnamed
    cases h
    exact Operator.text_of_ofText? hnamed
  · cases h

/-- The folding does nothing else than what is described. -/
theorem folds_of_foldFrom {stack : List Expr} {items : List (Item (Except ResolveError Expr))}
    {e : Expr} (h : foldFrom stack items = .ok e) : Folds stack items e := by
  induction items generalizing stack with
  | nil =>
    cases stack with
    | nil => cases h
    | cons top stack =>
      cases stack with
      | nil =>
        cases h
        exact .done e
      | cons below stack => cases h
  | cons item items ih =>
    cases item with
    | operand a =>
      cases a with
      | error error => cases h
      | ok a => exact .operand (ih h)
    | op text =>
      cases stack with
      | nil => cases h
      | cons right stack =>
        cases stack with
        | nil => cases h
        | cons left stack =>
          rw [foldFrom] at h
          cases hnamed : operatorNamed text with
          | error error => rw [hnamed] at h; cases h
          | ok o =>
            rw [hnamed] at h
            rw [← text_of_operatorNamed hnamed]
            exact .op o (ih h)
    | opening => cases h
    | closing => cases h
    | blank => cases h

/-! ### Leaves and inner nodes -/

/-- The leaves of a tree from left to right. What is inside a call is not part of the tree around
it. -/
def Expr.leaves : Expr → List Expr
  | .binary _ left right => left.leaves ++ right.leaves
  | .pair left right => left.leaves ++ right.leaves
  | e => [e]

/-- The operators on the inner nodes of a tree, from left to right. -/
def Expr.operators : Expr → List Operator
  | .binary o left right => left.operators ++ o :: right.operators
  | .pair left right => left.operators ++ right.operators
  | _ => []

/-- The spellings of the operators on the inner nodes of trees. -/
def operatorTexts (es : List Expr) : List String :=
  es.flatMap fun e => e.operators.map Operator.text

open scoped List in
/-- An operator comes between its operands, which were on the stack the other way round. -/
theorem perm_joined (text : String) (left right below items : List String) :
    (left ++ text :: right ++ below ++ items).Perm (right ++ left ++ below ++ text :: items) := by
  calc left ++ text :: right ++ below ++ items
      _ = left ++ text :: (right ++ below ++ items) := by simp
      _ ~ text :: (left ++ (right ++ below ++ items)) := List.perm_middle
      _ = text :: (left ++ right ++ (below ++ items)) := by simp
      _ ~ text :: (right ++ left ++ (below ++ items)) :=
        (List.perm_append_comm.append_right _).cons text
      _ = text :: (right ++ left ++ below ++ items) := by simp
      _ ~ right ++ left ++ below ++ text :: items := List.perm_middle.symm

namespace Folds

variable {stack : List Expr} {items : List (Item (Except ResolveError Expr))} {e : Expr}

/-- All operands have a tree. Their leaves follow those of the trees on the stack, the lowest one
first. -/
theorem leaves_eq (h : Folds stack items e) :
    ∃ es, operandsOf items = es.map .ok ∧ e.leaves = (stack.reverse ++ es).flatMap Expr.leaves := by
  induction h with
  | done e => exact ⟨[], rfl, by simp⟩
  | @operand stack items e a _ ih =>
    obtain ⟨es, hes, hleaves⟩ := ih
    exact ⟨a :: es, by simp [hes], by simp [hleaves]⟩
  | op o _ ih =>
    obtain ⟨es, hes, hleaves⟩ := ih
    -- the right tree was on top of the left one, so their leaves are in order
    exact ⟨es, hes, by simp [hleaves, Expr.leaves]⟩

/-- The operators of the tree are those of the trees on the stack, those of the operands and those
that are met. -/
theorem operators_perm (h : Folds stack items e) {es : List Expr}
    (hes : operandsOf items = es.map .ok) :
    (e.operators.map Operator.text).Perm (operatorTexts (stack ++ es) ++ operatorsOf items) := by
  induction h generalizing es with
  | done e =>
    obtain rfl : es = [] := List.map_eq_nil_iff.mp hes.symm
    simp [operatorTexts]
  | @operand stack items e a _ ih =>
    cases es with
    | nil => cases hes
    | cons a' es =>
      obtain ⟨ha, hrest⟩ := List.cons.inj hes
      obtain rfl := Except.ok.inj ha
      have hstack : (stack ++ a :: es).Perm (a :: (stack ++ es)) := List.perm_middle
      have hmoved : (operatorTexts (a :: stack ++ es)).Perm (operatorTexts (stack ++ a :: es)) :=
        hstack.symm.flatMap_right _
      exact (ih hrest).trans (hmoved.append_right _)
  | @op stack items left right e o _ ih =>
    refine (ih hes).trans ?_
    have hjoined := perm_joined o.text (left.operators.map Operator.text)
      (right.operators.map Operator.text) (operatorTexts (stack ++ es)) (operatorsOf items)
    simpa [operatorTexts, Expr.operators] using hjoined

/-- There is one operand more than there are operators. -/
theorem length_eq (h : Folds stack items e) :
    stack.length + (operandsOf items).length = (operatorsOf items).length + 1 := by
  induction h with
  | done e => rfl
  | operand _ ih =>
    simp only [operandsOf_operand, operatorsOf_operand, List.length_cons] at ih ⊢
    omega
  | op o _ ih =>
    simp only [operandsOf_op, operatorsOf_op, List.length_cons] at ih ⊢
    omega

end Folds

/-! ### Operands and their trees -/

/-- What an operand becomes in the tree: a number and an identifier stay what they are, and a call
has the trees of its arguments, in their order. -/
inductive Operand.Becomes : Operand → Expr → Prop
  | number (value : Double) : Operand.Becomes (.number value) (.number value)
  | ident (name : String) : Operand.Becomes (.ident name) (.ident name)
  | call (name : String) {args : List Flat} {es : List Expr}
      (h : List.Forall₂ (fun arg e => Flat.resolve arg = .ok e) args es) :
      Operand.Becomes (.call name args) (.call name es)

theorem forall₂_of_resolveArgs {args : List Flat} {es : List Expr} (h : resolveArgs args = .ok es) :
    List.Forall₂ (fun arg e => Flat.resolve arg = .ok e) args es := by
  induction args generalizing es with
  | nil =>
    cases h
    exact .nil
  | cons arg args ih =>
    rw [resolveArgs] at h
    cases harg : assemble (resolveOperands arg) with
    | error error => rw [harg] at h; cases h
    | ok e =>
      rw [harg] at h
      cases hargs : resolveArgs args with
      | error error => simp only [bind, Except.bind, hargs] at h; cases h
      | ok es' =>
        simp only [bind, Except.bind, hargs] at h
        cases h
        exact .cons harg (ih hargs)

theorem Operand.becomes_of_resolve {a : Operand} {e : Expr} (h : a.resolve = .ok e) :
    a.Becomes e := by
  cases a with
  | number value =>
    cases h
    exact .number value
  | ident name =>
    cases h
    exact .ident name
  | call name args =>
    rw [Operand.resolve] at h
    cases hargs : resolveArgs args with
    | error error => rw [hargs] at h; cases h
    | ok es =>
      rw [hargs] at h
      cases h
      exact .call name (forall₂_of_resolveArgs hargs)

/-- The tree of an operand is a leaf. -/
theorem Operand.Becomes.isLeaf {a : Operand} {e : Expr} (h : a.Becomes e) :
    e.leaves = [e] ∧ e.operators = [] := by
  cases h <;> exact ⟨rfl, rfl⟩

/-! ### Flat expressions -/

/-- The two passes of a resolution that succeeds, with the trees of the operands. -/
theorem Flat.exists_passes {s : Flat} {e : Expr} (h : Flat.resolve s = .ok e) :
    ∃ out es, Reorders [] s out ∧ Folds [] (resolveOperands out) e ∧
      operandsOf (resolveOperands out) = es.map .ok ∧
      List.Forall₂ Operand.Becomes (operandsOf s) es := by
  rw [Flat.resolve_eq_bind] at h
  cases hout : toPostfix s with
  | error error => rw [hout] at h; cases h
  | ok out =>
    rw [hout] at h
    have hreorders := reorders_of_toPostfixFrom hout
    have hfolds : Folds [] (resolveOperands out) e := folds_of_foldFrom h
    obtain ⟨es, hes, -⟩ := hfolds.leaves_eq
    refine ⟨out, es, hreorders, hfolds, hes, ?_⟩
    have htrees : (operandsOf s).map Operand.resolve = es.map .ok := by
      rw [← hes, resolveOperands_eq_map, operandsOf_map, hreorders.operandsOf_eq]
    rw [← List.forall₂_eq_eq_eq, List.forall₂_map_left_iff, List.forall₂_map_right_iff] at htrees
    exact htrees.imp fun _ _ => Operand.becomes_of_resolve

/-- Trees that are leaves have themselves for leaves, and no operators. -/
theorem forall₂_becomes_isLeaf {as : List Operand} {es : List Expr}
    (h : List.Forall₂ Operand.Becomes as es) :
    es.flatMap Expr.leaves = es ∧ operatorTexts es = [] := by
  induction h with
  | nil => exact ⟨rfl, rfl⟩
  | @cons a e as es ha _ ih =>
    obtain ⟨hleaves, hoperators⟩ := ha.isLeaf
    have hsplit : operatorTexts (e :: es) = e.operators.map Operator.text ++ operatorTexts es :=
      List.flatMap_cons
    rw [List.flatMap_cons, hsplit, hleaves, hoperators, ih.1, ih.2]
    exact ⟨rfl, rfl⟩

section Resolve

variable {s : Flat} {e : Expr}

/-- The leaves of the tree are the operands in their order. -/
theorem Flat.forall₂_leaves (h : Flat.resolve s = .ok e) :
    List.Forall₂ Operand.Becomes (operandsOf s) e.leaves := by
  obtain ⟨out, es, -, hfolds, hes, hbecomes⟩ := Flat.exists_passes h
  obtain ⟨es', hes', hleaves⟩ := hfolds.leaves_eq
  obtain rfl : es' = es :=
    List.map_injective_iff.mpr (fun _ _ => Except.ok.inj) (hes'.symm.trans hes)
  rw [hleaves, List.reverse_nil, List.nil_append, (forall₂_becomes_isLeaf hbecomes).1]
  exact hbecomes

/-- The operators of the tree are those of the sequence. -/
theorem Flat.operators_perm (h : Flat.resolve s = .ok e) :
    (e.operators.map Operator.text).Perm (operatorsOf s) := by
  obtain ⟨out, es, hreorders, hfolds, hes, hbecomes⟩ := Flat.exists_passes h
  have hfolded := hfolds.operators_perm hes
  rw [List.nil_append, (forall₂_becomes_isLeaf hbecomes).2, resolveOperands_eq_map,
    operatorsOf_map] at hfolded
  exact hfolded.trans hreorders.operatorsOf_perm

/-- A sequence that resolves has one operand more than it has operators. -/
theorem Flat.length_operandsOf (h : Flat.resolve s = .ok e) :
    (operandsOf s).length = (operatorsOf s).length + 1 := by
  obtain ⟨out, es, hreorders, hfolds, -, -⟩ := Flat.exists_passes h
  have hlength := hfolds.length_eq
  rw [resolveOperands_eq_map, operandsOf_map, operatorsOf_map, List.length_map,
    hreorders.operandsOf_eq, hreorders.operatorsOf_perm.length_eq, List.length_nil,
    Nat.zero_add] at hlength
  exact hlength

/-- Whatever the order of its items, a sequence that resolves loses nothing: the leaves of the tree
are the operands of the sequence in their order, each call with the trees of its arguments, and the
operators on the inner nodes are those of the sequence. -/
theorem Flat.resolve_conserves (h : Flat.resolve s = .ok e) :
    List.Forall₂ Operand.Becomes (operandsOf s) e.leaves ∧
      (e.operators.map Operator.text).Perm (operatorsOf s) :=
  ⟨Flat.forall₂_leaves h, Flat.operators_perm h⟩

end Resolve

/-- The sequence `a b ( f(c, d - e) * ) +`, which is not well-formed and resolves all the same. -/
def scattered : Flat :=
  [.operand (.ident "a"), .operand (.ident "b"), .opening,
   .operand (.call "f" [[.operand (.ident "c")],
     [.operand (.ident "d"), .op "-", .operand (.ident "e")]]),
   .op "*", .closing, .op "+"]

/-- The operators of its tree are in another order, the operands are not. -/
theorem scattered_resolve_conserves :
    ∃ e, Flat.resolve scattered = .ok e ∧
      List.Forall₂ Operand.Becomes (operandsOf scattered) e.leaves ∧
      e.operators = [.add, .mul] ∧ operatorsOf scattered = ["*", "+"] ∧
      (e.operators.map Operator.text).Perm (operatorsOf scattered) := by
  have h : Flat.resolve scattered =
      .ok (.binary .add (.ident "a") (.binary .mul (.ident "b")
        (.call "f" [.ident "c", .binary .sub (.ident "d") (.ident "e")]))) := by
    decide +kernel
  obtain ⟨hleaves, hoperators⟩ := Flat.resolve_conserves h
  exact ⟨_, h, hleaves, by decide, by decide, hoperators⟩

end NumScript
