import NumScript.Proofs.Flat.Conservation

/-!
# NumScript.Proofs.Flat.PostOrder

Folding undoes the listing of a tree in post-order. `PostOrder s e` says that `s` lists the tree
`e`: a leaf by its operand, an inner node by the listing of its left part, that of its right part
and its operator. A sequence is folded to a tree exactly if it lists that tree, and every other
sequence is refused (`Flat.foldPostfix_iff_postOrder`).

What has been passed falls into listings, one for each tree on the stack (`Stacked`). One more item
either leads to such a stack again (`Item.Steps`) or is in the way (`Item.Blocks`), and there is no
third case (`Item.steps_or_blocks`). So every sequence comes to its end or to an item that is in the
way, which decides whether it lists a tree (`Stacked.exists_postOrder_or_refused`).
-/

namespace NumScript

/-! ### Operands -/

/-- The operand has no tree: it is a call with an argument that does not resolve, and the error is
that of the first such argument. -/
inductive Operand.Fails : Operand → ResolveError → Prop
  | call (name : String) {done : List Flat} {arg : Flat} {error : ResolveError} (more : List Flat)
      (hdone : ∀ arg ∈ done, ∃ e, Flat.resolve arg = .ok e)
      (harg : Flat.resolve arg = .error error) :
      Operand.Fails (.call name (done ++ arg :: more)) error

theorem resolveArgs_cons (arg : Flat) (args : List Flat) :
    resolveArgs (arg :: args) =
      (Flat.resolve arg).bind fun e => (resolveArgs args).map (e :: ·) := by
  rw [resolveArgs]
  rfl

theorem resolveArgs_of_forall₂ {args : List Flat} {es : List Expr}
    (h : List.Forall₂ (fun arg e => Flat.resolve arg = .ok e) args es) :
    resolveArgs args = .ok es := by
  induction h with
  | nil => rw [resolveArgs]; rfl
  | cons harg _ ih => rw [resolveArgs_cons, harg, ih]; rfl

theorem resolveArgs_of_error {done : List Flat} {arg : Flat} {error : ResolveError}
    (hdone : ∀ arg ∈ done, ∃ e, Flat.resolve arg = .ok e) (harg : Flat.resolve arg = .error error)
    (more : List Flat) : resolveArgs (done ++ arg :: more) = .error error := by
  induction done with
  | nil => rw [List.nil_append, resolveArgs_cons, harg]; rfl
  | cons first done ih =>
    obtain ⟨⟨e, he⟩, hdone⟩ := List.forall_mem_cons.mp hdone
    rw [List.cons_append, resolveArgs_cons, he, ih hdone]
    rfl

theorem Operand.Becomes.resolve_eq {a : Operand} {e : Expr} (h : a.Becomes e) :
    a.resolve = .ok e := by
  cases h with
  | number value => rw [Operand.resolve]; rfl
  | ident name => rw [Operand.resolve]; rfl
  | call name h => rw [Operand.resolve, resolveArgs_of_forall₂ h]; rfl

theorem Operand.Fails.resolve_eq {a : Operand} {error : ResolveError} (h : a.Fails error) :
    a.resolve = .error error := by
  cases h with
  | call name more hdone harg => rw [Operand.resolve, resolveArgs_of_error hdone harg more]; rfl

/-- Arguments all resolve, or there is a first one that does not. -/
theorem exists_forall₂_or_error (args : List Flat) :
    (∃ es, List.Forall₂ (fun arg e => Flat.resolve arg = .ok e) args es) ∨
      ∃ done arg more error, args = done ++ arg :: more ∧
        (∀ arg ∈ done, ∃ e, Flat.resolve arg = .ok e) ∧ Flat.resolve arg = .error error := by
  induction args with
  | nil => exact .inl ⟨[], .nil⟩
  | cons first args ih =>
    cases hfirst : Flat.resolve first with
    | error error => exact .inr ⟨[], first, args, error, rfl, List.forall_mem_nil _, hfirst⟩
    | ok e =>
      rcases ih with ⟨es, hes⟩ | ⟨done, arg, more, error, rfl, hdone, harg⟩
      · exact .inl ⟨e :: es, .cons hfirst hes⟩
      · exact .inr ⟨first :: done, arg, more, error, rfl,
          List.forall_mem_cons.mpr ⟨⟨e, hfirst⟩, hdone⟩, harg⟩

theorem Operand.becomes_or_fails (a : Operand) :
    (∃ e, a.Becomes e) ∨ ∃ error, a.Fails error := by
  cases a with
  | number value => exact .inl ⟨_, .number value⟩
  | ident name => exact .inl ⟨_, .ident name⟩
  | call name args =>
    rcases exists_forall₂_or_error args with ⟨es, hes⟩ | ⟨done, arg, more, error, rfl, hdone, harg⟩
    · exact .inl ⟨_, .call name hes⟩
    · exact .inr ⟨error, .call name more hdone harg⟩

/-! ### Listings -/

/-- The sequence lists the tree in post-order. -/
inductive PostOrder : Flat → Expr → Prop
  | leaf {a : Operand} {e : Expr} (h : a.Becomes e) : PostOrder [.operand a] e
  | binary (o : Operator) {s t : Flat} {left right : Expr} (hleft : PostOrder s left)
      (hright : PostOrder t right) :
      PostOrder (s ++ (t ++ [.op o.text])) (.binary o left right)

/-- The sequence consists of listings, one for each tree on the stack. The last listing is that of
the topmost tree, which comes first. -/
inductive Stacked : Flat → List Expr → Prop
  | nil : Stacked [] []
  | push {s t : Flat} {stack : List Expr} {e : Expr} (hs : Stacked s stack) (ht : PostOrder t e) :
      Stacked (s ++ t) (e :: stack)

/-! ### Steps of the folding -/

/-- The item takes the first stack to the second one: an operand is put on top, and an operator of
the language joins the two trees on top. -/
inductive Item.Steps : Item Operand → List Expr → List Expr → Prop
  | operand {a : Operand} {e : Expr} (h : a.Becomes e) (stack : List Expr) :
      Item.Steps (.operand a) stack (e :: stack)
  | op (o : Operator) (left right : Expr) (stack : List Expr) :
      Item.Steps (.op o.text) (right :: left :: stack) (.binary o left right :: stack)

/-- On a stack with so many trees the item is in the way, for the given reason. -/
inductive Item.Blocks : Item Operand → Nat → ResolveError → Prop
  | argument {a : Operand} {error : ResolveError} (h : a.Fails error) (count : Nat) :
      Item.Blocks (.operand a) count error
  | missing (text : String) {count : Nat} (h : count < 2) :
      Item.Blocks (.op text) count (.missingOperand text)
  | unknown {text : String} (htext : ∀ o : Operator, o.text ≠ text) {count : Nat} (h : 2 ≤ count) :
      Item.Blocks (.op text) count (.unknownOperator text)
  | opening (count : Nat) : Item.Blocks .opening count (.notPostfix "TokOpen")
  | closing (count : Nat) : Item.Blocks .closing count (.notPostfix "TokClose")
  | blank (count : Nat) : Item.Blocks .blank count (.notPostfix "ExprToken")

theorem operatorNamed_of_unknown {text : String} (h : ∀ o : Operator, o.text ≠ text) :
    operatorNamed text = .error (.unknownOperator text) := by
  rw [operatorNamed]
  cases hnamed : Operator.ofText? text with
  | none => rfl
  | some o => exact absurd (Operator.text_of_ofText? hnamed) (h o)

theorem Item.Steps.foldFrom_eq {item : Item Operand} {stack stack' : List Expr}
    (h : item.Steps stack stack') (items : Flat) :
    foldFrom stack (resolveOperands (item :: items)) = foldFrom stack' (resolveOperands items) := by
  rw [resolveOperands]
  cases h with
  | operand h stack =>
    rw [resolveOperand, foldFrom, h.resolve_eq]
    rfl
  | op o left right stack =>
    rw [resolveOperand, foldFrom, operatorNamed_text]
    rfl

theorem Item.Blocks.foldFrom_eq {item : Item Operand} {stack : List Expr} {error : ResolveError}
    (h : item.Blocks stack.length error) (items : Flat) :
    foldFrom stack (resolveOperands (item :: items)) = .error error := by
  rw [resolveOperands]
  generalize hcount : stack.length = count at h
  cases h with
  | argument h =>
    rw [resolveOperand, foldFrom, h.resolve_eq]
    rfl
  | missing text h =>
    rw [resolveOperand]
    rcases stack with _ | ⟨right, _ | ⟨left, stack⟩⟩
    · rfl
    · rfl
    · simp only [List.length_cons] at hcount
      omega
  | unknown htext h =>
    rw [resolveOperand]
    rcases stack with _ | ⟨right, _ | ⟨left, stack⟩⟩
    · simp only [List.length_nil] at hcount
      omega
    · simp only [List.length_cons, List.length_nil] at hcount
      omega
    · rw [foldFrom, operatorNamed_of_unknown htext]
      rfl
  | opening => rw [resolveOperand, foldFrom]
  | closing => rw [resolveOperand, foldFrom]
  | blank => rw [resolveOperand, foldFrom]

/-- An item leads on or is in the way. -/
theorem Item.steps_or_blocks (item : Item Operand) (stack : List Expr) :
    (∃ stack', item.Steps stack stack') ∨ ∃ error, item.Blocks stack.length error := by
  cases item with
  | operand a =>
    rcases a.becomes_or_fails with ⟨e, he⟩ | ⟨error, herror⟩
    · exact .inl ⟨_, .operand he stack⟩
    · exact .inr ⟨error, .argument herror _⟩
  | op text =>
    rcases stack with _ | ⟨right, _ | ⟨left, stack⟩⟩
    · exact .inr ⟨_, .missing text (by simp)⟩
    · exact .inr ⟨_, .missing text (by simp)⟩
    · by_cases hnamed : ∃ o : Operator, o.text = text
      · obtain ⟨o, rfl⟩ := hnamed
        exact .inl ⟨_, .op o left right stack⟩
      · exact .inr ⟨_, .unknown (fun o ho => hnamed ⟨o, ho⟩) (by simp)⟩
  | opening => exact .inr ⟨_, .opening _⟩
  | closing => exact .inr ⟨_, .closing _⟩
  | blank => exact .inr ⟨_, .blank _⟩

/-- Behind one more item the trees on the stack are listed again. -/
theorem Item.Steps.stacked {item : Item Operand} {s : Flat} {stack stack' : List Expr}
    (h : item.Steps stack stack') (hs : Stacked s stack) : Stacked (s ++ [item]) stack' := by
  cases h with
  | operand h => exact .push hs (.leaf h)
  | op o left right stack =>
    -- the two listings at the end and the operator behind them are one listing
    cases hs with
    | push hs hright =>
      cases hs with
      | push hs hleft =>
        have hjoined := hs.push (hleft.binary o hright)
        rwa [← List.append_assoc, ← List.append_assoc] at hjoined

/-! ### Runs of the folding -/

/-- A listing puts its tree on top of the stack. -/
theorem PostOrder.foldFrom_eq {s : Flat} {e : Expr} (h : PostOrder s e) (stack : List Expr)
    (items : Flat) :
    foldFrom stack (resolveOperands (s ++ items)) =
      foldFrom (e :: stack) (resolveOperands items) := by
  induction h generalizing stack items with
  | leaf h => exact (Item.Steps.operand h stack).foldFrom_eq items
  | @binary o s t left right _ _ ihleft ihright =>
    rw [List.append_assoc, List.append_assoc, ihleft, ihright]
    exact (Item.Steps.op o left right stack).foldFrom_eq items

/-- When listings have been passed, their trees are on the stack. -/
theorem Stacked.foldFrom_eq {s : Flat} {stack : List Expr} (h : Stacked s stack) (items : Flat) :
    foldFrom [] (resolveOperands (s ++ items)) = foldFrom stack (resolveOperands items) := by
  induction h generalizing items with
  | nil => rfl
  | push _ ht ih => rw [List.append_assoc, ih, ht.foldFrom_eq]

/-- The sequence lists no tree: it comes to an item that is in the way, or it ends with another
number of trees than one. -/
inductive Flat.Refused : Flat → ResolveError → Prop
  | blocked {s : Flat} {stack : List Expr} {item : Item Operand} {error : ResolveError}
      (hs : Stacked s stack) (h : item.Blocks stack.length error) (items : Flat) :
      Flat.Refused (s ++ item :: items) error
  | leftover {s : Flat} {stack : List Expr} (hs : Stacked s stack) (h : stack.length ≠ 1) :
      Flat.Refused s (.leftover stack.length)

theorem PostOrder.foldPostfix_eq {s : Flat} {e : Expr} (h : PostOrder s e) :
    Flat.foldPostfix s = .ok e := by
  have hrun := h.foldFrom_eq [] []
  rwa [List.append_nil] at hrun

theorem Flat.Refused.foldPostfix_eq {s : Flat} {error : ResolveError} (h : Flat.Refused s error) :
    Flat.foldPostfix s = .error error := by
  cases h with
  | blocked hs h items => exact (hs.foldFrom_eq _).trans (h.foldFrom_eq items)
  | @leftover s stack hs h =>
    have hrun := hs.foldFrom_eq []
    rw [List.append_nil] at hrun
    refine Eq.trans hrun ?_
    rcases stack with _ | ⟨top, _ | ⟨below, stack⟩⟩
    · rfl
    · exact absurd rfl h
    · rfl

/-- From any stack on, a sequence turns out to list one tree or is refused. -/
theorem Stacked.exists_postOrder_or_refused {s : Flat} {stack : List Expr} (h : Stacked s stack)
    (items : Flat) :
    (∃ e, PostOrder (s ++ items) e) ∨ ∃ error, Flat.Refused (s ++ items) error := by
  induction items generalizing s stack with
  | nil =>
    rw [List.append_nil]
    by_cases hone : stack.length = 1
    · obtain ⟨e, rfl⟩ := List.length_eq_one_iff.mp hone
      cases h with
      | push hs ht =>
        cases hs
        exact .inl ⟨e, ht⟩
    · exact .inr ⟨_, .leftover h hone⟩
  | cons item items ih =>
    rcases item.steps_or_blocks stack with ⟨stack', hsteps⟩ | ⟨error, hblocks⟩
    · have hrest := ih (hsteps.stacked h)
      rwa [List.append_assoc] at hrest
    · exact .inr ⟨error, .blocked h hblocks items⟩

theorem Flat.foldPostfix_eq_ok_iff {s : Flat} {e : Expr} :
    Flat.foldPostfix s = .ok e ↔ PostOrder s e := by
  constructor
  · intro hfold
    rcases Stacked.nil.exists_postOrder_or_refused s with ⟨e', he'⟩ | ⟨error, herror⟩
    · have hlisted := he'.foldPostfix_eq
      rw [List.nil_append, hfold] at hlisted
      cases hlisted
      exact he'
    · have hrefused := herror.foldPostfix_eq
      rw [List.nil_append, hfold] at hrefused
      cases hrefused
  · exact PostOrder.foldPostfix_eq

theorem Flat.foldPostfix_eq_error_iff {s : Flat} {error : ResolveError} :
    Flat.foldPostfix s = .error error ↔ Flat.Refused s error := by
  constructor
  · intro hfold
    rcases Stacked.nil.exists_postOrder_or_refused s with ⟨e, he⟩ | ⟨error', herror'⟩
    · have hlisted := he.foldPostfix_eq
      rw [List.nil_append, hfold] at hlisted
      cases hlisted
    · have hrefused := herror'.foldPostfix_eq
      rw [List.nil_append, hfold] at hrefused
      cases hrefused
      exact herror'
  · exact Flat.Refused.foldPostfix_eq

/-- Folding is the inverse of listing in post-order: a sequence is folded to a tree exactly if it
lists that tree, it is refused with an error exactly if it comes to what the error says, and it is
refused exactly if it lists no tree. -/
theorem Flat.foldPostfix_iff_postOrder (s : Flat) :
    (∀ e, Flat.foldPostfix s = .ok e ↔ PostOrder s e) ∧
      (∀ error, Flat.foldPostfix s = .error error ↔ Flat.Refused s error) ∧
      ((∃ error, Flat.foldPostfix s = .error error) ↔ ¬ ∃ e, PostOrder s e) := by
  refine ⟨fun _ => Flat.foldPostfix_eq_ok_iff, fun _ => Flat.foldPostfix_eq_error_iff, ?_⟩
  simp only [← Flat.foldPostfix_eq_ok_iff]
  cases Flat.foldPostfix s with
  | ok e => simp
  | error error => simp

end NumScript
