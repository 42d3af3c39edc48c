import Mathlib.Data.List.Chain
import NumScript.Proofs.Flat.Conservation
import NumScript.Proofs.Flat.Precedence

/-!
# NumScript.Proofs.Flat.Separation

Which sequences resolve. Neither pass looks at whether operands and operators take turns, and some
sequences resolve that are not well-formed, such as `2 3 +` (`misplacedSum_resolves`). All of them
have two terms next to each other without an operator in between. Where that does not happen, here
or in an argument of a call, exactly the well-formed sequences resolve
(`Flat.resolves_iff_wellFormed`).

The argument is one of counting. A sequence that resolves has one operand more than it has operators
(`Flat.length_operandsOf`). If no term follows another one directly, this is the most it can have
(`Reorders.surplus_le`), and it has less as soon as an operator or the end of a group stands where a
term is due. So terms and operators take turns (`Alternates`), and with groups that end where they
should, this is a derivation of a well-formed sequence.
-/

namespace NumScript

/-! ### Separated sequences -/

section Items

variable {α : Type}

/-- Whether a term can end with the item. -/
def Item.endsTerm : Item α → Bool
  | .operand _ => true
  | .closing => true
  | _ => false

/-- Whether a term can start with the item. -/
def Item.startsTerm : Item α → Bool
  | .operand _ => true
  | .opening => true
  | _ => false

/-- It is not the case that one term ends with the first item and another starts with the second. -/
def Item.Apart (x y : Item α) : Prop := x.endsTerm = false ∨ y.startsTerm = false

instance (x y : Item α) : Decidable (x.Apart y) :=
  inferInstanceAs (Decidable (x.endsTerm = false ∨ y.startsTerm = false))

end Items

/-- No term directly follows another one, in the sequence and in the arguments of its calls. -/
inductive Flat.Separated : Flat → Prop
  | mk {s : Flat} (hchain : s.IsChain Item.Apart)
      (hargs : ∀ name args, .operand (.call name args) ∈ s → ∀ arg ∈ args, Flat.Separated arg) :
      Flat.Separated s

mutual

/-- In a well-formed sequence there is an operator between each two terms. -/
theorem Flat.WellFormed.separated : ∀ {s : Flat}, Flat.WellFormed s → Flat.Separated s
  | _, .term h => h.separated
  | _, .more ht o hs => by
    obtain ⟨hchain, hargs⟩ := ht.separated
    obtain ⟨hchain', hargs'⟩ := hs.separated
    refine ⟨List.isChain_append.mpr ⟨hchain, ?_, ?_⟩, ?_⟩
    · exact List.isChain_cons.mpr ⟨fun y _ => .inl rfl, hchain'⟩
    · intro x _ y hy
      obtain rfl := Option.some.inj hy
      exact .inr rfl
    · intro name args hcall
      rcases List.mem_append.mp hcall with hcall | hcall
      · exact hargs name args hcall
      · cases hcall with
        | tail _ hcall => exact hargs' name args hcall

theorem Flat.IsTerm.separated : ∀ {s : Flat}, Flat.IsTerm s → Flat.Separated s
  | _, .number value => ⟨.singleton _, fun name args hcall => by simp at hcall⟩
  | _, .ident x => ⟨.singleton _, fun name args hcall => by simp at hcall⟩
  | _, @Flat.IsTerm.call f args h => by
    have hargs : ∀ arg ∈ args, Flat.Separated arg := fun arg harg => (h arg harg).separated
    refine ⟨.singleton _, fun name args' hcall => ?_⟩
    obtain ⟨-, rfl⟩ := Operand.call.inj (Item.operand.inj (List.mem_singleton.mp hcall))
    exact hargs
  | _, .group (s := s) h => by
    obtain ⟨hchain, hargs⟩ := h.separated
    refine ⟨List.isChain_cons.mpr ⟨fun y _ => .inl rfl, ?_⟩, ?_⟩
    · refine List.isChain_append.mpr ⟨hchain, .singleton _, fun x _ y hy => ?_⟩
      obtain rfl := Option.some.inj hy
      exact .inr rfl
    · intro name args hcall
      have hinner : .operand (.call name args) ∈ s := by simpa using hcall
      exact hargs name args hinner

end

/-! ### Counting operands and operators -/

section Surplus

variable {α : Type}

/-- By how many the operands of a sequence outnumber its operators. -/
def surplus (items : List (Item α)) : Int :=
  (operandsOf items).length - (operatorsOf items).length

@[simp]
theorem surplus_nil : surplus ([] : List (Item α)) = 0 := rfl

@[simp]
theorem surplus_operand (a : α) (items : List (Item α)) :
    surplus (.operand a :: items) = surplus items + 1 := by
  simp only [surplus, operandsOf_operand, operatorsOf_operand, List.length_cons]
  omega

@[simp]
theorem surplus_op (text : String) (items : List (Item α)) :
    surplus (.op text :: items) = surplus items - 1 := by
  simp only [surplus, operandsOf_op, operatorsOf_op, List.length_cons]
  omega

@[simp]
theorem surplus_opening (items : List (Item α)) : surplus (.opening :: items) = surplus items := rfl

@[simp]
theorem surplus_closing (items : List (Item α)) : surplus (.closing :: items) = surplus items := rfl

/-- Whether a sequence starts like a term. -/
def beginsWithTerm (items : List (Item α)) : Bool := items.head?.any Item.startsTerm

/-- Behind the end of a term no other one starts. -/
theorem not_beginsWithTerm {x : Item α} {items : List (Item α)}
    (h : (x :: items).IsChain Item.Apart) (hx : x.endsTerm = true) :
    beginsWithTerm items = false := by
  cases items with
  | nil => rfl
  | cons y items =>
    rcases (List.isChain_cons_cons.mp h).1 with hends | hstarts
    · rw [hx] at hends
      cases hends
    · exact hstarts

/-- A sequence in which no term follows another one has at most one operand more than operators, and
none more if it does not start with a term. -/
theorem Reorders.surplus_le {stack : List Waiting} {items out : List (Item α)}
    (h : Reorders stack items out) (hchain : items.IsChain Item.Apart) :
    surplus items ≤ 1 ∧ (beginsWithTerm items = false → surplus items ≤ 0) := by
  induction h with
  | done ops => simp
  | @operand stack items out a _ ih =>
    have hrest := (ih hchain.tail).2 (not_beginsWithTerm hchain rfl)
    rw [surplus_operand]
    exact ⟨by omega, fun hstart => by cases hstart⟩
  | op released text _ ih =>
    have hrest := (ih hchain.tail).1
    rw [surplus_op]
    exact ⟨by omega, fun _ => by omega⟩
  | opening _ ih => exact ⟨(ih hchain.tail).1, fun hstart => by cases hstart⟩
  | closing released _ ih =>
    have hrest := (ih hchain.tail).2 (not_beginsWithTerm hchain rfl)
    rw [surplus_closing]
    exact ⟨by omega, fun _ => hrest⟩

end Surplus

/-! ### Taking turns -/

/-- The number of groups that wait on the stack. -/
def waitingGroups (stack : List Waiting) : Nat := stack.count .group

@[simp]
theorem waitingGroups_op (text : String) (stack : List Waiting) :
    waitingGroups (.op text :: stack) = waitingGroups stack := by
  simp [waitingGroups]

@[simp]
theorem waitingGroups_group (stack : List Waiting) :
    waitingGroups (.group :: stack) = waitingGroups stack + 1 := by
  simp [waitingGroups]

@[simp]
theorem waitingGroups_append (ops : List String) (stack : List Waiting) :
    waitingGroups (ops.map .op ++ stack) = waitingGroups stack := by
  induction ops with
  | nil => rfl
  | cons text ops ih => rw [List.map_cons, List.cons_append, waitingGroups_op, ih]

/-- `Alternates behind n s`: inside `n` groups, and behind a term or not, the sequence `s` goes on
with terms and operators that take turns, and all groups end. -/
inductive Alternates : Bool → Nat → Flat → Prop
  | done : Alternates true 0 []
  | operand {n : Nat} {s : Flat} {a : Operand} (ha : Flat.IsTerm [.operand a])
      (h : Alternates true n s) : Alternates false n (.operand a :: s)
  | opening {n : Nat} {s : Flat} (h : Alternates false (n + 1) s) :
      Alternates false n (.opening :: s)
  | op {n : Nat} {s : Flat} (o : Operator) (h : Alternates false n s) :
      Alternates true n (.op o.text :: s)
  | closing {n : Nat} {s : Flat} (h : Alternates true n s) : Alternates true (n + 1) (.closing :: s)

/-- With as many operands as there can be, terms and operators take turns. -/
theorem Reorders.alternates {stack : List Waiting} {s out : Flat} (h : Reorders stack s out)
    (hchain : s.IsChain Item.Apart) (hterms : ∀ a ∈ operandsOf s, Flat.IsTerm [.operand a])
    (hops : ∀ text ∈ operatorsOf s, ∃ o : Operator, o.text = text) :
    (surplus s = 1 → Alternates false (waitingGroups stack) s) ∧
      (surplus s = 0 → beginsWithTerm s = false → Alternates true (waitingGroups stack) s) := by
  induction h with
  | done ops =>
    have hgroups : waitingGroups (ops.map .op) = 0 := by
      have happend := waitingGroups_append ops []
      rwa [List.append_nil] at happend
    rw [hgroups]
    exact ⟨fun hone => absurd hone (by decide), fun _ _ => .done⟩
  | @operand stack s out a _ ih =>
    obtain ⟨ha, hmore⟩ := List.forall_mem_cons.mp hterms
    have hrest := (ih hchain.tail hmore hops).2
    refine ⟨fun hone => ?_, fun _ hstart => by cases hstart⟩
    rw [surplus_operand] at hone
    exact .operand ha (hrest (by omega) (not_beginsWithTerm hchain rfl))
  | @op stack s out released text hrun ih =>
    obtain ⟨⟨o, rfl⟩, hmore⟩ := List.forall_mem_cons.mp hops
    obtain ⟨hmost, -⟩ := hrun.surplus_le hchain.tail
    have hrest := (ih hchain.tail hterms hmore).1
    rw [surplus_op, waitingGroups_append]
    rw [waitingGroups_op] at hrest
    exact ⟨fun hone => by omega, fun hzero _ => .op o (hrest (by omega))⟩
  | opening _ ih =>
    have hrest := (ih hchain.tail hterms hops).1
    rw [waitingGroups_group] at hrest
    exact ⟨fun hone => .opening (hrest hone), fun _ hstart => by cases hstart⟩
  | @closing stack s out released hrun ih =>
    have hstart := not_beginsWithTerm hchain rfl
    have hmost := (hrun.surplus_le hchain.tail).2 hstart
    have hrest := (ih hchain.tail hterms hops).2
    rw [surplus_closing, waitingGroups_append, waitingGroups_group]
    exact ⟨fun hone => by omega, fun hzero _ => .closing (hrest hzero hstart)⟩

/-- What follows a term in a well-formed sequence. -/
inductive Flat.IsTail : Flat → Prop
  | nil : Flat.IsTail []
  | more {s : Flat} (o : Operator) (hs : Flat.WellFormed s) : Flat.IsTail (.op o.text :: s)

theorem Flat.IsTerm.append {t u : Flat} (ht : Flat.IsTerm t) (hu : Flat.IsTail u) :
    Flat.WellFormed (t ++ u) := by
  cases hu with
  | nil =>
    rw [List.append_nil]
    exact .term ht
  | more o hs => exact .more ht o hs

/-- The ends of `n` groups, each followed by what may follow a term. -/
inductive Flat.Closes : Nat → Flat → Prop
  | done : Flat.Closes 0 []
  | next {n : Nat} {u v : Flat} (hu : Flat.IsTail u) (hv : Flat.Closes n v) :
      Flat.Closes (n + 1) (.closing :: (u ++ v))

/-- What is complete inside the innermost group, and the ends of the groups. -/
theorem Alternates.exists_split {behind : Bool} {n : Nat} {s : Flat} (h : Alternates behind n s) :
    ∃ u v, s = u ++ v ∧ (if behind then Flat.IsTail u else Flat.WellFormed u) ∧
      Flat.Closes n v := by
  induction h with
  | done => exact ⟨[], [], rfl, .nil, .done⟩
  | @operand n s a ha _ ih =>
    obtain ⟨u, v, rfl, hu, hv⟩ := ih
    exact ⟨.operand a :: u, v, rfl, ha.append hu, hv⟩
  | opening _ ih =>
    obtain ⟨u, v, rfl, hu, hv⟩ := ih
    cases hv with
    | @next _ u' v' hu' hv' =>
      -- the group that was opened here is a term
      have hgroup : Flat.WellFormed (.opening :: u ++ [.closing] ++ u') :=
        (Flat.IsTerm.group hu).append hu'
      exact ⟨_, v', by simp, hgroup, hv'⟩
  | op o _ ih =>
    obtain ⟨u, v, rfl, hu, hv⟩ := ih
    exact ⟨.op o.text :: u, v, rfl, .more o hu, hv⟩
  | @closing n s _ ih =>
    obtain ⟨u, v, rfl, hu, hv⟩ := ih
    exact ⟨[], .closing :: (u ++ v), rfl, .nil, .next hu hv⟩

theorem Alternates.wellFormed {s : Flat} (h : Alternates false 0 s) : Flat.WellFormed s := by
  obtain ⟨u, v, rfl, hu, hv⟩ := h.exists_split
  cases hv
  rw [List.append_nil]
  exact hu

/-! ### Sequences that resolve -/

theorem exists_of_forall₂ {α β : Type} {r : α → β → Prop} {as : List α} {bs : List β}
    (h : List.Forall₂ r as bs) : ∀ a ∈ as, ∃ b, r a b := by
  induction h with
  | nil => exact List.forall_mem_nil _
  | cons hr _ ih => exact List.forall_mem_cons.mpr ⟨⟨_, hr⟩, ih⟩

theorem mem_of_mem_operandsOf {α : Type} {a : α} {items : List (Item α)}
    (h : a ∈ operandsOf items) : .operand a ∈ items := by
  obtain ⟨item, hitem, ha⟩ := List.mem_filterMap.mp h
  cases item with
  | operand b =>
    obtain rfl := Option.some.inj ha
    exact hitem
  | _ => cases ha

/-- An operand is a term if the arguments of a call that resolve are well-formed. -/
theorem Operand.Becomes.isTerm {a : Operand} {e : Expr} (h : a.Becomes e)
    (hargs : ∀ name args, a = .call name args → ∀ arg ∈ args, ∀ {e : Expr},
      Flat.resolve arg = .ok e → Flat.WellFormed arg) : Flat.IsTerm [.operand a] := by
  cases h with
  | number value => exact .number value
  | ident name => exact .ident name
  | call name hes =>
    refine .call name fun arg harg => ?_
    obtain ⟨e, he⟩ := exists_of_forall₂ hes arg harg
    exact hargs name _ rfl arg harg he

/-- A separated sequence that resolves is well-formed. -/
theorem Flat.Separated.wellFormed {s : Flat} (h : Flat.Separated s) :
    ∀ {e : Expr}, Flat.resolve s = .ok e → Flat.WellFormed s := by
  -- the induction goes into the arguments of calls
  induction h with
  | @mk s hchain _ ih =>
    intro e he
    obtain ⟨out, es, hreorders, -, -, hbecomes⟩ := Flat.exists_passes he
    have hterms : ∀ a ∈ operandsOf s, Flat.IsTerm [.operand a] := by
      intro a ha
      obtain ⟨leaf, hleaf⟩ := exists_of_forall₂ hbecomes a ha
      refine hleaf.isTerm fun name args hcall => ?_
      exact ih name args (hcall ▸ mem_of_mem_operandsOf ha)
    have hops : ∀ text ∈ operatorsOf s, ∃ o : Operator, o.text = text := by
      intro text htext
      obtain ⟨o, -, ho⟩ := List.mem_map.mp ((Flat.operators_perm he).mem_iff.mpr htext)
      exact ⟨o, ho⟩
    have hsurplus : surplus s = 1 := by
      have hlength := Flat.length_operandsOf he
      rw [surplus]
      omega
    exact ((hreorders.alternates hchain hterms hops).1 hsurplus).wellFormed

/-- Well-formed are the separated sequences that resolve. -/
theorem Flat.wellFormed_iff {s : Flat} :
    Flat.WellFormed s ↔ Flat.Separated s ∧ ∃ e, Flat.resolve s = .ok e := by
  constructor
  · intro h
    exact ⟨h.separated, h.exists_resolve⟩
  · intro ⟨hseparated, e, he⟩
    exact hseparated.wellFormed he

/-- If no term directly follows another one, exactly the well-formed sequences resolve, and all
others are refused. -/
theorem Flat.resolves_iff_wellFormed {s : Flat} (h : Flat.Separated s) :
    ((∃ e, Flat.resolve s = .ok e) ↔ Flat.WellFormed s) ∧
      ((∃ error, Flat.resolve s = .error error) ↔ ¬ Flat.WellFormed s) := by
  have hresolves : (∃ e, Flat.resolve s = .ok e) ↔ Flat.WellFormed s := by
    rw [Flat.wellFormed_iff, and_iff_right h]
  refine ⟨hresolves, ?_⟩
  rw [← hresolves]
  cases Flat.resolve s with
  | ok e => simp
  | error error => simp

/-- The sequence `f(x, y -) * ( + z )`, in which an operator lacks its right operand and another one
its left operand. -/
def danglingSigns : Flat :=
  [.operand (.call "f" [[.operand (.ident "x")], [.operand (.ident "y"), .op "-"]]), .op "*",
   .opening, .op "+", .operand (.ident "z"), .closing]

theorem danglingSigns_refused :
    Flat.Separated danglingSigns ∧ ¬ Flat.WellFormed danglingSigns ∧
      ∃ error, Flat.resolve danglingSigns = .error error := by
  have hplain : ∀ {s : Flat}, s.IsChain Item.Apart →
      (∀ name args, .operand (.call name args) ∉ s) → Flat.Separated s := fun hchain hcalls =>
    ⟨hchain, fun name args hcall => absurd hcall (hcalls name args)⟩
  have hseparated : Flat.Separated danglingSigns := by
    refine ⟨by decide, fun name args hcall => ?_⟩
    obtain ⟨-, rfl⟩ : "f" = name ∧ _ = args := by simpa [danglingSigns, eq_comm] using hcall
    refine List.forall_mem_cons.mpr ⟨?_, List.forall_mem_singleton.mpr ?_⟩
    · exact hplain (by decide) (by simp)
    · exact hplain (by decide) (by simp)
  have herror : (Flat.resolve danglingSigns).toOption = none := by decide +kernel
  have hrefused : ∃ error, Flat.resolve danglingSigns = .error error := by
    cases h : Flat.resolve danglingSigns with
    | ok e => rw [h] at herror; cases herror
    | error error => exact ⟨error, rfl⟩
  exact ⟨hseparated, (Flat.resolves_iff_wellFormed hseparated).2.mp hrefused, hrefused⟩

/-- The sequence `a b +`. -/
def misplacedSum : Flat := [.operand (.ident "a"), .operand (.ident "b"), .op "+"]

/-- An operator behind its operands is taken for one between them. -/
theorem misplacedSum_resolves :
    Flat.resolve misplacedSum = .ok (.binary .add (.ident "a") (.ident "b")) ∧
      ¬ Flat.WellFormed misplacedSum := by
  refine ⟨by decide +kernel, fun h => ?_⟩
  obtain ⟨hchain, -⟩ := h.separated
  exact absurd hchain (by decide)

end NumScript
