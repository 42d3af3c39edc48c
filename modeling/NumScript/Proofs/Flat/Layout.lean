import NumScript.Flat.Resolve

/-!
# NumScript.Proofs.Flat.Layout

Which flat expressions denote a tree, and which tree that is.

* `Flat.WellFormed` — terms with an operator between each two of them, where a term is an operand
  with well-formed arguments, or a well-formed group.
* `strata` and `Derives` — the precedence grammar: one nonterminal for each stratum of operators,
  from the loosest to the tightest, and below them all the terms.
* `Layout` — a tree that still knows its groups. Its in-order `reading` is a flat expression again,
  and `Layout.Respects` says that no operand without a group around it binds too loosely for the
  operator that takes it.

The grammar and the layouts say the same (`derives_iff_layout`), and every well-formed expression
has a layout (`Flat.WellFormed.exists_layout`).
-/

namespace NumScript

/-! ### Well-formed flat expressions -/

mutual

/-- Terms, with an operator between each two of them. -/
inductive Flat.WellFormed : Flat → Prop
  | term {s : Flat} (h : Flat.IsTerm s) : Flat.WellFormed s
  | more {t s : Flat} (ht : Flat.IsTerm t) (o : Operator) (hs : Flat.WellFormed s) :
      Flat.WellFormed (t ++ .op o.text :: s)

/-- A single term. -/
inductive Flat.IsTerm : Flat → Prop
  | number (value : Double) : Flat.IsTerm [.operand (.number value)]
  | ident (name : String) : Flat.IsTerm [.operand (.ident name)]
  | call (name : String) {args : List Flat} (h : ∀ arg ∈ args, Flat.WellFormed arg) :
      Flat.IsTerm [.operand (.call name args)]
  | group {s : Flat} (h : Flat.WellFormed s) : Flat.IsTerm (.opening :: s ++ [.closing])

end

/-! ### The precedence grammar -/

/-- The side to which a run of operators groups. -/
inductive Side where
  | left
  | right
deriving DecidableEq, Repr

/-- Operators that bind equally tightly. -/
structure Stratum where
  operators : List Operator
  side : Side
deriving DecidableEq, Repr

/-- The strata of the language, the loosest first. -/
def strata : List Stratum :=
  [⟨[.eq, .neq], .left⟩,
   ⟨[.leq, .geq, .lt, .gt], .left⟩,
   ⟨[.add, .sub], .left⟩,
   ⟨[.mul, .div, .mod], .left⟩,
   ⟨[.pow], .right⟩]

mutual

/-- `Derives k s e`: from the nonterminal of the stratum `k` the grammar derives the flat expression
`s`, with the tree `e`. The nonterminal behind the last stratum is that of the terms. -/
inductive Derives : Nat → Flat → Expr → Prop
  | term {s : Flat} {e : Expr} (h : DerivesTerm s e) : Derives strata.length s e
  | tighter {k : Nat} {s : Flat} {e : Expr} (h : Derives (k + 1) s e) : Derives k s e
  | left {k : Nat} {σ : Stratum} {o : Operator} {l r : Flat} {a b : Expr}
      (hσ : strata[k]? = some σ) (hside : σ.side = .left) (ho : o ∈ σ.operators)
      (hl : Derives k l a) (hr : Derives (k + 1) r b) :
      Derives k (l ++ .op o.text :: r) (.binary o a b)
  | right {k : Nat} {σ : Stratum} {o : Operator} {l r : Flat} {a b : Expr}
      (hσ : strata[k]? = some σ) (hside : σ.side = .right) (ho : o ∈ σ.operators)
      (hl : Derives (k + 1) l a) (hr : Derives k r b) :
      Derives k (l ++ .op o.text :: r) (.binary o a b)

/-- The grammar derives the term `s`, with the tree `e`. -/
inductive DerivesTerm : Flat → Expr → Prop
  | number (value : Double) : DerivesTerm [.operand (.number value)] (.number value)
  | ident (name : String) : DerivesTerm [.operand (.ident name)] (.ident name)
  | call (name : String) {args : List Flat} {es : List Expr} (h : DerivesArgs args es) :
      DerivesTerm [.operand (.call name args)] (.call name es)
  | group {s : Flat} {e : Expr} (h : Derives 0 s e) : DerivesTerm (.opening :: s ++ [.closing]) e

/-- The grammar derives each of the arguments `args`, with the trees `es`. -/
inductive DerivesArgs : List Flat → List Expr → Prop
  | nil : DerivesArgs [] []
  | cons {arg : Flat} {e : Expr} {args : List Flat} {es : List Expr} (h : Derives 0 arg e)
      (hs : DerivesArgs args es) : DerivesArgs (arg :: args) (e :: es)

end

/-! ### Layouts -/

/-- A tree with its groups. -/
inductive Layout where
  | number (value : Double)
  | ident (name : String)
  | call (name : String) (args : List Layout)
  | group (inner : Layout)
  | binary (op : Operator) (left right : Layout)

mutual

/-- The items of a layout from left to right. -/
def Layout.reading : Layout → Flat
  | .number value => [.operand (.number value)]
  | .ident name => [.operand (.ident name)]
  | .call name args => [.operand (.call name (readings args))]
  | .group t => .opening :: t.reading ++ [.closing]
  | .binary o l r => l.reading ++ .op o.text :: r.reading

/-- The readings of layouts. -/
def readings : List Layout → List Flat
  | [] => []
  | t :: ts => t.reading :: readings ts

end

mutual

/-- The tree of a layout, without its groups. -/
def Layout.tree : Layout → Expr
  | .number value => .number value
  | .ident name => .ident name
  | .call name args => .call name (trees args)
  | .group t => t.tree
  | .binary o l r => .binary o l.tree r.tree

/-- The trees of layouts. -/
def trees : List Layout → List Expr
  | [] => []
  | t :: ts => t.tree :: trees ts

end

/-- The place of an operator's stratum. -/
def Operator.stratum (o : Operator) : Nat := strata.findIdx (·.operators.contains o)

/-- The stratum of what stands at the root of a layout. Operands and groups are behind all
strata. -/
def Layout.stratum : Layout → Nat
  | .binary o _ _ => o.stratum
  | _ => strata.length

/-- Whether an operator takes what belongs to the stratum `k` as its left operand: what binds
tighter than the operator, or as tightly unless the operator groups to the right. -/
def Operator.TakesLeft (o : Operator) (k : Nat) : Prop :=
  if o = .pow then o.stratum < k else o.stratum ≤ k

/-- Whether an operator takes what belongs to the stratum `k` as its right operand. -/
def Operator.TakesRight (o : Operator) (k : Nat) : Prop :=
  if o = .pow then o.stratum ≤ k else o.stratum < k

mutual

/-- Every operator takes its two operands. -/
def Layout.Respects : Layout → Prop
  | .number _ => True
  | .ident _ => True
  | .call _ args => AllRespect args
  | .group t => t.Respects
  | .binary o l r => l.Respects ∧ r.Respects ∧ o.TakesLeft l.stratum ∧ o.TakesRight r.stratum

/-- Every operator of every layout takes its two operands. -/
def AllRespect : List Layout → Prop
  | [] => True
  | t :: ts => t.Respects ∧ AllRespect ts

end

/-! ### Operators and their strata -/

/-- The stratum of an operator holds it, and groups to the right only if it is the power. -/
theorem Operator.exists_stratum (o : Operator) :
    ∃ σ, strata[o.stratum]? = some σ ∧ o ∈ σ.operators ∧ (σ.side = .right ↔ o = .pow) := by
  cases o <;> exact ⟨_, rfl, by decide, by decide⟩

/-- No operator belongs to two strata. -/
theorem Operator.stratum_eq {k : Nat} {σ : Stratum} {o : Operator} (hσ : strata[k]? = some σ)
    (ho : o ∈ σ.operators) : o.stratum = k ∧ (σ.side = .right ↔ o = .pow) := by
  match k, hσ with
  | 0, rfl => cases o <;> simp at ho <;> decide
  | 1, rfl => cases o <;> simp at ho <;> decide
  | 2, rfl => cases o <;> simp at ho <;> decide
  | 3, rfl => cases o <;> simp at ho <;> decide
  | 4, rfl => cases o <;> simp at ho; decide
  | _ + 5, hσ => simp [strata] at hσ

instance (o : Operator) (k : Nat) : Decidable (o.TakesLeft k) :=
  inferInstanceAs (Decidable (if o = .pow then o.stratum < k else o.stratum ≤ k))

instance (o : Operator) (k : Nat) : Decidable (o.TakesRight k) :=
  inferInstanceAs (Decidable (if o = .pow then o.stratum ≤ k else o.stratum < k))

theorem Operator.TakesLeft.le {o : Operator} {k : Nat} (h : o.TakesLeft k) : o.stratum ≤ k := by
  unfold TakesLeft at h
  split at h <;> omega

theorem Operator.TakesRight.le {o : Operator} {k : Nat} (h : o.TakesRight k) : o.stratum ≤ k := by
  unfold TakesRight at h
  split at h <;> omega

/-- Every operator takes operands and groups. -/
theorem Operator.takesLeft_length (o : Operator) : o.TakesLeft strata.length := by
  cases o <;> decide

theorem Operator.takesRight_length (o : Operator) : o.TakesRight strata.length := by
  cases o <;> decide

/-- Of two neighbouring operators one takes the other. -/
theorem Operator.takesRight_of_not_takesLeft {o o' : Operator} (h : ¬ o'.TakesLeft o.stratum) :
    o.TakesRight o'.stratum := by
  revert h
  cases o <;> cases o' <;> decide

/-! ### The grammar derives the layouts -/

/-- What a stratum derives, every looser one does. -/
theorem Derives.loosen {k m : Nat} {s : Flat} {e : Expr} (h : Derives m s e) (hkm : k ≤ m) :
    Derives k s e := by
  induction hkm with
  | refl => exact h
  | step _ ih => exact ih (.tighter h)

mutual

/-- A layout that respects precedence is derived from the stratum of its root. -/
theorem Layout.Respects.derives : ∀ {t : Layout}, t.Respects → Derives t.stratum t.reading t.tree
  | .number _, _ => .term (.number _)
  | .ident _, _ => .term (.ident _)
  | .call _ _, h => .term (.call _ (AllRespect.derives h))
  | .group t, h => by
    have ht : t.Respects := h
    exact .term (.group (ht.derives.loosen (Nat.zero_le _)))
  | .binary o l r, ⟨hl, hr, hleft, hright⟩ => by
    obtain ⟨σ, hσ, ho, hside⟩ := o.exists_stratum
    have dl := hl.derives
    have dr := hr.derives
    show Derives o.stratum (l.reading ++ .op o.text :: r.reading) (.binary o l.tree r.tree)
    -- the power asks more of its left operand, every other operator of its right one
    by_cases hpow : o = .pow
    · rw [Operator.TakesLeft, if_pos hpow] at hleft
      exact .right hσ (hside.2 hpow) ho (dl.loosen hleft) (dr.loosen hright.le)
    · rw [Operator.TakesRight, if_neg hpow] at hright
      have hσleft : σ.side = .left := by
        cases hs : σ.side with
        | left => rfl
        | right => exact absurd (hside.1 hs) hpow
      exact .left hσ hσleft ho (dl.loosen hleft.le) (dr.loosen hright)

theorem AllRespect.derives : ∀ {ts : List Layout}, AllRespect ts →
    DerivesArgs (readings ts) (trees ts)
  | [], _ => .nil
  | _ :: _, ⟨h, hs⟩ => .cons (h.derives.loosen (Nat.zero_le _)) (AllRespect.derives hs)

end

mutual

/-- What the grammar derives has a layout that respects precedence. -/
theorem Derives.exists_layout : ∀ {k : Nat} {s : Flat} {e : Expr}, Derives k s e →
    ∃ t : Layout, t.reading = s ∧ t.tree = e ∧ t.Respects ∧ k ≤ t.stratum
  | _, _, _, .term h => by
    obtain ⟨t, hreading, htree, hrespects, hstratum⟩ := h.exists_layout
    exact ⟨t, hreading, htree, hrespects, Nat.le_of_eq hstratum.symm⟩
  | _, _, _, .tighter h => by
    obtain ⟨t, hreading, htree, hrespects, hstratum⟩ := h.exists_layout
    exact ⟨t, hreading, htree, hrespects, Nat.le_of_succ_le hstratum⟩
  | _, _, _, .left (o := o) hσ hside ho hl hr => by
    obtain ⟨l, rfl, rfl, hlr, hlk⟩ := hl.exists_layout
    obtain ⟨r, rfl, rfl, hrr, hrk⟩ := hr.exists_layout
    obtain ⟨rfl, hpow⟩ := Operator.stratum_eq hσ ho
    -- a stratum that groups to the left does not hold the power
    have hne : o ≠ .pow := fun h => by simp [hpow.2 h] at hside
    refine ⟨.binary o l r, rfl, rfl, ⟨hlr, hrr, ?_, ?_⟩, Nat.le_refl _⟩
    · rw [Operator.TakesLeft, if_neg hne]
      exact hlk
    · rw [Operator.TakesRight, if_neg hne]
      exact hrk
  | _, _, _, .right (o := o) hσ hside ho hl hr => by
    obtain ⟨l, rfl, rfl, hlr, hlk⟩ := hl.exists_layout
    obtain ⟨r, rfl, rfl, hrr, hrk⟩ := hr.exists_layout
    obtain ⟨rfl, hpow⟩ := Operator.stratum_eq hσ ho
    refine ⟨.binary o l r, rfl, rfl, ⟨hlr, hrr, ?_, ?_⟩, Nat.le_refl _⟩
    · rw [Operator.TakesLeft, if_pos (hpow.1 hside)]
      exact hlk
    · rw [Operator.TakesRight, if_pos (hpow.1 hside)]
      exact hrk

theorem DerivesTerm.exists_layout : ∀ {s : Flat} {e : Expr}, DerivesTerm s e →
    ∃ t : Layout, t.reading = s ∧ t.tree = e ∧ t.Respects ∧ t.stratum = strata.length
  | _, _, .number value => ⟨.number value, rfl, rfl, trivial, rfl⟩
  | _, _, .ident name => ⟨.ident name, rfl, rfl, trivial, rfl⟩
  | _, _, .call name h => by
    obtain ⟨ts, rfl, rfl, hrespect⟩ := h.exists_layouts
    exact ⟨.call name ts, rfl, rfl, hrespect, rfl⟩
  | _, _, .group h => by
    obtain ⟨t, rfl, rfl, hrespects, -⟩ := h.exists_layout
    exact ⟨.group t, rfl, rfl, hrespects, rfl⟩

theorem DerivesArgs.exists_layouts : ∀ {args : List Flat} {es : List Expr}, DerivesArgs args es →
    ∃ ts : List Layout, readings ts = args ∧ trees ts = es ∧ AllRespect ts
  | _, _, .nil => ⟨[], rfl, rfl, trivial⟩
  | _, _, .cons h hs => by
    obtain ⟨t, rfl, rfl, hrespects, -⟩ := h.exists_layout
    obtain ⟨ts, rfl, rfl, hrespect⟩ := hs.exists_layouts
    exact ⟨t :: ts, rfl, rfl, hrespects, hrespect⟩

end

/-- The grammar derives exactly the trees of the layouts that respect precedence. -/
theorem derives_iff_layout {s : Flat} {e : Expr} :
    Derives 0 s e ↔ ∃ t : Layout, t.reading = s ∧ t.tree = e ∧ t.Respects := by
  constructor
  · intro h
    obtain ⟨t, hreading, htree, hrespects, -⟩ := h.exists_layout
    exact ⟨t, hreading, htree, hrespects⟩
  · rintro ⟨t, rfl, rfl, hrespects⟩
    exact hrespects.derives.loosen (Nat.zero_le _)

/-! ### Every well-formed expression has a layout -/

/-- Puts the operand `u` and the operator `o` in front of a layout: down its left edge, past every
operator that takes `o` as its left operand. -/
def Layout.prepend (u : Layout) (o : Operator) : Layout → Layout
  | .binary o' l r =>
    if o'.TakesLeft o.stratum then .binary o' (u.prepend o l) r else .binary o u (.binary o' l r)
  | t => .binary o u t

theorem Layout.reading_prepend (u : Layout) (o : Operator) (t : Layout) :
    (u.prepend o t).reading = u.reading ++ .op o.text :: t.reading := by
  fun_induction Layout.prepend u o t with
  | case1 o' l r _ ih => simp [reading, ih]
  | case2 => rfl
  | case3 => rfl

/-- The root of the new layout is the new operator or the old root. -/
theorem Layout.stratum_prepend (u : Layout) (o : Operator) (t : Layout) :
    (u.prepend o t).stratum = o.stratum ∨ (u.prepend o t).stratum = t.stratum := by
  cases t with
  | binary o' l r =>
    rw [prepend]
    split
    · exact .inr rfl
    · exact .inl rfl
  | _ => exact .inl rfl

theorem Layout.Respects.prepend {u : Layout} {o : Operator} (hu : u.Respects)
    (htakes : o.TakesLeft u.stratum) (t : Layout) (ht : t.Respects) : (u.prepend o t).Respects := by
  fun_induction Layout.prepend u o t with
  | case1 o' l r ho' ih =>
    obtain ⟨hl, hr, hleft, hright⟩ := ht
    refine ⟨ih hl, hr, ?_, hright⟩
    -- the root stays and takes either root that its left operand can have now
    rcases u.stratum_prepend o l with h | h
    · rw [h]
      exact ho'
    · rw [h]
      exact hleft
  | case2 o' l r ho' => exact ⟨hu, ht, htakes, Operator.takesRight_of_not_takesLeft ho'⟩
  | case3 t hne =>
    -- what is no application is behind all strata, so `o` takes it
    have hstratum : t.stratum = strata.length := by
      cases t with
      | binary o' l r => exact absurd rfl (hne o' l r)
      | _ => rfl
    exact ⟨hu, ht, htakes, hstratum ▸ o.takesRight_length⟩

/-- Layouts of all arguments, from a layout of each. -/
theorem exists_layouts {args : List Flat}
    (h : ∀ arg ∈ args, ∃ t : Layout, t.reading = arg ∧ t.Respects) :
    ∃ ts : List Layout, readings ts = args ∧ AllRespect ts := by
  induction args with
  | nil => exact ⟨[], rfl, trivial⟩
  | cons arg args ih =>
    obtain ⟨t, ht, hrespects⟩ := h arg (by simp)
    obtain ⟨ts, hts, hrespect⟩ := ih fun arg' harg' => h arg' (by simp [harg'])
    exact ⟨t :: ts, by rw [readings, ht, hts], hrespects, hrespect⟩

mutual

theorem Flat.WellFormed.exists_layout : ∀ {s : Flat}, Flat.WellFormed s →
    ∃ t : Layout, t.reading = s ∧ t.Respects
  | _, .term h => by
    obtain ⟨t, hreading, hrespects, -⟩ := h.exists_layout
    exact ⟨t, hreading, hrespects⟩
  | _, .more ht o hs => by
    obtain ⟨u, rfl, hu, hstratum⟩ := ht.exists_layout
    obtain ⟨t, rfl, ht⟩ := hs.exists_layout
    have htakes : o.TakesLeft u.stratum := hstratum ▸ o.takesLeft_length
    exact ⟨u.prepend o t, Layout.reading_prepend u o t, hu.prepend htakes t ht⟩

theorem Flat.IsTerm.exists_layout : ∀ {s : Flat}, Flat.IsTerm s →
    ∃ t : Layout, t.reading = s ∧ t.Respects ∧ t.stratum = strata.length
  | _, .number value => ⟨.number value, rfl, trivial, rfl⟩
  | _, .ident name => ⟨.ident name, rfl, trivial, rfl⟩
  | _, .call name h => by
    obtain ⟨ts, rfl, hrespect⟩ := exists_layouts fun arg harg => (h arg harg).exists_layout
    exact ⟨.call name ts, rfl, hrespect, rfl⟩
  | _, .group h => by
    obtain ⟨t, rfl, hrespects⟩ := h.exists_layout
    exact ⟨.group t, rfl, hrespects, rfl⟩

end

end NumScript
