import NumScript.Proofs.Flat.Layout
import NumScript.Proofs.Flat.PostOrder

/-!
# NumScript.Proofs.Flat.Precedence

Resolving a well-formed flat expression yields the one tree that the precedence grammar derives.

The stack of waiting operators is tied to a layout by two lists. When the reading of a layout has
been passed, `Layout.emitted` is what has been put out, and `Layout.pending` is what waits on top of
the stack that was there before: the operators down the right edge, the tightest on top. The step
lemma `toPostfixFrom_op` says what one operator does to output and stack, and
`Layout.Respects.toPostfixFrom_reading` is the run lemma, by induction on the layout. The stack that
was there before is untouched because its top is shielded: it is no operator that an operator on the
edges of the layout would release.

Output and pending operators together are the post-order of the layout, which lists its tree and so
folds to it.
-/

namespace NumScript

/-! ### When an operator is released -/

theorem Operator.TakesLeft.mono {o : Operator} {k m : Nat} (h : o.TakesLeft k) (hkm : k ≤ m) :
    o.TakesLeft m := by
  unfold TakesLeft at h ⊢
  split at h
  · rw [if_pos ‹_›]
    omega
  · rw [if_neg ‹_›]
    omega

theorem Operator.TakesRight.mono {o : Operator} {k m : Nat} (h : o.TakesRight k) (hkm : k ≤ m) :
    o.TakesRight m := by
  unfold TakesRight at h ⊢
  split at h
  · rw [if_pos ‹_›]
    omega
  · rw [if_neg ‹_›]
    omega

/-- The next operator releases those that it takes as its left operand. -/
theorem Operator.releasedBy_of_takesLeft {top o : Operator} (h : o.TakesLeft top.stratum) :
    top.releasedBy o = true := by
  revert h
  cases top <;> cases o <;> decide

/-- The next operator does not release one that takes it as its right operand. -/
theorem Operator.not_releasedBy_of_takesRight {top o : Operator} (h : top.TakesRight o.stratum) :
    top.releasedBy o = false := by
  revert h
  cases top <;> cases o <;> decide

/-! ### Waiting operators -/

/-- Operators as items. -/
def opItems (os : List Operator) : Flat := os.map (.op ·.text)

/-- Operators as they wait on the stack. -/
def opsWaiting (os : List Operator) : List Waiting := os.map (.op ·.text)

/-- The top of the stack is no operator that one of the stratum `k`, or a tighter one, would
release. -/
def Shielded (stack : List Waiting) (k : Nat) : Prop :=
  ∀ text rest, stack = .op text :: rest → ∃ top : Operator, text = top.text ∧ top.TakesRight k

theorem Shielded.mono {stack : List Waiting} {k m : Nat} (h : Shielded stack k) (hkm : k ≤ m) :
    Shielded stack m := by
  intro text rest hstack
  obtain ⟨top, htext, htakes⟩ := h text rest hstack
  exact ⟨top, htext, htakes.mono hkm⟩

theorem shielded_nil (k : Nat) : Shielded [] k := by
  intro text rest h
  exact absurd h (by simp)

theorem shielded_group (stack : List Waiting) (k : Nat) : Shielded (.group :: stack) k := by
  intro text rest h
  exact absurd h (by simp)

theorem shielded_op {o : Operator} {k : Nat} (h : o.TakesRight k) (stack : List Waiting) :
    Shielded (.op o.text :: stack) k := by
  intro text rest hstack
  obtain ⟨htext, -⟩ := List.cons.inj hstack
  exact ⟨o, (Waiting.op.inj htext).symm, h⟩

/-- A shielded stack releases nothing. -/
theorem Shielded.release_eq {o : Operator} {stack : List Waiting}
    (h : Shielded stack o.stratum) : release o.text stack = .ok ([], stack) := by
  match stack, h with
  | [], _ => rfl
  | .group :: _, _ => rfl
  | .op text :: rest, h =>
    obtain ⟨top, rfl, htakes⟩ := h text rest rfl
    rw [release, operatorNamed_text, operatorNamed_text]
    simp [bind, Except.bind, Operator.not_releasedBy_of_takesRight htakes, pure, Except.pure]

/-- An operator releases the waiting operators that it takes as its left operand, down to the
shielded stack below them. -/
theorem release_opsWaiting {o : Operator} {stack : List Waiting} (hstack : Shielded stack o.stratum)
    {os : List Operator} (h : ∀ top ∈ os, o.TakesLeft top.stratum) :
    release o.text (opsWaiting os ++ stack) = .ok (os.map Operator.text, stack) := by
  induction os with
  | nil => exact hstack.release_eq
  | cons top os ih =>
    have hos := ih fun top' htop' => h top' (List.mem_cons_of_mem _ htop')
    have htop := Operator.releasedBy_of_takesLeft (h top (List.mem_cons_self ..))
    simp only [opsWaiting, List.map_cons, List.cons_append] at hos ⊢
    rw [release, operatorNamed_text, operatorNamed_text]
    simp [bind, Except.bind, htop, hos, pure, Except.pure]

theorem closeGroup_opsWaiting (os : List Operator) (stack : List Waiting) :
    closeGroup (opsWaiting os ++ .group :: stack) = .ok (os.map Operator.text, stack) := by
  induction os with
  | nil => rfl
  | cons top os ih =>
    simp only [opsWaiting, List.map_cons, List.cons_append] at ih ⊢
    rw [closeGroup, ih]
    rfl

theorem drain_opsWaiting (os : List Operator) :
    drain (opsWaiting os) = .ok (os.map Operator.text) := by
  induction os with
  | nil => rfl
  | cons top os ih =>
    simp only [opsWaiting, List.map_cons] at ih ⊢
    rw [drain, ih]
    rfl

/-! ### Steps of the reordering -/

/-- One operator: what it releases is put out, and it waits on what is left of the stack. -/
theorem toPostfixFrom_op {o : Operator} {os : List Operator} {stack rest : List Waiting}
    (h : release o.text stack = .ok (os.map Operator.text, rest)) (items : Flat) :
    toPostfixFrom stack (.op o.text :: items) =
      (toPostfixFrom (.op o.text :: rest) items).map (opItems os ++ ·) := by
  rw [toPostfixFrom, h]
  cases hitems : toPostfixFrom (.op o.text :: rest) items <;>
    simp [bind, Except.bind, hitems, Except.map, pure, Except.pure, opItems]

/-- The end of a group: what waits inside of it is put out. -/
theorem toPostfixFrom_closing {os : List Operator} {stack rest : List Waiting}
    (h : closeGroup stack = .ok (os.map Operator.text, rest)) (items : Flat) :
    toPostfixFrom stack (.closing :: items) =
      (toPostfixFrom rest items).map (opItems os ++ ·) := by
  rw [toPostfixFrom, h]
  cases hitems : toPostfixFrom rest items <;>
    simp [bind, Except.bind, hitems, Except.map, pure, Except.pure, opItems]

theorem toPostfixFrom_operand (a : Operand) (stack : List Waiting) (items : Flat) :
    toPostfixFrom stack (.operand a :: items) =
      (toPostfixFrom stack items).map ([.operand a] ++ ·) := by
  rw [toPostfixFrom]
  cases toPostfixFrom stack items <;> rfl

theorem map_append_map_append {ε α : Type} (x : Except ε (List α)) (as bs : List α) :
    (x.map (bs ++ ·)).map (as ++ ·) = x.map (as ++ bs ++ ·) := by
  cases x <;> simp [Except.map]

/-! ### Passing the reading of a layout -/

/-- The operators that wait when the reading of a layout has been passed, the topmost first. -/
def Layout.pending : Layout → List Operator
  | .binary o _ r => r.pending ++ [o]
  | _ => []

/-- What has been put out when the reading of a layout has been passed. -/
def Layout.emitted : Layout → Flat
  | .group t => t.emitted ++ opItems t.pending
  | .binary _ l r => l.emitted ++ opItems l.pending ++ r.emitted
  | t => t.reading

/-- No waiting operator is looser than the root. -/
theorem Layout.Respects.stratum_le_of_mem_pending : ∀ {t : Layout}, t.Respects →
    ∀ o ∈ t.pending, t.stratum ≤ o.stratum
  | .binary o l r, ⟨_, hr, _, hright⟩, o', ho' => by
    rw [Layout.pending, List.mem_append, List.mem_singleton] at ho'
    rcases ho' with ho' | rfl
    · exact Nat.le_trans hright.le (hr.stratum_le_of_mem_pending o' ho')
    · exact Nat.le_refl _

/-- Passing the reading of a layout over a shielded stack. -/
theorem Layout.Respects.toPostfixFrom_reading : ∀ {t : Layout}, t.Respects →
    ∀ {stack : List Waiting}, Shielded stack t.stratum → ∀ rest : Flat,
      toPostfixFrom stack (t.reading ++ rest) =
        (toPostfixFrom (opsWaiting t.pending ++ stack) rest).map (t.emitted ++ ·)
  | .number _, _, stack, _, rest => toPostfixFrom_operand _ stack rest
  | .ident _, _, stack, _, rest => toPostfixFrom_operand _ stack rest
  | .call _ _, _, stack, _, rest => toPostfixFrom_operand _ stack rest
  | .group t, ht, stack, _, rest => by
    -- the opening shields the stack from all that is inside, and the closing puts out what waits
    have hinner := Layout.Respects.toPostfixFrom_reading (t := t) ht (shielded_group stack _)
      (.closing :: rest)
    rw [toPostfixFrom_closing (closeGroup_opsWaiting t.pending stack),
      map_append_map_append] at hinner
    simp only [Layout.reading, List.cons_append, List.append_assoc, List.nil_append]
    rw [toPostfixFrom]
    exact hinner
  | .binary o l r, ⟨hl, hr, hleft, hright⟩, stack, hstack, rest => by
    -- the right edge of `l` waits when `o` comes; `o` takes `l`, so it takes all of that edge
    have hpending : ∀ top ∈ l.pending, o.TakesLeft top.stratum := fun top htop =>
      hleft.mono (hl.stratum_le_of_mem_pending top htop)
    have hstep := toPostfixFrom_op (release_opsWaiting hstack hpending) (r.reading ++ rest)
    -- now `o` is on top, and because it takes `r` it stays there while `r` is passed
    rw [hr.toPostfixFrom_reading (shielded_op hright stack) rest,
      map_append_map_append] at hstep
    have hrun := hl.toPostfixFrom_reading (hstack.mono hleft.le) (.op o.text :: (r.reading ++ rest))
    rw [hstep, map_append_map_append] at hrun
    simp only [Layout.reading, List.append_assoc, List.cons_append] at hrun ⊢
    rw [hrun]
    simp [Layout.pending, Layout.emitted, opsWaiting]

/-- The items of a layout in post-order. -/
def Layout.postorder (t : Layout) : Flat := t.emitted ++ opItems t.pending

theorem Layout.Respects.toPostfix_reading {t : Layout} (ht : t.Respects) :
    toPostfix t.reading = .ok t.postorder := by
  have h := ht.toPostfixFrom_reading (shielded_nil _) []
  rw [List.append_nil, List.append_nil] at h
  rw [toPostfix, h, toPostfixFrom, drain_opsWaiting]
  simp [bind, Except.bind, pure, Except.pure, Except.map, Layout.postorder, opItems]

/-! ### Folding the post-order -/

theorem Layout.postorder_group (t : Layout) : (Layout.group t).postorder = t.postorder := by
  simp [postorder, emitted, pending, opItems]

theorem Layout.postorder_binary (o : Operator) (l r : Layout) :
    (Layout.binary o l r).postorder = l.postorder ++ (r.postorder ++ [.op o.text]) := by
  simp [postorder, emitted, pending, opItems]

/-- Resolving the reading of a layout is folding its post-order. -/
theorem Layout.Respects.resolve_eq_foldPostfix {t : Layout} (h : t.Respects) :
    Flat.resolve t.reading = Flat.foldPostfix t.postorder := by
  rw [Flat.resolve_eq_bind, h.toPostfix_reading]
  rfl

mutual

/-- The post-order of a layout lists its tree. -/
theorem Layout.Respects.postOrder : ∀ {t : Layout}, t.Respects → PostOrder t.postorder t.tree
  | .number value, _ => .leaf (.number value)
  | .ident name, _ => .leaf (.ident name)
  | .call name _, h => .leaf (.call name (AllRespect.forall₂_resolve h))
  | .group t, h => by
    have ht : t.Respects := h
    rw [Layout.postorder_group]
    exact ht.postOrder
  | .binary o _ _, ⟨hl, hr, _, _⟩ => by
    rw [Layout.postorder_binary]
    exact .binary o hl.postOrder hr.postOrder

/-- Arguments are resolved one by one, each to the tree of its own layout. -/
theorem AllRespect.forall₂_resolve : ∀ {ts : List Layout}, AllRespect ts →
    List.Forall₂ (fun arg e => Flat.resolve arg = .ok e) (readings ts) (trees ts)
  | [], _ => .nil
  | _ :: _, ⟨h, hs⟩ =>
    .cons (h.resolve_eq_foldPostfix.trans h.postOrder.foldPostfix_eq) hs.forall₂_resolve

end

/-- The reading of a layout resolves to its tree. -/
theorem Layout.Respects.resolve_reading {t : Layout} (h : t.Respects) :
    Flat.resolve t.reading = .ok t.tree :=
  h.resolve_eq_foldPostfix.trans h.postOrder.foldPostfix_eq

/-- A well-formed flat expression resolves. -/
theorem Flat.WellFormed.exists_resolve {s : Flat} (h : Flat.WellFormed s) :
    ∃ e, Flat.resolve s = .ok e := by
  obtain ⟨t, rfl, ht⟩ := h.exists_layout
  exact ⟨t.tree, ht.resolve_reading⟩

/-! ### The tree of a well-formed expression -/

/-- A well-formed flat expression resolves to the one tree that the precedence grammar derives for
it, which is also the one tree with a layout that reads as the expression and respects
precedence. -/
theorem Flat.WellFormed.resolve_iff_derives {s : Flat} (h : Flat.WellFormed s) :
    ∃ e, Flat.resolve s = .ok e ∧ (∀ e', Derives 0 s e' ↔ e' = e) ∧
      ∀ e', (∃ t : Layout, t.reading = s ∧ t.tree = e' ∧ t.Respects) ↔ e' = e := by
  obtain ⟨t, rfl, ht⟩ := h.exists_layout
  have hlayout : ∀ e', (∃ t' : Layout, t'.reading = t.reading ∧ t'.tree = e' ∧ t'.Respects) ↔
      e' = t.tree := by
    intro e'
    constructor
    · -- two layouts with one reading resolve to one tree
      rintro ⟨t', hreading, rfl, ht'⟩
      have h' := ht'.resolve_reading
      rw [hreading, ht.resolve_reading] at h'
      exact (Except.ok.inj h').symm
    · rintro rfl
      exact ⟨t, rfl, rfl, ht⟩
  exact ⟨t.tree, ht.resolve_reading, fun e' => derives_iff_layout.trans (hlayout e'), hlayout⟩

/-- The expression `a - b ^ c ^ (f(x == y, 0) - d) - e`, where both kinds of grouping meet a group
and a call. -/
def mixedChain : Flat :=
  [.operand (.ident "a"), .op "-", .operand (.ident "b"), .op "^", .operand (.ident "c"), .op "^",
   .opening,
   .operand (.call "f" [[.operand (.ident "x"), .op "==", .operand (.ident "y")],
     [.operand (.number .zero)]]),
   .op "-", .operand (.ident "d"),
   .closing,
   .op "-", .operand (.ident "e")]

theorem mixedChain_wellFormed : Flat.WellFormed mixedChain := by
  have hcall : Flat.IsTerm [.operand (.call "f" [[.operand (.ident "x"), .op "==",
      .operand (.ident "y")], [.operand (.number .zero)]])] := by
    refine .call "f" fun arg harg => ?_
    rcases List.mem_cons.mp harg with rfl | harg
    · exact .more (.ident "x") .eq (.term (.ident "y"))
    · obtain rfl := List.mem_singleton.mp harg
      exact .term (.number .zero)
  have hgroup := Flat.IsTerm.group (.more hcall .sub (.term (.ident "d")))
  exact .more (.ident "a") .sub (.more (.ident "b") .pow (.more (.ident "c") .pow
    (.more hgroup .sub (.term (.ident "e")))))

theorem mixedChain_resolve_iff_derives :
    Flat.WellFormed mixedChain ∧
      ∃ e, Flat.resolve mixedChain = .ok e ∧ (∀ e', Derives 0 mixedChain e' ↔ e' = e) ∧
        ∀ e', (∃ t : Layout, t.reading = mixedChain ∧ t.tree = e' ∧ t.Respects) ↔ e' = e :=
  ⟨mixedChain_wellFormed, mixedChain_wellFormed.resolve_iff_derives⟩

end NumScript
