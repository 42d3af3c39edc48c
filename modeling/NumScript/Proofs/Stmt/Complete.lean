import NumScript.Codegen.Program
import NumScript.Proofs.Stmt.Derivation

/-!
# NumScript.Proofs.Stmt.Complete

Trees without anything missing. A tree that was built by hand may have holes, operands without an
operator, and counting loops with any number of bounds; a tree that was parsed has none of these
(`BlockTokens.isComplete`).

Code generation on a complete tree only fails on account of the program: a function is defined
twice, or a call names no function or has the wrong number of arguments
(`Program.toC_faultless`). An action on a builder is `Faultless` if it fails for no other reason,
and the actions are put together from faultless ones.
-/

namespace NumScript

/-! ### Complete trees -/

mutual

/-- Whether an expression has no hole and no operands without an operator. -/
def Expr.isComplete : Expr → Bool
  | .number _ => true
  | .ident _ => true
  | .call _ args => completeExprs args
  | .binary _ left right => left.isComplete && right.isComplete
  | .pair _ _ => false
  | .hole => false

/-- Whether all of some expressions are complete. -/
def completeExprs : List Expr → Bool
  | [] => true
  | e :: es => e.isComplete && completeExprs es

end

mutual

/-- Whether a statement has no hole, complete expressions and one to three bounds at every counting
loop. -/
def Stmt.isComplete : Stmt → Bool
  | .expr _ value => value.isComplete
  | .declare _ _ value => value.isComplete
  | .assign _ _ value => value.isComplete
  | .branch _ cond body rest => cond.isComplete && completeStmts body && completeElse rest
  | .count _ _ bounds body =>
    completeExprs bounds && decide (1 ≤ bounds.length) && decide (bounds.length ≤ 3) &&
      completeStmts body
  | .loop _ cond body => cond.isComplete && completeStmts body
  | .define _ _ _ body => completeStmts body
  | .hole _ => false

/-- Whether all of some statements are complete. -/
def completeStmts : List Stmt → Bool
  | [] => true
  | s :: ss => s.isComplete && completeStmts ss

/-- Whether the second body of a choice is complete, if there is one. -/
def completeElse : Option (List Stmt) → Bool
  | none => true
  | some body => completeStmts body

end

/-! ### Parsed trees are complete -/

mutual

theorem Layout.tree_isComplete : ∀ t : Layout, t.tree.isComplete = true
  | .number _ => rfl
  | .ident _ => rfl
  | .call _ args => completeExprs_trees args
  | .group t => t.tree_isComplete
  | .binary _ l r => by
    rw [Layout.tree, Expr.isComplete, l.tree_isComplete, r.tree_isComplete]
    rfl

theorem completeExprs_trees : ∀ ts : List Layout, completeExprs (trees ts) = true
  | [] => rfl
  | t :: ts => by
    rw [trees, completeExprs, t.tree_isComplete, completeExprs_trees ts]
    rfl

end

theorem ExprTokens.isComplete {e : Expr} {ts : List Token} (h : ExprTokens e ts) :
    e.isComplete = true := by
  obtain ⟨f, hf, he⟩ := h
  obtain ⟨t, rfl, ht⟩ := hf.wellFormed.exists_layout
  obtain rfl := Except.ok.inj (ht.resolve_reading.symm.trans he)
  exact t.tree_isComplete

theorem BoundsTokens.isComplete {es : List Expr} {ts : List Token} (h : BoundsTokens es ts) :
    completeExprs es = true := by
  induction h with
  | nil => rfl
  | cons p he _ ih =>
    rw [completeExprs, he.isComplete, ih]
    rfl

mutual

theorem StmtTokens.isComplete : ∀ {s : Stmt} {ts next : List Token}, StmtTokens s ts next →
    s.isComplete = true
  | _, _, _, .expr h _ => h.isComplete
  | _, _, _, .declare _ _ _ _ => rfl
  | _, _, _, .declareAs _ _ _ _ h _ => h.isComplete
  | _, _, _, .assign _ _ _ h _ => h.isComplete
  | _, _, _, .branch h => h.isComplete
  | _, _, _, .loop _ _ _ hc hb => by
    rw [Stmt.isComplete, hc.isComplete, hb.isComplete]
    rfl
  | _, _, _, .count _ _ _ _ _ hes hone hthree hb => by
    simp [Stmt.isComplete, hes.isComplete, hb.isComplete, hone, hthree]
  | _, _, _, .define _ _ _ _ _ _ _ hb => hb.isComplete

/-- Statements that were read are complete. -/
theorem BlockTokens.isComplete : ∀ {ss : List Stmt} {ts next : List Token},
    BlockTokens ss ts next → completeStmts ss = true
  | _, _, _, .nil _ => rfl
  | _, _, _, .cons hs hss => by
    rw [completeStmts, hs.isComplete, hss.isComplete]
    rfl

theorem BranchTokens.isComplete : ∀ {p : Pos} {s : Stmt} {ts next : List Token},
    BranchTokens p s ts next → s.isComplete = true
  | _, _, _, _, .mk _ _ hc hb ho => by
    rw [Stmt.isComplete, hc.isComplete, hb.isComplete, ho.isComplete]
    rfl

theorem ElseTokens.isComplete : ∀ {o : Option (List Stmt)} {ts next : List Token},
    ElseTokens o ts next → completeElse o = true
  | _, _, _, .none _ _ => rfl
  | _, _, _, .body _ _ hb => hb.isComplete
  | _, _, _, .chain h => by
    rw [completeElse, completeStmts, h.isComplete]
    rfl

end

/-! ### Errors on account of the program -/

/-- Whether an error blames the program, and not the tree it was given as. -/
def CodegenError.blamesProgram : CodegenError → Bool
  | .redefined _ _ _ => true
  | .undefined _ _ => true
  | .arity _ _ _ _ => true
  | .stmtHole => false
  | .exprHole => false
  | .boundCount _ => false

/-- The result is a value, or an error that blames the program. -/
def Faultless {α : Type} (x : Except CodegenError α) : Prop :=
  ∀ e, x = .error e → e.blamesProgram = true

theorem Faultless.pure {α : Type} (a : α) : Faultless (Pure.pure a) := nofun

theorem Faultless.bind {α β : Type} {x : Except CodegenError α} {f : α → Except CodegenError β}
    (hx : Faultless x) (hf : ∀ a, x = .ok a → Faultless (f a)) : Faultless (x >>= f) := by
  cases x with
  | ok a => exact hf a rfl
  | error e' =>
    intro e h
    exact hx e (congrArg Except.error (Except.error.inj h))

mutual

/-- A complete expression is lowered, or blames the program. -/
theorem Expr.lower_faultless (names : NameTable) (p : Pos) : ∀ e : Expr, e.isComplete = true →
    Faultless (e.lower names p)
  | .number _, _ => .pure _
  | .ident _, _ => .pure _
  | .call name args, h => by
    have hargs := lowerArgs_faultless names p args h
    rw [Expr.lower]
    split
    · intro e he
      exact Except.error.inj he ▸ rfl
    · split
      · exact hargs.bind fun _ _ => .pure _
      · intro e he
        exact Except.error.inj he ▸ rfl
  | .binary o l r, h => by
    rw [Expr.isComplete, Bool.and_eq_true] at h
    rw [Expr.lower]
    exact (l.lower_faultless names p h.1).bind fun _ _ =>
      (r.lower_faultless names p h.2).bind fun _ _ => .pure _
  | .pair _ _, h => absurd h (by simp [Expr.isComplete])
  | .hole, h => absurd h (by simp [Expr.isComplete])

theorem lowerArgs_faultless (names : NameTable) (p : Pos) : ∀ es : List Expr,
    completeExprs es = true → Faultless (lowerArgs names p es)
  | [], _ => .pure _
  | e :: es, h => by
    rw [completeExprs, Bool.and_eq_true] at h
    rw [lowerArgs]
    exact (e.lower_faultless names p h.1).bind fun _ _ =>
      (lowerArgs_faultless names p es h.2).bind fun _ _ => .pure _

end

/-- Every expression becomes one text. -/
theorem length_of_lowerArgs {names : NameTable} {p : Pos} {es : List Expr} {texts : List String}
    (h : lowerArgs names p es = .ok texts) : texts.length = es.length := by
  induction es generalizing texts with
  | nil =>
    obtain rfl := Except.ok.inj h
    rfl
  | cons e es ih =>
    rw [lowerArgs] at h
    cases he : e.lower names p with
    | error err => rw [he] at h; exact absurd h nofun
    | ok text =>
      cases hes : lowerArgs names p es with
      | error err => rw [he, hes] at h; exact absurd h nofun
      | ok texts' =>
        rw [he, hes] at h
        obtain rfl := Except.ok.inj h
        exact congrArg Nat.succ (ih hes)

/-- One to three bounds have a header. -/
theorem countHeader_faultless (var : String) {bounds : List String} (hone : 1 ≤ bounds.length)
    (hthree : bounds.length ≤ 3) : Faultless (countHeader var bounds) := by
  unfold countHeader
  split
  · exact .pure _
  · exact .pure _
  · exact .pure _
  · -- no other list has one to three members
    rename_i h₁ h₂ h₃
    match bounds, hone, hthree with
    | [a], _, _ => exact absurd rfl (h₁ a)
    | [a, b], _, _ => exact absurd rfl (h₂ a b)
    | [a, b, c], _, _ => exact absurd rfl (h₃ a b c)

namespace Build

/-- The action succeeds or fails with an error that blames the program, on every builder. -/
def Faultless {α : Type} (action : Build α) : Prop :=
  ∀ b e b', action b = .error e b' → e.blamesProgram = true

variable {α β : Type}

/-- What always succeeds is faultless. -/
theorem Faultless.of_ok {action : Build α} (h : ∀ b, ∃ a b', action b = .ok a b') :
    Faultless action := by
  intro b e b' herror
  obtain ⟨a, b₁, hok⟩ := h b
  rw [hok] at herror
  exact absurd herror nofun

theorem Faultless.pure (a : α) : Faultless (Pure.pure a : Build α) := .of_ok fun b => ⟨a, b, rfl⟩

theorem Faultless.bind {x : Build α} {f : α → Build β} (hx : Faultless x)
    (hf : ∀ b a b', x b = .ok a b' → Faultless (f a)) : Faultless (x >>= f) := by
  intro b e b' h
  have hbind : EStateM.bind x f b = .error e b' := h
  unfold EStateM.bind at hbind
  split at hbind
  · rename_i a b₁ hxb
    exact hf b a b₁ hxb b₁ e b' hbind
  · rename_i e' b₁ hxb
    obtain ⟨rfl, rfl⟩ := EStateM.Result.error.inj hbind
    exact hx b _ _ hxb

theorem Faultless.ofExcept {x : Except CodegenError α} (hx : NumScript.Faultless x) :
    Faultless (ofExcept x) := by
  cases x with
  | ok a => exact .pure a
  | error e' =>
    intro b e b' h
    obtain ⟨rfl, rfl⟩ := EStateM.Result.error.inj h
    exact hx _ rfl

theorem Faultless.get : Faultless (MonadState.get : Build Builder) := .of_ok fun b => ⟨b, b, rfl⟩

theorem Faultless.set (b : Builder) : Faultless (MonadStateOf.set b : Build Unit) :=
  .of_ok fun _ => ⟨(), b, rfl⟩

theorem Faultless.modify (f : Builder → Builder) : Faultless (modify f : Build Unit) :=
  .of_ok fun b => ⟨(), f b, rfl⟩

theorem Faultless.indented {action : Build Unit} (h : Faultless action) :
    Faultless (indented action) :=
  (Faultless.modify _).bind fun _ _ _ _ => h.bind fun _ _ _ _ => .modify _

theorem Faultless.line (text : String) : Faultless (line text) := .modify _

theorem Faultless.unit (header : String) (closing : Bool) {body : Build Unit} (h : Faultless body) :
    Faultless (unit header closing body) := by
  refine Faultless.get.bind fun _ outer _ _ => ?_
  refine (Faultless.set _).bind fun _ _ _ _ => (Faultless.line header).bind fun _ _ _ _ => ?_
  refine Faultless.bind (.indented (h.bind fun _ _ _ _ => ?_)) fun _ _ _ _ => ?_
  · split
    · exact .line _
    · exact .pure ()
  · exact (Faultless.line _).bind fun _ _ _ _ => Faultless.get.bind fun _ _ _ _ =>
      (Faultless.set _).bind fun _ _ _ _ => .pure _

theorem Faultless.function (pos? : Option Pos) (name : String) (params : List String)
    (closing : Bool) {body : Build Unit} (h : Faultless body) :
    Faultless (function pos? name params closing body) := by
  refine Faultless.get.bind fun _ b _ _ => Faultless.bind (.ofExcept ?_) fun _ _ _ _ => ?_
  · -- the one thing that can go wrong is that the name is taken
    intro e he
    obtain ⟨first, -, rfl⟩ := NameTable.define_eq_error_iff.mp he
    rfl
  · exact (Faultless.modify _).bind fun _ _ _ _ => .unit _ _ h

theorem expr_faultless {e : Expr} (h : e.isComplete = true) : Faultless (expr e) :=
  Faultless.get.bind fun _ _ _ _ => .ofExcept (e.lower_faultless _ _ h)

theorem exprs_faultless {es : List Expr} (h : completeExprs es = true) : Faultless (exprs es) :=
  Faultless.get.bind fun _ _ _ _ => .ofExcept (lowerArgs_faultless _ _ es h)

theorem length_of_exprs {es : List Expr} {b b' : Builder} {texts : List String}
    (h : exprs es b = .ok texts b') : texts.length = es.length := by
  have hlower : ofExcept (lowerArgs b.names b.pos es) b = .ok texts b' := h
  cases hes : lowerArgs b.names b.pos es with
  | error e => rw [hes] at hlower; exact absurd hlower nofun
  | ok texts' =>
    rw [hes] at hlower
    obtain ⟨rfl, -⟩ := EStateM.Result.ok.inj hlower
    exact length_of_lowerArgs hes

mutual

/-- Writing a complete statement is faultless. -/
theorem stmt_faultless (returns : Bool) (s : Stmt) (h : s.isComplete = true) :
    Faultless (stmt returns s) := by
  cases s with
  | expr p value =>
    rw [stmt]
    exact (Faultless.modify _).bind fun _ _ _ _ => (expr_faultless h).bind fun _ _ _ _ => .line _
  | declare p name value =>
    rw [stmt]
    exact (Faultless.modify _).bind fun _ _ _ _ => (expr_faultless h).bind fun _ _ _ _ => .line _
  | assign p name value =>
    rw [stmt]
    exact (Faultless.modify _).bind fun _ _ _ _ => (expr_faultless h).bind fun _ _ _ _ => .line _
  | branch p cond body rest =>
    simp only [Stmt.isComplete, Bool.and_eq_true] at h
    rw [stmt]
    refine (Faultless.modify _).bind fun _ _ _ _ => (expr_faultless h.1.1).bind fun _ _ _ _ => ?_
    exact (Faultless.line _).bind fun _ _ _ _ =>
      (stmts_faultless false body h.1.2).indented.bind fun _ _ _ _ => otherwise_faultless rest h.2
  | loop p cond body =>
    simp only [Stmt.isComplete, Bool.and_eq_true] at h
    rw [stmt]
    refine (Faultless.modify _).bind fun _ _ _ _ => (expr_faultless h.1).bind fun _ _ _ _ => ?_
    exact (Faultless.line _).bind fun _ _ _ _ =>
      (stmts_faultless false body h.2).indented.bind fun _ _ _ _ => .line _
  | count p var bounds body =>
    simp only [Stmt.isComplete, Bool.and_eq_true, decide_eq_true_eq] at h
    obtain ⟨⟨⟨hbounds, hone⟩, hthree⟩, hbody⟩ := h
    rw [stmt]
    refine (Faultless.modify _).bind fun _ _ _ _ => (exprs_faultless hbounds).bind ?_
    intro b texts b' htexts
    -- lowering keeps the number of bounds, and the header depends on it alone
    have hlength := length_of_exprs htexts
    have hheader := countHeader_faultless (safeName var) (hlength ▸ hone) (hlength ▸ hthree)
    exact (Faultless.ofExcept hheader).bind fun _ _ _ _ => (Faultless.line _).bind fun _ _ _ _ =>
      (stmts_faultless false body hbody).indented.bind fun _ _ _ _ => .line _
  | define p name params body =>
    rw [stmt]
    exact (Faultless.modify _).bind fun _ _ _ _ =>
      (Faultless.function _ _ _ _ (stmts_faultless true body h)).bind fun _ _ _ _ => .modify _
  | hole p => exact absurd h (by simp [Stmt.isComplete])
termination_by sizeOf s

theorem stmts_faultless (returns : Bool) (ss : List Stmt) (h : completeStmts ss = true) :
    Faultless (stmts returns ss) := by
  cases ss with
  | nil => rw [stmts]; exact .pure ()
  | cons s ss =>
    simp only [completeStmts, Bool.and_eq_true] at h
    rw [stmts]
    exact (stmt_faultless _ s h.1).bind fun _ _ _ _ => stmts_faultless returns ss h.2
termination_by sizeOf ss

theorem otherwise_faultless (o : Option (List Stmt)) (h : completeElse o = true) :
    Faultless (otherwise o) := by
  rw [otherwise.eq_def]
  split
  · exact .line _
  · -- the chain goes on
    rename_i p cond body rest
    simp only [completeElse, completeStmts, Stmt.isComplete, Bool.and_eq_true] at h
    obtain ⟨⟨⟨hcond, hbody⟩, hrest⟩, -⟩ := h
    refine (Faultless.modify _).bind fun _ _ _ _ => (expr_faultless hcond).bind fun _ _ _ _ => ?_
    exact (Faultless.line _).bind fun _ _ _ _ =>
      (stmts_faultless false body hbody).indented.bind fun _ _ _ _ => otherwise_faultless rest hrest
  · rename_i body _
    exact (Faultless.line _).bind fun _ _ _ _ =>
      (stmts_faultless false body h).indented.bind fun _ _ _ _ => .line _
termination_by sizeOf o

end

/-- Writing a complete program is faultless. -/
theorem program_faultless {p : Program} (h : completeStmts p = true) : Faultless (program p) :=
  Faultless.bind (.unit _ _ (stmts_faultless false p h)) fun _ _ _ _ =>
    Faultless.get.bind fun _ _ _ _ => .pure _

end Build

/-- A complete program has a C text, or an error that blames it. -/
theorem Program.toC_faultless (names : NameTable) {p : Program} (h : completeStmts p = true) :
    Faultless (Program.toC names p) := by
  intro e he
  unfold Program.toC at he
  split at he
  · exact absurd he nofun
  · rename_i e' b' hrun
    obtain rfl := Except.error.inj he
    exact Build.program_faultless h _ _ _ hrun

end NumScript
