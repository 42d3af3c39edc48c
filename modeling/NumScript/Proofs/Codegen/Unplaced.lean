import NumScript.Proofs.Codegen.Script
import NumScript.Proofs.Stmt.Unplaced

/-!
# NumScript.Proofs.Codegen.Unplaced

Code generation without positions. Statements, the functions on record and the builder all carry
positions, but these are only ever copied into errors: without them a program has the same C text,
or the same error less its positions (`Program.toC_unplaced`).
-/

namespace NumScript

/-! ### Forgetting positions -/

/-- The error without its positions. -/
def CodegenError.unplaced : CodegenError → CodegenError
  | .redefined name _ _ => .redefined name .nowhere .nowhere
  | .undefined name _ => .undefined name .nowhere
  | .arity name expected given _ => .arity name expected given .nowhere
  | .stmtHole => .stmtHole
  | .exprHole => .exprHole
  | .boundCount count => .boundCount count

/-- The table without the positions of its definitions. -/
def NameTable.unplaced (t : NameTable) : NameTable :=
  { t with definitions := t.definitions.map fun d => { d with pos := .nowhere } }

/-- The builder without its positions. -/
def Builder.unplaced (b : Builder) : Builder :=
  { b with names := b.names.unplaced, pos := .nowhere }

/-- The script without its positions. -/
def Script.unplaced : Script → Script
  | .skip => .skip
  | .seq first second => .seq first.unplaced second.unplaced
  | .closing line => .closing line
  | .statement _ es form => .statement .nowhere es form
  | .indented body => .indented body.unplaced
  | .define _ name params returnsZero body =>
    .define .nowhere name params returnsZero body.unplaced
  | .hole _ => .hole .nowhere

/-! ### Names -/

namespace NameTable

theorem find?_unplaced (t : NameTable) (name : String) :
    t.unplaced.find? name = (t.find? name).map fun d => { d with pos := .nowhere } := by
  rw [find?, find?, unplaced, List.find?_map]
  rfl

theorem define_unplaced_of_ok {t t' : NameTable} {name symbol : String} {arity : Int} {p : Pos}
    (h : t.define name arity p = .ok (symbol, t')) :
    t.unplaced.define name arity .nowhere = .ok (symbol, t'.unplaced) := by
  obtain ⟨hnew, hsymbol, rfl⟩ := define_eq_ok_iff.mp h
  refine define_eq_ok_iff.mpr ⟨by rw [find?_unplaced, hnew]; rfl, ?_, ?_⟩
  · rw [hsymbol]
    simp [unplaced, size]
  · simp [unplaced]

theorem define_unplaced_of_error {t : NameTable} {name : String} {arity : Int} {p : Pos}
    {e : CodegenError} (h : t.define name arity p = .error e) :
    t.unplaced.define name arity .nowhere = .error e.unplaced := by
  obtain ⟨first, hfirst, rfl⟩ := define_eq_error_iff.mp h
  exact define_eq_error_iff.mpr ⟨_, by rw [find?_unplaced, hfirst]; rfl, rfl⟩

end NameTable

/-! ### Expressions -/

section Lower

variable (names : NameTable) (p : Pos)

mutual

/-- The text of an expression does not depend on positions. -/
theorem Expr.lower_unplaced : ∀ e : Expr,
    e.lower names.unplaced .nowhere = (e.lower names p).mapError .unplaced
  | .number _ => rfl
  | .ident _ => rfl
  | .call name args => by
    rw [Expr.lower, Expr.lower, NameTable.find?_unplaced]
    cases names.find? name with
    | none => rfl
    | some d =>
      simp only [Option.map_some]
      split
      · rw [lowerArgs_unplaced args]
        cases lowerArgs names p args <;> rfl
      · rfl
  | .binary _ left right => by
    rw [Expr.lower, Expr.lower, left.lower_unplaced, right.lower_unplaced]
    cases left.lower names p with
    | error e => rfl
    | ok l => cases right.lower names p <;> rfl
  | .pair left right => by
    rw [Expr.lower, Expr.lower, left.lower_unplaced, right.lower_unplaced]
    cases left.lower names p with
    | error e => rfl
    | ok l => cases right.lower names p <;> rfl
  | .hole => rfl

theorem lowerArgs_unplaced : ∀ es : List Expr,
    lowerArgs names.unplaced .nowhere es = (lowerArgs names p es).mapError .unplaced
  | [] => rfl
  | e :: es => by
    rw [lowerArgs, lowerArgs, e.lower_unplaced, lowerArgs_unplaced es]
    cases e.lower names p with
    | error e => rfl
    | ok text => cases lowerArgs names p es <;> rfl

end

end Lower

/-! ### Scripts -/

theorem LineForm.unplaced_of_text {form : LineForm} {texts : List String} {e : CodegenError}
    (h : form.text texts = .error e) : e.unplaced = e := by
  have hcount : ∀ var : String, countHeader var texts = .error e → e.unplaced = e := by
    intro var hvar
    unfold countHeader at hvar
    split at hvar
    case h_4 =>
      cases hvar
      rfl
    all_goals cases hvar
  unfold LineForm.text at h
  split at h
  case h_8 => exact hcount _ h
  case h_9 =>
    cases h
    rfl
  all_goals cases h

namespace Script

/-- The result of a run without its positions. -/
def unplacedResult : EStateM.Result CodegenError Builder Unit →
    EStateM.Result CodegenError Builder Unit
  | .ok _ b => .ok () b.unplaced
  | .error e b => .error e.unplaced b.unplaced

/-- Without positions, a script does the same to a builder, less the positions. -/
theorem Runs.unplaced {s : Script} {b : Builder} {r : EStateM.Result CodegenError Builder Unit}
    (h : Runs s b r) : Runs s.unplaced b.unplaced (unplacedResult r) := by
  induction h with
  | skip b => exact .skip _
  | seq _ _ ihs iht => exact .seq ihs iht
  | seqFails t _ ih => exact .seqFails _ ih
  | closing l b => exact .closing l _
  | @statement p es _ b _ _ htexts htext =>
    have hargs := lowerArgs_unplaced b.names p es
    rw [htexts] at hargs
    exact .statement hargs htext
  | @exprsFail p es b _ form herror =>
    have hargs := lowerArgs_unplaced b.names p es
    rw [herror] at hargs
    exact .exprsFail form hargs
  | @formFails p es _ b _ _ htexts herror =>
    have hargs := lowerArgs_unplaced b.names p es
    rw [htexts] at hargs
    exact .formFails hargs (by rw [herror, LineForm.unplaced_of_text herror])
  | @indented s b b' _ ih => exact @Runs.indented s.unplaced b.unplaced b'.unplaced ih
  | indentedFails _ ih => exact .indentedFails ih
  | @define p name symbol head params body names b b' returnsZero hname hhead _ ih =>
    have hbody : Runs body.unplaced (b.unplaced.openFunction .nowhere names.unplaced head)
        (.ok () b'.unplaced) := ih
    exact .define returnsZero (NameTable.define_unplaced_of_ok hname) hhead hbody
  | defineFails returnsZero hname hhead _ ih =>
    exact .defineFails returnsZero (NameTable.define_unplaced_of_ok hname) hhead ih
  | redefined returnsZero body hname =>
    exact .redefined returnsZero _ (NameTable.define_unplaced_of_error hname)
  | hole p b => exact .hole _ _

end Script

/-! ### Statements -/

theorem isExpr_unplaced (s : Stmt) : s.unplaced.isExpr = s.isExpr := by
  cases s <;> rfl

theorem unplacedBlock_eq_map (ss : List Stmt) : unplacedBlock ss = ss.map Stmt.unplaced := by
  induction ss with
  | nil => rfl
  | cons s ss ih => rw [unplacedBlock, ih, List.map_cons]

theorem endsInExpr_unplaced (ss : List Stmt) : endsInExpr (unplacedBlock ss) = endsInExpr ss := by
  rw [endsInExpr, unplacedBlock_eq_map, List.getLast?_map, Option.any_map]
  simp only [isExpr_unplaced]
  rfl

/-- A body that is not a lone choice is none without its positions. -/
theorem ne_branch_of_unplaced {ss : List Stmt}
    (h : ∀ p cond body rest, ss = [.branch p cond body rest] → False) :
    ∀ p cond body rest, unplacedBlock ss = [.branch p cond body rest] → False := by
  intro p cond body rest heq
  rw [unplacedBlock_eq_map] at heq
  obtain ⟨s, rfl, hs⟩ := List.map_eq_singleton_iff.mp heq
  cases s with
  | branch p' cond' body' rest' => exact h p' cond' body' rest' rfl
  | _ => cases hs

mutual

theorem Stmt.script_unplaced (returns : Bool) : ∀ s : Stmt,
    s.unplaced.script returns = (s.script returns).unplaced
  | .expr _ _ => rfl
  | .declare _ _ _ => rfl
  | .assign _ _ _ => rfl
  | .branch _ _ body rest => by
    simp [Stmt.unplaced, Stmt.script, Script.unplaced, stmtsScript_unplaced false body,
      elseScript_unplaced rest]
  | .count _ _ _ body => by
    simp [Stmt.unplaced, Stmt.script, Script.unplaced, stmtsScript_unplaced false body]
  | .loop _ _ body => by
    simp [Stmt.unplaced, Stmt.script, Script.unplaced, stmtsScript_unplaced false body]
  | .define _ _ _ body => by
    simp [Stmt.unplaced, Stmt.script, Script.unplaced, stmtsScript_unplaced true body,
      endsInExpr_unplaced]
  | .hole _ => rfl
termination_by s => sizeOf s

/-- The script of statements without positions is their script without positions. -/
theorem stmtsScript_unplaced (returns : Bool) : ∀ ss : List Stmt,
    stmtsScript returns (unplacedBlock ss) = (stmtsScript returns ss).unplaced
  | [] => rfl
  | s :: ss => by
    have hempty : (unplacedBlock ss).isEmpty = ss.isEmpty := by
      rw [unplacedBlock_eq_map, List.isEmpty_map]
    simp [unplacedBlock, stmtsScript, Script.unplaced, hempty, Stmt.script_unplaced _ s,
      stmtsScript_unplaced returns ss]
termination_by ss => sizeOf ss

theorem elseScript_unplaced (o : Option (List Stmt)) :
    elseScript (unplacedElse o) = (elseScript o).unplaced := by
  rw [elseScript.eq_def o]
  split
  · rfl
  · rename_i p cond body rest
    simp [unplacedElse, unplacedBlock, Stmt.unplaced, elseScript, Script.unplaced,
      stmtsScript_unplaced false body, elseScript_unplaced rest]
  · rename_i body hbody
    rw [unplacedElse, elseScript.eq_3 _ (ne_branch_of_unplaced hbody)]
    simp [Script.unplaced, stmtsScript_unplaced false body]
termination_by sizeOf o

end

/-- A program without positions has the same C text, or the same error less its positions. -/
theorem Program.toC_unplaced (suffix : Nat → String) (p : Program) :
    Program.toC (.empty suffix) (unplacedBlock p) =
      (Program.toC (.empty suffix) p).mapError .unplaced := by
  have hrun := (Script.runs_run (stmtsScript false p) (.atMain (.empty suffix))).unplaced.run_eq
  rw [← stmtsScript_unplaced] at hrun
  cases h : (stmtsScript false p).run (.atMain (.empty suffix)) with
  | ok _ b =>
    rw [h] at hrun
    rw [Program.toC_of_ok h]
    exact Program.toC_of_ok (b := b.unplaced) hrun
  | error e b =>
    rw [h] at hrun
    rw [Program.toC_of_error h]
    exact Program.toC_of_error (b := b.unplaced) hrun

end NumScript
