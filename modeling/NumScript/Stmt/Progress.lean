import NumScript.Flat.Progress
import NumScript.Stmt.Parser

/-!
# NumScript.Stmt.Progress

The productions for statements take tokens off the front only, and a statement that is read takes at
least one. So a block ends after at most as many statements as there are tokens, and each production
that uses `Outcome.andThen` has an equation without its check.
-/

namespace NumScript

open Outcome

/-! ### Parts of statements -/

theorem expression_advances (ts : List Token) : (expression ts).Advances ts := by
  refine (flatProgress ts).flatExpr.bind fun flat rest _ _ => ?_
  cases Flat.resolve flat <;> exact List.suffix_refl rest

theorem condition_advances (keyword : String) (ts : List Token) :
    (condition keyword ts).Advances ts :=
  (expression_advances ts).bind fun _ rest _ _ => (expect_leaves keyword rest).map _

theorem declaration_advances (p : Pos) (ts : List Token) : (declaration p ts).Advances ts := by
  refine (expectIdent_advances ts).bind fun name rest _ _ => ?_
  split
  · exact (((expression_advances _).map _).leaves.cons _).leaves
  · exact leaves_ok.2 (List.suffix_refl _)

theorem assignment_advances (p : Pos) (ts : List Token) : (assignment p ts).Advances ts :=
  (expectIdent_advances ts).bind fun _ rest _ _ =>
    (expect_leaves "=" rest).bind fun _ rest' _ => ((expression_advances rest').map _).leaves

theorem moreParams_leaves (ts : List Token) : (moreParams ts).Leaves ts := by
  have ih : ∀ rest : List Token, rest.length < ts.length → (moreParams rest).Leaves rest :=
    fun rest _ => moreParams_leaves rest
  rw [moreParams.eq_def]
  split
  · rename_i p rest
    have hident := expectIdent_advances rest
    rw [hident.andThen_eq_bind]
    refine (Leaves.cons (hident.leaves.bind fun _ rest' hsuffix => ?_) _).leaves
    have hle := hsuffix.length_le
    exact (ih rest' (by simp only [List.length_cons]; omega)).map _
  · exact (expect_leaves _ _).map _
termination_by ts.length

theorem params_leaves (ts : List Token) : (params ts).Leaves ts := by
  unfold params
  split
  · exact leaves_ok.2 (List.suffix_cons _ _)
  · exact (expectIdent_advances _).leaves.bind fun _ rest _ => (moreParams_leaves rest).map _

theorem signature_advances (ts : List Token) : (signature ts).Advances ts :=
  (expectIdent_advances ts).bind fun _ rest _ _ =>
    (expect_leaves "(" rest).bind fun _ rest' _ => (params_leaves rest').map _

theorem moreBounds_leaves (seen : Nat) (ts : List Token) : (moreBounds seen ts).Leaves ts := by
  have ih : ∀ rest : List Token, rest.length < ts.length →
      (moreBounds (seen + 1) rest).Leaves rest :=
    fun rest _ => moreBounds_leaves (seen + 1) rest
  rw [moreBounds.eq_def]
  split
  · rename_i p rest
    split
    · exact leaves_error.2 (List.suffix_refl _)
    · have hexpr := expression_advances rest
      rw [hexpr.andThen_eq_bind]
      refine (Leaves.cons (hexpr.leaves.bind fun _ rest' hsuffix => ?_) _).leaves
      have hle := hsuffix.length_le
      exact (ih rest' (by simp only [List.length_cons]; omega)).map _
  · exact (expect_leaves _ _).map _
termination_by ts.length

theorem countHead_advances (ts : List Token) : (countHead ts).Advances ts :=
  (expectIdent_advances ts).bind fun _ rest _ _ =>
    (expect_leaves "," rest).bind fun _ rest' _ =>
      (expression_advances rest').leaves.bind fun _ rest'' _ => (moreBounds_leaves 1 rest'').map _

/-! ### Statements -/

/-- What the productions for statements do to the tokens `ts`. -/
structure StmtProgress (ts : List Token) : Prop where
  stmt : (NumScript.stmt ts).Advances ts
  block : ∀ stops, (NumScript.block stops ts).Leaves ts
  body : (NumScript.body ts).Leaves ts
  branch : ∀ p, (NumScript.branch p ts).Advances ts
  otherwise : (NumScript.otherwise ts).Leaves ts
  loop : ∀ p, (NumScript.loop p ts).Advances ts
  count : ∀ p, (NumScript.count p ts).Advances ts
  definition : ∀ p, (NumScript.definition p ts).Advances ts

/-- The productions for statements make progress on all tokens. -/
theorem stmtProgress (ts : List Token) : StmtProgress ts := by
  have ih : ∀ rest : List Token, rest.length < ts.length → StmtProgress rest :=
    fun rest _ => stmtProgress rest
  have hstmt : (stmt ts).Advances ts := by
    rw [stmt.eq_def]
    split
    · exact (declaration_advances _ _).leaves.cons _
    · rename_i p rest
      exact ((ih rest (by simp)).definition p).leaves.cons _
    · rename_i p rest
      exact ((ih rest (by simp)).branch p).leaves.cons _
    · rename_i p rest
      exact ((ih rest (by simp)).loop p).leaves.cons _
    · rename_i p rest
      exact ((ih rest (by simp)).count p).leaves.cons _
    · exact assignment_advances _ _
    · exact (expression_advances _).map _
    · exact advances_error.2 (List.suffix_refl _)
  have hblock : ∀ stops, (block stops ts).Leaves ts := by
    intro stops
    rw [block]
    split
    · exact leaves_ok.2 (List.suffix_refl _)
    · split
      · exact leaves_error.2 (List.nil_suffix)
      · rw [hstmt.andThen_eq_bind]
        exact (hstmt.bind fun _ rest _ hlt => ((ih rest hlt).block stops).map _).leaves
  refine ⟨hstmt, hblock, ?_, ?_, ?_, ?_, ?_, ?_⟩
  · rw [body]
    exact (hblock _).bind fun _ rest _ => (expect_leaves _ rest).map _
  · intro p
    rw [branch]
    refine (condition_advances "then" ts).andThen fun cond rest hlt => ?_
    refine ((ih rest hlt).block _).andThen fun stmts rest' hle => ?_
    exact (ih rest' (by omega)).otherwise.map _
  · rw [otherwise.eq_def]
    split
    · rename_i p rest
      exact (((ih rest (by simp)).branch p).map _).leaves.cons _ |>.leaves
    · rename_i p rest
      exact ((ih rest (by simp)).body.map _).cons _ |>.leaves
    · exact (expect_leaves _ _).map _
  · intro p
    rw [loop]
    exact (condition_advances "do" ts).andThen fun cond rest hlt => (ih rest hlt).body.map _
  · intro p
    rw [count]
    exact (countHead_advances ts).andThen fun head rest hlt => (ih rest hlt).body.map _
  · intro p
    rw [definition]
    exact (signature_advances ts).andThen fun head rest hlt => (ih rest hlt).body.map _
termination_by ts.length

theorem statements_leaves (ts : List Token) : (statements ts).Leaves ts := by
  rw [statements]
  split
  · exact leaves_ok.2 List.nil_suffix
  · have hstmt := (stmtProgress ts).stmt
    rw [hstmt.andThen_eq_bind]
    exact (hstmt.bind fun _ rest _ _ => (statements_leaves rest).map _).leaves
termination_by ts.length

/-! ### Equations without the check -/

theorem block_eq (stops : List String) (ts : List Token) :
    block stops ts =
      if stops.any (atMark · ts) then .ok [] ts
      else if ts.isEmpty then .error (.marks stops) []
      else (stmt ts).bind fun s rest => (block stops rest).map (s :: ·) := by
  rw [block, (stmtProgress ts).stmt.andThen_eq_bind]

theorem branch_eq (p : Pos) (ts : List Token) :
    branch p ts =
      (condition "then" ts).bind fun cond rest =>
        (block ["elseif", "else", "end"] rest).bind fun stmts rest' =>
          (otherwise rest').map (.branch p cond stmts ·) := by
  rw [branch, (condition_advances "then" ts).andThen_eq_bind]
  congr
  funext cond rest
  exact ((stmtProgress rest).block _).andThen_eq_bind _

theorem loop_eq (p : Pos) (ts : List Token) :
    loop p ts = (condition "do" ts).bind fun cond rest => (body rest).map (.loop p cond ·) := by
  rw [loop, (condition_advances "do" ts).andThen_eq_bind]

theorem count_eq (p : Pos) (ts : List Token) :
    count p ts =
      (countHead ts).bind fun (var, bounds) rest => (body rest).map (.count p var bounds ·) := by
  rw [count, (countHead_advances ts).andThen_eq_bind]

theorem definition_eq (p : Pos) (ts : List Token) :
    definition p ts =
      (signature ts).bind fun (name, params) rest => (body rest).map (.define p name params ·) := by
  rw [definition, (signature_advances ts).andThen_eq_bind]

theorem statements_eq (ts : List Token) :
    statements ts =
      if ts.isEmpty then .ok [] []
      else (stmt ts).bind fun s rest => (statements rest).map (s :: ·) := by
  rw [statements, (stmtProgress ts).stmt.andThen_eq_bind]

end NumScript
