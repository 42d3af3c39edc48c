import NumScript.Flat.Parser
import NumScript.Parsing.Progress

/-!
# NumScript.Flat.Progress

The productions for flat expressions take tokens off the front only, and an expression, a term and
an argument list that succeed take at least one. So the check inside `Outcome.andThen` always
passes, and each production that uses it has an equation without the check.
-/

namespace NumScript

open Outcome

/-- What the productions for flat expressions do to the tokens `ts`. -/
structure FlatProgress (ts : List Token) : Prop where
  term : (NumScript.term ts).Advances ts
  flatExpr : (NumScript.flatExpr ts).Advances ts
  flatTail : (NumScript.flatTail ts).Leaves ts
  callArgs : (NumScript.callArgs ts).Advances ts
  moreArgs : (NumScript.moreArgs ts).Leaves ts

/-- The productions for flat expressions make progress on all tokens. -/
theorem flatProgress (ts : List Token) : FlatProgress ts := by
  have ih : ∀ rest : List Token, rest.length < ts.length → FlatProgress rest :=
    fun rest _ => flatProgress rest
  have hterm : (term ts).Advances ts := by
    rw [term.eq_def]
    split
    · rename_i rest
      exact Leaves.cons
        (Leaves.bind (ih rest (by simp)).flatExpr.leaves fun _ _ _ => (expect_leaves _ _).map _) _
    · exact Leaves.cons (leaves_ok.2 (List.suffix_cons _ _)) _
    · exact Leaves.cons (leaves_ok.2 (List.suffix_refl _)) _
    · rename_i rest
      have hargs := (ih rest (by simp only [List.length_cons]; omega)).callArgs
      exact Leaves.cons ((hargs.map _).leaves.cons _).leaves _
    · exact Leaves.cons (leaves_ok.2 (List.suffix_refl _)) _
    · exact advances_error.2 (List.suffix_refl _)
  have hflat : (flatExpr ts).Advances ts := by
    rw [flatExpr, hterm.andThen_eq_bind]
    exact hterm.bind fun _ rest _ hlt => (ih rest hlt).flatTail.map _
  refine ⟨hterm, hflat, ?_, ?_, ?_⟩
  · rw [flatTail.eq_def]
    split
    · rename_i o p rest
      have hrest := (ih rest (by simp)).term
      rw [hrest.andThen_eq_bind]
      refine (Leaves.cons (hrest.leaves.bind fun _ rest' hsuffix => ?_) _).leaves
      have hle := hsuffix.length_le
      exact (ih rest' (by simp only [List.length_cons]; omega)).flatTail.map _
    · exact leaves_ok.2 (List.suffix_refl _)
  · rw [callArgs.eq_def]
    split
    · exact Leaves.cons (leaves_ok.2 (List.suffix_refl _)) _
    · rw [hflat.andThen_eq_bind]
      exact hflat.bind fun _ rest _ hlt => (ih rest hlt).moreArgs.map _
  · rw [moreArgs.eq_def]
    split
    · rename_i p rest
      have hrest := (ih rest (by simp)).flatExpr
      rw [hrest.andThen_eq_bind]
      refine (Leaves.cons (hrest.leaves.bind fun _ rest' hsuffix => ?_) _).leaves
      have hle := hsuffix.length_le
      exact (ih rest' (by simp only [List.length_cons]; omega)).moreArgs.map _
    · exact (expect_leaves _ _).map _
termination_by ts.length

/-! ### Equations without the check -/

theorem flatExpr_eq (ts : List Token) :
    flatExpr ts = (term ts).bind fun items rest => (flatTail rest).map (items ++ ·) := by
  rw [flatExpr, (flatProgress ts).term.andThen_eq_bind]

theorem flatTail_operator (o : Operator) (p : Pos) (ts : List Token) :
    flatTail (⟨.symbol (.op o), p⟩ :: ts) =
      (term ts).bind fun items rest => (flatTail rest).map (.op o.text :: items ++ ·) := by
  rw [flatTail, (flatProgress ts).term.andThen_eq_bind]

theorem moreArgs_comma (p : Pos) (ts : List Token) :
    moreArgs (⟨.symbol .comma, p⟩ :: ts) =
      (flatExpr ts).bind fun arg rest => (moreArgs rest).map (arg :: ·) := by
  rw [moreArgs, (flatProgress ts).flatExpr.andThen_eq_bind]

end NumScript
