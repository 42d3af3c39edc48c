import NumScript.Proofs.Stmt.Derivation

/-!
# NumScript.Proofs.Stmt.Unplaced

Tokens and trees without their positions. A production may put the position of a token into a
statement, but it never decides by one: on tokens without positions it comes to the same outcome,
less the positions (`statements_unplaced`).
-/

namespace NumScript

/-! ### Forgetting positions -/

/-- The token without its position. -/
def Token.unplaced (t : Token) : Token := { t with pos := .nowhere }

@[simp]
theorem Token.unplaced_mk (l : Lexeme) (p : Pos) : Token.unplaced ⟨l, p⟩ = ⟨l, .nowhere⟩ := rfl

mutual

/-- The statement without its positions. -/
def Stmt.unplaced : Stmt → Stmt
  | .expr _ value => .expr .nowhere value
  | .declare _ name value => .declare .nowhere name value
  | .assign _ name value => .assign .nowhere name value
  | .branch _ cond body rest => .branch .nowhere cond (unplacedBlock body) (unplacedElse rest)
  | .count _ var bounds body => .count .nowhere var bounds (unplacedBlock body)
  | .loop _ cond body => .loop .nowhere cond (unplacedBlock body)
  | .define _ name params body => .define .nowhere name params (unplacedBlock body)
  | .hole _ => .hole .nowhere

/-- Statements without their positions. -/
def unplacedBlock : List Stmt → List Stmt
  | [] => []
  | s :: ss => s.unplaced :: unplacedBlock ss

/-- The second body of a choice without its positions. -/
def unplacedElse : Option (List Stmt) → Option (List Stmt)
  | none => none
  | some body => some (unplacedBlock body)

end

namespace Outcome

variable {α β : Type}

/-- The outcome with the positions of its value forgotten by `f`, and those of the tokens that are
left. -/
def unplaced (f : α → α) : Outcome α → Outcome α
  | .ok a rest => .ok (f a) (rest.map Token.unplaced)
  | .error cause rest => .error cause (rest.map Token.unplaced)

@[simp]
theorem unplaced_ok (f : α → α) (a : α) (rest : List Token) :
    (ok a rest).unplaced f = .ok (f a) (rest.map Token.unplaced) := rfl

@[simp]
theorem unplaced_error (f : α → α) (cause : ParseCause) (rest : List Token) :
    (error cause rest).unplaced f = .error cause (rest.map Token.unplaced) := rfl

theorem map_unplaced {f : α → α} {g : β → β} {o o' : Outcome α} {h h' : α → β}
    (ho : o' = o.unplaced f) (hvalue : ∀ a, h' (f a) = g (h a)) :
    o'.map h' = (o.map h).unplaced g := by
  subst ho
  cases o with
  | ok a rest => exact congrArg (Outcome.ok · _) (hvalue a)
  | error cause rest => rfl

theorem bind_unplaced {f : α → α} {g : β → β} {o o' : Outcome α}
    {next next' : α → List Token → Outcome β} (ho : o' = o.unplaced f)
    (hnext : ∀ a rest, next' (f a) (rest.map Token.unplaced) = (next a rest).unplaced g) :
    o'.bind next' = (o.bind next).unplaced g := by
  subst ho
  cases o with
  | ok a rest => exact hnext a rest
  | error cause rest => rfl

theorem andThen_unplaced {f : α → α} {g : β → β} {o o' : Outcome α} {limit limit' : Nat}
    {next : α → (rest : List Token) → rest.length < limit → Outcome β}
    {next' : α → (rest : List Token) → rest.length < limit' → Outcome β} (ho : o' = o.unplaced f)
    (hlimit : limit' = limit)
    (hnext : ∀ a rest hlt hlt',
      next' (f a) (rest.map Token.unplaced) hlt' = (next a rest hlt).unplaced g) :
    o'.andThen limit' next' = (o.andThen limit next).unplaced g := by
  subst ho hlimit
  cases o with
  | ok a rest =>
    by_cases hlt : rest.length < limit'
    · have hlt' : (rest.map Token.unplaced).length < limit' := by rwa [List.length_map]
      rw [andThen_ok hlt, unplaced, andThen_ok hlt']
      exact hnext a rest hlt hlt'
    · have hlt' : ¬ (rest.map Token.unplaced).length < limit' := by rwa [List.length_map]
      rw [unplaced, andThen, andThen, dif_neg hlt, dif_neg hlt', unplaced]
  | error cause rest => rfl

end Outcome

open Outcome

/-! ### Single tokens -/

/-- Tokens start with a lexeme, or else they do not do so without their positions either. -/
theorem starts_or_not (l : Lexeme) (ts : List Token) :
    (∃ p rest, ts = ⟨l, p⟩ :: rest) ∨
      ((∀ p rest, ts = ⟨l, p⟩ :: rest → False) ∧
        ∀ p rest, ts.map Token.unplaced = ⟨l, p⟩ :: rest → False) := by
  rcases ts with _ | ⟨t, rest⟩
  · exact .inr ⟨fun _ _ h => List.cons_ne_nil _ _ h.symm, fun _ _ h => List.cons_ne_nil _ _ h.symm⟩
  · by_cases h : t.lexeme = l
    · subst h
      exact .inl ⟨t.pos, rest, rfl⟩
    · refine .inr ⟨fun p rest' heq => h ?_, fun p rest' heq => h ?_⟩
      · rw [(List.cons.inj heq).1]
      · exact congrArg Token.lexeme (List.cons.inj heq).1

theorem atMark_unplaced (text : String) (ts : List Token) :
    atMark text (ts.map Token.unplaced) = atMark text ts := by
  cases ts <;> rfl

theorem atOperator_unplaced (ts : List Token) :
    atOperator (ts.map Token.unplaced) = atOperator ts := by
  rcases ts with _ | ⟨⟨l, p⟩, ts⟩
  · rfl
  · cases l with
    | symbol s => cases s <;> rfl
    | _ => rfl

theorem expect_unplaced (text : String) (ts : List Token) :
    expect text (ts.map Token.unplaced) = (expect text ts).unplaced id := by
  rw [expect, expect, atMark_unplaced, ← List.map_tail]
  split <;> rfl

theorem expectIdent_unplaced (ts : List Token) :
    expectIdent (ts.map Token.unplaced) = (expectIdent ts).unplaced id := by
  rcases ts with _ | ⟨⟨l, p⟩, ts⟩
  · rfl
  · cases l <;> rfl

/-! ### Flat expressions -/

/-- The productions for flat expressions do not look at the positions of the tokens `ts`. -/
structure FlatUnplaced (ts : List Token) : Prop where
  term : NumScript.term (ts.map .unplaced) = (NumScript.term ts).unplaced id
  flatExpr : NumScript.flatExpr (ts.map .unplaced) = (NumScript.flatExpr ts).unplaced id
  flatTail : NumScript.flatTail (ts.map .unplaced) = (NumScript.flatTail ts).unplaced id
  callArgs : NumScript.callArgs (ts.map .unplaced) = (NumScript.callArgs ts).unplaced id
  moreArgs : NumScript.moreArgs (ts.map .unplaced) = (NumScript.moreArgs ts).unplaced id

theorem flatUnplaced (ts : List Token) : FlatUnplaced ts := by
  have ih : ∀ rest : List Token, rest.length < ts.length → FlatUnplaced rest :=
    fun rest _ => flatUnplaced rest
  have hterm : term (ts.map .unplaced) = (term ts).unplaced id := by
    -- a call and a negative numeral are told by two tokens, all else by one
    rcases ts with _ | ⟨⟨l, p⟩, rest⟩
    · simp [term]
    · cases l with
      | ident name =>
        cases hcall : atMark "(" rest with
        | true =>
          obtain ⟨q, rest, rfl⟩ := (atMark_iff (m := .symbol .lparen) rfl).mp hcall
          have hargs := (ih rest (by simp only [List.length_cons]; omega)).callArgs
          simp only [List.map_cons, Token.unplaced_mk, term]
          exact map_unplaced hargs fun _ => rfl
        | false =>
          rw [term_ident name p hcall, List.map_cons, Token.unplaced_mk,
            term_ident name _ ((atMark_unplaced _ _).trans hcall), unplaced_ok]
          rfl
      | symbol s =>
        cases s with
        | lparen =>
          rw [List.map_cons, Token.unplaced_mk, term, term]
          refine bind_unplaced (ih rest (by simp)).flatExpr fun inner rest' => ?_
          exact map_unplaced (expect_unplaced _ _) fun _ => rfl
        | op o =>
          rcases rest with _ | ⟨⟨l, q⟩, rest⟩
          · cases o <;> simp [term]
          · cases o <;> cases l <;> simp [term]
        | _ => simp [term]
      | _ => simp [term]
  have hflat : flatExpr (ts.map .unplaced) = (flatExpr ts).unplaced id := by
    rw [flatExpr, flatExpr]
    refine andThen_unplaced hterm (List.length_map _) fun items rest hlt _ => ?_
    exact map_unplaced (ih rest hlt).flatTail fun _ => rfl
  refine ⟨hterm, hflat, ?_, ?_, ?_⟩
  · cases hop : atOperator ts with
    | true =>
      obtain ⟨o, p, rest, rfl⟩ := atOperator_iff.mp hop
      rw [List.map_cons, Token.unplaced_mk, flatTail, flatTail]
      refine andThen_unplaced (ih rest (by simp)).term (List.length_map _) fun _ rest' hlt _ => ?_
      exact map_unplaced (ih rest' (Nat.lt_succ_of_lt hlt)).flatTail fun _ => rfl
    | false =>
      rw [flatTail_of_not_atOperator hop,
        flatTail_of_not_atOperator ((atOperator_unplaced ts).trans hop)]
      rfl
  · rcases starts_or_not (.symbol .rparen) ts with ⟨p, rest, rfl⟩ | ⟨hclose, hclose'⟩
    · simp [callArgs]
    · rw [callArgs.eq_2 _ hclose, callArgs.eq_2 _ hclose']
      refine andThen_unplaced hflat (List.length_map _) fun _ rest hlt _ => ?_
      exact map_unplaced (ih rest hlt).moreArgs fun _ => rfl
  · rcases starts_or_not (.symbol .comma) ts with ⟨p, rest, rfl⟩ | ⟨hcomma, hcomma'⟩
    · rw [List.map_cons, Token.unplaced_mk, moreArgs, moreArgs]
      refine andThen_unplaced (ih rest (by simp)).flatExpr (List.length_map _)
        fun _ rest' hlt _ => ?_
      exact map_unplaced (ih rest' (Nat.lt_succ_of_lt hlt)).moreArgs fun _ => rfl
    · rw [moreArgs.eq_2 _ hcomma, moreArgs.eq_2 _ hcomma']
      exact map_unplaced (expect_unplaced _ _) fun _ => rfl
termination_by ts.length

/-! ### Parts of statements -/

theorem expression_unplaced (ts : List Token) :
    expression (ts.map .unplaced) = (expression ts).unplaced id := by
  refine bind_unplaced (flatUnplaced ts).flatExpr fun flat rest => ?_
  simp only [id_eq]
  cases Flat.resolve flat <;> rfl

theorem condition_unplaced (keyword : String) (ts : List Token) :
    condition keyword (ts.map .unplaced) = (condition keyword ts).unplaced id :=
  bind_unplaced (expression_unplaced ts) fun _ rest =>
    map_unplaced (expect_unplaced keyword rest) fun _ => rfl

theorem declaration_unplaced (p : Pos) (ts : List Token) :
    declaration .nowhere (ts.map .unplaced) = (declaration p ts).unplaced .unplaced := by
  refine bind_unplaced (expectIdent_unplaced ts) fun name rest => ?_
  rcases starts_or_not (.symbol .assign) rest with ⟨q, rest, rfl⟩ | ⟨hassign, hassign'⟩
  · exact map_unplaced (expression_unplaced rest) fun _ => rfl
  · split
    · rename_i heq
      exact (hassign' _ _ heq).elim
    · rfl

theorem assignment_unplaced (p : Pos) (ts : List Token) :
    assignment .nowhere (ts.map .unplaced) = (assignment p ts).unplaced .unplaced :=
  bind_unplaced (expectIdent_unplaced ts) fun _ rest =>
    bind_unplaced (expect_unplaced "=" rest) fun _ rest' =>
      map_unplaced (expression_unplaced rest') fun _ => rfl

theorem moreParams_unplaced (ts : List Token) :
    moreParams (ts.map .unplaced) = (moreParams ts).unplaced id := by
  have ih : ∀ rest : List Token, rest.length < ts.length →
      moreParams (rest.map .unplaced) = (moreParams rest).unplaced id :=
    fun rest _ => moreParams_unplaced rest
  rcases starts_or_not (.symbol .comma) ts with ⟨p, rest, rfl⟩ | ⟨hcomma, hcomma'⟩
  · rw [List.map_cons, Token.unplaced_mk, moreParams, moreParams]
    refine andThen_unplaced (expectIdent_unplaced rest) (List.length_map _) fun _ rest' hlt _ => ?_
    exact map_unplaced (ih rest' (Nat.lt_succ_of_lt hlt)) fun _ => rfl
  · rw [moreParams.eq_2 _ hcomma, moreParams.eq_2 _ hcomma']
    exact map_unplaced (expect_unplaced _ _) fun _ => rfl
termination_by ts.length

theorem params_unplaced (ts : List Token) :
    params (ts.map .unplaced) = (params ts).unplaced id := by
  rcases starts_or_not (.symbol .rparen) ts with ⟨p, rest, rfl⟩ | ⟨hclose, hclose'⟩
  · rfl
  · rw [params.eq_2 _ hclose, params.eq_2 _ hclose']
    exact bind_unplaced (expectIdent_unplaced ts) fun _ rest =>
      map_unplaced (moreParams_unplaced rest) fun _ => rfl

theorem signature_unplaced (ts : List Token) :
    signature (ts.map .unplaced) = (signature ts).unplaced id :=
  bind_unplaced (expectIdent_unplaced ts) fun _ rest =>
    bind_unplaced (expect_unplaced "(" rest) fun _ rest' =>
      map_unplaced (params_unplaced rest') fun _ => rfl

theorem moreBounds_unplaced (seen : Nat) (ts : List Token) :
    moreBounds seen (ts.map .unplaced) = (moreBounds seen ts).unplaced id := by
  have ih : ∀ rest : List Token, rest.length < ts.length →
      moreBounds (seen + 1) (rest.map .unplaced) = (moreBounds (seen + 1) rest).unplaced id :=
    fun rest _ => moreBounds_unplaced (seen + 1) rest
  rcases starts_or_not (.symbol .comma) ts with ⟨p, rest, rfl⟩ | ⟨hcomma, hcomma'⟩
  · rw [List.map_cons, Token.unplaced_mk, moreBounds, moreBounds]
    split
    · rfl
    · refine andThen_unplaced (expression_unplaced rest) (List.length_map _) fun _ rest' hlt _ => ?_
      exact map_unplaced (ih rest' (Nat.lt_succ_of_lt hlt)) fun _ => rfl
  · rw [moreBounds.eq_2 _ _ hcomma, moreBounds.eq_2 _ _ hcomma']
    exact map_unplaced (expect_unplaced _ _) fun _ => rfl
termination_by ts.length

theorem countHead_unplaced (ts : List Token) :
    countHead (ts.map .unplaced) = (countHead ts).unplaced id :=
  bind_unplaced (expectIdent_unplaced ts) fun _ rest =>
    bind_unplaced (expect_unplaced "," rest) fun _ rest' =>
      bind_unplaced (expression_unplaced rest') fun _ rest'' =>
        map_unplaced (moreBounds_unplaced 1 rest'') fun _ => rfl

/-! ### Statements -/

/-- The productions for statements do not look at the positions of the tokens `ts`. -/
structure StmtUnplaced (ts : List Token) : Prop where
  stmt : NumScript.stmt (ts.map .unplaced) = (NumScript.stmt ts).unplaced .unplaced
  block : ∀ stops, NumScript.block stops (ts.map .unplaced) =
    (NumScript.block stops ts).unplaced unplacedBlock
  body : NumScript.body (ts.map .unplaced) = (NumScript.body ts).unplaced unplacedBlock
  branch : ∀ p, NumScript.branch .nowhere (ts.map .unplaced) =
    (NumScript.branch p ts).unplaced .unplaced
  otherwise : NumScript.otherwise (ts.map .unplaced) =
    (NumScript.otherwise ts).unplaced unplacedElse

theorem stmtUnplaced (ts : List Token) : StmtUnplaced ts := by
  have ih : ∀ rest : List Token, rest.length < ts.length → StmtUnplaced rest :=
    fun rest _ => stmtUnplaced rest
  have hstmt : stmt (ts.map .unplaced) = (stmt ts).unplaced .unplaced := by
    have hexpr (p : Pos) : (expression (ts.map .unplaced)).map (Stmt.expr .nowhere ·) =
        ((expression ts).map (Stmt.expr p ·)).unplaced Stmt.unplaced :=
      map_unplaced (expression_unplaced ts) fun _ => rfl
    rcases ts with _ | ⟨⟨l, p⟩, rest⟩
    · simp [stmt]
    · have hbody : ∀ rest' : List Token, rest'.length < rest.length →
          body (rest'.map .unplaced) = (body rest').unplaced unplacedBlock :=
        fun rest' hlt => (ih rest' (Nat.lt_succ_of_lt hlt)).body
      rw [List.map_cons, Token.unplaced_mk] at hexpr ⊢
      cases l with
      | keyword k =>
        cases k with
        | kwLocal =>
          rw [stmt, stmt]
          exact declaration_unplaced p rest
        | kwFunction =>
          rw [stmt, stmt, definition, definition]
          refine andThen_unplaced (signature_unplaced rest) (List.length_map _)
            fun _ rest' hlt _ => ?_
          exact map_unplaced (hbody rest' hlt) fun _ => rfl
        | kwIf =>
          rw [stmt, stmt]
          exact (ih rest (by simp)).branch p
        | kwWhile =>
          rw [stmt, stmt, loop, loop]
          refine andThen_unplaced (condition_unplaced "do" rest) (List.length_map _)
            fun _ rest' hlt _ => ?_
          exact map_unplaced (hbody rest' hlt) fun _ => rfl
        | kwFor =>
          rw [stmt, stmt, count, count]
          refine andThen_unplaced (countHead_unplaced rest) (List.length_map _)
            fun _ rest' hlt _ => ?_
          exact map_unplaced (hbody rest' hlt) fun _ => rfl
        | _ =>
          rw [stmt.eq_def, stmt.eq_def]
          exact hexpr p
      | ident name =>
        cases hassign : atMark "=" rest with
        | true =>
          obtain ⟨q, rest, rfl⟩ := (atMark_iff (m := .symbol .assign) rfl).mp hassign
          rw [List.map_cons, Token.unplaced_mk, stmt, stmt]
          exact assignment_unplaced p (⟨.ident name, p⟩ :: ⟨.symbol .assign, q⟩ :: rest)
        | false =>
          have hassign' := (atMark_unplaced "=" rest).trans hassign
          rw [stmt_of_startsTerm rfl fun _ => hassign, stmt_of_startsTerm rfl fun _ => hassign']
          exact hexpr p
      | _ =>
        rw [stmt.eq_def, stmt.eq_def]
        exact hexpr p
  have hblock : ∀ stops, block stops (ts.map .unplaced) =
      (block stops ts).unplaced unplacedBlock := by
    intro stops
    rw [block, block]
    simp only [atMark_unplaced, List.isEmpty_map]
    split
    · rfl
    · split
      · rfl
      · refine andThen_unplaced hstmt (List.length_map _) fun _ rest hlt _ => ?_
        exact map_unplaced ((ih rest hlt).block stops) fun _ => rfl
  refine ⟨hstmt, hblock, ?_, ?_, ?_⟩
  · rw [body, body]
    exact bind_unplaced (hblock _) fun _ rest => map_unplaced (expect_unplaced _ rest) fun _ => rfl
  · intro p
    rw [branch, branch]
    refine andThen_unplaced (condition_unplaced "then" ts) (List.length_map _)
      fun _ rest hlt _ => ?_
    refine andThen_unplaced ((ih rest hlt).block _) (by simp) fun _ rest' hle _ => ?_
    exact map_unplaced (ih rest' (by omega)).otherwise fun _ => rfl
  · rcases starts_or_not (.keyword .kwElseif) ts with ⟨p, rest, rfl⟩ | ⟨hchain, hchain'⟩
    · rw [List.map_cons, Token.unplaced_mk, otherwise, otherwise]
      exact map_unplaced ((ih rest (by simp)).branch p) fun _ => rfl
    · rcases starts_or_not (.keyword .kwElse) ts with ⟨p, rest, rfl⟩ | ⟨helse, helse'⟩
      · rw [List.map_cons, Token.unplaced_mk, otherwise, otherwise]
        exact map_unplaced (ih rest (by simp)).body fun _ => rfl
      · rw [otherwise.eq_3 _ hchain helse, otherwise.eq_3 _ hchain' helse']
        exact map_unplaced (expect_unplaced _ _) fun _ => rfl
termination_by ts.length

/-- Without the positions of its tokens a program is the same, less the positions, and so is what is
wrong with tokens that are none. -/
theorem statements_unplaced (ts : List Token) :
    statements (ts.map .unplaced) = (statements ts).unplaced unplacedBlock := by
  rw [statements, statements, List.isEmpty_map]
  split
  · rfl
  · refine andThen_unplaced (stmtUnplaced ts).stmt (List.length_map _) fun _ rest hlt _ => ?_
    exact map_unplaced (statements_unplaced rest) fun _ => rfl
termination_by ts.length

end NumScript
