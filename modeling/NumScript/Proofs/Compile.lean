import NumScript.Proofs.Codegen.FunctionNames
import NumScript.Proofs.Grammar
import NumScript.Proofs.Stmt.Complete
import NumScript.Proofs.Token.Shape

/-!
# NumScript.Proofs.Compile

What compiling a text can come to: a C text, or an error that blames the text
(`compile_ok_or_blamesText`). The other errors that the passes know are out of reach:

* a flat expression that is read is well-formed, so it resolves, and no production fails for want of
  a tree (`statements_blamesToken`);
* a program that is read is complete, so code generation finds no hole and no counting loop with a
  wrong number of bounds (`Program.toC_faultless`);
* a numeral that is read denotes a number (`Numeral.read?_chars`);
* the dictionaries of the table of names have the same keys, so a call that has a symbol has an
  arity (`FunctionNames.Refines.lower_call`).
-/

namespace NumScript

open Outcome

/-! ### Productions -/

/-- Whether the cause of an error is the token in the way, and not the expression before it. -/
def ParseCause.blamesToken : ParseCause → Bool
  | .marks _ => true
  | .identifier => true
  | .expression => true
  | .tooManyBounds => true
  | .unresolved _ => false

/-- The outcome is a success, or an error on account of the token in the way. -/
def Outcome.BlamesToken {α : Type} (o : Outcome α) : Prop :=
  ∀ cause rest, o = .error cause rest → cause.blamesToken = true

namespace Outcome

variable {α β : Type}

theorem BlamesToken.ok (a : α) (rest : List Token) : (Outcome.ok a rest).BlamesToken := nofun

theorem BlamesToken.error {cause : ParseCause} (h : cause.blamesToken = true) (rest : List Token) :
    (Outcome.error cause rest : Outcome α).BlamesToken := by
  intro cause' rest' heq
  obtain ⟨rfl, -⟩ := Outcome.error.inj heq
  exact h

theorem BlamesToken.bind {o : Outcome α} {next : α → List Token → Outcome β} (h : o.BlamesToken)
    (hnext : ∀ a rest, o = .ok a rest → (next a rest).BlamesToken) : (o.bind next).BlamesToken := by
  cases o with
  | ok a rest => exact hnext a rest rfl
  | error cause rest => exact .error (h cause rest rfl) rest

theorem BlamesToken.map {o : Outcome α} (h : o.BlamesToken) (f : α → β) :
    (o.map f).BlamesToken := by
  cases o with
  | ok a rest => exact .ok _ _
  | error cause rest => exact .error (h cause rest rfl) rest

theorem BlamesToken.andThen {o : Outcome α} {limit : Nat}
    {next : α → (rest : List Token) → rest.length < limit → Outcome β} (h : o.BlamesToken)
    (hnext : ∀ a rest hlt, (next a rest hlt).BlamesToken) : (o.andThen limit next).BlamesToken := by
  cases o with
  | ok a rest =>
    unfold Outcome.andThen
    dsimp only
    split
    · exact hnext a rest _
    · exact .error rfl rest
  | error cause rest => exact .error (h cause rest rfl) rest

end Outcome

theorem expect_blamesToken (text : String) (ts : List Token) : (expect text ts).BlamesToken := by
  unfold expect
  split
  · exact .ok _ _
  · exact .error rfl _

theorem expectIdent_blamesToken (ts : List Token) : (expectIdent ts).BlamesToken := by
  unfold expectIdent
  split
  · exact .ok _ _
  · exact .error rfl _

/-- On the tokens `ts` the productions for flat expressions only fail on account of a token. -/
structure FlatBlames (ts : List Token) : Prop where
  term : (NumScript.term ts).BlamesToken
  flatExpr : (NumScript.flatExpr ts).BlamesToken
  flatTail : (NumScript.flatTail ts).BlamesToken
  callArgs : (NumScript.callArgs ts).BlamesToken
  moreArgs : (NumScript.moreArgs ts).BlamesToken

theorem flatBlames (ts : List Token) : FlatBlames ts := by
  have ih : ∀ rest : List Token, rest.length < ts.length → FlatBlames rest :=
    fun rest _ => flatBlames rest
  have hterm : (term ts).BlamesToken := by
    rw [term.eq_def]
    split
    · rename_i rest
      exact (ih rest (by simp)).flatExpr.bind fun _ _ _ => (expect_blamesToken _ _).map _
    · exact .ok _ _
    · exact .ok _ _
    · rename_i rest
      exact (ih rest (by simp only [List.length_cons]; omega)).callArgs.map _
    · exact .ok _ _
    · exact .error rfl _
  have hflat : (flatExpr ts).BlamesToken := by
    rw [flatExpr]
    exact hterm.andThen fun _ rest hlt => (ih rest hlt).flatTail.map _
  refine ⟨hterm, hflat, ?_, ?_, ?_⟩
  · rw [flatTail.eq_def]
    split
    · rename_i o p rest
      refine (ih rest (by simp)).term.andThen fun _ rest' hlt => ?_
      exact (ih rest' (by simp only [List.length_cons]; omega)).flatTail.map _
    · exact .ok _ _
  · rw [callArgs.eq_def]
    split
    · exact .ok _ _
    · exact hflat.andThen fun _ rest hlt => (ih rest hlt).moreArgs.map _
  · rw [moreArgs.eq_def]
    split
    · rename_i p rest
      refine (ih rest (by simp)).flatExpr.andThen fun _ rest' hlt => ?_
      exact (ih rest' (by simp only [List.length_cons]; omega)).moreArgs.map _
    · exact (expect_blamesToken _ _).map _
termination_by ts.length

/-- A flat expression that is read resolves, whatever it is and whatever is in its calls. -/
theorem flatExpr_resolves {ts rest : List Token} {f : Flat} (h : flatExpr ts = .ok f rest) :
    ∃ e, Flat.resolve f = .ok e := by
  obtain ⟨used, -, hused, -⟩ := flatExpr_eq_ok_iff.mp h
  exact hused.wellFormed.exists_resolve

theorem expression_blamesToken (ts : List Token) : (expression ts).BlamesToken := by
  -- the only place where an expression is resolved
  refine (flatBlames ts).flatExpr.bind fun f rest hf => ?_
  obtain ⟨e, he⟩ := flatExpr_resolves hf
  rw [he]
  exact .ok e rest

theorem condition_blamesToken (keyword : String) (ts : List Token) :
    (condition keyword ts).BlamesToken :=
  (expression_blamesToken ts).bind fun _ rest _ => (expect_blamesToken keyword rest).map _

theorem declaration_blamesToken (p : Pos) (ts : List Token) : (declaration p ts).BlamesToken := by
  refine (expectIdent_blamesToken ts).bind fun name rest _ => ?_
  split
  · exact (expression_blamesToken _).map _
  · exact .ok _ _

theorem assignment_blamesToken (p : Pos) (ts : List Token) : (assignment p ts).BlamesToken :=
  (expectIdent_blamesToken ts).bind fun _ rest _ =>
    (expect_blamesToken "=" rest).bind fun _ rest' _ => (expression_blamesToken rest').map _

theorem moreParams_blamesToken (ts : List Token) : (moreParams ts).BlamesToken := by
  have ih : ∀ rest : List Token, rest.length < ts.length → (moreParams rest).BlamesToken :=
    fun rest _ => moreParams_blamesToken rest
  rw [moreParams.eq_def]
  split
  · rename_i p rest
    refine (expectIdent_blamesToken rest).andThen fun _ rest' hlt => ?_
    exact (ih rest' (by simp only [List.length_cons]; omega)).map _
  · exact (expect_blamesToken _ _).map _
termination_by ts.length

theorem signature_blamesToken (ts : List Token) : (signature ts).BlamesToken := by
  refine (expectIdent_blamesToken ts).bind fun _ rest _ => ?_
  refine (expect_blamesToken "(" rest).bind fun _ rest' _ => BlamesToken.map ?_ _
  unfold params
  split
  · exact .ok _ _
  · exact (expectIdent_blamesToken _).bind fun _ rest _ => (moreParams_blamesToken rest).map _

theorem moreBounds_blamesToken (seen : Nat) (ts : List Token) :
    (moreBounds seen ts).BlamesToken := by
  have ih : ∀ rest : List Token, rest.length < ts.length →
      (moreBounds (seen + 1) rest).BlamesToken :=
    fun rest _ => moreBounds_blamesToken (seen + 1) rest
  rw [moreBounds.eq_def]
  split
  · rename_i p rest
    split
    · exact .error rfl _
    · refine (expression_blamesToken rest).andThen fun _ rest' hlt => ?_
      exact (ih rest' (by simp only [List.length_cons]; omega)).map _
  · exact (expect_blamesToken _ _).map _
termination_by ts.length

theorem countHead_blamesToken (ts : List Token) : (countHead ts).BlamesToken :=
  (expectIdent_blamesToken ts).bind fun _ rest _ =>
    (expect_blamesToken "," rest).bind fun _ rest' _ =>
      (expression_blamesToken rest').bind fun _ rest'' _ => (moreBounds_blamesToken 1 rest'').map _

/-- On the tokens `ts` the productions for statements only fail on account of a token. -/
structure StmtBlames (ts : List Token) : Prop where
  stmt : (NumScript.stmt ts).BlamesToken
  block : ∀ stops, (NumScript.block stops ts).BlamesToken
  body : (NumScript.body ts).BlamesToken
  branch : ∀ p, (NumScript.branch p ts).BlamesToken
  otherwise : (NumScript.otherwise ts).BlamesToken

theorem stmtBlames (ts : List Token) : StmtBlames ts := by
  have ih : ∀ rest : List Token, rest.length < ts.length → StmtBlames rest :=
    fun rest _ => stmtBlames rest
  have hstmt : (stmt ts).BlamesToken := by
    rw [stmt.eq_def]
    split
    · exact declaration_blamesToken _ _
    · rename_i p rest
      rw [definition]
      exact (signature_blamesToken rest).andThen fun _ rest' hlt =>
        (ih rest' (Nat.lt_succ_of_lt hlt)).body.map _
    · rename_i p rest
      exact (ih rest (by simp)).branch p
    · rename_i p rest
      rw [loop]
      exact (condition_blamesToken "do" rest).andThen fun _ rest' hlt =>
        (ih rest' (Nat.lt_succ_of_lt hlt)).body.map _
    · rename_i p rest
      rw [count]
      exact (countHead_blamesToken rest).andThen fun _ rest' hlt =>
        (ih rest' (Nat.lt_succ_of_lt hlt)).body.map _
    · exact assignment_blamesToken _ _
    · exact (expression_blamesToken _).map _
    · exact .error rfl _
  have hblock : ∀ stops, (block stops ts).BlamesToken := by
    intro stops
    rw [block]
    split
    · exact .ok _ _
    · split
      · exact .error rfl _
      · exact hstmt.andThen fun _ rest hlt => ((ih rest hlt).block stops).map _
  refine ⟨hstmt, hblock, ?_, ?_, ?_⟩
  · rw [body]
    exact (hblock _).bind fun _ rest _ => (expect_blamesToken _ rest).map _
  · intro p
    rw [branch]
    refine (condition_blamesToken "then" ts).andThen fun _ rest hlt => ?_
    refine ((ih rest hlt).block _).andThen fun _ rest' hle => ?_
    exact (ih rest' (by omega)).otherwise.map _
  · rw [otherwise.eq_def]
    split
    · rename_i p rest
      exact ((ih rest (by simp)).branch p).map _
    · rename_i p rest
      exact (ih rest (by simp)).body.map _
    · exact (expect_blamesToken _ _).map _
termination_by ts.length

theorem statements_blamesToken (ts : List Token) : (statements ts).BlamesToken := by
  rw [statements]
  split
  · exact .ok _ _
  · exact (stmtBlames ts).stmt.andThen fun _ rest _ => (statements_blamesToken rest).map _
termination_by ts.length

/-! ### Texts -/

/-- Whether an error blames the text: it has no lexemes or no grammar, or its functions do not fit
together. -/
def CompileError.blamesText : CompileError → Bool
  | .source (.lexical _) => true
  | .source (.grammatical e) => e.cause.blamesToken
  | .codegen e => e.blamesProgram

theorem parse_blamesText {source : String} {e : SourceError} (h : parse source = .error e) :
    (CompileError.source e).blamesText = true := by
  unfold parse at h
  split at h
  · obtain rfl := Except.error.inj h
    rfl
  · rename_i stream _
    have hblames := statements_blamesToken stream.tokens
    cases hs : statements stream.tokens with
    | ok program rest => rw [hs] at h; exact absurd h nofun
    | error cause rest =>
      rw [hs] at h hblames
      obtain rfl := Except.error.inj h
      exact hblames cause rest rfl

/-- A program that was read is complete. -/
theorem completeStmts_of_parse {source : String} {program : Program}
    (h : parse source = .ok program) : completeStmts program = true := by
  cases hlex : lex source with
  | error e => rw [parse, hlex] at h; cases h
  | ok stream => exact ((parse_eq_ok_iff hlex).mp h).isComplete

/-- The numerals of a text denote numbers. -/
theorem lex_numerals {source : String} {stream : TokenStream} (h : lex source = .ok stream)
    {n : Numeral} {p : Pos} (hn : ⟨.number n, p⟩ ∈ stream.tokens) :
    Double.read? (Lexeme.number n).text = some n.value :=
  Numeral.read?_chars (lexFrom_isValid h _ hn)

theorem compile_eq_ok_iff {source text : String} :
    compile source = .ok text ↔
      ∃ program, parse source = .ok program ∧
        program.toC (.empty NameTable.counting) = .ok text := by
  rw [compile]
  cases parse source with
  | error e => simp
  | ok program =>
    cases hc : program.toC (.empty NameTable.counting) <;> simp [hc]

/-- Compiling a text yields a C text, or an error that blames the text: a lexical one, a token in
the way of the grammar, a function defined twice, a call without a function or with the wrong number
of arguments. On the way every numeral denotes a number, the parser stays within the tokens, every
flat expression resolves, and the program has nothing missing. In the table of names that any
requests lead to, starting with the counter of the compiler or any other source of suffixes, a
function whose symbol is known has a known arity, so that a call is lowered or its error blames the
program. -/
theorem compile_ok_or_blamesText (source : String) :
    ((∃ text, compile source = .ok text) ∨
      ∃ e, compile source = .error e ∧ e.blamesText = true) ∧
    (∀ stream, lex source = .ok stream →
      (∀ n p, ⟨.number n, p⟩ ∈ stream.tokens →
        Double.read? (Lexeme.number n).text = some n.value) ∧
      (statements stream.tokens).rest <:+ stream.tokens) ∧
    (∀ ts f rest, flatExpr ts = .ok f rest → ∃ e, Flat.resolve f = .ok e) ∧
    (∀ program, parse source = .ok program → completeStmts program = true) ∧
    SuffixSource.counter.stream = NameTable.counting ∧
    ∀ (σ : Type) (source : SuffixSource σ) (requests : List NameRequest) (name : String),
      let names := (FunctionNames.start source).after requests
      let table := (NameTable.empty source.stream).after requests
      (∀ symbol, names.lookup name = some symbol → ∃ arity, names.arity name = .ok arity) ∧
      ∀ (args : List Expr) (p : Pos),
        (∃ symbol, names.callee name args.length p = .ok symbol ∧
          (Expr.call name args).lower table p =
            (lowerArgs table p args).map fun texts =>
              symbol ++ "(" ++ ", ".intercalate texts ++ ")") ∨
        ∃ e, names.callee name args.length p = .error (.codegen e) ∧
          (Expr.call name args).lower table p = .error e := by
  refine ⟨?_, ?_, fun _ _ _ h => flatExpr_resolves h, fun _ h => completeStmts_of_parse h,
    SuffixSource.stream_counter, ?_⟩
  · rw [compile]
    cases hparse : parse source with
    | error e => exact .inr ⟨.source e, rfl, parse_blamesText hparse⟩
    | ok program =>
      cases hc : program.toC (.empty NameTable.counting) with
      | error e =>
        have hfaultless := Program.toC_faultless _ (completeStmts_of_parse hparse) e hc
        exact .inr ⟨.codegen e, by simp [hc], hfaultless⟩
      | ok text => exact .inl ⟨text, by simp [hc]⟩
  · intro stream hlex
    exact ⟨fun n p hn => lex_numerals hlex hn, statements_leaves stream.tokens⟩
  · intro σ source requests name names table
    have hrefines := FunctionNames.refines_after source requests
    exact ⟨fun symbol h => hrefines.exists_arity h, hrefines.lower_call name⟩

end NumScript
