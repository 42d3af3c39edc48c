import NumScript.Proofs.Codegen.Script
import NumScript.Proofs.Stmt.Complete

/-!
# NumScript.Proofs.Codegen.Check

Which programs have a C text. A program mentions functions: it defines them, and it calls them. The
mentions, taken in the order of the text, are checked against a growing table of the functions
defined so far (`check`): a definition has to be of a new name, a call has to be of a name in the
table, with as many arguments as the function has parameters.

Code generation succeeds exactly if the check does, and else reports the error of the first mention
that fails, at the position of the statement that it stands in (`Program.toC_iff_check`). The check
knows nothing of lines, units and symbols, and the table is all that code generation passes on from
one statement to the next that can make it fail.
-/

namespace NumScript

/-! ### Mentions -/

mutual

/-- The calls in an expression with their numbers of arguments, each before those in its
arguments. -/
def Expr.calls : Expr → List (String × Nat)
  | .number _ => []
  | .ident _ => []
  | .call name args => (name, args.length) :: callsOf args
  | .binary _ left right => left.calls ++ right.calls
  | .pair left right => left.calls ++ right.calls
  | .hole => []

/-- The calls in expressions, from left to right. -/
def callsOf : List Expr → List (String × Nat)
  | [] => []
  | e :: es => e.calls ++ callsOf es

end

/-- A place where a program names a function. -/
inductive Mention where
  | definition (pos : Pos) (name : String) (params : Nat)
  | call (pos : Pos) (name : String) (args : Nat)
deriving DecidableEq, Repr

/-- The calls in expressions of the statement at `p`. -/
def callMentions (p : Pos) (es : List Expr) : List Mention :=
  (callsOf es).map fun (name, args) => .call p name args

/-- What a statement mentions itself, without the statements in its bodies. -/
def Stmt.mentions : Stmt → List Mention
  | .expr p value => callMentions p [value]
  | .declare p _ value => callMentions p [value]
  | .assign p _ value => callMentions p [value]
  | .branch p cond _ _ => callMentions p [cond]
  | .count p _ bounds _ => callMentions p bounds
  | .loop p cond _ => callMentions p [cond]
  | .define p name params _ => [.definition p name params.length]
  | .hole _ => []

/-- What a program mentions, in the order of the text. -/
def Program.mentions (p : Program) : List Mention := (listings p).flatMap Stmt.mentions

/-! ### The check -/

/-- A function that has been defined. -/
structure Recorded where
  name : String
  params : Nat
  pos : Pos
deriving DecidableEq, Repr

/-- Checks a mention against the functions defined so far, and yields those defined after it. -/
def Mention.check (table : List Recorded) : Mention → Except CodegenError (List Recorded)
  | .definition p name params =>
    match table.find? (·.name == name) with
    | some first => .error (.redefined name first.pos p)
    | none => .ok (table ++ [⟨name, params, p⟩])
  | .call p name args =>
    match table.find? (·.name == name) with
    | none => .error (.undefined name p)
    | some f => if f.params = args then .ok table else .error (.arity name f.params args p)

/-- Checks mentions one after the other. -/
def check (table : List Recorded) (mentions : List Mention) :
    Except CodegenError (List Recorded) :=
  mentions.foldlM Mention.check table

@[simp]
theorem check_nil (table : List Recorded) : check table [] = .ok table := rfl

theorem check_cons (table : List Recorded) (m : Mention) (ms : List Mention) :
    check table (m :: ms) = (m.check table >>= fun table' => check table' ms) := rfl

theorem check_append (table : List Recorded) (ms ns : List Mention) :
    check table (ms ++ ns) = (check table ms >>= fun table' => check table' ns) := by
  simp [check]

/-- Expressions mention calls of what their members mention. -/
theorem callMentions_cons (p : Pos) (e : Expr) (es : List Expr) :
    callMentions p (e :: es) = callMentions p [e] ++ callMentions p es := by
  simp [callMentions, callsOf]

/-! ### Tables of names and tables of the check -/

/-- The table of names holds the functions of the table of the check. -/
def Tabulates (t : NameTable) (table : List Recorded) : Prop :=
  t.definitions.map (fun d => (d.name, d.arity, d.pos)) =
    table.map fun f => (f.name, (f.params : Int), f.pos)

theorem Tabulates.find? {t : NameTable} {table : List Recorded} (h : Tabulates t table)
    (name : String) :
    (t.find? name).map (fun d => (d.name, d.arity, d.pos)) =
      (table.find? (·.name == name)).map fun f => (f.name, (f.params : Int), f.pos) := by
  have hfind := congrArg (List.find? fun k : String × Int × Pos => k.1 == name) h
  simpa [List.find?_map, Function.comp_def, NameTable.find?] using hfind

theorem Tabulates.find?_eq_none {t : NameTable} {table : List Recorded} (h : Tabulates t table)
    {name : String} (hname : t.find? name = none) : table.find? (·.name == name) = none := by
  have hfind := h.find? name
  rw [hname] at hfind
  simpa using hfind.symm

theorem Tabulates.find?_eq_some {t : NameTable} {table : List Recorded} (h : Tabulates t table)
    {name : String} {d : Definition} (hname : t.find? name = some d) :
    ∃ f, table.find? (·.name == name) = some f ∧ d.arity = f.params ∧ d.pos = f.pos := by
  have hfind := h.find? name
  rw [hname] at hfind
  obtain ⟨f, hf, heq⟩ := Option.map_eq_some_iff.mp hfind.symm
  simp only [Prod.mk.injEq] at heq
  exact ⟨f, hf, heq.2.1.symm, heq.2.2.symm⟩

/-- A definition adds the same function to both tables. -/
theorem Tabulates.define {t t' : NameTable} {table : List Recorded} (h : Tabulates t table)
    {name symbol : String} {params : Nat} {p : Pos}
    (hname : t.define name params p = .ok (symbol, t')) :
    ∃ table', (Mention.definition p name params).check table = .ok table' ∧
      Tabulates t' table' := by
  obtain ⟨hnew, -, rfl⟩ := NameTable.define_eq_ok_iff.mp hname
  refine ⟨table ++ [⟨name, params, p⟩], ?_, ?_⟩
  · rw [Mention.check, h.find?_eq_none hnew]
  · unfold Tabulates at h ⊢
    simp [h]

/-! ### Expressions -/

/-- The outcome is that of the check of these mentions, which adds nothing to the table. -/
def Agrees {α : Type} (outcome : Except CodegenError α) (table : List Recorded)
    (ms : List Mention) : Prop :=
  check table ms = outcome.map fun _ => table

theorem Agrees.bind {α β : Type} {x : Except CodegenError α} {f : α → Except CodegenError β}
    {table : List Recorded} {ms ns : List Mention} (hx : Agrees x table ms)
    (hf : ∀ a, Agrees (f a) table ns) : Agrees (x >>= f) table (ms ++ ns) := by
  unfold Agrees at hx ⊢
  rw [check_append, hx]
  cases x with
  | ok a => exact hf a
  | error e => rfl

theorem Agrees.bind_pure {α β : Type} {x : Except CodegenError α} {table : List Recorded}
    {ms : List Mention} (hx : Agrees x table ms) (f : α → β) :
    Agrees (x >>= fun a => pure (f a)) table ms := by
  unfold Agrees at hx ⊢
  rw [hx]
  cases x <;> rfl

mutual

/-- Lowering a complete expression agrees with the check of its calls. -/
theorem Expr.lower_agrees {names : NameTable} {table : List Recorded} (ht : Tabulates names table)
    (p : Pos) : ∀ e : Expr, e.isComplete = true →
      Agrees (e.lower names p) table (callMentions p [e])
  | .number _, _ => rfl
  | .ident _, _ => rfl
  | .call name args, h => by
    have hargs := lowerArgs_agrees ht p args h
    have hmentions : callMentions p [.call name args] =
        .call p name args.length :: callMentions p args := by
      simp [callMentions, callsOf, Expr.calls]
    rw [hmentions, Expr.lower]
    unfold Agrees
    rw [check_cons, Mention.check]
    cases hfind : names.find? name with
    | none => rw [ht.find?_eq_none hfind]; rfl
    | some d =>
      obtain ⟨f, hf, harity, -⟩ := ht.find?_eq_some hfind
      simp only [hf, harity, Int.natCast_inj]
      by_cases hcount : f.params = args.length
      · rw [if_pos hcount, if_pos hcount]
        exact hargs.bind_pure _
      · rw [if_neg hcount, if_neg hcount]
        rfl
  | .binary o l r, h => by
    rw [Expr.isComplete, Bool.and_eq_true] at h
    have hmentions : callMentions p [.binary o l r] = callMentions p [l] ++ callMentions p [r] := by
      simp [callMentions, callsOf, Expr.calls]
    rw [hmentions, Expr.lower]
    exact (l.lower_agrees ht p h.1).bind fun _ => (r.lower_agrees ht p h.2).bind_pure _
  | .pair _ _, h => absurd h (by simp [Expr.isComplete])
  | .hole, h => absurd h (by simp [Expr.isComplete])

/-- Lowering complete expressions agrees with the check of their calls. -/
theorem lowerArgs_agrees {names : NameTable} {table : List Recorded} (ht : Tabulates names table)
    (p : Pos) : ∀ es : List Expr, completeExprs es = true →
      Agrees (lowerArgs names p es) table (callMentions p es)
  | [], _ => rfl
  | e :: es, h => by
    rw [completeExprs, Bool.and_eq_true] at h
    rw [callMentions_cons, lowerArgs]
    exact (e.lower_agrees ht p h.1).bind fun _ => (lowerArgs_agrees ht p es h.2).bind_pure _

end

/-! ### Scripts -/

/-- Whether a line of the form can have this number of expressions. -/
def LineForm.takes : LineForm → Nat → Bool
  | .count _, n => decide (1 ≤ n) && decide (n ≤ 3)
  | _, n => n == 1

theorem LineForm.exists_text {form : LineForm} {texts : List String}
    (h : form.takes texts.length = true) : ∃ text, form.text texts = .ok text := by
  cases form with
  | count var =>
    simp only [takes, Bool.and_eq_true, decide_eq_true_eq] at h
    match texts, h with
    | [_], _ => exact ⟨_, rfl⟩
    | [_, _], _ => exact ⟨_, rfl⟩
    | [_, _, _], _ => exact ⟨_, rfl⟩
  | _ =>
    obtain ⟨text, rfl⟩ := List.length_eq_one_iff.mp (eq_of_beq h)
    exact ⟨_, rfl⟩

namespace Script

/-- What a script mentions. -/
def mentions : Script → List Mention
  | .skip => []
  | .seq first second => first.mentions ++ second.mentions
  | .closing _ => []
  | .statement p es _ => callMentions p es
  | .indented body => body.mentions
  | .define p name params _ body => .definition p name params.length :: body.mentions
  | .hole _ => []

/-- Whether a script has nothing missing. -/
def isComplete : Script → Bool
  | .skip => true
  | .seq first second => first.isComplete && second.isComplete
  | .closing _ => true
  | .statement _ es form => completeExprs es && form.takes es.length
  | .indented body => body.isComplete
  | .define _ _ _ _ body => body.isComplete
  | .hole _ => false

/-- The result is that of the check, and so is the table that is left. -/
def Decides (checked : Except CodegenError (List Recorded)) :
    EStateM.Result CodegenError Builder Unit → Prop
  | .ok _ b => ∃ table, checked = .ok table ∧ Tabulates b.names table
  | .error e _ => checked = .error e

/-- A run of a complete script succeeds exactly if the check of its mentions does, and else fails
with the same error. -/
theorem Runs.decides {s : Script} {b : Builder} {r : EStateM.Result CodegenError Builder Unit}
    (h : Runs s b r) : s.isComplete = true → ∀ {table : List Recorded}, Tabulates b.names table →
      Decides (check table s.mentions) r := by
  induction h with
  | skip b =>
    intro _ table ht
    exact ⟨table, rfl, ht⟩
  | seq _ _ ihs iht =>
    intro hc table ht
    rw [isComplete, Bool.and_eq_true] at hc
    obtain ⟨table', hcheck, ht'⟩ := ihs hc.1 ht
    rw [mentions, check_append, hcheck]
    exact iht hc.2 ht'
  | seqFails t _ ih =>
    intro hc table ht
    rw [isComplete, Bool.and_eq_true] at hc
    have hcheck := ih hc.1 ht
    rw [mentions, check_append, hcheck]
    rfl
  | closing l b =>
    intro _ table ht
    exact ⟨table, rfl, ht⟩
  | @statement p es _ _ _ _ htexts _ =>
    intro hc table ht
    rw [isComplete, Bool.and_eq_true] at hc
    have hagrees := lowerArgs_agrees ht p es hc.1
    rw [htexts] at hagrees
    exact ⟨table, hagrees, ht⟩
  | @exprsFail p es _ _ form htexts =>
    intro hc table ht
    rw [isComplete, Bool.and_eq_true] at hc
    have hagrees := lowerArgs_agrees ht p es hc.1
    rw [htexts] at hagrees
    exact hagrees
  | formFails htexts herror =>
    -- lowering keeps the number of expressions, and the form takes that number
    intro hc table ht
    rw [isComplete, Bool.and_eq_true, ← length_of_lowerArgs htexts] at hc
    obtain ⟨text, htext⟩ := LineForm.exists_text hc.2
    rw [htext] at herror
    cases herror
  | indented _ ih => exact ih
  | indentedFails _ ih => exact ih
  | define returnsZero hname _ _ ih =>
    intro hc table ht
    obtain ⟨table', hcheck, ht'⟩ := ht.define hname
    rw [mentions, check_cons, hcheck]
    exact ih hc ht'
  | defineFails returnsZero hname _ _ ih =>
    intro hc table ht
    obtain ⟨table', hcheck, ht'⟩ := ht.define hname
    rw [mentions, check_cons, hcheck]
    exact ih hc ht'
  | redefined returnsZero body hname =>
    intro hc table ht
    obtain ⟨first, hfirst, rfl⟩ := NameTable.define_eq_error_iff.mp hname
    obtain ⟨f, hf, -, hpos⟩ := ht.find?_eq_some hfirst
    show check table (_ :: _) = _
    rw [check_cons, Mention.check, hf, hpos]
    rfl
  | hole p b =>
    intro hc
    cases hc

end Script

/-! ### Statements -/

/-- What a piece of a statement mentions. -/
def Piece.mentions : Piece → List Mention
  | .exprs p _ es => callMentions p es
  | .head p name params => [.definition p name params.length]
  | .hole _ => []

theorem Stmt.piece_mentions (s : Stmt) : s.piece.mentions = s.mentions := by
  cases s <;> rfl

theorem Script.mentions_eq (s : Script) : s.mentions = s.pieces.flatMap Piece.mentions := by
  induction s with
  | seq first second ih ih' => simp [mentions, pieces, ih, ih']
  | indented body ih => exact ih
  | define p name params _ body ih => simp [mentions, pieces, ih, Piece.mentions]
  | _ => simp [mentions, pieces, Piece.mentions]

/-- A script mentions what the statements mention, in the order of their listing. -/
theorem stmtsScript_mentions (returns : Bool) (ss : List Stmt) :
    (stmtsScript returns ss).mentions = (listings ss).flatMap Stmt.mentions := by
  rw [Script.mentions_eq, stmtsScript_pieces, List.flatMap_map]
  simp only [Stmt.piece_mentions]

mutual

theorem Stmt.script_isComplete (returns : Bool) : ∀ s : Stmt, s.isComplete = true →
    (s.script returns).isComplete = true
  | .expr _ _, h => by
    rw [Stmt.isComplete] at h
    cases returns <;> simp [Stmt.script, Script.isComplete, completeExprs, LineForm.takes, h]
  | .declare _ _ _, h => by
    rw [Stmt.isComplete] at h
    simp [Stmt.script, Script.isComplete, completeExprs, LineForm.takes, h]
  | .assign _ _ _, h => by
    rw [Stmt.isComplete] at h
    simp [Stmt.script, Script.isComplete, completeExprs, LineForm.takes, h]
  | .branch _ _ body rest, h => by
    simp only [Stmt.isComplete, Bool.and_eq_true] at h
    simp [Stmt.script, Script.isComplete, completeExprs, LineForm.takes, h.1.1,
      stmtsScript_isComplete false body h.1.2, elseScript_isComplete rest h.2]
  | .count _ _ bounds body, h => by
    simp only [Stmt.isComplete, Bool.and_eq_true] at h
    simp [Stmt.script, Script.isComplete, LineForm.takes, h.1.1.1, h.1.1.2, h.1.2,
      stmtsScript_isComplete false body h.2]
  | .loop _ _ body, h => by
    simp only [Stmt.isComplete, Bool.and_eq_true] at h
    simp [Stmt.script, Script.isComplete, completeExprs, LineForm.takes, h.1,
      stmtsScript_isComplete false body h.2]
  | .define _ _ _ body, h => by
    rw [Stmt.isComplete] at h
    simp [Stmt.script, Script.isComplete, stmtsScript_isComplete true body h]
  | .hole _, h => absurd h (by simp [Stmt.isComplete])
termination_by s => sizeOf s

/-- Complete statements have a complete script. -/
theorem stmtsScript_isComplete (returns : Bool) : ∀ ss : List Stmt, completeStmts ss = true →
    (stmtsScript returns ss).isComplete = true
  | [], _ => rfl
  | s :: ss, h => by
    simp only [completeStmts, Bool.and_eq_true] at h
    simp [stmtsScript, Script.isComplete, Stmt.script_isComplete _ s h.1,
      stmtsScript_isComplete returns ss h.2]
termination_by ss => sizeOf ss

theorem elseScript_isComplete : ∀ o : Option (List Stmt), completeElse o = true →
    (elseScript o).isComplete = true
  | o, h => by
    rw [elseScript.eq_def]
    split
    · rfl
    · rename_i p cond body rest
      simp only [completeElse, completeStmts, Stmt.isComplete, Bool.and_eq_true] at h
      obtain ⟨⟨⟨hcond, hbody⟩, hrest⟩, -⟩ := h
      simp [Script.isComplete, completeExprs, LineForm.takes, hcond,
        stmtsScript_isComplete false body hbody, elseScript_isComplete rest hrest]
    · rename_i body _
      simp [Script.isComplete, stmtsScript_isComplete false body h]
termination_by o => sizeOf o

end

/-! ### The first failure -/

/-- The position of the statement that a mention stands in. -/
def Mention.pos : Mention → Pos
  | .definition p _ _ => p
  | .call p _ _ => p

theorem Mention.blames_of_check {m : Mention} {table : List Recorded} {e : CodegenError}
    (h : m.check table = .error e) : e.blamesProgram = true ∧ e.pos? = some m.pos := by
  cases m with
  | definition p name params =>
    rw [Mention.check] at h
    split at h
    · cases h
      exact ⟨rfl, rfl⟩
    · cases h
  | call p name args =>
    rw [Mention.check] at h
    split at h
    · cases h
      exact ⟨rfl, rfl⟩
    · split at h
      · cases h
      · cases h
        exact ⟨rfl, rfl⟩

theorem exists_check_eq_error {table : List Recorded} {ms : List Mention} {e : CodegenError}
    (h : check table ms = .error e) : ∃ m ∈ ms, ∃ table', m.check table' = .error e := by
  induction ms generalizing table with
  | nil => cases h
  | cons m ms ih =>
    rw [check_cons] at h
    cases hm : m.check table with
    | error e' =>
      rw [hm] at h
      cases h
      exact ⟨m, List.mem_cons_self, table, hm⟩
    | ok table' =>
      rw [hm] at h
      obtain ⟨m', hmem, hfails⟩ := ih h
      exact ⟨m', List.mem_cons_of_mem m hmem, hfails⟩

theorem Stmt.pos_of_mem_mentions {s : Stmt} {m : Mention} (h : m ∈ s.mentions) : m.pos = s.pos := by
  have hcalls : ∀ {p : Pos} {es : List Expr}, m ∈ callMentions p es → m.pos = p := by
    intro p es hm
    obtain ⟨call, -, rfl⟩ := List.mem_map.mp hm
    rfl
  cases s with
  | define p name params body =>
    obtain rfl := List.mem_singleton.mp h
    rfl
  | hole p => cases h
  | _ => exact hcalls h

/-- A check that fails on the mentions of statements fails at one of them, and passes those before
it. -/
theorem exists_stmt_of_check {table : List Recorded} {ss : List Stmt} {e : CodegenError}
    (h : check table (ss.flatMap Stmt.mentions) = .error e) :
    ∃ before s after table', ss = before ++ s :: after ∧
      check table (before.flatMap Stmt.mentions) = .ok table' ∧
      check table' s.mentions = .error e := by
  induction ss generalizing table with
  | nil => cases h
  | cons s ss ih =>
    rw [List.flatMap_cons, check_append] at h
    cases hs : check table s.mentions with
    | error e' =>
      rw [hs] at h
      cases h
      exact ⟨[], s, ss, table, rfl, rfl, hs⟩
    | ok table' =>
      rw [hs] at h
      obtain ⟨before, s', after, table'', rfl, hbefore, hfails⟩ := ih h
      refine ⟨s :: before, s', after, table'', rfl, ?_, hfails⟩
      rw [List.flatMap_cons, check_append, hs]
      exact hbefore

/-- Code generation and the check both succeed, or both fail with one error. -/
theorem Program.toC_and_check (suffix : Nat → String) {p : Program} (hp : completeStmts p = true) :
    (∃ text table, p.toC (.empty suffix) = .ok text ∧ check [] p.mentions = .ok table) ∨
      ∃ e, p.toC (.empty suffix) = .error e ∧ check [] p.mentions = .error e := by
  have hempty : Tabulates (NameTable.empty suffix) [] := rfl
  have hdecides := (Script.runs_run (stmtsScript false p) (.atMain (.empty suffix))).decides
    (stmtsScript_isComplete false p hp) hempty
  rw [stmtsScript_mentions] at hdecides
  cases hrun : (stmtsScript false p).run (.atMain (.empty suffix)) with
  | ok _ b =>
    rw [hrun] at hdecides
    obtain ⟨table, hcheck, -⟩ := hdecides
    exact .inl ⟨_, table, Program.toC_of_ok hrun, hcheck⟩
  | error e b =>
    rw [hrun] at hdecides
    exact .inr ⟨e, Program.toC_of_error hrun, hdecides⟩

/-- A complete program has a C text exactly if its mentions pass the check, and else code generation
fails with the error of the check. That error blames the program, and it has the position of the
first statement that does not pass. -/
theorem Program.toC_iff_check (suffix : Nat → String) {p : Program} (hp : completeStmts p = true) :
    ((∃ text, p.toC (.empty suffix) = .ok text) ↔ ∃ table, check [] p.mentions = .ok table) ∧
    (∀ e, p.toC (.empty suffix) = .error e ↔ check [] p.mentions = .error e) ∧
    ∀ e, check [] p.mentions = .error e → e.blamesProgram = true ∧
      ∃ before s after table, listings p = before ++ s :: after ∧
        check [] (before.flatMap Stmt.mentions) = .ok table ∧
        check table s.mentions = .error e ∧ e.pos? = some s.pos := by
  have hboth := Program.toC_and_check suffix hp
  refine ⟨?_, ?_, ?_⟩
  · rcases hboth with ⟨text, table, htext, hcheck⟩ | ⟨e, herror, hcheck⟩
    · exact ⟨fun _ => ⟨table, hcheck⟩, fun _ => ⟨text, htext⟩⟩
    · simp [herror, hcheck]
  · intro e
    rcases hboth with ⟨text, table, htext, hcheck⟩ | ⟨e', herror, hcheck⟩
    · simp [htext, hcheck]
    · simp [herror, hcheck]
  · intro e he
    obtain ⟨before, s, after, table, hlist, hbefore, hfails⟩ := exists_stmt_of_check he
    obtain ⟨m, hm, table', hcheck⟩ := exists_check_eq_error hfails
    obtain ⟨hblames, hpos⟩ := Mention.blames_of_check hcheck
    rw [Stmt.pos_of_mem_mentions hm] at hpos
    exact ⟨hblames, before, s, after, table, hlist, hbefore, hfails, hpos⟩

/-- A program that fails late: `outer` defines `inner` and calls it, and after a body that ends in
another definition the condition of an `elseif` calls `outer`, with one argument too many. -/
def lateCall : Program :=
  [.define ⟨1, 1⟩ "outer" ["x"]
    [.define ⟨2, 3⟩ "inner" [] [.expr ⟨2, 20⟩ (.call "outer" [.ident "x"])],
     .expr ⟨3, 3⟩ (.call "inner" [])],
   .branch ⟨5, 1⟩ (.ident "a") [.define ⟨6, 3⟩ "last" [] []]
    (some [.branch ⟨7, 1⟩ (.call "outer" [.call "last" [], .call "missing" []])
      [.expr ⟨8, 3⟩ (.call "inner" [.ident "a"])] none])]

theorem lateCall_toC_iff_check :
    completeStmts lateCall = true ∧
      Program.toC (.empty NameTable.counting) lateCall = .error (.arity "outer" 1 2 ⟨7, 1⟩) :=
  ⟨by decide +kernel,
    ((Program.toC_iff_check NameTable.counting (by decide +kernel)).2.1 _).mpr rfl⟩

end NumScript
