import NumScript.Cursor
import NumScript.Stmt.Progress

/-!
# NumScript.Proofs.Cursor

The index of a parser in use stays inside the text. What a call does to the parser is to advance it
a number of times (`Parser.InRange.perform_eq_advanceBy`): a production takes tokens off the front
of those that are left, and each of them is one advance (`Parser.InRange.moveTo_eq_advanceBy`).
Advancing stops at the end, so that a parser is always at some token of its text or at the end, and
each call leaves it there or further on.

The loops that read statements one after the other are described round by round (`StmtLoop`). Each
round takes a token, so there are no more rounds than tokens.
-/

namespace NumScript

/-- The calls that take a token whenever they succeed. -/
def ParserCall.takesToken : ParserCall → Bool
  | .stmt => true
  | .expression => true
  | .flatExpr => true
  | .term => true
  | .argList => true
  | _ => false

/-! ### What a call changes -/

theorem announced_leaves (keyword : String) {production : Pos → List Token → Outcome Stmt}
    (h : ∀ pos ts, (production pos ts).Advances ts) (s : TokenStream) :
    (announced keyword production s).Leaves s.tokens :=
  (expect_leaves keyword s.tokens).bind fun _ rest _ => (h s.pos rest).leaves

theorem argList_advances (ts : List Token) : (argList ts).Advances ts := by
  cases hopen : expect "(" ts with
  | ok u rest =>
    obtain ⟨p, rfl⟩ := (expect_eq_ok_iff (m := .symbol .lparen) rfl).mp hopen
    rw [argList, hopen]
    exact (flatProgress rest).callArgs.leaves.cons _
  | error cause rest =>
    have hleaves := expect_leaves "(" ts
    rw [argList, hopen] at *
    exact Outcome.advances_error.mpr hleaves

/-- The view of the next token is of the class of the end only if none is left. -/
theorem TokenStream.kind_current_eq_iff (s : TokenStream) :
    s.current.kind = "EOF" ↔ s.tokens = [] := by
  rw [current, peek]
  cases s.tokens with
  | nil => exact ⟨fun _ => rfl, fun _ => rfl⟩
  | cons t ts => exact ⟨fun h => absurd h t.lexeme.kind_ne_eof, fun h => by cases h⟩

namespace Parser

/-- The index is that of a token or of the end. -/
structure InRange (p : Parser) : Prop where
  index_nonneg : 0 ≤ p.index
  index_le : p.index ≤ p.stream.tokens.length

/-- The parser after advancing a number of times. -/
def advanceBy (p : Parser) : Nat → Parser
  | 0 => p
  | n + 1 => p.advance.advanceBy n

theorem stream_advance (p : Parser) : p.advance.stream = p.stream := by
  rw [advance]
  split <;> rfl

@[simp]
theorem settle_snd {α : Type} (p : Parser) (reply : α → ParserReply) (o : Outcome α) :
    (p.settle reply o).2 = p.moveTo o.rest := by
  cases o <;> rfl

theorem inRange_start (stream : TokenStream) : (start stream).InRange :=
  ⟨Int.le_refl 0, Int.natCast_nonneg _⟩

namespace InRange

variable {p : Parser}

theorem length_left (h : p.InRange) : (p.left.length : Int) = p.stream.tokens.length - p.index := by
  have hnonneg := h.index_nonneg
  have hle := h.index_le
  rw [left, List.length_drop]
  omega

/-- The token at the index can be read, and it is the first of those that are left. -/
theorem current?_eq (h : p.InRange) : p.current? = some p.rest.current := by
  obtain ⟨i, hi⟩ := Int.eq_ofNat_of_zero_le h.index_nonneg
  have hle : i ≤ p.stream.tokens.length := by
    have := h.index_le
    omega
  rw [current?, view?, if_pos h.index_nonneg, rest, left, hi, Int.toNat_natCast,
    TokenStream.current, TokenStream.peek, TokenStream.views, List.getElem?_drop, Nat.add_zero]
  -- in the views of the text, that of the end stands behind those of the tokens
  rcases Nat.lt_or_eq_of_le hle with hlt | heq
  · rw [List.getElem?_append_left (by rwa [List.length_map]), List.getElem?_map,
      List.getElem?_eq_getElem hlt]
    rfl
  · rw [List.getElem?_append_right (by rw [List.length_map]; exact Nat.le_of_eq heq.symm),
      List.getElem?_eq_none (Nat.le_of_eq heq.symm), List.length_map, heq, Nat.sub_self]
    rfl

theorem advance_of_nil (h : p.InRange) (hleft : p.left = []) : p.advance = p := by
  have hkind := p.rest.kind_current_eq_iff.mpr hleft
  rw [Parser.advance, h.current?_eq, Option.any_some, hkind]
  rfl

theorem advance_of_cons (h : p.InRange) {t : Token} {ts : List Token} (hleft : p.left = t :: ts) :
    p.advance = ⟨p.stream, p.index + 1⟩ := by
  have hkind : p.rest.current.kind ≠ "EOF" := by
    rw [Ne, p.rest.kind_current_eq_iff]
    exact fun hnil => by cases hleft.symm.trans hnil
  rw [Parser.advance, h.current?_eq, Option.any_some, if_pos (bne_iff_ne.mpr hkind)]

/-- Advancing stops at the end, and so it never leads out of the text. -/
theorem advance (h : p.InRange) : p.advance.InRange := by
  cases hleft : p.left with
  | nil => rwa [h.advance_of_nil hleft]
  | cons t ts =>
    have hlength := h.length_left
    have hnonneg := h.index_nonneg
    rw [hleft, List.length_cons] at hlength
    rw [h.advance_of_cons hleft]
    constructor
    · show 0 ≤ p.index + 1
      omega
    · show p.index + 1 ≤ p.stream.tokens.length
      omega

theorem index_le_advance (h : p.InRange) : p.index ≤ p.advance.index := by
  cases hleft : p.left with
  | nil => exact Int.le_of_eq (congrArg Parser.index (h.advance_of_nil hleft).symm)
  | cons t ts => rw [h.advance_of_cons hleft]; exact Int.le_add_one (Int.le_refl _)

theorem left_advance_of_cons (h : p.InRange) {t : Token} {ts : List Token}
    (hleft : p.left = t :: ts) : p.advance.left = ts := by
  have hindex : (p.index + 1).toNat = p.index.toNat + 1 := Int.toNat_add_nat h.index_nonneg 1
  rw [h.advance_of_cons hleft, left, hindex, ← List.drop_drop, ← left, hleft]
  rfl

/-- Advancing any number of times leaves the text as it is, does not lead out of it and does not
lead back. -/
theorem advanceBy (h : p.InRange) (n : Nat) :
    (p.advanceBy n).stream = p.stream ∧ (p.advanceBy n).InRange ∧
      p.index ≤ (p.advanceBy n).index := by
  induction n generalizing p with
  | zero => exact ⟨rfl, h, Int.le_refl _⟩
  | succ n ih =>
    obtain ⟨hstream, hrange, hle⟩ := ih h.advance
    exact ⟨hstream.trans (stream_advance p), hrange, Int.le_trans h.index_le_advance hle⟩

/-- A production that takes the tokens `taken` off the front advances the parser once for each. -/
theorem moveTo_eq_advanceBy (h : p.InRange) {taken rest : List Token}
    (hleft : p.left = taken ++ rest) : p.moveTo rest = p.advanceBy taken.length := by
  induction taken generalizing p with
  | nil =>
    rw [Parser.moveTo, hleft, List.nil_append, Int.sub_self, Int.add_zero]
    rfl
  | cons t taken ih =>
    -- one advance takes `t`, and from there on fewer tokens are taken
    have hleft' : p.advance.left = taken ++ rest := h.left_advance_of_cons hleft
    have hlength : p.left.length = (taken ++ rest).length + 1 := by rw [hleft]; rfl
    rw [List.length_cons, Parser.advanceBy, ← ih h.advance hleft', Parser.moveTo, Parser.moveTo,
      hleft', h.advance_of_cons hleft]
    congr 1
    show p.index + (p.left.length - rest.length) =
      p.index + 1 + ((taken ++ rest).length - rest.length)
    omega

theorem left_advanceBy (h : p.InRange) {taken rest : List Token} (hleft : p.left = taken ++ rest) :
    (p.advanceBy taken.length).left = rest := by
  induction taken generalizing p with
  | nil => exact hleft
  | cons t taken ih => exact ih h.advance (h.left_advance_of_cons hleft)

theorem settle_eq_advanceBy {α : Type} (h : p.InRange) {o : Outcome α} (reply : α → ParserReply)
    (hleaves : o.Leaves p.left) : ∃ n, (p.settle reply o).2 = p.advanceBy n := by
  obtain ⟨taken, hleft⟩ := hleaves
  exact ⟨taken.length, by rw [settle_snd, h.moveTo_eq_advanceBy hleft.symm]⟩

/-- A production leaves the parser at the first of the tokens that it has left. -/
theorem left_settle {α : Type} (h : p.InRange) {o : Outcome α} (reply : α → ParserReply)
    (hleaves : o.Leaves p.left) : (p.settle reply o).2.left = o.rest := by
  obtain ⟨taken, hleft⟩ := hleaves
  rw [settle_snd, h.moveTo_eq_advanceBy hleft.symm]
  exact h.left_advanceBy hleft.symm

/-- A call advances the parser a number of times, and does nothing else to it. -/
theorem perform_eq_advanceBy (h : p.InRange) (call : ParserCall) :
    ∃ n, (p.perform call).2 = p.advanceBy n := by
  cases call with
  | current => exact ⟨0, rfl⟩
  | peek offset => exact ⟨0, rfl⟩
  | advance => exact ⟨1, rfl⟩
  | isAt text => exact ⟨0, rfl⟩
  | isAtKind kind => exact ⟨0, rfl⟩
  | isAtOperator => exact ⟨0, rfl⟩
  | expect text => exact h.settle_eq_advanceBy _ (expect_leaves text p.left)
  | expectIdent => exact h.settle_eq_advanceBy _ (expectIdent_advances p.left).leaves
  | error message => exact ⟨0, rfl⟩
  | position => exact ⟨0, rfl⟩
  | program => exact h.settle_eq_advanceBy _ (statements_leaves p.left)
  | block stops => exact h.settle_eq_advanceBy _ ((stmtProgress p.left).block stops)
  | stmt => exact h.settle_eq_advanceBy _ (stmtProgress p.left).stmt.leaves
  | declaration => exact h.settle_eq_advanceBy _ (announced_leaves _ declaration_advances p.rest)
  | assignment => exact h.settle_eq_advanceBy _ (assignment_advances p.rest.pos p.left).leaves
  | definition =>
    exact h.settle_eq_advanceBy _
      (announced_leaves _ (fun pos ts => (stmtProgress ts).definition pos) p.rest)
  | branch keyword =>
    exact h.settle_eq_advanceBy _
      (announced_leaves _ (fun pos ts => (stmtProgress ts).branch pos) p.rest)
  | loop =>
    exact h.settle_eq_advanceBy _
      (announced_leaves _ (fun pos ts => (stmtProgress ts).loop pos) p.rest)
  | count =>
    exact h.settle_eq_advanceBy _
      (announced_leaves _ (fun pos ts => (stmtProgress ts).count pos) p.rest)
  | exprStmt => exact h.settle_eq_advanceBy _ ((expression_advances p.left).map _).leaves
  | expression => exact h.settle_eq_advanceBy _ (expression_advances p.left).leaves
  | flatExpr => exact h.settle_eq_advanceBy _ (flatProgress p.left).flatExpr.leaves
  | term => exact h.settle_eq_advanceBy _ (flatProgress p.left).term.leaves
  | argList => exact h.settle_eq_advanceBy _ (argList_advances p.left).leaves

end InRange

/-- A production that takes a token whenever it succeeds moves the parser on. -/
theorem index_lt_settle {α : Type} {p : Parser} {o : Outcome α} {reply : α → ParserReply}
    (h : o.Advances p.left) {r : ParserReply} (hok : (p.settle reply o).1 = .ok r) :
    p.index < (p.settle reply o).2.index := by
  cases o with
  | ok a rest =>
    have hlt := h.2 a rest rfl
    show p.index < p.index + (p.left.length - rest.length)
    omega
  | error cause rest => cases hok

/-- A statement, an expression, a term and an argument list have a token at least. -/
theorem index_lt_perform {p : Parser} {call : ParserCall} (hcall : call.takesToken = true)
    {r : ParserReply} (hok : (p.perform call).1 = .ok r) :
    p.index < (p.perform call).2.index := by
  cases call with
  | stmt => exact index_lt_settle (stmtProgress p.left).stmt hok
  | expression => exact index_lt_settle (expression_advances p.left) hok
  | flatExpr => exact index_lt_settle (flatProgress p.left).flatExpr hok
  | term => exact index_lt_settle (flatProgress p.left).term hok
  | argList => exact index_lt_settle (argList_advances p.left) hok
  | _ => cases hcall

/-! ### Calls one after the other -/

/-- The parser is inside the text: its index is that of a token or of the end, which can therefore
be read, and all tokens from there on are left. -/
structure IsInside (p : Parser) (stream : TokenStream) : Prop where
  stream_eq : p.stream = stream
  index_nonneg : 0 ≤ p.index
  index_le : p.index ≤ stream.views.length - 1
  left_eq : p.left = stream.tokens.drop p.index.toNat
  current?_eq : p.current? = some p.rest.current

theorem InRange.isInside {p : Parser} {stream : TokenStream} (h : p.InRange)
    (hstream : p.stream = stream) : p.IsInside stream := by
  subst hstream
  refine ⟨rfl, h.index_nonneg, ?_, rfl, h.current?_eq⟩
  have hle := h.index_le
  simp only [TokenStream.views, List.length_append, List.length_map, List.length_singleton]
  omega

/-- Calls lead to this parser. -/
def IsReachable (p : Parser) (stream : TokenStream) : Prop :=
  ∃ calls, (start stream).after calls = p

theorem InRange.after {p : Parser} (h : p.InRange) (calls : List ParserCall) :
    (p.after calls).stream = p.stream ∧ (p.after calls).InRange := by
  induction calls generalizing p with
  | nil => exact ⟨rfl, h⟩
  | cons call calls ih =>
    obtain ⟨n, hn⟩ := h.perform_eq_advanceBy call
    obtain ⟨hstream, hrange, -⟩ := h.advanceBy n
    rw [← hn] at hstream hrange
    obtain ⟨hstream', hrange'⟩ := ih hrange
    exact ⟨hstream'.trans hstream, hrange'⟩

end Parser

/-! ### Loops over statements -/

/-- `StmtLoop closed cause ts n o`: reading statements from the tokens `ts` on, until `closed` holds
of those that are left, comes to the outcome `o` in `n` rounds. A round that finds no token is stuck
with the cause `cause`; any other one reads a statement or is stuck where that is. -/
inductive StmtLoop (closed : List Token → Bool) (cause : ParseCause) :
    List Token → Nat → Outcome (List Stmt) → Prop
  | done {ts : List Token} (h : closed ts = true) : StmtLoop closed cause ts 0 (.ok [] ts)
  | atEnd (h : closed [] = false) : StmtLoop closed cause [] 1 (.error cause [])
  | stuck {ts rest : List Token} {cause' : ParseCause} (h : closed ts = false) (hne : ts ≠ [])
      (hs : stmt ts = .error cause' rest) : StmtLoop closed cause ts 1 (.error cause' rest)
  | round {ts rest : List Token} {s : Stmt} {n : Nat} {o : Outcome (List Stmt)}
      (h : closed ts = false) (hne : ts ≠ []) (hs : stmt ts = .ok s rest)
      (hrest : StmtLoop closed cause rest n o) :
      StmtLoop closed cause ts (n + 1) (o.map (s :: ·))

namespace StmtLoop

variable {closed : List Token → Bool} {cause : ParseCause}

/-- There are no more rounds than tokens. The end counts as one, unless it closes the loop. -/
theorem rounds_le {ts : List Token} {n : Nat} {o : Outcome (List Stmt)}
    (h : StmtLoop closed cause ts n o) : n ≤ ts.length + if closed [] then 0 else 1 := by
  induction h with
  | done => exact Nat.zero_le _
  | atEnd h => simp [h]
  | stuck _ hne => exact Nat.le_add_right_of_le (List.length_pos_iff.mpr hne)
  | @round ts rest s n o _ _ hs _ ih =>
    have hlt := (stmtProgress ts).stmt.2 s rest hs
    omega

/-- What reads a statement at a time, as long as its loop is not closed, does so in some number of
rounds. -/
theorem exists_rounds {read : List Token → Outcome (List Stmt)}
    (hread : ∀ ts, read ts =
      if closed ts then .ok [] ts
      else if ts.isEmpty then .error cause []
      else (stmt ts).bind fun s rest => (read rest).map (s :: ·))
    (ts : List Token) : ∃ n, StmtLoop closed cause ts n (read ts) := by
  have ih : ∀ rest : List Token, rest.length < ts.length →
      ∃ n, StmtLoop closed cause rest n (read rest) :=
    fun rest _ => exists_rounds hread rest
  rw [hread]
  split
  · rename_i hclosed
    exact ⟨0, .done hclosed⟩
  · rename_i hopen
    rw [Bool.not_eq_true] at hopen
    split
    · rename_i hempty
      obtain rfl := List.isEmpty_iff.mp hempty
      exact ⟨1, .atEnd hopen⟩
    · rename_i hempty
      have hne : ts ≠ [] := fun h => hempty (List.isEmpty_iff.mpr h)
      cases hs : stmt ts with
      | ok s rest =>
        obtain ⟨n, hrest⟩ := ih rest ((stmtProgress ts).stmt.2 s rest hs)
        exact ⟨n + 1, .round hopen hne hs hrest⟩
      | error cause rest => exact ⟨1, .stuck hopen hne hs⟩
termination_by ts.length

theorem exists_block (stops : List String) (ts : List Token) :
    ∃ n, StmtLoop (fun ts => stops.any (atMark · ts)) (.marks stops) ts n (block stops ts) :=
  exists_rounds (block_eq stops) ts

/-- For a program the end of the tokens closes the loop. -/
theorem exists_statements (cause : ParseCause) (ts : List Token) :
    ∃ n, StmtLoop List.isEmpty cause ts n (statements ts) := by
  refine exists_rounds (fun ts => ?_) ts
  rw [statements_eq]
  cases ts <;> rfl

end StmtLoop

namespace Parser

/-- Whatever was called before, a parser is inside its text before and after the next call. All that
the call does to the parser is to advance it, so it does not move it back. If the call is for a
statement, an expression, a term or an argument list and succeeds, it moves the parser on. The loops
over statements come to their outcomes in at most one round for each token that is left; a block
that has no end takes one more for the end of the text. The parser then is where the loop has come
to. -/
theorem IsReachable.cursor {p : Parser} {stream : TokenStream} (h : p.IsReachable stream)
    (call : ParserCall) :
    p.IsInside stream ∧ (p.perform call).2.IsInside stream ∧
      (∃ n, (p.perform call).2 = p.advanceBy n) ∧
      p.index ≤ (p.perform call).2.index ∧
      (call.takesToken = true → ∀ r, (p.perform call).1 = .ok r →
        p.index < (p.perform call).2.index) ∧
      ((∀ cause, ∃ n ≤ p.left.length,
          StmtLoop List.isEmpty cause p.left n (statements p.left)) ∧
        (p.perform .program).2.left = (statements p.left).rest) ∧
      ∀ stops, (∃ n ≤ p.left.length + 1,
          StmtLoop (fun ts => stops.any (atMark · ts)) (.marks stops) p.left n
            (block stops p.left)) ∧
        (p.perform (.block stops)).2.left = (block stops p.left).rest := by
  obtain ⟨calls, rfl⟩ := h
  obtain ⟨hstream, hrange⟩ := (inRange_start stream).after calls
  generalize (start stream).after calls = p at hstream hrange
  obtain ⟨n, hn⟩ := hrange.perform_eq_advanceBy call
  obtain ⟨hstream', hrange', hle⟩ := hrange.advanceBy n
  rw [← hn] at hstream' hrange' hle
  refine ⟨hrange.isInside hstream, hrange'.isInside (hstream'.trans hstream), ⟨n, hn⟩, hle,
    fun htakes r hok => index_lt_perform htakes hok, ⟨?_, ?_⟩, fun stops => ⟨?_, ?_⟩⟩
  · intro cause
    obtain ⟨n, hloop⟩ := StmtLoop.exists_statements cause p.left
    exact ⟨n, hloop.rounds_le, hloop⟩
  · exact hrange.left_settle _ (statements_leaves p.left)
  · obtain ⟨n, hloop⟩ := StmtLoop.exists_block stops p.left
    exact ⟨n, Nat.le_trans hloop.rounds_le (by split <;> omega), hloop⟩
  · exact hrange.left_settle _ ((stmtProgress p.left).block stops)

/-- The tokens of the text `f(1 x`. -/
def unclosed : TokenStream :=
  ⟨[⟨.ident "f", ⟨1, 1⟩⟩, ⟨.symbol .lparen, ⟨1, 2⟩⟩, ⟨.number ⟨['1'], none⟩, ⟨1, 3⟩⟩,
    ⟨.ident "x", ⟨1, 5⟩⟩], ⟨1, 6⟩⟩

/-- A statement that fails leaves the parser in the middle of a call, and the next one goes on from
there. -/
theorem unclosed_cursor :
    ∃ p : Parser, p.IsReachable unclosed ∧ p.index = 3 ∧
      (p.perform .stmt).1 = .ok (.stmt (.expr ⟨1, 5⟩ (.ident "x"))) ∧
      (p.perform .stmt).2.IsInside unclosed ∧ 3 < (p.perform .stmt).2.index := by
  have hreach : ((start unclosed).after [.argList, .peek (-6), .stmt]).IsReachable unclosed :=
    ⟨_, rfl⟩
  have hindex : ((start unclosed).after [.argList, .peek (-6), .stmt]).index = 3 := by
    decide +kernel
  have hok : (((start unclosed).after [.argList, .peek (-6), .stmt]).perform .stmt).1 =
      .ok (.stmt (.expr ⟨1, 5⟩ (.ident "x"))) := by
    with_unfolding_all rfl
  obtain ⟨-, hinside, -, -, htakes, -⟩ := hreach.cursor .stmt
  have hlt := htakes rfl _ hok
  rw [hindex] at hlt
  exact ⟨_, hreach, hindex, hok, hinside, hlt⟩

end Parser

end NumScript
