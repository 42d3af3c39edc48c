import NumScript.Proofs.Grammar
import NumScript.Proofs.Token.Lines

/-!
# NumScript.Proofs.Sequence

One program behind another. Nothing separates statements, so the last expression of a program may go
on into the text behind it, but only with a symbol. If the second program does not start with one,
the statements of both programs are those of the whole text, those of the second one further down
(`parse_line`).

There are three steps, all of them on derivations: the positions of tokens can be changed
(`BlockTokens.moved`), what comes next can be changed as long as no expression goes on into it
(`BlockTokens.of_ends`), and derivations of blocks can be put one behind the other
(`BlockTokens.append`).
-/

namespace NumScript

/-! ### Other positions -/

mutual

/-- The statement with its positions, and those of the statements in it, changed. -/
def Stmt.moved (f : Pos → Pos) : Stmt → Stmt
  | .expr p value => .expr (f p) value
  | .declare p name value => .declare (f p) name value
  | .assign p name value => .assign (f p) name value
  | .branch p cond body rest => .branch (f p) cond (movedBlock f body) (movedElse f rest)
  | .count p var bounds body => .count (f p) var bounds (movedBlock f body)
  | .loop p cond body => .loop (f p) cond (movedBlock f body)
  | .define p name params body => .define (f p) name params (movedBlock f body)
  | .hole p => .hole (f p)

/-- Statements with their positions changed. -/
def movedBlock (f : Pos → Pos) : List Stmt → List Stmt
  | [] => []
  | s :: ss => s.moved f :: movedBlock f ss

/-- The second body of a choice with its positions changed. -/
def movedElse (f : Pos → Pos) : Option (List Stmt) → Option (List Stmt)
  | none => none
  | some body => some (movedBlock f body)

end

theorem movedBlock_eq_map (f : Pos → Pos) (ss : List Stmt) :
    movedBlock f ss = ss.map (·.moved f) := by
  induction ss with
  | nil => rfl
  | cons s ss ih => rw [movedBlock, ih, List.map_cons]

/-- Whether an expression goes on depends on the next word only. -/
theorem Ends.of_head {ws : List Lexeme} {next next' : List Token} (h : Ends ws next)
    (hhead : (words next').head? = (words next).head?) : Ends ws next' := by
  cases next with
  | nil =>
    rw [words_eq_nil_iff.mp (List.head?_eq_none_iff.mp hhead)]
    exact h
  | cons t next =>
    obtain ⟨us, hus⟩ := List.head?_eq_some_iff.mp hhead
    obtain ⟨p, ts, rfl, -⟩ := words_eq_cons_iff.mp hus
    obtain ⟨l, q⟩ := t
    refine ⟨?_, h.2⟩
    have hop := h.1
    cases l with
    | symbol s => cases s <;> exact hop
    | _ => rfl

section Moved

variable (f : Pos → Pos)

@[simp]
theorem words_moved (ts : List Token) : words (ts.map (Token.moved f)) = words ts := by
  rw [words, List.map_map]
  rfl

theorem Ends.moved {ws : List Lexeme} {next : List Token} (h : Ends ws next) :
    Ends ws (next.map (Token.moved f)) := by
  refine h.of_head ?_
  cases next <;> rfl

theorem ExprTokens.moved {e : Expr} {ts : List Token} (h : ExprTokens e ts) :
    ExprTokens e (ts.map (Token.moved f)) := by
  rw [ExprTokens, words_moved]
  exact h

theorem BoundsTokens.moved {es : List Expr} {ts : List Token} (h : BoundsTokens es ts) :
    BoundsTokens es (ts.map (Token.moved f)) := by
  induction h with
  | nil => exact .nil
  | cons p he _ ih =>
    rw [List.map_cons, List.map_append]
    exact .cons (f p) (he.moved f) ih

mutual

theorem StmtTokens.moved : ∀ {s : Stmt} {ts next : List Token}, StmtTokens s ts next →
    StmtTokens (s.moved f) (ts.map (Token.moved f)) (next.map (Token.moved f))
  | _, _, _, .expr h hends => by
    refine .expr (h.moved f) ?_
    rw [← List.map_cons, words_moved]
    exact hends.moved f
  | _, _, _, .declare name p q next => .declare name (f p) (f q) _
  | _, _, _, .declareAs name p q r h hends =>
    .declareAs name (f p) (f q) (f r) (h.moved f) (by rw [words_moved]; exact hends.moved f)
  | _, _, _, .assign name p q h hends =>
    .assign name (f p) (f q) (h.moved f) (by rw [words_moved]; exact hends.moved f)
  | _, _, _, .branch h => .branch h.moved
  | _, _, _, .loop p q r hc hb => by
    simpa [Stmt.moved] using StmtTokens.loop (f p) (f q) (f r) (hc.moved f) hb.moved
  | _, _, _, .count var p q r t hes hone hthree hb => by
    simpa [Stmt.moved] using
      StmtTokens.count var (f p) (f q) (f r) (f t) (hes.moved f) hone hthree hb.moved
  | _, _, _, .define name p q r t v hxs hb => by
    simpa [Stmt.moved] using StmtTokens.define name (f p) (f q) (f r) (f t) (f v)
      ((words_moved f _).trans hxs) hb.moved

theorem BlockTokens.moved : ∀ {ss : List Stmt} {ts next : List Token}, BlockTokens ss ts next →
    BlockTokens (movedBlock f ss) (ts.map (Token.moved f)) (next.map (Token.moved f))
  | _, _, _, .nil next => .nil _
  | _, _, _, .cons hs hss => by
    rw [List.map_append]
    have hs' := hs.moved
    rw [List.map_append] at hs'
    exact .cons hs' hss.moved

theorem BranchTokens.moved : ∀ {p : Pos} {s : Stmt} {ts next : List Token},
    BranchTokens p s ts next →
      BranchTokens (f p) (s.moved f) (ts.map (Token.moved f)) (next.map (Token.moved f))
  | _, _, _, _, .mk p q hc hb ho => by
    have hb' := hb.moved
    rw [List.map_append] at hb'
    simpa [Stmt.moved] using BranchTokens.mk (f p) (f q) (hc.moved f) hb' ho.moved

theorem ElseTokens.moved : ∀ {o : Option (List Stmt)} {ts next : List Token},
    ElseTokens o ts next →
      ElseTokens (movedElse f o) (ts.map (Token.moved f)) (next.map (Token.moved f))
  | _, _, _, .none p next => .none (f p) _
  | _, _, _, .body p q hb => by
    simpa [movedElse] using ElseTokens.body (f p) (f q) hb.moved
  | _, _, _, .chain h => .chain h.moved

end

end Moved

/-! ### Other tokens behind -/

theorem Ends.append {next next' : List Token} (h : ∀ ws, Ends ws next → Ends ws next')
    (us : List Token) : ∀ ws, Ends ws (us ++ next) → Ends ws (us ++ next') := by
  cases us with
  | nil => exact h
  | cons t us =>
    intro ws hends
    exact hends.of_head rfl

mutual

theorem StmtTokens.of_ends : ∀ {s : Stmt} {ts next next' : List Token}, StmtTokens s ts next →
    (∀ ws, Ends ws next → Ends ws next') → StmtTokens s ts next'
  | _, _, _, _, .expr h hends, hnext => .expr h (hnext _ hends)
  | _, _, _, _, .declare name p q _, _ => .declare name p q _
  | _, _, _, _, .declareAs name p q r h hends, hnext => .declareAs name p q r h (hnext _ hends)
  | _, _, _, _, .assign name p q h hends, hnext => .assign name p q h (hnext _ hends)
  | _, _, _, _, .branch h, hnext => .branch (h.of_ends hnext)
  | _, _, _, _, .loop p q r hc hb, hnext => .loop p q r hc (hb.of_ends (Ends.append hnext [_]))
  | _, _, _, _, .count var p q r t hes hone hthree hb, hnext =>
    .count var p q r t hes hone hthree (hb.of_ends (Ends.append hnext [_]))
  | _, _, _, _, .define name p q r t v hxs hb, hnext =>
    .define name p q r t v hxs (hb.of_ends (Ends.append hnext [_]))

theorem BlockTokens.of_ends : ∀ {ss : List Stmt} {ts next next' : List Token},
    BlockTokens ss ts next → (∀ ws, Ends ws next → Ends ws next') → BlockTokens ss ts next'
  | _, _, _, _, .nil _, _ => .nil _
  | _, _, _, _, .cons hs hss, hnext =>
    .cons (hs.of_ends (Ends.append hnext _)) (hss.of_ends hnext)

theorem BranchTokens.of_ends : ∀ {p : Pos} {s : Stmt} {ts next next' : List Token},
    BranchTokens p s ts next → (∀ ws, Ends ws next → Ends ws next') → BranchTokens p s ts next'
  | _, _, _, _, _, .mk p q hc hb ho, hnext =>
    .mk p q hc (hb.of_ends (Ends.append hnext _)) (ho.of_ends hnext)

theorem ElseTokens.of_ends : ∀ {o : Option (List Stmt)} {ts next next' : List Token},
    ElseTokens o ts next → (∀ ws, Ends ws next → Ends ws next') → ElseTokens o ts next'
  | _, _, _, _, .none p _, _ => .none p _
  | _, _, _, _, .body p q hb, hnext => .body p q (hb.of_ends (Ends.append hnext [_]))
  | _, _, _, _, .chain h, hnext => .chain (h.of_ends hnext)

end

/-! ### One behind the other -/

theorem BlockTokens.append : ∀ {ss ss' : List Stmt} {ts ts' next : List Token},
    BlockTokens ss ts (ts' ++ next) → BlockTokens ss' ts' next →
      BlockTokens (ss ++ ss') (ts ++ ts') next
  | _, _, _, _, _, .nil _, h' => h'
  | _, _, _, _, _, .cons hs hss, h' => by
    rw [List.cons_append, List.append_assoc]
    refine .cons ?_ (hss.append h')
    rw [List.append_assoc]
    exact hs

/-- Only a symbol continues an expression. -/
theorem Ends.of_kind {t : Token} (h : t.lexeme.kind ≠ "OP") (ws : List Lexeme) (ts : List Token) :
    Ends ws (t :: ts) :=
  .of_mark ws t.pos ts (fun _ heq => h (congrArg Lexeme.kind heq))
    fun heq => h (congrArg Lexeme.kind heq)

/-- If the text `b` does not start with a symbol, the program of `a` with `b` on the next lines is
that of `a` and then that of `b`, the latter as many lines further down as `a` has. -/
theorem parse_line {a b : String} {program program' : Program} {stream : TokenStream}
    (ha : parse a = .ok program) (hb : parse b = .ok program') (hlex : lex b = .ok stream)
    (hstart : ∀ t ∈ stream.tokens.head?, t.lexeme.kind ≠ "OP") :
    parse (a ++ "\n" ++ b) =
      .ok (program ++ program'.map (Stmt.moved (Pos.down (1 + newlines a)))) := by
  cases hlexa : lex a with
  | error e =>
    rw [parse, hlexa] at ha
    cases ha
  | ok s =>
    have hlexed : lex (a ++ "\n" ++ b) = .ok (s.append (stream.down (1 + newlines a))) := by
      rw [lex_line, hlexa, hlex]
      rfl
    have hfirst := (parse_eq_ok_iff hlexa).mp ha
    have hsecond := ((parse_eq_ok_iff hlex).mp hb).moved (Pos.down (1 + newlines a))
    have hends : ∀ ws, Ends ws ((stream.down (1 + newlines a)).tokens ++ []) := by
      intro ws
      rw [List.append_nil, TokenStream.down]
      cases htokens : stream.tokens with
      | nil => exact Ends.nil ws
      | cons t ts =>
        rw [htokens] at hstart
        exact (Ends.of_kind (hstart t rfl) ws ts).moved _
    rw [parse_eq_ok_iff hlexed, ← movedBlock_eq_map]
    exact (hfirst.of_ends fun ws _ => hends ws).append hsecond

/-- An assignment and a declaration that may both go on, and a loop behind them. -/
theorem declaration_parse_line :
    parse "x = y --c\nlocal z" =
      .ok [.assign ⟨1, 1⟩ "x" (.ident "y"), .declare ⟨2, 1⟩ "z" (.number .zero)] ∧
    parse "while x do\n f() end" =
      .ok [.loop ⟨1, 1⟩ (.ident "x") [.expr ⟨2, 2⟩ (.call "f" [])]] ∧
    parse ("x = y --c\nlocal z" ++ "\n" ++ "while x do\n f() end") =
      .ok [.assign ⟨1, 1⟩ "x" (.ident "y"), .declare ⟨2, 1⟩ "z" (.number .zero),
        .loop ⟨3, 1⟩ (.ident "x") [.expr ⟨4, 2⟩ (.call "f" [])]] := by
  have ha : parse "x = y --c\nlocal z" =
      .ok [.assign ⟨1, 1⟩ "x" (.ident "y"), .declare ⟨2, 1⟩ "z" (.number .zero)] := by
    decide +kernel
  have hb : parse "while x do\n f() end" =
      .ok [.loop ⟨1, 1⟩ (.ident "x") [.expr ⟨2, 2⟩ (.call "f" [])]] := by
    decide +kernel
  have hlex : lex "while x do\n f() end" =
      .ok ⟨[⟨.keyword .kwWhile, ⟨1, 1⟩⟩, ⟨.ident "x", ⟨1, 7⟩⟩, ⟨.keyword .kwDo, ⟨1, 9⟩⟩,
        ⟨.ident "f", ⟨2, 2⟩⟩, ⟨.symbol .lparen, ⟨2, 3⟩⟩, ⟨.symbol .rparen, ⟨2, 4⟩⟩,
        ⟨.keyword .kwEnd, ⟨2, 6⟩⟩], ⟨2, 9⟩⟩ := by
    decide +kernel
  exact ⟨ha, hb, parse_line ha hb hlex (by decide)⟩

end NumScript
