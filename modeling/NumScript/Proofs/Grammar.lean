import NumScript.Proofs.Stmt.Derivation
import NumScript.Source

/-!
# NumScript.Proofs.Grammar

The grammar of programs, as rules for the words of a text:

* a program is a block;
* a block is any number of statements, one behind the other with nothing between them;
* a statement is `local x`, `local x = expr`, `x = expr`, `expr`,
  `function f ( params ) block end`, `if expr then block` and what follows it,
  `while expr do block end` or `for x , expr ... do block end` with one to three bounds;
* what follows the first body of a choice is `end`, `else block end` or `elseif expr then block`
  and what follows that;
* an expression is terms with operators between them, as in `FlatWords`.

The grammar is ambiguous: `f (x)` is a call or two statements, and `x -1` a difference or two
statements. The parser never goes back on a choice, it always lets an expression go on as long as it
can. That refuses nothing (`parse_isOk_iff_isBlock`). The reason is `BlockTokens.absorb`: where an
expression goes on into the statement behind it, that statement is an expression too, and the two
together are one. So every derivation can be turned, statement by statement from the last to the
first, into one in which no expression can go on, and such derivations are what the parser reads.
-/

namespace NumScript

/-! ### The rules -/

/-- The words `ws` are an expression. -/
def IsExpr (ws : List Lexeme) : Prop := ∃ f, FlatWords f ws

/-- The words `ws` are `n` times a comma with an expression behind it. -/
inductive IsBounds : Nat → List Lexeme → Prop
  | nil : IsBounds 0 []
  | cons {n : Nat} {ws us : List Lexeme} (he : IsExpr ws) (hes : IsBounds n us) :
      IsBounds (n + 1) (.symbol .comma :: (ws ++ us))

mutual

/-- The words `ws` are a statement. -/
inductive IsStmt : List Lexeme → Prop
  | expr {ws : List Lexeme} (h : IsExpr ws) : IsStmt ws
  | declare (name : String) : IsStmt [.keyword .kwLocal, .ident name]
  | declareAs (name : String) {ws : List Lexeme} (h : IsExpr ws) :
      IsStmt (.keyword .kwLocal :: .ident name :: .symbol .assign :: ws)
  | assign (name : String) {ws : List Lexeme} (h : IsExpr ws) :
      IsStmt (.ident name :: .symbol .assign :: ws)
  | branch {ws us vs : List Lexeme} (hc : IsExpr ws) (hb : IsBlock us) (ho : IsElse vs) :
      IsStmt (.keyword .kwIf :: (ws ++ .keyword .kwThen :: (us ++ vs)))
  | loop {ws us : List Lexeme} (hc : IsExpr ws) (hb : IsBlock us) :
      IsStmt (.keyword .kwWhile :: (ws ++ .keyword .kwDo :: (us ++ [.keyword .kwEnd])))
  | count (var : String) {n : Nat} {ws us : List Lexeme} (hes : IsBounds n ws) (hone : 1 ≤ n)
      (hthree : n ≤ 3) (hb : IsBlock us) :
      IsStmt (.keyword .kwFor :: .ident var ::
        (ws ++ .keyword .kwDo :: (us ++ [.keyword .kwEnd])))
  | define (name : String) (params : List String) {us : List Lexeme} (hb : IsBlock us) :
      IsStmt (.keyword .kwFunction :: .ident name :: .symbol .lparen ::
        (paramWords params ++ .symbol .rparen :: (us ++ [.keyword .kwEnd])))

/-- The words `ws` are statements, one behind the other. -/
inductive IsBlock : List Lexeme → Prop
  | nil : IsBlock []
  | cons {ws us : List Lexeme} (hs : IsStmt ws) (hss : IsBlock us) : IsBlock (ws ++ us)

/-- The words `ws` are what follows the first body of a choice. -/
inductive IsElse : List Lexeme → Prop
  | none : IsElse [.keyword .kwEnd]
  | body {us : List Lexeme} (hb : IsBlock us) :
      IsElse (.keyword .kwElse :: (us ++ [.keyword .kwEnd]))
  | chain {ws us vs : List Lexeme} (hc : IsExpr ws) (hb : IsBlock us) (ho : IsElse vs) :
      IsElse (.keyword .kwElseif :: (ws ++ .keyword .kwThen :: (us ++ vs)))

end

/-! ### What is read is derivable -/

theorem ExprTokens.isExpr {e : Expr} {ts : List Token} (h : ExprTokens e ts) :
    IsExpr (words ts) := by
  obtain ⟨f, hf, -⟩ := h
  exact ⟨f, hf⟩

theorem BoundsTokens.isBounds {es : List Expr} {ts : List Token} (h : BoundsTokens es ts) :
    IsBounds es.length (words ts) := by
  induction h with
  | nil => exact .nil
  | cons p he _ ih =>
    rw [words_cons, words_append]
    exact .cons he.isExpr ih

mutual

theorem StmtTokens.isStmt : ∀ {s : Stmt} {ts next : List Token}, StmtTokens s ts next →
    IsStmt (words ts)
  | _, _, _, .expr h _ => .expr h.isExpr
  | _, _, _, .declare name _ _ _ => .declare name
  | _, _, _, .declareAs name _ _ _ h _ => .declareAs name h.isExpr
  | _, _, _, .assign name _ _ h _ => .assign name h.isExpr
  | _, _, _, .branch h => by
    obtain ⟨ws, us, vs, hws, hc, hb, ho⟩ := h.isBranch
    rw [words_cons, hws]
    exact .branch hc hb ho
  | _, _, _, .loop _ _ _ hc hb => by
    simpa using IsStmt.loop hc.isExpr hb.isBlock
  | _, _, _, .count var _ _ _ _ hes hone hthree hb => by
    simpa using IsStmt.count var hes.isBounds hone hthree hb.isBlock
  | _, _, _, .define name _ _ _ _ _ hxs hb => by
    simpa [hxs] using IsStmt.define name _ hb.isBlock

theorem BlockTokens.isBlock : ∀ {ss : List Stmt} {ts next : List Token}, BlockTokens ss ts next →
    IsBlock (words ts)
  | _, _, _, .nil _ => .nil
  | _, _, _, .cons hs hss => by
    rw [words_append]
    exact .cons hs.isStmt hss.isBlock

theorem BranchTokens.isBranch : ∀ {p : Pos} {s : Stmt} {ts next : List Token},
    BranchTokens p s ts next →
      ∃ ws us vs, words ts = ws ++ .keyword .kwThen :: (us ++ vs) ∧
        IsExpr ws ∧ IsBlock us ∧ IsElse vs
  | _, _, _, _, .mk _ _ hc hb ho =>
    ⟨_, _, _, by simp only [words_append, words_cons], hc.isExpr, hb.isBlock, ho.isElse⟩

theorem ElseTokens.isElse : ∀ {o : Option (List Stmt)} {ts next : List Token},
    ElseTokens o ts next → IsElse (words ts)
  | _, _, _, .none _ _ => .none
  | _, _, _, .body _ _ hb => by
    simpa using IsElse.body hb.isBlock
  | _, _, _, .chain h => by
    obtain ⟨ws, us, vs, hws, hc, hb, ho⟩ := h.isBranch
    rw [words_cons, hws]
    exact .chain hc hb ho

end

/-! ### Where an expression goes on -/

/-- Two expressions with an operator between them are an expression. -/
theorem FlatWords.isExpr_op : ∀ {f : Flat} {ws : List Lexeme}, FlatWords f ws → ∀ (o : Operator)
    {us : List Lexeme}, IsExpr us → IsExpr (ws ++ .symbol (.op o) :: us)
  | _, _, .term h, o, _, ⟨_, hg⟩ => ⟨_, .more h o hg⟩
  | _, _, .more h o' hs, o, _, hus => by
    obtain ⟨g, hg⟩ := hs.isExpr_op o hus
    rw [List.append_assoc, List.cons_append]
    exact ⟨_, .more h o' hg⟩

theorem TermWords.of_sign {f : Flat} {o : Operator} {us : List Lexeme}
    (h : TermWords f (.symbol (.op o) :: us)) : o = .sub ∧ ∃ n, us = [.number n] := by
  cases h with
  | negative n => exact ⟨rfl, n, rfl⟩

/-- An operator at the front of an expression is the sign of its first number. -/
theorem FlatWords.of_sign {f : Flat} {ws us : List Lexeme} {o : Operator} (h : FlatWords f ws)
    (hws : ws = .symbol (.op o) :: us) : IsExpr us := by
  cases h with
  | term h =>
    rw [hws] at h
    obtain ⟨-, n, rfl⟩ := h.of_sign
    exact ⟨_, .term (.number n)⟩
  | more hf o' hg =>
    obtain ⟨w, vs, rfl, -⟩ := hf.exists_cons
    obtain ⟨rfl, rfl⟩ := List.cons.inj hws
    obtain ⟨-, n, rfl⟩ := hf.of_sign
    exact ⟨_, .more (.number n) o' hg⟩

theorem TermWords.call_group {f : Flat} {us : List Lexeme} (name : String)
    (h : TermWords f (.symbol .lparen :: us)) :
    ∃ g, TermWords g (.ident name :: .symbol .lparen :: us) := by
  cases h with
  | group h => exact ⟨_, .call name (.one h)⟩

/-- A group at the front of an expression can be the argument of a call. -/
theorem FlatWords.call_group {f : Flat} {ws us : List Lexeme} (name : String) (h : FlatWords f ws)
    (hws : ws = .symbol .lparen :: us) : IsExpr (.ident name :: ws) := by
  cases h with
  | term h =>
    rw [hws] at h ⊢
    obtain ⟨g, hg⟩ := h.call_group name
    exact ⟨g, .term hg⟩
  | more hf o hg =>
    obtain ⟨w, vs, rfl, -⟩ := hf.exists_cons
    obtain ⟨rfl, rfl⟩ := List.cons.inj hws
    obtain ⟨g, hg'⟩ := hf.call_group name
    exact ⟨_, .more hg' o hg⟩

theorem TermWords.eq_ident {f : Flat} {ws : List Lexeme} (h : TermWords f ws)
    (hident : endsInIdent ws = true) : ∃ name, ws = [.ident name] := by
  cases h with
  | ident name => exact ⟨name, rfl⟩
  | _ => exact absurd hident (by simp)

/-- An expression that ends in an identifier goes on in one that starts with a group. -/
theorem FlatWords.isExpr_group : ∀ {f : Flat} {ws : List Lexeme}, FlatWords f ws →
    endsInIdent ws = true → ∀ {g : Flat} {us : List Lexeme},
      FlatWords g (.symbol .lparen :: us) → IsExpr (ws ++ .symbol .lparen :: us)
  | _, _, .term h, hident, _, _, hg => by
    obtain ⟨name, rfl⟩ := h.eq_ident hident
    exact hg.call_group name rfl
  | _, _, .more h o hs, hident, _, _, hg => by
    rw [endsInIdent_append_cons, endsInIdent_symbol_cons] at hident
    obtain ⟨g', hg'⟩ := hs.isExpr_group hident hg
    rw [List.append_assoc, List.cons_append]
    exact ⟨_, .more h o hg'⟩

/-- Where an expression goes on into the statement behind it, that statement is an expression too,
and both together are one that ends where the second did. -/
theorem StmtTokens.join {s : Stmt} {us next ts : List Token} (h : StmtTokens s us next)
    (hts : IsExpr (words ts)) (hends : ¬ Ends (words ts) (us ++ next)) :
    IsExpr (words (ts ++ us)) ∧ Ends (words (ts ++ us)) next := by
  cases h with
  | @expr e t us _ h hends' =>
    obtain ⟨f, hf⟩ := hts
    obtain ⟨g, hg⟩ := h.isExpr
    rw [words_append, words_cons] at *
    refine ⟨?_, hends'.1, fun hident => hends'.2 (by rwa [endsInIdent_append_cons] at hident)⟩
    rw [Ends, Classical.not_and_iff_not_or_not, Bool.not_eq_false, Classical.not_imp,
      Bool.not_eq_false] at hends
    rcases hends with hop | ⟨hident, hparen⟩
    · -- the sign of the second expression becomes the operator between the two
      obtain ⟨o, p, rest, heq⟩ := atOperator_iff.mp hop
      obtain ⟨rfl, -⟩ := List.cons.inj heq
      exact hf.isExpr_op o (hg.of_sign rfl)
    · -- the last identifier of the first expression is called with a group of the second
      obtain ⟨p, rest, heq⟩ := (atMark_iff (m := .symbol .lparen) rfl).mp hparen
      obtain ⟨rfl, -⟩ := List.cons.inj heq
      exact hf.isExpr_group hident hg
  -- every other statement starts with a keyword or an identifier, where an expression ends
  | _ => exact (hends (.of_mark _ _ _ (fun _ => nofun) nofun)).elim

/-- An expression in front of a block can be made to go on as long as it can. -/
theorem BlockTokens.absorb {ss : List Stmt} {us next ts : List Token} (h : BlockTokens ss us next)
    (hnext : ∀ ws, Ends ws next) (hts : IsExpr (words ts)) :
    ∃ e vs us' ss', us = vs ++ us' ∧ ExprTokens e (ts ++ vs) ∧
      Ends (words (ts ++ vs)) (us' ++ next) ∧ BlockTokens ss' us' next := by
  by_cases hends : Ends (words ts) (us ++ next)
  · obtain ⟨f, hf⟩ := hts
    obtain ⟨e, he⟩ := hf.exists_exprTokens
    exact ⟨e, [], us, ss, rfl, by rwa [List.append_nil], by rwa [List.append_nil], h⟩
  · cases h with
    | nil => exact absurd (hnext (words ts)) hends
    | cons hs hss =>
      -- one statement is enough: it ended where the block could not go on with it
      rw [List.append_assoc] at hends
      obtain ⟨⟨f, hf⟩, hends'⟩ := hs.join hts hends
      obtain ⟨e, he⟩ := hf.exists_exprTokens
      exact ⟨e, _, _, _, rfl, he, hends', hss⟩

/-! ### What is derivable is read -/

theorem IsExpr.exists_exprTokens {ts : List Token} (h : IsExpr (words ts)) :
    ∃ e, ExprTokens e ts := by
  obtain ⟨f, hf⟩ := h
  exact hf.exists_exprTokens

theorem IsBounds.exists_boundsTokens {n : Nat} {ws : List Lexeme} (h : IsBounds n ws)
    {ts : List Token} (hts : words ts = ws) : ∃ es, BoundsTokens es ts ∧ es.length = n := by
  induction h generalizing ts with
  | nil =>
    obtain rfl := words_eq_nil_iff.mp hts
    exact ⟨[], .nil, rfl⟩
  | cons he _ ih =>
    simp only [words_eq_cons_iff, words_eq_append_iff] at hts
    obtain ⟨p, _, rfl, ts₁, ts₂, rfl, rfl, hts₂⟩ := hts
    obtain ⟨e, he⟩ := he.exists_exprTokens
    obtain ⟨es, hes, rfl⟩ := ih hts₂
    exact ⟨e :: es, .cons p he hes, rfl⟩

theorem ElseTokens.ends {o : Option (List Stmt)} {ts next : List Token} (h : ElseTokens o ts next)
    (ws : List Lexeme) : Ends ws (ts ++ next) := by
  cases h <;> exact Ends.keyword ws _ _ _

mutual

/-- A statement can be put in front of a block; an expression at its end may go on into it. -/
theorem IsStmt.prepend : ∀ {ws : List Lexeme}, IsStmt ws → ∀ {ts : List Token}, words ts = ws →
    ∀ {ss : List Stmt} {us next : List Token}, BlockTokens ss us next → (∀ ws, Ends ws next) →
      ∃ ss', BlockTokens ss' (ts ++ us) next
  | _, .expr h, ts, hts, _, _, _, hus, hnext => by
    obtain ⟨e, vs, us, ss, rfl, he, hends, hss⟩ := hus.absorb hnext (hts ▸ h)
    obtain ⟨t, ts', heq, -⟩ := he.exists_cons
    rw [← List.append_assoc]
    rw [heq] at he hends ⊢
    exact ⟨_, .cons (.expr he hends) hss⟩
  | _, .declare name, _, hts, _, us, next, hus, _ => by
    simp only [words_eq_cons_iff, words_eq_nil_iff] at hts
    obtain ⟨p, _, rfl, q, _, rfl, rfl⟩ := hts
    exact ⟨_, .cons (.declare name p q (us ++ next)) hus⟩
  | _, .declareAs name h, _, hts, _, _, _, hus, hnext => by
    simp only [words_eq_cons_iff] at hts
    obtain ⟨p, _, rfl, q, _, rfl, r, ts, rfl, hts⟩ := hts
    obtain ⟨e, vs, us, ss, rfl, he, hends, hss⟩ := hus.absorb hnext (hts ▸ h)
    simp only [List.cons_append, ← List.append_assoc]
    exact ⟨_, .cons (.declareAs name p q r he hends) hss⟩
  | _, .assign name h, _, hts, _, _, _, hus, hnext => by
    simp only [words_eq_cons_iff] at hts
    obtain ⟨p, _, rfl, q, ts, rfl, hts⟩ := hts
    obtain ⟨e, vs, us, ss, rfl, he, hends, hss⟩ := hus.absorb hnext (hts ▸ h)
    simp only [List.cons_append, ← List.append_assoc]
    exact ⟨_, .cons (.assign name p q he hends) hss⟩
  | _, .branch hc hb ho, _, hts, _, us, next, hus, _ => by
    simp only [words_eq_cons_iff, words_eq_append_iff] at hts
    obtain ⟨p, _, rfl, ts, _, rfl, rfl, q, _, rfl, bs, vs, rfl, hbs, hvs⟩ := hts
    obtain ⟨c, hc⟩ := hc.exists_exprTokens
    obtain ⟨o, ho⟩ := ho.exists_elseTokens hvs (us ++ next)
    obtain ⟨b, hb⟩ := hb.exists_blockTokens hbs ho.ends
    exact ⟨_, .cons (.branch (.mk p q hc hb ho)) hus⟩
  | _, .loop hc hb, _, hts, _, us, next, hus, _ => by
    simp only [words_eq_cons_iff, words_eq_append_iff, words_eq_nil_iff] at hts
    obtain ⟨p, _, rfl, ts, _, rfl, rfl, q, _, rfl, bs, _, rfl, hbs, r, _, rfl, rfl⟩ := hts
    obtain ⟨c, hc⟩ := hc.exists_exprTokens
    obtain ⟨b, hb⟩ := hb.exists_blockTokens hbs (Ends.keyword · .kwEnd r (us ++ next))
    exact ⟨_, .cons (.loop p q r hc hb) hus⟩
  | _, .count var hes hone hthree hb, _, hts, _, us, next, hus, _ => by
    simp only [words_eq_cons_iff, words_eq_append_iff, words_eq_nil_iff] at hts
    obtain ⟨p, _, rfl, q, _, rfl, ts, _, rfl, hts, r, _, rfl, bs, _, rfl, hbs, t, _, rfl, rfl⟩ :=
      hts
    obtain ⟨es, hes', rfl⟩ := hes.exists_boundsTokens hts
    obtain ⟨b, hb⟩ := hb.exists_blockTokens hbs (Ends.keyword · .kwEnd t (us ++ next))
    exact ⟨_, .cons (.count var p q r t hes' hone hthree hb) hus⟩
  | _, .define name params hb, _, hts, _, us, next, hus, _ => by
    simp only [words_eq_cons_iff, words_eq_append_iff, words_eq_nil_iff] at hts
    obtain ⟨p, _, rfl, q, _, rfl, r, _, rfl, ts, _, rfl, hxs, t, _, rfl, bs, _, rfl, hbs, v, _,
      rfl, rfl⟩ := hts
    obtain ⟨b, hb⟩ := hb.exists_blockTokens hbs (Ends.keyword · .kwEnd v (us ++ next))
    exact ⟨_, .cons (.define name p q r t v hxs hb) hus⟩

/-- A block has statements, wherever no expression at its end can go on. -/
theorem IsBlock.exists_blockTokens : ∀ {ws : List Lexeme}, IsBlock ws → ∀ {ts next : List Token},
    words ts = ws → (∀ ws, Ends ws next) → ∃ ss, BlockTokens ss ts next
  | _, .nil, _, next, hts, _ => by
    obtain rfl := words_eq_nil_iff.mp hts
    exact ⟨[], .nil next⟩
  | _, .cons hs hss, _, _, hts, hnext => by
    -- from the last statement to the first, so that there is a block to go on into
    obtain ⟨ts, us, rfl, hts, hus⟩ := words_eq_append_iff.mp hts
    obtain ⟨ss, hss⟩ := hss.exists_blockTokens hus hnext
    exact hs.prepend hts hss hnext

theorem IsElse.exists_elseTokens : ∀ {ws : List Lexeme}, IsElse ws → ∀ {ts : List Token},
    words ts = ws → ∀ next, ∃ o, ElseTokens o ts next
  | _, .none, _, hts, next => by
    simp only [words_eq_cons_iff, words_eq_nil_iff] at hts
    obtain ⟨p, _, rfl, rfl⟩ := hts
    exact ⟨_, .none p next⟩
  | _, .body hb, _, hts, next => by
    simp only [words_eq_cons_iff, words_eq_append_iff, words_eq_nil_iff] at hts
    obtain ⟨p, _, rfl, bs, _, rfl, hbs, q, _, rfl, rfl⟩ := hts
    obtain ⟨b, hb⟩ := hb.exists_blockTokens hbs (Ends.keyword · .kwEnd q next)
    exact ⟨_, .body p q hb⟩
  | _, .chain hc hb ho, _, hts, next => by
    simp only [words_eq_cons_iff, words_eq_append_iff] at hts
    obtain ⟨p, _, rfl, ts, _, rfl, rfl, q, _, rfl, bs, vs, rfl, hbs, hvs⟩ := hts
    obtain ⟨c, hc⟩ := hc.exists_exprTokens
    obtain ⟨o, ho⟩ := ho.exists_elseTokens hvs next
    obtain ⟨b, hb⟩ := hb.exists_blockTokens hbs ho.ends
    exact ⟨_, .chain (.mk p q hc hb ho)⟩

end

/-! ### Texts -/

/-- The program of a text is the one that its tokens are those of. -/
theorem parse_eq_ok_iff {source : String} {stream : TokenStream} (h : lex source = .ok stream)
    {program : Program} :
    parse source = .ok program ↔ BlockTokens program stream.tokens [] := by
  have hparse : parse source = .ok program ↔
      ∃ rest, statements stream.tokens = .ok program rest := by
    simp only [parse, h]
    cases statements stream.tokens <;> simp [Outcome.settle]
  rw [hparse]
  constructor
  · rintro ⟨rest, hrest⟩
    exact (statements_eq_ok_iff.mp hrest).2
  · intro hblock
    exact ⟨[], statements_eq_ok_iff.mpr ⟨rfl, hblock⟩⟩

/-- A text that consists of words is a program exactly when its words are derivable. -/
theorem parse_isOk_iff_isBlock {source : String} {stream : TokenStream}
    (h : lex source = .ok stream) :
    (∃ program, parse source = .ok program) ↔ IsBlock (words stream.tokens) := by
  simp only [parse_eq_ok_iff h]
  constructor
  · rintro ⟨program, hprogram⟩
    exact hprogram.isBlock
  · intro hblock
    exact hblock.exists_blockTokens rfl Ends.nil

/-- The tokens of the text `f (x) -1`. -/
def juxtaposed : TokenStream :=
  ⟨[⟨.ident "f", ⟨1, 1⟩⟩, ⟨.symbol .lparen, ⟨1, 3⟩⟩, ⟨.ident "x", ⟨1, 4⟩⟩,
    ⟨.symbol .rparen, ⟨1, 5⟩⟩, ⟨.symbol (.op .sub), ⟨1, 7⟩⟩, ⟨.number ⟨['1'], none⟩, ⟨1, 8⟩⟩],
    ⟨1, 9⟩⟩

theorem lex_juxtaposed : lex "f (x) -1" = .ok juxtaposed := by
  with_unfolding_all rfl

/-- Three statements by the rules: a variable, a group and a negative number. -/
theorem juxtaposed_isBlock : IsBlock (words juxtaposed.tokens) := by
  have hf : IsStmt [.ident "f"] := .expr ⟨_, .term (.ident "f")⟩
  have hx : IsStmt [.symbol .lparen, .ident "x", .symbol .rparen] :=
    .expr ⟨_, .term (.group (.term (.ident "x")))⟩
  have hone : IsStmt [.symbol (.op .sub), .number ⟨['1'], none⟩] :=
    .expr ⟨_, .term (.negative ⟨['1'], none⟩)⟩
  exact .cons hf (.cons hx (.cons hone .nil))

theorem juxtaposed_parse_isOk :
    lex "f (x) -1" = .ok juxtaposed ∧
      ((∃ program, parse "f (x) -1" = .ok program) ↔ IsBlock (words juxtaposed.tokens)) ∧
      IsBlock (words juxtaposed.tokens) :=
  ⟨lex_juxtaposed, parse_isOk_iff_isBlock lex_juxtaposed, juxtaposed_isBlock⟩

end NumScript
