import NumScript.Proofs.Flat.Words
import NumScript.Stmt.Progress

/-!
# NumScript.Proofs.Stmt.Derivation

Which tokens are read as which statement.

`StmtTokens s ts next` says that the tokens `ts`, with the tokens `next` after them, are those of
the statement `s`. What comes next matters to a statement that ends in an expression only: nothing
separates statements, so the expression must not be continued by the statement behind it.

The productions read what these relations derive and nothing else: `stmtReads` for what they take
off, by induction on the number of tokens, and `StmtTokens.stmt_eq_ok` for what they accept, by
induction on the derivation. For a whole program this is `statements_eq_ok_iff`.
-/

namespace NumScript

/-! ### Expressions -/

/-- The tokens `ts` are those of the expression `e`. -/
def ExprTokens (e : Expr) (ts : List Token) : Prop :=
  ∃ f, FlatWords f (words ts) ∧ Flat.resolve f = .ok e

/-- Words of a flat expression are those of a tree. -/
theorem FlatWords.exists_exprTokens {f : Flat} {ts : List Token} (h : FlatWords f (words ts)) :
    ∃ e, ExprTokens e ts := by
  obtain ⟨e, he⟩ := h.wellFormed.exists_resolve
  exact ⟨e, f, h, he⟩

theorem expression_eq_ok_iff {ts rest : List Token} {e : Expr} :
    expression ts = .ok e rest ↔
      ∃ used, ts = used ++ rest ∧ ExprTokens e used ∧ Ends (words used) rest := by
  constructor
  · intro h
    obtain ⟨f, mid, hf, hresolve⟩ := Outcome.bind_eq_ok_iff.mp h
    obtain ⟨used, rfl, hused, hends⟩ := flatExpr_eq_ok_iff.mp hf
    split at hresolve
    · rename_i e' he'
      obtain ⟨rfl, rfl⟩ := Outcome.ok.inj hresolve
      exact ⟨used, rfl, ⟨f, hused, he'⟩, hends⟩
    · exact absurd hresolve (by simp)
  · rintro ⟨used, rfl, ⟨f, hused, he⟩, hends⟩
    rw [expression, hused.flatExpr_eq_ok rfl hends, Outcome.bind_ok, he]

theorem ExprTokens.exists_cons {e : Expr} {ts : List Token} (h : ExprTokens e ts) :
    ∃ t us, ts = t :: us ∧ startsTerm t.lexeme = true := by
  obtain ⟨f, hf, -⟩ := h
  obtain ⟨w, ws, hw, hstart⟩ := hf.exists_cons
  obtain ⟨p, us, rfl, -⟩ := words_eq_cons_iff.mp hw
  exact ⟨⟨w, p⟩, us, rfl, hstart⟩

/-- Nothing but an operator or a parenthesis continues an expression. -/
theorem Ends.of_mark {m : Lexeme} (ws : List Lexeme) (p : Pos) (next : List Token)
    (hop : ∀ o, m ≠ .symbol (.op o)) (hparen : m ≠ .symbol .lparen) :
    Ends ws (⟨m, p⟩ :: next) := by
  refine ⟨Bool.eq_false_iff.mpr fun h => ?_, fun _ => Bool.eq_false_iff.mpr fun h => ?_⟩
  · obtain ⟨o, q, rest, heq⟩ := atOperator_iff.mp h
    exact hop o (congrArg Token.lexeme (List.cons.inj heq).1)
  · obtain ⟨q, rest, heq⟩ := (atMark_iff (m := .symbol .lparen) rfl).mp h
    exact hparen (congrArg Token.lexeme (List.cons.inj heq).1)

theorem Ends.keyword (ws : List Lexeme) (k : Keyword) (p : Pos) (next : List Token) :
    Ends ws (⟨.keyword k, p⟩ :: next) := .of_mark ws p next (fun _ => nofun) nofun

theorem Ends.nil (ws : List Lexeme) : Ends ws [] := ⟨rfl, fun _ => rfl⟩

theorem condition_eq_ok_iff {k : Keyword} {text : String} (hk : k.text = text)
    {ts rest : List Token} {e : Expr} :
    condition text ts = .ok e rest ↔
      ∃ used p, ts = used ++ ⟨.keyword k, p⟩ :: rest ∧ ExprTokens e used := by
  have hmark : (Lexeme.keyword k).mark? = some text := congrArg some hk
  constructor
  · intro h
    obtain ⟨e, mid, he, hmid⟩ := Outcome.bind_eq_ok_iff.mp h
    obtain ⟨_, hkey, rfl⟩ := Outcome.map_eq_ok_iff.mp hmid
    obtain ⟨used, rfl, hused, -⟩ := expression_eq_ok_iff.mp he
    obtain ⟨p, rfl⟩ := (expect_eq_ok_iff hmark).mp hkey
    exact ⟨used, p, rfl, hused⟩
  · rintro ⟨used, p, rfl, hused⟩
    have he := expression_eq_ok_iff.mpr ⟨used, rfl, hused, Ends.keyword (words used) k p rest⟩
    have hkey : expect text (⟨.keyword k, p⟩ :: rest) = .ok () rest :=
      (expect_eq_ok_iff hmark).mpr ⟨p, rfl⟩
    rw [condition, he, Outcome.bind_ok, hkey]
    rfl

/-! ### Parameters and bounds -/

/-- The words of the parameters that follow the first one. -/
def moreParamWords : List String → List Lexeme
  | [] => []
  | x :: xs => .symbol .comma :: .ident x :: moreParamWords xs

/-- The words of parameters. -/
def paramWords : List String → List Lexeme
  | [] => []
  | x :: xs => .ident x :: moreParamWords xs

/-- The tokens `ts` are a comma and the tokens of an expression for each of the bounds. -/
inductive BoundsTokens : List Expr → List Token → Prop
  | nil : BoundsTokens [] []
  | cons {e : Expr} {es : List Expr} {ts us : List Token} (p : Pos) (he : ExprTokens e ts)
      (hes : BoundsTokens es us) : BoundsTokens (e :: es) (⟨.symbol .comma, p⟩ :: (ts ++ us))

theorem moreParams_comma (p : Pos) (ts : List Token) :
    moreParams (⟨.symbol .comma, p⟩ :: ts) =
      (expectIdent ts).bind fun param rest => (moreParams rest).map (param :: ·) := by
  rw [moreParams, (expectIdent_advances ts).andThen_eq_bind]

theorem moreParams_rparen (p : Pos) (ts : List Token) :
    moreParams (⟨.symbol .rparen, p⟩ :: ts) = .ok [] ts := by
  have h : expect ")" (⟨.symbol .rparen, p⟩ :: ts) = .ok () ts :=
    (expect_eq_ok_iff (m := .symbol .rparen) rfl).mpr ⟨p, rfl⟩
  rw [moreParams.eq_def]
  simp [h]

/-- What `moreParams` takes off when it succeeds. -/
theorem moreParams_reads (ts : List Token) {xs : List String} {rest : List Token}
    (h : moreParams ts = .ok xs rest) :
    ∃ used p, ts = used ++ ⟨.symbol .rparen, p⟩ :: rest ∧ words used = moreParamWords xs := by
  have ih : ∀ mid : List Token, mid.length < ts.length → ∀ {xs : List String},
      moreParams mid = .ok xs rest →
        ∃ used p, mid = used ++ ⟨.symbol .rparen, p⟩ :: rest ∧ words used = moreParamWords xs :=
    fun mid _ _ hmid => moreParams_reads mid hmid
  rw [moreParams.eq_def] at h
  split at h
  · rename_i p ts'
    have hident := expectIdent_advances ts'
    rw [hident.andThen_eq_bind] at h
    obtain ⟨x, mid, hx, hmid⟩ := Outcome.bind_eq_ok_iff.mp h
    obtain ⟨xs, hxs, rfl⟩ := Outcome.map_eq_ok_iff.mp hmid
    have hlt : mid.length < ts'.length := hident.2 x mid hx
    obtain ⟨used, q, rfl, hused⟩ := ih mid (by simp only [List.length_cons]; omega) hxs
    obtain ⟨r, rfl⟩ := expectIdent_eq_ok_iff.mp hx
    exact ⟨⟨.symbol .comma, p⟩ :: ⟨.ident x, r⟩ :: used, q, rfl, by simp [moreParamWords, hused]⟩
  · obtain ⟨_, hclose, rfl⟩ := Outcome.map_eq_ok_iff.mp h
    obtain ⟨p, rfl⟩ := (expect_eq_ok_iff (m := .symbol .rparen) rfl).mp hclose
    exact ⟨[], p, rfl, rfl⟩
termination_by ts.length

theorem moreParams_eq_ok {ts : List Token} {xs : List String} (h : words ts = moreParamWords xs)
    (p : Pos) (rest : List Token) :
    moreParams (ts ++ ⟨.symbol .rparen, p⟩ :: rest) = .ok xs rest := by
  induction xs generalizing ts with
  | nil =>
    obtain rfl := words_eq_nil_iff.mp h
    exact moreParams_rparen p rest
  | cons x xs ih =>
    simp only [moreParamWords, words_eq_cons_iff] at h
    obtain ⟨q, _, rfl, r, ts, rfl, hts⟩ := h
    rw [List.cons_append, List.cons_append, moreParams_comma, expectIdent, Outcome.bind_ok, ih hts]
    rfl

theorem signature_eq_ok_iff {ts rest : List Token} {name : String} {xs : List String} :
    signature ts = .ok (name, xs) rest ↔
      ∃ p q used r, ts = ⟨.ident name, p⟩ :: ⟨.symbol .lparen, q⟩ ::
          (used ++ ⟨.symbol .rparen, r⟩ :: rest) ∧
        words used = paramWords xs := by
  constructor
  · intro h
    obtain ⟨_, mid, hname, hmid⟩ := Outcome.bind_eq_ok_iff.mp h
    obtain ⟨_, mid', hopen, hmid'⟩ := Outcome.bind_eq_ok_iff.mp hmid
    obtain ⟨_, hparams, heq⟩ := Outcome.map_eq_ok_iff.mp hmid'
    obtain ⟨rfl, rfl⟩ := Prod.mk.inj heq
    obtain ⟨p, rfl⟩ := expectIdent_eq_ok_iff.mp hname
    obtain ⟨q, rfl⟩ := (expect_eq_ok_iff (m := .symbol .lparen) rfl).mp hopen
    unfold params at hparams
    split at hparams
    · rename_i r rest'
      obtain ⟨rfl, rfl⟩ := Outcome.ok.inj hparams
      exact ⟨p, q, [], r, rfl, rfl⟩
    · obtain ⟨x, mid, hx, hmid⟩ := Outcome.bind_eq_ok_iff.mp hparams
      obtain ⟨xs, hxs, rfl⟩ := Outcome.map_eq_ok_iff.mp hmid
      obtain ⟨r, rfl⟩ := expectIdent_eq_ok_iff.mp hx
      obtain ⟨used, t, rfl, hused⟩ := moreParams_reads mid hxs
      exact ⟨p, q, ⟨.ident x, r⟩ :: used, t, rfl, by simp [paramWords, hused]⟩
  · rintro ⟨p, q, used, r, rfl, hused⟩
    have hopen : expect "(" (⟨.symbol .lparen, q⟩ :: (used ++ ⟨.symbol .rparen, r⟩ :: rest)) =
        .ok () (used ++ ⟨.symbol .rparen, r⟩ :: rest) :=
      (expect_eq_ok_iff (m := .symbol .lparen) rfl).mpr ⟨q, rfl⟩
    have hparams : params (used ++ ⟨.symbol .rparen, r⟩ :: rest) = .ok xs rest := by
      cases xs with
      | nil =>
        obtain rfl := words_eq_nil_iff.mp hused
        rfl
      | cons x xs =>
        simp only [paramWords, words_eq_cons_iff] at hused
        obtain ⟨t, used, rfl, hused⟩ := hused
        rw [List.cons_append, params, expectIdent, Outcome.bind_ok, moreParams_eq_ok hused]
        · rfl
        · intro _ _ heq
          cases heq
    rw [signature, expectIdent, Outcome.bind_ok, hopen, Outcome.bind_ok, hparams]
    rfl

/-- What `moreBounds` takes off when it succeeds. -/
theorem moreBounds_reads (seen : Nat) (ts : List Token) (hseen : seen ≤ 3) {es : List Expr}
    {rest : List Token} (h : moreBounds seen ts = .ok es rest) :
    ∃ used p, ts = used ++ ⟨.keyword .kwDo, p⟩ :: rest ∧ BoundsTokens es used ∧
      seen + es.length ≤ 3 := by
  have ih : ∀ mid : List Token, mid.length < ts.length → seen + 1 ≤ 3 → ∀ {es : List Expr},
      moreBounds (seen + 1) mid = .ok es rest →
        ∃ used p, mid = used ++ ⟨.keyword .kwDo, p⟩ :: rest ∧ BoundsTokens es used ∧
          seen + 1 + es.length ≤ 3 :=
    fun mid _ hseen _ hmid => moreBounds_reads (seen + 1) mid hseen hmid
  rw [moreBounds.eq_def] at h
  split at h
  · rename_i p ts'
    split at h
    · exact absurd h (by simp)
    · rename_i hmax
      have hexpr := expression_advances ts'
      rw [hexpr.andThen_eq_bind] at h
      obtain ⟨e, mid, he, hmid⟩ := Outcome.bind_eq_ok_iff.mp h
      obtain ⟨es, hes, rfl⟩ := Outcome.map_eq_ok_iff.mp hmid
      have hlt : mid.length < ts'.length := hexpr.2 e mid he
      obtain ⟨used, q, rfl, hused, hlen⟩ :=
        ih mid (by simp only [List.length_cons]; omega) (by rw [maxBounds] at hmax; omega) hes
      obtain ⟨used', rfl, hused', -⟩ := expression_eq_ok_iff.mp he
      refine ⟨⟨.symbol .comma, p⟩ :: (used' ++ used), q, by simp, .cons p hused' hused, ?_⟩
      simp only [List.length_cons]
      omega
  · obtain ⟨_, hdo, rfl⟩ := Outcome.map_eq_ok_iff.mp h
    obtain ⟨p, rfl⟩ := (expect_eq_ok_iff (m := .keyword .kwDo) rfl).mp hdo
    exact ⟨[], p, rfl, .nil, hseen⟩
termination_by ts.length

/-- A bound is followed by a comma or by the end of the bounds. -/
theorem BoundsTokens.ends {es : List Expr} {ts : List Token} (h : BoundsTokens es ts)
    (ws : List Lexeme) (p : Pos) (rest : List Token) :
    Ends ws (ts ++ ⟨.keyword .kwDo, p⟩ :: rest) := by
  cases h with
  | nil => exact Ends.keyword ws .kwDo p rest
  | cons q _ _ => exact Ends.comma ws q _

theorem BoundsTokens.moreBounds_eq_ok {es : List Expr} {ts : List Token} (h : BoundsTokens es ts)
    (p : Pos) (rest : List Token) {seen : Nat} (hlen : seen + es.length ≤ 3) :
    moreBounds seen (ts ++ ⟨.keyword .kwDo, p⟩ :: rest) = .ok es rest := by
  induction h generalizing seen with
  | nil =>
    have hdo : expect "do" (⟨.keyword .kwDo, p⟩ :: rest) = .ok () rest :=
      (expect_eq_ok_iff (m := .keyword .kwDo) rfl).mpr ⟨p, rfl⟩
    rw [List.nil_append, moreBounds.eq_def]
    simp [hdo]
  | @cons e es ts us q he hes ih =>
    simp only [List.length_cons] at hlen
    -- there is a bound to come, so the limit is not reached
    have hmax : seen ≠ maxBounds := by
      rw [maxBounds]
      omega
    have hexpr := expression_eq_ok_iff.mpr ⟨ts, rfl, he, hes.ends (words ts) p rest⟩
    have hmore : moreBounds (seen + 1) (us ++ ⟨.keyword .kwDo, p⟩ :: rest) = .ok es rest :=
      ih (by omega)
    rw [List.cons_append, List.append_assoc, moreBounds, if_neg hmax,
      (expression_advances _).andThen_eq_bind, hexpr, Outcome.bind_ok, hmore]
    rfl

theorem countHead_eq_ok_iff {ts rest : List Token} {var : String} {es : List Expr} :
    countHead ts = .ok (var, es) rest ↔
      ∃ p used q, ts = ⟨.ident var, p⟩ :: (used ++ ⟨.keyword .kwDo, q⟩ :: rest) ∧
        BoundsTokens es used ∧ 1 ≤ es.length ∧ es.length ≤ 3 := by
  constructor
  · intro h
    obtain ⟨_, mid, hvar, hmid⟩ := Outcome.bind_eq_ok_iff.mp h
    obtain ⟨_, mid', hcomma, hmid'⟩ := Outcome.bind_eq_ok_iff.mp hmid
    obtain ⟨e, mid'', he, hmid''⟩ := Outcome.bind_eq_ok_iff.mp hmid'
    obtain ⟨es, hes, heq⟩ := Outcome.map_eq_ok_iff.mp hmid''
    obtain ⟨rfl, rfl⟩ := Prod.mk.inj heq
    obtain ⟨p, rfl⟩ := expectIdent_eq_ok_iff.mp hvar
    obtain ⟨q, rfl⟩ := (expect_eq_ok_iff (m := .symbol .comma) rfl).mp hcomma
    obtain ⟨used, r, rfl, hused, hlen⟩ := moreBounds_reads 1 mid'' (by omega) hes
    obtain ⟨used', rfl, hused', -⟩ := expression_eq_ok_iff.mp he
    refine ⟨p, ⟨.symbol .comma, q⟩ :: (used' ++ used), r, by simp, .cons q hused' hused, ?_, ?_⟩
    · simp only [List.length_cons]
      omega
    · simp only [List.length_cons]
      omega
  · rintro ⟨p, used, q, rfl, hused, hone, hthree⟩
    cases hused with
    | nil => exact absurd hone (by simp)
    | @cons e es ts us r he hes =>
      simp only [List.length_cons] at hthree
      have hcomma : expect "," (⟨.symbol .comma, r⟩ :: (ts ++ us ++ ⟨.keyword .kwDo, q⟩ :: rest)) =
          .ok () (ts ++ us ++ ⟨.keyword .kwDo, q⟩ :: rest) :=
        (expect_eq_ok_iff (m := .symbol .comma) rfl).mpr ⟨r, rfl⟩
      have hexpr := expression_eq_ok_iff.mpr ⟨ts, rfl, he, hes.ends (words ts) q rest⟩
      have hmore : moreBounds 1 (us ++ ⟨.keyword .kwDo, q⟩ :: rest) = .ok es rest :=
        hes.moreBounds_eq_ok q rest (by omega)
      rw [countHead, expectIdent, Outcome.bind_ok, List.cons_append, hcomma, Outcome.bind_ok,
        List.append_assoc, hexpr, Outcome.bind_ok, hmore]
      rfl

/-! ### Statements -/

mutual

/-- The tokens `ts`, with `next` after them, are those of the statement `s`. -/
inductive StmtTokens : Stmt → List Token → List Token → Prop
  | expr {e : Expr} {t : Token} {ts next : List Token} (h : ExprTokens e (t :: ts))
      (hends : Ends (words (t :: ts)) next) : StmtTokens (.expr t.pos e) (t :: ts) next
  | declare (name : String) (p q : Pos) (next : List Token) :
      StmtTokens (.declare p name (.number .zero)) [⟨.keyword .kwLocal, p⟩, ⟨.ident name, q⟩] next
  | declareAs (name : String) (p q r : Pos) {e : Expr} {ts next : List Token} (h : ExprTokens e ts)
      (hends : Ends (words ts) next) :
      StmtTokens (.declare p name e)
        (⟨.keyword .kwLocal, p⟩ :: ⟨.ident name, q⟩ :: ⟨.symbol .assign, r⟩ :: ts) next
  | assign (name : String) (p q : Pos) {e : Expr} {ts next : List Token} (h : ExprTokens e ts)
      (hends : Ends (words ts) next) :
      StmtTokens (.assign p name e) (⟨.ident name, p⟩ :: ⟨.symbol .assign, q⟩ :: ts) next
  | branch {s : Stmt} {p : Pos} {ts next : List Token} (h : BranchTokens p s ts next) :
      StmtTokens s (⟨.keyword .kwIf, p⟩ :: ts) next
  | loop (p q r : Pos) {c : Expr} {b : List Stmt} {ts us next : List Token} (hc : ExprTokens c ts)
      (hb : BlockTokens b us (⟨.keyword .kwEnd, r⟩ :: next)) :
      StmtTokens (.loop p c b)
        (⟨.keyword .kwWhile, p⟩ :: (ts ++ ⟨.keyword .kwDo, q⟩ :: (us ++ [⟨.keyword .kwEnd, r⟩])))
        next
  | count (var : String) (p q r t : Pos) {es : List Expr} {b : List Stmt} {ts us next : List Token}
      (hes : BoundsTokens es ts) (hone : 1 ≤ es.length) (hthree : es.length ≤ 3)
      (hb : BlockTokens b us (⟨.keyword .kwEnd, t⟩ :: next)) :
      StmtTokens (.count p var es b)
        (⟨.keyword .kwFor, p⟩ :: ⟨.ident var, q⟩ ::
          (ts ++ ⟨.keyword .kwDo, r⟩ :: (us ++ [⟨.keyword .kwEnd, t⟩]))) next
  | define (name : String) (p q r t v : Pos) {xs : List String} {b : List Stmt}
      {ts us next : List Token} (hxs : words ts = paramWords xs)
      (hb : BlockTokens b us (⟨.keyword .kwEnd, v⟩ :: next)) :
      StmtTokens (.define p name xs b)
        (⟨.keyword .kwFunction, p⟩ :: ⟨.ident name, q⟩ :: ⟨.symbol .lparen, r⟩ ::
          (ts ++ ⟨.symbol .rparen, t⟩ :: (us ++ [⟨.keyword .kwEnd, v⟩]))) next

/-- The tokens `ts`, with `next` after them, are those of the statements `ss`. -/
inductive BlockTokens : List Stmt → List Token → List Token → Prop
  | nil (next : List Token) : BlockTokens [] [] next
  | cons {s : Stmt} {ss : List Stmt} {ts us next : List Token} (hs : StmtTokens s ts (us ++ next))
      (hss : BlockTokens ss us next) : BlockTokens (s :: ss) (ts ++ us) next

/-- The tokens `ts`, with `next` after them, are those of a choice at `p`, from its condition on. -/
inductive BranchTokens : Pos → Stmt → List Token → List Token → Prop
  | mk (p q : Pos) {c : Expr} {b : List Stmt} {o : Option (List Stmt)} {ts us vs next : List Token}
      (hc : ExprTokens c ts) (hb : BlockTokens b us (vs ++ next)) (ho : ElseTokens o vs next) :
      BranchTokens p (.branch p c b o) (ts ++ ⟨.keyword .kwThen, q⟩ :: (us ++ vs)) next

/-- The tokens `ts`, with `next` after them, are what follows the first body of a choice. -/
inductive ElseTokens : Option (List Stmt) → List Token → List Token → Prop
  | none (p : Pos) (next : List Token) : ElseTokens none [⟨.keyword .kwEnd, p⟩] next
  | body (p q : Pos) {b : List Stmt} {us next : List Token}
      (hb : BlockTokens b us (⟨.keyword .kwEnd, q⟩ :: next)) :
      ElseTokens (some b) (⟨.keyword .kwElse, p⟩ :: (us ++ [⟨.keyword .kwEnd, q⟩])) next
  | chain {s : Stmt} {p : Pos} {ts next : List Token} (h : BranchTokens p s ts next) :
      ElseTokens (some [s]) (⟨.keyword .kwElseif, p⟩ :: ts) next

end

/-! ### Only derived tokens are read -/

/-- What the productions for statements take off the tokens `ts` when they succeed. -/
structure StmtReads (ts : List Token) : Prop where
  stmt : ∀ {s : Stmt} {rest : List Token}, NumScript.stmt ts = .ok s rest →
    ∃ used, ts = used ++ rest ∧ StmtTokens s used rest
  block : ∀ {stops : List String} {ss : List Stmt} {rest : List Token},
    NumScript.block stops ts = .ok ss rest →
      ∃ used, ts = used ++ rest ∧ BlockTokens ss used rest
  body : ∀ {ss : List Stmt} {rest : List Token}, NumScript.body ts = .ok ss rest →
    ∃ used p, ts = used ++ ⟨.keyword .kwEnd, p⟩ :: rest ∧
      BlockTokens ss used (⟨.keyword .kwEnd, p⟩ :: rest)
  branch : ∀ {p : Pos} {s : Stmt} {rest : List Token}, NumScript.branch p ts = .ok s rest →
    ∃ used, ts = used ++ rest ∧ BranchTokens p s used rest
  otherwise : ∀ {o : Option (List Stmt)} {rest : List Token}, NumScript.otherwise ts = .ok o rest →
    ∃ used, ts = used ++ rest ∧ ElseTokens o used rest

theorem declaration_reads {p : Pos} {ts rest : List Token} {s : Stmt}
    (h : declaration p ts = .ok s rest) :
    ∃ used, ⟨.keyword .kwLocal, p⟩ :: ts = used ++ rest ∧ StmtTokens s used rest := by
  obtain ⟨name, mid, hname, hmid⟩ := Outcome.bind_eq_ok_iff.mp h
  obtain ⟨q, rfl⟩ := expectIdent_eq_ok_iff.mp hname
  split at hmid
  · rename_i r mid'
    obtain ⟨e, he, rfl⟩ := Outcome.map_eq_ok_iff.mp hmid
    obtain ⟨used, rfl, hused, hends⟩ := expression_eq_ok_iff.mp he
    exact ⟨_, rfl, .declareAs name p q r hused hends⟩
  · obtain ⟨rfl, rfl⟩ := Outcome.ok.inj hmid
    exact ⟨_, rfl, .declare name p q _⟩

theorem assignment_reads {p : Pos} {name : String} {ts rest : List Token} {s : Stmt}
    (h : assignment p (⟨.ident name, p⟩ :: ts) = .ok s rest) :
    ∃ used, ⟨.ident name, p⟩ :: ts = used ++ rest ∧ StmtTokens s used rest := by
  obtain ⟨name', mid, hname, hmid⟩ := Outcome.bind_eq_ok_iff.mp h
  obtain ⟨_, mid', hassign, hmid'⟩ := Outcome.bind_eq_ok_iff.mp hmid
  obtain ⟨e, he, rfl⟩ := Outcome.map_eq_ok_iff.mp hmid'
  obtain ⟨rfl, rfl⟩ := Outcome.ok.inj hname
  obtain ⟨q, rfl⟩ := (expect_eq_ok_iff (m := .symbol .assign) rfl).mp hassign
  obtain ⟨used, rfl, hused, hends⟩ := expression_eq_ok_iff.mp he
  exact ⟨_, rfl, .assign name p q hused hends⟩

theorem expression_reads {p : Pos} {l : Lexeme} {ts rest : List Token} {e : Expr}
    (h : expression (⟨l, p⟩ :: ts) = .ok e rest) :
    ∃ used, ⟨l, p⟩ :: ts = used ++ rest ∧ StmtTokens (.expr p e) used rest := by
  obtain ⟨used, hused, hexpr, hends⟩ := expression_eq_ok_iff.mp h
  obtain ⟨t, used, rfl, -⟩ := hexpr.exists_cons
  obtain ⟨rfl, -⟩ := List.cons.inj hused
  exact ⟨_, hused, .expr hexpr hends⟩

section Reads

variable {ts : List Token} (ih : ∀ mid : List Token, mid.length < ts.length → StmtReads mid)

include ih

theorem definition_reads {p : Pos} {rest : List Token} {s : Stmt}
    (h : definition p ts = .ok s rest) :
    ∃ used, ⟨.keyword .kwFunction, p⟩ :: ts = used ++ rest ∧ StmtTokens s used rest := by
  rw [definition_eq] at h
  obtain ⟨⟨name, xs⟩, mid, hhead, hmid⟩ := Outcome.bind_eq_ok_iff.mp h
  obtain ⟨b, hb, rfl⟩ := Outcome.map_eq_ok_iff.mp hmid
  have hlt : mid.length < ts.length := (signature_advances ts).2 _ mid hhead
  obtain ⟨us, v, rfl, hus⟩ := (ih mid hlt).body hb
  obtain ⟨q, r, used, t, rfl, hused⟩ := signature_eq_ok_iff.mp hhead
  exact ⟨_, by simp, .define name p q r t v hused hus⟩

theorem loop_reads {p : Pos} {rest : List Token} {s : Stmt} (h : loop p ts = .ok s rest) :
    ∃ used, ⟨.keyword .kwWhile, p⟩ :: ts = used ++ rest ∧ StmtTokens s used rest := by
  rw [loop_eq] at h
  obtain ⟨c, mid, hc, hmid⟩ := Outcome.bind_eq_ok_iff.mp h
  obtain ⟨b, hb, rfl⟩ := Outcome.map_eq_ok_iff.mp hmid
  have hlt : mid.length < ts.length := (condition_advances "do" ts).2 _ mid hc
  obtain ⟨us, r, rfl, hus⟩ := (ih mid hlt).body hb
  obtain ⟨used, q, rfl, hused⟩ := (condition_eq_ok_iff (k := .kwDo) rfl).mp hc
  exact ⟨_, by simp, .loop p q r hused hus⟩

theorem count_reads {p : Pos} {rest : List Token} {s : Stmt} (h : count p ts = .ok s rest) :
    ∃ used, ⟨.keyword .kwFor, p⟩ :: ts = used ++ rest ∧ StmtTokens s used rest := by
  rw [count_eq] at h
  obtain ⟨⟨var, es⟩, mid, hhead, hmid⟩ := Outcome.bind_eq_ok_iff.mp h
  obtain ⟨b, hb, rfl⟩ := Outcome.map_eq_ok_iff.mp hmid
  have hlt : mid.length < ts.length := (countHead_advances ts).2 _ mid hhead
  obtain ⟨us, t, rfl, hus⟩ := (ih mid hlt).body hb
  obtain ⟨q, used, r, rfl, hused, hone, hthree⟩ := countHead_eq_ok_iff.mp hhead
  exact ⟨_, by simp, .count var p q r t hused hone hthree hus⟩

theorem branch_reads {p : Pos} {rest : List Token} {s : Stmt} (h : branch p ts = .ok s rest) :
    ∃ used, ts = used ++ rest ∧ BranchTokens p s used rest := by
  rw [branch_eq] at h
  obtain ⟨c, mid, hc, hmid⟩ := Outcome.bind_eq_ok_iff.mp h
  obtain ⟨b, mid', hb, hmid'⟩ := Outcome.bind_eq_ok_iff.mp hmid
  obtain ⟨o, ho, rfl⟩ := Outcome.map_eq_ok_iff.mp hmid'
  have hlt : mid.length < ts.length := (condition_advances "then" ts).2 c mid hc
  obtain ⟨used, q, hts, hused⟩ := (condition_eq_ok_iff (k := .kwThen) rfl).mp hc
  obtain ⟨us, rfl, hus⟩ := (ih mid hlt).block hb
  rw [List.length_append] at hlt
  obtain ⟨vs, rfl, hvs⟩ := (ih mid' (by omega)).otherwise ho
  exact ⟨_, by simp [hts], .mk p q hused hus hvs⟩

theorem stmt_reads {rest : List Token} {s : Stmt} (h : stmt ts = .ok s rest) :
    ∃ used, ts = used ++ rest ∧ StmtTokens s used rest := by
  -- behind a keyword there is one token less
  have ih' : ∀ t ts', ts = t :: ts' → ∀ mid : List Token, mid.length < ts'.length →
      StmtReads mid := by
    rintro t ts' rfl mid hmid
    exact ih mid (Nat.lt_succ_of_lt hmid)
  rw [stmt.eq_def] at h
  split at h
  · exact declaration_reads h
  · exact definition_reads (ih' _ _ rfl) h
  · obtain ⟨used, rfl, hused⟩ := branch_reads (ih' _ _ rfl) h
    exact ⟨_, rfl, .branch hused⟩
  · exact loop_reads (ih' _ _ rfl) h
  · exact count_reads (ih' _ _ rfl) h
  · exact assignment_reads h
  · obtain ⟨e, he, rfl⟩ := Outcome.map_eq_ok_iff.mp h
    exact expression_reads he
  · exact absurd h (by simp)

theorem block_reads {stops : List String} {rest : List Token} {ss : List Stmt}
    (h : block stops ts = .ok ss rest) :
    ∃ used, ts = used ++ rest ∧ BlockTokens ss used rest := by
  rw [block_eq] at h
  split at h
  · obtain ⟨rfl, rfl⟩ := Outcome.ok.inj h
    exact ⟨[], rfl, .nil _⟩
  · split at h
    · exact absurd h (by simp)
    · obtain ⟨s, mid, hs, hmid⟩ := Outcome.bind_eq_ok_iff.mp h
      obtain ⟨ss, hss, rfl⟩ := Outcome.map_eq_ok_iff.mp hmid
      have hlt : mid.length < ts.length := (stmtProgress ts).stmt.2 s mid hs
      obtain ⟨used, hts, hused⟩ := stmt_reads ih hs
      obtain ⟨us, rfl, hus⟩ := (ih mid hlt).block hss
      exact ⟨used ++ us, by simp [hts], .cons hused hus⟩

end Reads

theorem stmtReads (ts : List Token) : StmtReads ts := by
  have ih : ∀ mid : List Token, mid.length < ts.length → StmtReads mid :=
    fun mid _ => stmtReads mid
  refine ⟨stmt_reads ih, block_reads ih, ?_, branch_reads ih, ?_⟩
  · intro ss rest h
    rw [body] at h
    obtain ⟨ss, mid, hss, hmid⟩ := Outcome.bind_eq_ok_iff.mp h
    obtain ⟨_, hend, rfl⟩ := Outcome.map_eq_ok_iff.mp hmid
    obtain ⟨p, rfl⟩ := (expect_eq_ok_iff (m := .keyword .kwEnd) rfl).mp hend
    obtain ⟨used, hts, hused⟩ := block_reads ih hss
    exact ⟨used, p, hts, hused⟩
  · intro o rest h
    rw [otherwise.eq_def] at h
    split at h
    · rename_i p ts'
      obtain ⟨s, hs, rfl⟩ := Outcome.map_eq_ok_iff.mp h
      obtain ⟨used, rfl, hused⟩ := (ih ts' (by simp)).branch hs
      exact ⟨_, rfl, .chain hused⟩
    · rename_i p ts'
      obtain ⟨b, hb, rfl⟩ := Outcome.map_eq_ok_iff.mp h
      obtain ⟨us, q, rfl, hus⟩ := (ih ts' (by simp)).body hb
      exact ⟨_, by simp, .body p q hus⟩
    · obtain ⟨_, hend, rfl⟩ := Outcome.map_eq_ok_iff.mp h
      obtain ⟨p, rfl⟩ := (expect_eq_ok_iff (m := .keyword .kwEnd) rfl).mp hend
      exact ⟨_, rfl, .none p rest⟩
termination_by ts.length

/-! ### First tokens -/

/-- Whether a statement can start with a word. -/
def startsStmt : Lexeme → Bool
  | .keyword .kwLocal => true
  | .keyword .kwFunction => true
  | .keyword .kwIf => true
  | .keyword .kwWhile => true
  | .keyword .kwFor => true
  | w => startsTerm w

theorem startsStmt_of_startsTerm {w : Lexeme} (h : startsTerm w = true) : startsStmt w = true := by
  cases w with
  | keyword k => exact absurd h (by simp [startsTerm])
  | _ => exact h

theorem StmtTokens.exists_cons {s : Stmt} {ts next : List Token} (h : StmtTokens s ts next) :
    ∃ t us, ts = t :: us ∧ startsStmt t.lexeme = true := by
  cases h with
  | expr h _ =>
    obtain ⟨t, us, heq, hstart⟩ := h.exists_cons
    exact ⟨t, us, heq, startsStmt_of_startsTerm hstart⟩
  | _ => exact ⟨_, _, rfl, rfl⟩

/-- Where a statement starts, no other mark comes next. -/
theorem atMark_eq_false_of_startsStmt {m : Lexeme} {text : String} (hm : m.mark? = some text)
    (hstart : startsStmt m = false) {t : Token} (ht : startsStmt t.lexeme = true)
    (ts : List Token) : atMark text (t :: ts) = false := by
  refine Bool.eq_false_iff.mpr fun h => ?_
  obtain ⟨p, rest, heq⟩ := (atMark_iff hm).mp h
  obtain ⟨rfl, -⟩ := List.cons.inj heq
  exact absurd ht (by simp [hstart])

/-- The keywords that end a block. -/
def closings : List String := ["elseif", "else", "end"]

/-- Where a statement starts, no block ends. -/
theorem any_atMark_eq_false {stops : List String} (hstops : stops ⊆ closings) {t : Token}
    (ht : startsStmt t.lexeme = true) (ts : List Token) :
    stops.any (atMark · (t :: ts)) = false := by
  rw [List.any_eq_false]
  intro text htext
  rw [Bool.not_eq_true]
  have hclosing := hstops htext
  simp only [closings, List.mem_cons, List.not_mem_nil, or_false] at hclosing
  rcases hclosing with rfl | rfl | rfl
  · exact atMark_eq_false_of_startsStmt (m := .keyword .kwElseif) rfl rfl ht ts
  · exact atMark_eq_false_of_startsStmt (m := .keyword .kwElse) rfl rfl ht ts
  · exact atMark_eq_false_of_startsStmt (m := .keyword .kwEnd) rfl rfl ht ts

/-- Where a block ends, no equality sign comes next. -/
theorem atMark_assign_of_any {stops : List String} (hstops : stops ⊆ closings) {ts : List Token}
    (h : stops.any (atMark · ts) = true) : atMark "=" ts = false := by
  obtain ⟨text, htext, hmark⟩ := List.any_eq_true.mp h
  refine Bool.eq_false_iff.mpr fun hassign => ?_
  obtain ⟨p, rest, rfl⟩ := (atMark_iff (m := .symbol .assign) rfl).mp hassign
  have hclosing := hstops htext
  simp only [closings, List.mem_cons, List.not_mem_nil, or_false] at hclosing
  rcases hclosing with rfl | rfl | rfl <;>
    exact absurd hmark (by simp [atMark, Lexeme.mark?, Symbol.text])

/-- What follows the first body of a choice ends that body. -/
theorem ElseTokens.any_atMark {o : Option (List Stmt)} {ts next : List Token}
    (h : ElseTokens o ts next) : closings.any (atMark · (ts ++ next)) = true := by
  cases h <;> rfl

/-- A block is not followed by an equality sign. -/
theorem BlockTokens.atMark_assign {ss : List Stmt} {ts next : List Token}
    (h : BlockTokens ss ts next) (hnext : atMark "=" next = false) :
    atMark "=" (ts ++ next) = false := by
  cases h with
  | nil => exact hnext
  | cons hs hss =>
    obtain ⟨t, us, rfl, hstart⟩ := hs.exists_cons
    exact atMark_eq_false_of_startsStmt (m := .symbol .assign) rfl rfl hstart _

/-! ### Derived tokens are read -/

theorem expect_end (p : Pos) (rest : List Token) :
    expect "end" (⟨.keyword .kwEnd, p⟩ :: rest) = .ok () rest :=
  (expect_eq_ok_iff (m := .keyword .kwEnd) rfl).mpr ⟨p, rfl⟩

/-- The statement at an expression, which is no assignment. -/
theorem stmt_of_startsTerm {t : Token} {ts : List Token} (ht : startsTerm t.lexeme = true)
    (hassign : (∃ name, t.lexeme = .ident name) → atMark "=" ts = false) :
    stmt (t :: ts) = (expression (t :: ts)).map (.expr t.pos ·) := by
  obtain ⟨l, p⟩ := t
  rw [stmt.eq_def]
  split
  case h_6 =>
    rename_i heq
    obtain ⟨h, rfl⟩ := List.cons.inj heq
    obtain ⟨rfl, rfl⟩ := Token.mk.inj h
    exact absurd (hassign ⟨_, rfl⟩) (by simp [atMark, Lexeme.mark?, Symbol.text])
  case h_7 =>
    rename_i heq
    obtain ⟨h, rfl⟩ := List.cons.inj heq
    obtain ⟨rfl, rfl⟩ := Token.mk.inj h
    rfl
  case h_8 => simp_all
  all_goals
    rename_i heq
    obtain ⟨h, rfl⟩ := List.cons.inj heq
    obtain ⟨rfl, rfl⟩ := Token.mk.inj h
    exact absurd ht (by simp [startsTerm])

/-- An expression that starts with an identifier does not go on as an assignment. -/
theorem ExprTokens.atMark_assign {e : Expr} {t : Token} {ts next : List Token}
    (h : ExprTokens e (t :: ts)) (ht : ∃ name, t.lexeme = .ident name)
    (hnext : atMark "=" next = false) : atMark "=" (ts ++ next) = false := by
  obtain ⟨f, hf, -⟩ := h
  obtain ⟨name, hname⟩ := ht
  -- either the identifier is all, or the expression itself says what is behind it
  rcases hf.after_ident (by rw [words_cons, hname]) with hts | ⟨s, ws, hts, hs⟩
  · rw [words_eq_nil_iff.mp hts]
    exact hnext
  · obtain ⟨p, us, rfl, -⟩ := words_eq_cons_iff.mp hts
    refine Bool.eq_false_iff.mpr fun hmark => hs ?_
    obtain ⟨q, rest, heq⟩ := (atMark_iff (m := .symbol .assign) rfl).mp hmark
    exact Lexeme.symbol.inj (congrArg Token.lexeme (List.cons.inj heq).1)

mutual

/-- The tokens of a statement are read as it. -/
theorem StmtTokens.stmt_eq_ok : ∀ {s : Stmt} {ts next : List Token}, StmtTokens s ts next →
    atMark "=" next = false → stmt (ts ++ next) = .ok s next
  | _, _, _, @StmtTokens.expr e t ts next h hends, hnext => by
    obtain ⟨_, _, heq, hstart⟩ := h.exists_cons
    obtain ⟨rfl, -⟩ := List.cons.inj heq
    have hexpr := expression_eq_ok_iff.mpr ⟨t :: ts, rfl, h, hends⟩
    rw [List.cons_append] at hexpr ⊢
    rw [stmt_of_startsTerm hstart fun ht => h.atMark_assign ht hnext, hexpr]
    rfl
  | _, _, next, .declare name p q _, hnext => by
    simp only [List.cons_append, List.nil_append]
    rw [stmt, declaration, expectIdent, Outcome.bind_ok]
    split
    · exact absurd hnext (by simp [atMark, Lexeme.mark?, Symbol.text])
    · rfl
  | _, _, _, @StmtTokens.declareAs name p q r e ts next h hends, _ => by
    have hexpr := expression_eq_ok_iff.mpr ⟨ts, rfl, h, hends⟩
    simp only [List.cons_append]
    rw [stmt, declaration, expectIdent, Outcome.bind_ok]
    simp only
    rw [hexpr]
    rfl
  | _, _, _, @StmtTokens.assign name p q e ts next h hends, _ => by
    have hexpr := expression_eq_ok_iff.mpr ⟨ts, rfl, h, hends⟩
    have hassign : expect "=" (⟨.symbol .assign, q⟩ :: (ts ++ next)) = .ok () (ts ++ next) :=
      (expect_eq_ok_iff (m := .symbol .assign) rfl).mpr ⟨q, rfl⟩
    simp only [List.cons_append]
    rw [stmt, assignment, expectIdent, Outcome.bind_ok, hassign, Outcome.bind_ok, hexpr]
    rfl
  | _, _, next, .branch h, _ => by
    rw [List.cons_append, stmt]
    exact h.branch_eq_ok
  | _, _, _, @StmtTokens.loop p q r c b ts us next hc hb, _ => by
    have hcond :
        condition "do" (ts ++ ⟨.keyword .kwDo, q⟩ :: (us ++ ⟨.keyword .kwEnd, r⟩ :: next)) =
          .ok c (us ++ ⟨.keyword .kwEnd, r⟩ :: next) :=
      (condition_eq_ok_iff (k := .kwDo) rfl).mpr ⟨ts, q, rfl, hc⟩
    simp only [List.cons_append, List.append_assoc, List.nil_append]
    rw [stmt, loop_eq, hcond, Outcome.bind_ok, hb.body_eq_ok]
    rfl
  | _, _, _, @StmtTokens.count var p q r t es b ts us next hes hone hthree hb, _ => by
    have hhead : countHead (⟨.ident var, q⟩ ::
          (ts ++ ⟨.keyword .kwDo, r⟩ :: (us ++ ⟨.keyword .kwEnd, t⟩ :: next))) =
        .ok (var, es) (us ++ ⟨.keyword .kwEnd, t⟩ :: next) :=
      countHead_eq_ok_iff.mpr ⟨q, ts, r, rfl, hes, hone, hthree⟩
    simp only [List.cons_append, List.append_assoc, List.nil_append]
    rw [stmt, count_eq, hhead, Outcome.bind_ok]
    simp only [hb.body_eq_ok, Outcome.map_ok]
  | _, _, _, @StmtTokens.define name p q r t v xs b ts us next hxs hb, _ => by
    have hhead : signature (⟨.ident name, q⟩ :: ⟨.symbol .lparen, r⟩ ::
          (ts ++ ⟨.symbol .rparen, t⟩ :: (us ++ ⟨.keyword .kwEnd, v⟩ :: next))) =
        .ok (name, xs) (us ++ ⟨.keyword .kwEnd, v⟩ :: next) :=
      signature_eq_ok_iff.mpr ⟨q, r, ts, t, rfl, hxs⟩
    simp only [List.cons_append, List.append_assoc, List.nil_append]
    rw [stmt, definition_eq, hhead, Outcome.bind_ok]
    simp only [hb.body_eq_ok, Outcome.map_ok]

/-- The tokens of a block are read as it, up to one of the keywords at which it stops. -/
theorem BlockTokens.block_eq_ok : ∀ {ss : List Stmt} {ts next : List Token},
    BlockTokens ss ts next → ∀ {stops : List String}, stops ⊆ closings →
      stops.any (atMark · next) = true → block stops (ts ++ next) = .ok ss next
  | _, _, _, .nil next, stops, _, hnext => by rw [List.nil_append, block_eq, if_pos hnext]
  | _, _, _, @BlockTokens.cons s ss ts us next hs hss, stops, hstops, hnext => by
    have hblock : block stops (us ++ next) = .ok ss next := hss.block_eq_ok hstops hnext
    -- neither a statement nor the end of the block starts with the equality sign
    have hstmt := hs.stmt_eq_ok
      (hss.atMark_assign (atMark_assign_of_any hstops hnext))
    obtain ⟨t, ts, rfl, hstart⟩ := hs.exists_cons
    rw [List.append_assoc, List.cons_append] at *
    rw [block_eq, if_neg (by simp [any_atMark_eq_false hstops hstart]), if_neg (by simp), hstmt,
      Outcome.bind_ok, hblock]
    rfl

/-- The tokens of a block and of the keyword that ends it are read as the block. -/
theorem BlockTokens.body_eq_ok : ∀ {b : List Stmt} {us : List Token} {p : Pos} {next : List Token},
    BlockTokens b us (⟨.keyword .kwEnd, p⟩ :: next) →
      body (us ++ ⟨.keyword .kwEnd, p⟩ :: next) = .ok b next
  | b, us, p, next, h => by
    have hblock : block ["end"] (us ++ ⟨.keyword .kwEnd, p⟩ :: next) =
        .ok b (⟨.keyword .kwEnd, p⟩ :: next) :=
      h.block_eq_ok (by simp [closings]) (by simp [atMark, Lexeme.mark?, Keyword.text])
    rw [body, hblock, Outcome.bind_ok, expect_end]
    rfl

/-- The tokens of a choice behind its first keyword are read as it. -/
theorem BranchTokens.branch_eq_ok : ∀ {p : Pos} {s : Stmt} {ts next : List Token},
    BranchTokens p s ts next → branch p (ts ++ next) = .ok s next
  | _, _, _, _, @BranchTokens.mk p q c b o ts us vs next hc hb ho => by
    have hcond : condition "then" (ts ++ ⟨.keyword .kwThen, q⟩ :: (us ++ (vs ++ next))) =
        .ok c (us ++ (vs ++ next)) :=
      (condition_eq_ok_iff (k := .kwThen) rfl).mpr ⟨ts, q, rfl, hc⟩
    have hblock : block ["elseif", "else", "end"] (us ++ (vs ++ next)) = .ok b (vs ++ next) :=
      hb.block_eq_ok (List.Subset.refl _) ho.any_atMark
    simp only [List.cons_append, List.append_assoc]
    rw [branch_eq, hcond, Outcome.bind_ok, hblock, Outcome.bind_ok, ho.otherwise_eq_ok]
    rfl

/-- The tokens behind the first body of a choice are read as what follows it. -/
theorem ElseTokens.otherwise_eq_ok : ∀ {o : Option (List Stmt)} {ts next : List Token},
    ElseTokens o ts next → otherwise (ts ++ next) = .ok o next
  | _, _, _, .none p next => by
    rw [List.cons_append, List.nil_append, otherwise.eq_def]
    simp [expect_end]
  | _, _, next, .body p q hb => by
    simp only [List.cons_append, List.append_assoc, List.nil_append]
    rw [otherwise, hb.body_eq_ok]
    rfl
  | _, _, next, .chain h => by
    rw [List.cons_append, otherwise, h.branch_eq_ok]
    rfl

end

/-! ### Programs -/

/-- What `statements` takes off when it succeeds: everything. -/
theorem statements_reads (ts : List Token) {program : Program} {rest : List Token}
    (h : statements ts = .ok program rest) : rest = [] ∧ BlockTokens program ts [] := by
  have ih : ∀ mid : List Token, mid.length < ts.length → ∀ {program : Program},
      statements mid = .ok program rest → rest = [] ∧ BlockTokens program mid [] :=
    fun mid _ _ hmid => statements_reads mid hmid
  rw [statements_eq] at h
  split at h
  · rename_i hempty
    obtain ⟨rfl, rfl⟩ := Outcome.ok.inj h
    obtain rfl := List.isEmpty_iff.mp hempty
    exact ⟨rfl, .nil []⟩
  · obtain ⟨s, mid, hs, hmid⟩ := Outcome.bind_eq_ok_iff.mp h
    obtain ⟨program, hprogram, rfl⟩ := Outcome.map_eq_ok_iff.mp hmid
    have hlt : mid.length < ts.length := (stmtProgress ts).stmt.2 s mid hs
    obtain ⟨used, rfl, hused⟩ := (stmtReads ts).stmt hs
    obtain ⟨hrest, hblock⟩ := ih mid hlt hprogram
    exact ⟨hrest, .cons (by rwa [List.append_nil]) hblock⟩
termination_by ts.length

theorem BlockTokens.statements_eq_ok : ∀ {program : Program} {ts next : List Token},
    BlockTokens program ts next → next = [] → statements ts = .ok program []
  | _, _, _, .nil _, _ => by
    rw [statements_eq, if_pos List.isEmpty_nil]
  | _, _, _, .cons hs hss, hnext => by
    have hrest := hss.statements_eq_ok hnext
    subst hnext
    have hstmt := hs.stmt_eq_ok (hss.atMark_assign rfl)
    rw [List.append_nil] at hstmt
    obtain ⟨t, ts, rfl, -⟩ := hs.exists_cons
    rw [statements_eq, if_neg (by simp), hstmt, Outcome.bind_ok, hrest]
    rfl

/-- A program is read exactly from the tokens of its statements, and all of them are taken. -/
theorem statements_eq_ok_iff {program : Program} {ts rest : List Token} :
    statements ts = .ok program rest ↔ rest = [] ∧ BlockTokens program ts [] := by
  constructor
  · exact statements_reads ts
  · rintro ⟨rfl, h⟩
    exact h.statements_eq_ok rfl

end NumScript
