import NumScript.Proofs.Grammar
import NumScript.Proofs.Stmt.Unplaced
import NumScript.Proofs.Token.Spaced

/-!
# NumScript.Proofs.Stmt.Render

Programs written out as words, and read back. Every operand, argument, bound, condition and value
is put in parentheses, so that precedence has no say in how it is read, and every statement that
ends in an expression ends in a parenthesis, so that the next one cannot go on it. A second body
that holds one choice and nothing else is written as any other, and read as that choice again.

A number is written as a numeral with a minus before it or not. There are many such spellings of one
number, so the writer is given one for each (`spell`). What is written in this way and spaced out is
parsed as the same program, up to the positions of its statements (`parse_render`).
-/

namespace NumScript

/-! ### Spellings of numbers -/

/-- A numeral with a minus before it or not. -/
structure Literal where
  negative : Bool
  numeral : Numeral
deriving DecidableEq, Repr

namespace Literal

/-- The number that a literal denotes. -/
def value (l : Literal) : Double := if l.negative then l.numeral.value.neg else l.numeral.value

/-- The words of a literal. -/
def render (l : Literal) : List Lexeme :=
  if l.negative then [.symbol (.op .sub), .number l.numeral] else [.number l.numeral]

/-- Whether a literal can be written and denotes `v`. -/
def spells (l : Literal) (v : Double) : Bool := l.numeral.isValid && decide (l.value = v)

end Literal

/-! ### Writing -/

/-- Words in parentheses. -/
def grouped (ws : List Lexeme) : List Lexeme := .symbol .lparen :: ws ++ [.symbol .rparen]

mutual

/-- The words of an expression. -/
def Expr.render (spell : Double → Literal) : Expr → List Lexeme
  | .number value => (spell value).render
  | .ident name => [.ident name]
  | .call name args =>
    .ident name :: .symbol .lparen :: (renderEach spell args).tail ++ [.symbol .rparen]
  | .binary op left right =>
    grouped (left.render spell) ++ .symbol (.op op) :: grouped (right.render spell)
  | .pair _ _ => []
  | .hole => []

/-- The words of expressions, each with a comma before it. -/
def renderEach (spell : Double → Literal) : List Expr → List Lexeme
  | [] => []
  | e :: es => .symbol .comma :: (grouped (e.render spell) ++ renderEach spell es)

end

mutual

/-- The words of a statement. -/
def Stmt.render (spell : Double → Literal) : Stmt → List Lexeme
  | .expr _ value => grouped (value.render spell)
  | .declare _ name value =>
    .keyword .kwLocal :: .ident name :: .symbol .assign :: grouped (value.render spell)
  | .assign _ name value => .ident name :: .symbol .assign :: grouped (value.render spell)
  | .branch _ cond body rest =>
    .keyword .kwIf :: (grouped (cond.render spell) ++
      .keyword .kwThen :: (renderBlock spell body ++ renderElse spell rest))
  | .count _ var bounds body =>
    .keyword .kwFor :: .ident var :: (renderEach spell bounds ++
      .keyword .kwDo :: (renderBlock spell body ++ [.keyword .kwEnd]))
  | .loop _ cond body =>
    .keyword .kwWhile :: (grouped (cond.render spell) ++
      .keyword .kwDo :: (renderBlock spell body ++ [.keyword .kwEnd]))
  | .define _ name params body =>
    .keyword .kwFunction :: .ident name :: .symbol .lparen :: (paramWords params ++
      .symbol .rparen :: (renderBlock spell body ++ [.keyword .kwEnd]))
  | .hole _ => []

/-- The words of statements. -/
def renderBlock (spell : Double → Literal) : List Stmt → List Lexeme
  | [] => []
  | s :: ss => s.render spell ++ renderBlock spell ss

/-- The words of what follows the first body of a choice. -/
def renderElse (spell : Double → Literal) : Option (List Stmt) → List Lexeme
  | none => [.keyword .kwEnd]
  | some body => .keyword .kwElse :: (renderBlock spell body ++ [.keyword .kwEnd])

end

/-! ### What can be written -/

mutual

/-- Whether an expression can be written: nothing is missing, names are identifiers and every number
is spelled. -/
def Expr.isWritable (spell : Double → Literal) : Expr → Bool
  | .number value => (spell value).spells value
  | .ident name => isIdentifier name
  | .call name args => isIdentifier name && writableEach spell args
  | .binary _ left right => left.isWritable spell && right.isWritable spell
  | .pair _ _ => false
  | .hole => false

/-- Whether all of some expressions can be written. -/
def writableEach (spell : Double → Literal) : List Expr → Bool
  | [] => true
  | e :: es => e.isWritable spell && writableEach spell es

end

mutual

/-- Whether a statement can be written: nothing is missing, names are identifiers, every number is
spelled and a counting loop has one to three bounds. -/
def Stmt.isWritable (spell : Double → Literal) : Stmt → Bool
  | .expr _ value => value.isWritable spell
  | .declare _ name value => isIdentifier name && value.isWritable spell
  | .assign _ name value => isIdentifier name && value.isWritable spell
  | .branch _ cond body rest =>
    cond.isWritable spell && writableBlock spell body && writableElse spell rest
  | .count _ var bounds body =>
    isIdentifier var && writableEach spell bounds &&
      decide (1 ≤ bounds.length ∧ bounds.length ≤ 3) && writableBlock spell body
  | .loop _ cond body => cond.isWritable spell && writableBlock spell body
  | .define _ name params body =>
    isIdentifier name && params.all isIdentifier && writableBlock spell body
  | .hole _ => false

/-- Whether all of some statements can be written. -/
def writableBlock (spell : Double → Literal) : List Stmt → Bool
  | [] => true
  | s :: ss => s.isWritable spell && writableBlock spell ss

/-- Whether the second body of a choice can be written. -/
def writableElse (spell : Double → Literal) : Option (List Stmt) → Bool
  | none => true
  | some body => writableBlock spell body

end

/-! ### Written expressions -/

section Expressions

variable {spell : Double → Literal}

theorem Literal.spells_iff {l : Literal} {v : Double} :
    l.spells v = true ↔ l.numeral.isValid = true ∧ l.value = v := by
  simp [Literal.spells]

/-- A literal is read as a number. -/
theorem Literal.termWords (l : Literal) : TermWords [.operand (.number l.value)] l.render := by
  unfold Literal.value Literal.render
  split
  · exact .negative l.numeral
  · exact .number l.numeral

mutual

/-- A written expression is laid out in one way, and every operator takes its operands because they
are groups. -/
theorem Expr.exists_layout : ∀ e : Expr, e.isWritable spell = true →
    ∃ t : Layout, t.tree = e ∧ t.Respects ∧ FlatWords t.reading (e.render spell)
  | .number v, h => by
    obtain ⟨-, hv⟩ := Literal.spells_iff.mp h
    have hwords := (spell v).termWords
    rw [hv] at hwords
    exact ⟨.number v, rfl, trivial, .term hwords⟩
  | .ident name, _ => ⟨.ident name, rfl, trivial, .term (.ident name)⟩
  | .call name [], _ => ⟨.call name [], rfl, trivial, .term (.noArgs name)⟩
  | .call name (e :: es), h => by
    simp only [Expr.isWritable, Bool.and_eq_true] at h
    obtain ⟨ts, htrees, hrespect, hwords⟩ := writableEach_exists_layouts (e :: es) h.2 (by simp)
    refine ⟨.call name ts, by rw [Layout.tree, htrees], hrespect, .term (.call name hwords)⟩
  | .binary o l r, h => by
    simp only [Expr.isWritable, Bool.and_eq_true] at h
    obtain ⟨tl, rfl, hl, hlwords⟩ := l.exists_layout h.1
    obtain ⟨tr, rfl, hr, hrwords⟩ := r.exists_layout h.2
    refine ⟨.binary o (.group tl) (.group tr), rfl, ?_, ?_⟩
    · -- groups are behind all strata
      exact ⟨hl, hr, o.takesLeft_length, o.takesRight_length⟩
    · exact .more (.group hlwords) o (.term (.group hrwords))

theorem writableEach_exists_layouts : ∀ es : List Expr, writableEach spell es = true → es ≠ [] →
    ∃ ts : List Layout, trees ts = es ∧ AllRespect ts ∧
      ArgsWords (readings ts) (renderEach spell es).tail
  | [e], h, _ => by
    simp only [writableEach, Bool.and_eq_true] at h
    obtain ⟨t, rfl, ht, hwords⟩ := e.exists_layout h.1
    refine ⟨[.group t], rfl, ⟨ht, trivial⟩, .one ?_⟩
    rw [renderEach, renderEach, List.append_nil]
    exact .term (.group hwords)
  | e :: e' :: es, h, _ => by
    rw [writableEach, Bool.and_eq_true] at h
    obtain ⟨t, rfl, ht, hwords⟩ := e.exists_layout h.1
    obtain ⟨ts, htrees, hts, hrest⟩ := writableEach_exists_layouts (e' :: es) h.2 (by simp)
    refine ⟨.group t :: ts, by rw [trees, htrees]; rfl, ⟨ht, hts⟩, ?_⟩
    exact .more (.term (.group hwords)) hrest

end

/-- The words of an expression in parentheses are read as it. -/
theorem Expr.exprTokens_grouped {e : Expr} (h : e.isWritable spell = true) {ts : List Token}
    (hts : words ts = grouped (e.render spell)) : ExprTokens e ts := by
  obtain ⟨t, rfl, ht, hwords⟩ := e.exists_layout h
  have hgroup : (Layout.group t).Respects := ht
  exact ⟨(Layout.group t).reading, hts ▸ .term (.group hwords), hgroup.resolve_reading⟩

theorem boundsTokens_renderEach {es : List Expr} (h : writableEach spell es = true)
    {ts : List Token} (hts : words ts = renderEach spell es) : BoundsTokens es ts := by
  induction es generalizing ts with
  | nil =>
    obtain rfl := words_eq_nil_iff.mp hts
    exact .nil
  | cons e es ih =>
    rw [writableEach, Bool.and_eq_true] at h
    simp only [renderEach, words_eq_cons_iff, words_eq_append_iff] at hts
    obtain ⟨p, _, rfl, ts₁, ts₂, rfl, hts₁, hts₂⟩ := hts
    exact .cons p (e.exprTokens_grouped h.1 hts₁) (ih h.2 hts₂)

/-- What is in parentheses is only continued by an operator. -/
theorem ends_grouped (ws : List Lexeme) {next : List Token} (hnext : atOperator next = false) :
    Ends (grouped ws) next := by
  refine ⟨hnext, fun h => absurd h ?_⟩
  simp [grouped]

end Expressions

/-! ### Written statements -/

section Statements

variable {spell : Double → Literal}

theorem atOperator_keyword (k : Keyword) (p : Pos) (next : List Token) :
    atOperator (⟨.keyword k, p⟩ :: next) = false := rfl

/-- A written statement does not start with an operator. -/
theorem Stmt.exists_render {s : Stmt} (h : s.isWritable spell = true) :
    ∃ w ws, s.render spell = w :: ws ∧ ∀ o, w ≠ .symbol (.op o) := by
  cases s with
  | hole p => exact absurd h (by simp [Stmt.isWritable])
  | _ => exact ⟨_, _, rfl, fun _ => nofun⟩

/-- Behind a statement comes another one or what follows the block, and neither is an operator. -/
theorem atOperator_renderBlock {ss : List Stmt} (h : writableBlock spell ss = true)
    {ts next : List Token} (hts : words ts = renderBlock spell ss)
    (hnext : atOperator next = false) : atOperator (ts ++ next) = false := by
  cases ss with
  | nil =>
    obtain rfl := words_eq_nil_iff.mp hts
    exact hnext
  | cons s ss =>
    rw [writableBlock, Bool.and_eq_true] at h
    obtain ⟨w, ws, hw, hop⟩ := s.exists_render h.1
    rw [renderBlock, hw, List.cons_append] at hts
    obtain ⟨p, us, rfl, -⟩ := words_eq_cons_iff.mp hts
    refine Bool.eq_false_iff.mpr fun hat => ?_
    obtain ⟨o, q, rest, heq⟩ := atOperator_iff.mp hat
    exact hop o (congrArg Token.lexeme (List.cons.inj heq).1)

mutual

/-- The words of a statement are read as it, wherever no operator follows. -/
theorem Stmt.exists_stmtTokens : ∀ s : Stmt, s.isWritable spell = true → ∀ {ts next : List Token},
    words ts = s.render spell → atOperator next = false →
      ∃ s', StmtTokens s' ts next ∧ s'.unplaced = s.unplaced
  | .expr p value, h, ts, next, hts, hnext => by
    have he := value.exprTokens_grouped h hts
    have hends : Ends (words ts) next := hts ▸ ends_grouped _ hnext
    obtain ⟨t, us, rfl, -⟩ := he.exists_cons
    exact ⟨_, .expr he hends, rfl⟩
  | .declare p name value, h, ts, next, hts, hnext => by
    simp only [Stmt.isWritable, Bool.and_eq_true] at h
    simp only [Stmt.render, words_eq_cons_iff] at hts
    obtain ⟨q, _, rfl, r, _, rfl, t, ts, rfl, hts⟩ := hts
    have hends : Ends (words ts) next := hts ▸ ends_grouped _ hnext
    exact ⟨_, .declareAs name q r t (value.exprTokens_grouped h.2 hts) hends, rfl⟩
  | .assign p name value, h, ts, next, hts, hnext => by
    simp only [Stmt.isWritable, Bool.and_eq_true] at h
    simp only [Stmt.render, words_eq_cons_iff] at hts
    obtain ⟨q, _, rfl, r, ts, rfl, hts⟩ := hts
    have hends : Ends (words ts) next := hts ▸ ends_grouped _ hnext
    exact ⟨_, .assign name q r (value.exprTokens_grouped h.2 hts) hends, rfl⟩
  | .branch p cond body rest, h, ts, next, hts, hnext => by
    simp only [Stmt.isWritable, Bool.and_eq_true] at h
    simp only [Stmt.render, words_eq_cons_iff, words_eq_append_iff] at hts
    obtain ⟨q, _, rfl, ts, _, rfl, hts, r, _, rfl, us, vs, rfl, hus, hvs⟩ := hts
    obtain ⟨o, ho, hrest⟩ := renderElse_exists_elseTokens rest h.2 hvs next
    obtain ⟨b, hb, hbody⟩ := renderBlock_exists_blockTokens body h.1.2 hus (ho.ends []).1
    refine ⟨_, .branch (.mk q r (cond.exprTokens_grouped h.1.1 hts) hb ho), ?_⟩
    rw [Stmt.unplaced, Stmt.unplaced, hbody, hrest]
  | .count p var bounds body, h, ts, next, hts, hnext => by
    simp only [Stmt.isWritable, Bool.and_eq_true, decide_eq_true_eq] at h
    obtain ⟨⟨⟨-, hbounds⟩, hone, hthree⟩, hbody⟩ := h
    simp only [Stmt.render, words_eq_cons_iff, words_eq_append_iff, words_eq_nil_iff] at hts
    obtain ⟨q, _, rfl, r, _, rfl, ts, _, rfl, hts, t, _, rfl, us, _, rfl, hus, v, _, rfl, rfl⟩ :=
      hts
    obtain ⟨b, hb, hunplaced⟩ :=
      renderBlock_exists_blockTokens body hbody hus (atOperator_keyword .kwEnd v next)
    refine ⟨_, .count var q r t v (boundsTokens_renderEach hbounds hts) hone hthree hb, ?_⟩
    rw [Stmt.unplaced, Stmt.unplaced, hunplaced]
  | .loop p cond body, h, ts, next, hts, hnext => by
    simp only [Stmt.isWritable, Bool.and_eq_true] at h
    simp only [Stmt.render, words_eq_cons_iff, words_eq_append_iff, words_eq_nil_iff] at hts
    obtain ⟨q, _, rfl, ts, _, rfl, hts, r, _, rfl, us, _, rfl, hus, t, _, rfl, rfl⟩ := hts
    obtain ⟨b, hb, hunplaced⟩ :=
      renderBlock_exists_blockTokens body h.2 hus (atOperator_keyword .kwEnd t next)
    refine ⟨_, .loop q r t (cond.exprTokens_grouped h.1 hts) hb, ?_⟩
    rw [Stmt.unplaced, Stmt.unplaced, hunplaced]
  | .define p name params body, h, ts, next, hts, hnext => by
    simp only [Stmt.isWritable, Bool.and_eq_true] at h
    simp only [Stmt.render, words_eq_cons_iff, words_eq_append_iff, words_eq_nil_iff] at hts
    obtain ⟨q, _, rfl, r, _, rfl, t, _, rfl, ts, _, rfl, hts, v, _, rfl, us, _, rfl, hus, w, _,
      rfl, rfl⟩ := hts
    obtain ⟨b, hb, hunplaced⟩ :=
      renderBlock_exists_blockTokens body h.2 hus (atOperator_keyword .kwEnd w next)
    refine ⟨_, .define name q r t v w hts hb, ?_⟩
    rw [Stmt.unplaced, Stmt.unplaced, hunplaced]
  | .hole _, h, _, _, _, _ => absurd h (by simp [Stmt.isWritable])

theorem renderBlock_exists_blockTokens : ∀ ss : List Stmt, writableBlock spell ss = true →
    ∀ {ts next : List Token}, words ts = renderBlock spell ss → atOperator next = false →
      ∃ ss', BlockTokens ss' ts next ∧ unplacedBlock ss' = unplacedBlock ss
  | [], _, ts, next, hts, _ => by
    obtain rfl := words_eq_nil_iff.mp hts
    exact ⟨[], .nil next, rfl⟩
  | s :: ss, h, ts, next, hts, hnext => by
    rw [writableBlock, Bool.and_eq_true] at h
    obtain ⟨ts, us, rfl, hts, hus⟩ := words_eq_append_iff.mp hts
    -- the rest comes first: what it starts with decides where the statement ends
    obtain ⟨ss', hss, hblock⟩ := renderBlock_exists_blockTokens ss h.2 hus hnext
    obtain ⟨s', hs, hstmt⟩ := s.exists_stmtTokens h.1 hts (atOperator_renderBlock h.2 hus hnext)
    refine ⟨s' :: ss', .cons hs hss, ?_⟩
    rw [unplacedBlock, unplacedBlock, hstmt, hblock]

theorem renderElse_exists_elseTokens : ∀ o : Option (List Stmt), writableElse spell o = true →
    ∀ {ts : List Token}, words ts = renderElse spell o → ∀ next,
      ∃ o', ElseTokens o' ts next ∧ unplacedElse o' = unplacedElse o
  | none, _, ts, hts, next => by
    simp only [renderElse, words_eq_cons_iff, words_eq_nil_iff] at hts
    obtain ⟨p, _, rfl, rfl⟩ := hts
    exact ⟨none, .none p next, rfl⟩
  | some body, h, ts, hts, next => by
    simp only [renderElse, words_eq_cons_iff, words_eq_append_iff, words_eq_nil_iff] at hts
    obtain ⟨p, _, rfl, us, _, rfl, hus, q, _, rfl, rfl⟩ := hts
    obtain ⟨b, hb, hunplaced⟩ :=
      renderBlock_exists_blockTokens body h hus (atOperator_keyword .kwEnd q next)
    refine ⟨some b, .body p q hb, ?_⟩
    rw [unplacedElse, unplacedElse, hunplaced]

end

end Statements

/-! ### Written words are lexemes -/

section Words

variable {spell : Double → Literal}

theorem all_isValid_grouped {ws : List Lexeme} (h : ws.all Lexeme.isValid = true) :
    (grouped ws).all Lexeme.isValid = true := by
  simp [grouped, Lexeme.isValid, h]

mutual

theorem Expr.all_isValid_render : ∀ e : Expr, e.isWritable spell = true →
    (e.render spell).all Lexeme.isValid = true
  | .number v, h => by
    obtain ⟨hvalid, -⟩ := Literal.spells_iff.mp h
    unfold Expr.render Literal.render
    split <;> simp [Lexeme.isValid, hvalid]
  | .ident name, h => by
    have hname : isIdentifier name = true := h
    simp [Expr.render, Lexeme.isValid, hname]
  | .call name args, h => by
    rw [Expr.isWritable, Bool.and_eq_true] at h
    have hargs := all_isValid_renderEach args h.2
    have htail : (renderEach spell args).tail.all Lexeme.isValid = true := by
      rw [List.all_eq_true] at hargs ⊢
      exact fun w hw => hargs w (List.mem_of_mem_tail hw)
    simp [Expr.render, Lexeme.isValid, h.1, htail]
  | .binary o l r, h => by
    rw [Expr.isWritable, Bool.and_eq_true] at h
    have hl := all_isValid_grouped (l.all_isValid_render h.1)
    have hr := all_isValid_grouped (r.all_isValid_render h.2)
    simp [Expr.render, Lexeme.isValid, hl, hr]
  | .pair _ _, _ => rfl
  | .hole, _ => rfl

theorem all_isValid_renderEach : ∀ es : List Expr, writableEach spell es = true →
    (renderEach spell es).all Lexeme.isValid = true
  | [], _ => rfl
  | e :: es, h => by
    rw [writableEach, Bool.and_eq_true] at h
    have he := all_isValid_grouped (e.all_isValid_render h.1)
    simp [renderEach, Lexeme.isValid, he, all_isValid_renderEach es h.2]

end

theorem all_isValid_paramWords {params : List String} (h : params.all isIdentifier = true) :
    (paramWords params).all Lexeme.isValid = true := by
  have hmore : ∀ xs : List String, xs.all isIdentifier = true →
      (moreParamWords xs).all Lexeme.isValid = true := by
    intro xs hxs
    induction xs with
    | nil => rfl
    | cons x xs ih =>
      rw [List.all_cons, Bool.and_eq_true] at hxs
      simp [moreParamWords, Lexeme.isValid, hxs.1, ih hxs.2]
  cases params with
  | nil => rfl
  | cons x xs =>
    rw [List.all_cons, Bool.and_eq_true] at h
    simp [paramWords, Lexeme.isValid, h.1, hmore xs h.2]

mutual

theorem Stmt.all_isValid_render : ∀ s : Stmt, s.isWritable spell = true →
    (s.render spell).all Lexeme.isValid = true
  | .expr _ value, h => all_isValid_grouped (value.all_isValid_render h)
  | .declare _ name value, h => by
    rw [Stmt.isWritable, Bool.and_eq_true] at h
    have hvalue := all_isValid_grouped (value.all_isValid_render h.2)
    simp [Stmt.render, Lexeme.isValid, h.1, hvalue]
  | .assign _ name value, h => by
    rw [Stmt.isWritable, Bool.and_eq_true] at h
    have hvalue := all_isValid_grouped (value.all_isValid_render h.2)
    simp [Stmt.render, Lexeme.isValid, h.1, hvalue]
  | .branch _ cond body rest, h => by
    simp only [Stmt.isWritable, Bool.and_eq_true] at h
    have hcond := all_isValid_grouped (cond.all_isValid_render h.1.1)
    simp [Stmt.render, Lexeme.isValid, hcond, all_isValid_renderBlock body h.1.2,
      all_isValid_renderElse rest h.2]
  | .count _ var bounds body, h => by
    simp only [Stmt.isWritable, Bool.and_eq_true] at h
    simp [Stmt.render, Lexeme.isValid, h.1.1.1, all_isValid_renderEach bounds h.1.1.2,
      all_isValid_renderBlock body h.2]
  | .loop _ cond body, h => by
    simp only [Stmt.isWritable, Bool.and_eq_true] at h
    have hcond := all_isValid_grouped (cond.all_isValid_render h.1)
    simp [Stmt.render, Lexeme.isValid, hcond, all_isValid_renderBlock body h.2]
  | .define _ name params body, h => by
    simp only [Stmt.isWritable, Bool.and_eq_true] at h
    simp [Stmt.render, Lexeme.isValid, h.1.1, all_isValid_paramWords h.1.2,
      all_isValid_renderBlock body h.2]
  | .hole _, _ => rfl

theorem all_isValid_renderBlock : ∀ ss : List Stmt, writableBlock spell ss = true →
    (renderBlock spell ss).all Lexeme.isValid = true
  | [], _ => rfl
  | s :: ss, h => by
    rw [writableBlock, Bool.and_eq_true] at h
    rw [renderBlock, List.all_append, s.all_isValid_render h.1, all_isValid_renderBlock ss h.2]
    rfl

theorem all_isValid_renderElse : ∀ o : Option (List Stmt), writableElse spell o = true →
    (renderElse spell o).all Lexeme.isValid = true
  | none, _ => rfl
  | some body, h => by
    simp [renderElse, Lexeme.isValid, all_isValid_renderBlock body h]

end

end Words

/-! ### Programs -/

/-- A program that is written out as words with gaps between them is parsed as itself, up to the
positions of its statements. -/
theorem parse_render (spell : Double → Literal) {program : Program}
    (h : writableBlock spell program = true) {text : String}
    (htext : Spaced (renderBlock spell program) text.toList) :
    ∃ program', parse text = .ok program' ∧ unplacedBlock program' = unplacedBlock program := by
  obtain ⟨stream, hlex, hwords⟩ :=
    htext.exists_lexFrom (all_isValid_renderBlock program h) .start
  have hend : atOperator [] = false := rfl
  obtain ⟨program', htokens, hunplaced⟩ := renderBlock_exists_blockTokens program h hwords hend
  exact ⟨program', (parse_eq_ok_iff hlex).mpr htokens, hunplaced⟩

/-- Choices with no second body, with an empty one and with one that is a choice. -/
def choices : Program :=
  [.define .nowhere "f" ["x"] [.branch .nowhere (.ident "x") [] none],
   .branch .nowhere (.call "f" [.number (Numeral.value ⟨['1'], none⟩).neg]) [] (some []),
   .branch .nowhere (.binary .pow (.ident "x") (.number (Numeral.value ⟨[], some ['5']⟩))) []
     (some [.branch .nowhere (.ident "x") [] none])]

/-- Spells one number and takes every other one for `-1`. -/
def choicesSpelling (v : Double) : Literal :=
  if v = Numeral.value ⟨[], some ['5']⟩ then ⟨false, ⟨[], some ['5']⟩⟩ else ⟨true, ⟨['1'], none⟩⟩

/-- The choices with a space between any two words. -/
def choicesText : String :=
  "function f ( x ) if ( x ) then end end if ( f ( ( - 1 ) ) ) then else end " ++
    "if ( ( x ) ^ ( .5 ) ) then else if ( x ) then end end"

theorem choicesText_eq :
    choicesText = joinedWith (fun _ => " ") (renderBlock choicesSpelling choices) := by
  decide +kernel

theorem choices_parse_render :
    writableBlock choicesSpelling choices = true ∧
      Spaced (renderBlock choicesSpelling choices) choicesText.toList ∧
      ∃ program, parse choicesText = .ok program ∧
        unplacedBlock program = unplacedBlock choices := by
  have hwritable : writableBlock choicesSpelling choices = true := by decide +kernel
  have hspaced : Spaced (renderBlock choicesSpelling choices) choicesText.toList :=
    choicesText_eq ▸ spaced_joined (fun _ => isGap_space) _
  exact ⟨hwritable, hspaced, parse_render choicesSpelling hwritable hspaced⟩

end NumScript
