import NumScript.Flat.Progress
import NumScript.Proofs.Flat.Precedence

/-!
# NumScript.Proofs.Flat.Words

Which words are read as which flat expression.

`FlatWords f ws` says that the words `ws`, without their positions, are those of the flat expression
`f`. The production `flatExpr` reads exactly such words (`flatExpr_eq_ok_iff`), and as many of them
as it can: what it leaves starts neither with an operator nor, after an identifier, with an opening
parenthesis. Everything that is read this way is well-formed, so it resolves.
-/

namespace NumScript

/-! ### Words -/

/-- The words of tokens, without their positions. -/
def words (ts : List Token) : List Lexeme := ts.map Token.lexeme

@[simp]
theorem words_nil : words [] = [] := rfl

@[simp]
theorem words_cons (t : Token) (ts : List Token) : words (t :: ts) = t.lexeme :: words ts := rfl

@[simp]
theorem words_append (ts us : List Token) : words (ts ++ us) = words ts ++ words us := by
  simp [words]

@[simp]
theorem words_eq_nil_iff {ts : List Token} : words ts = [] ↔ ts = [] := by
  simp [words]

theorem words_eq_cons_iff {ts : List Token} {w : Lexeme} {ws : List Lexeme} :
    words ts = w :: ws ↔ ∃ p ts', ts = ⟨w, p⟩ :: ts' ∧ words ts' = ws := by
  constructor
  · intro h
    cases ts with
    | nil => exact absurd h (by simp)
    | cons t ts =>
      obtain ⟨rfl, rfl⟩ := List.cons.inj h
      exact ⟨t.pos, ts, rfl, rfl⟩
  · rintro ⟨p, ts', rfl, rfl⟩
    rfl

theorem words_eq_append_iff {ts : List Token} {ws us : List Lexeme} :
    words ts = ws ++ us ↔ ∃ ts₁ ts₂, ts = ts₁ ++ ts₂ ∧ words ts₁ = ws ∧ words ts₂ = us := by
  exact List.map_eq_append_iff

/-- Whether the last word is an identifier. -/
def endsInIdent (ws : List Lexeme) : Bool :=
  match ws.getLast? with
  | some (.ident _) => true
  | _ => false

@[simp]
theorem endsInIdent_nil : endsInIdent [] = false := rfl

@[simp]
theorem endsInIdent_number (n : Numeral) : endsInIdent [.number n] = false := rfl

@[simp]
theorem endsInIdent_append_cons (ws us : List Lexeme) (w : Lexeme) :
    endsInIdent (ws ++ w :: us) = endsInIdent (w :: us) := by
  simp [endsInIdent, List.getLast?_append, List.getLast?_cons]

@[simp]
theorem endsInIdent_cons_cons (w w' : Lexeme) (ws : List Lexeme) :
    endsInIdent (w :: w' :: ws) = endsInIdent (w' :: ws) := by
  simp [endsInIdent, List.getLast?_cons]

@[simp]
theorem endsInIdent_symbol_cons (s : Symbol) (ws : List Lexeme) :
    endsInIdent (.symbol s :: ws) = endsInIdent ws := by
  cases ws with
  | nil => rfl
  | cons w ws => exact endsInIdent_cons_cons _ _ _

/-! ### The words of a flat expression -/

mutual

/-- The words `ws` are those of the flat expression `f`. -/
inductive FlatWords : Flat → List Lexeme → Prop
  | term {f : Flat} {ws : List Lexeme} (h : TermWords f ws) : FlatWords f ws
  | more {f g : Flat} {ws us : List Lexeme} (hf : TermWords f ws) (o : Operator)
      (hg : FlatWords g us) : FlatWords (f ++ .op o.text :: g) (ws ++ .symbol (.op o) :: us)

/-- The words `ws` are those of the term `f`. -/
inductive TermWords : Flat → List Lexeme → Prop
  | number (n : Numeral) : TermWords [.operand (.number n.value)] [.number n]
  | negative (n : Numeral) :
      TermWords [.operand (.number n.value.neg)] [.symbol (.op .sub), .number n]
  | ident (name : String) : TermWords [.operand (.ident name)] [.ident name]
  | group {f : Flat} {ws : List Lexeme} (h : FlatWords f ws) :
      TermWords (.opening :: f ++ [.closing]) (.symbol .lparen :: ws ++ [.symbol .rparen])
  | noArgs (name : String) :
      TermWords [.operand (.call name [])] [.ident name, .symbol .lparen, .symbol .rparen]
  | call (name : String) {args : List Flat} {ws : List Lexeme} (h : ArgsWords args ws) :
      TermWords [.operand (.call name args)]
        (.ident name :: .symbol .lparen :: ws ++ [.symbol .rparen])

/-- The words `ws` are those of the arguments `args`, of which there is at least one. -/
inductive ArgsWords : List Flat → List Lexeme → Prop
  | one {f : Flat} {ws : List Lexeme} (h : FlatWords f ws) : ArgsWords [f] ws
  | more {f : Flat} {args : List Flat} {ws us : List Lexeme} (hf : FlatWords f ws)
      (hargs : ArgsWords args us) : ArgsWords (f :: args) (ws ++ .symbol .comma :: us)

end

mutual

/-- What has words is well-formed. -/
theorem FlatWords.wellFormed : ∀ {f : Flat} {ws : List Lexeme}, FlatWords f ws → Flat.WellFormed f
  | _, _, .term h => .term h.isTerm
  | _, _, .more hf o hg => .more hf.isTerm o hg.wellFormed

theorem TermWords.isTerm : ∀ {f : Flat} {ws : List Lexeme}, TermWords f ws → Flat.IsTerm f
  | _, _, .number n => .number n.value
  | _, _, .negative n => .number n.value.neg
  | _, _, .ident name => .ident name
  | _, _, .group h => .group h.wellFormed
  | _, _, .noArgs name => .call name nofun
  | _, _, .call name h => .call name h.wellFormed

theorem ArgsWords.wellFormed : ∀ {args : List Flat} {ws : List Lexeme}, ArgsWords args ws →
    ∀ arg ∈ args, Flat.WellFormed arg
  | _, _, .one h => by
    have hf := h.wellFormed
    intro arg harg
    exact List.mem_singleton.mp harg ▸ hf
  | _, _, .more h hs => by
    have hf := h.wellFormed
    have hargs := hs.wellFormed
    intro arg harg
    rcases List.mem_cons.mp harg with rfl | harg
    · exact hf
    · exact hargs arg harg

end

/-! ### First words -/

/-- Whether a term can start with a word. -/
def startsTerm : Lexeme → Bool
  | .number _ => true
  | .ident _ => true
  | .symbol .lparen => true
  | .symbol (.op .sub) => true
  | _ => false

theorem TermWords.exists_cons {f : Flat} {ws : List Lexeme} (h : TermWords f ws) :
    ∃ w us, ws = w :: us ∧ startsTerm w = true := by
  cases h <;> exact ⟨_, _, rfl, rfl⟩

theorem FlatWords.exists_cons {f : Flat} {ws : List Lexeme} (h : FlatWords f ws) :
    ∃ w us, ws = w :: us ∧ startsTerm w = true := by
  cases h with
  | term h => exact h.exists_cons
  | more hf o hg =>
    obtain ⟨w, us, rfl, hw⟩ := hf.exists_cons
    exact ⟨w, _, rfl, hw⟩

/-- An identifier is the whole term, or the name of a call. -/
theorem TermWords.after_ident {f : Flat} {name : String} {ws : List Lexeme}
    (h : TermWords f (.ident name :: ws)) : ws = [] ∨ ∃ us, ws = .symbol .lparen :: us := by
  cases h with
  | ident name => exact .inl rfl
  | noArgs name => exact .inr ⟨_, rfl⟩
  | call name h => exact .inr ⟨_, rfl⟩

/-- Behind an identifier an expression goes on with a symbol, and it is not the equality sign. -/
theorem FlatWords.after_ident {f : Flat} {ws us : List Lexeme} {name : String}
    (h : FlatWords f ws) (hws : ws = .ident name :: us) :
    us = [] ∨ ∃ s vs, us = .symbol s :: vs ∧ s ≠ .assign := by
  cases h with
  | term h =>
    rw [hws] at h
    rcases h.after_ident with rfl | ⟨vs, rfl⟩
    · exact .inl rfl
    · exact .inr ⟨.lparen, vs, rfl, nofun⟩
  | more hf o hg =>
    obtain ⟨w, vs, rfl, -⟩ := hf.exists_cons
    obtain ⟨rfl, rfl⟩ := List.cons.inj hws
    rcases hf.after_ident with rfl | ⟨vs, rfl⟩
    · exact .inr ⟨.op o, _, rfl, nofun⟩
    · exact .inr ⟨.lparen, _, rfl, nofun⟩

/-! ### What may follow -/

/-- The tokens `next` do not continue an expression with the words `ws`. -/
def Ends (ws : List Lexeme) (next : List Token) : Prop :=
  atOperator next = false ∧ (endsInIdent ws = true → atMark "(" next = false)

/-! ### Equations of the productions -/

/-- After an operator an expression starts anew. -/
theorem flatTail_operator_eq_map (o : Operator) (p : Pos) (ts : List Token) :
    flatTail (⟨.symbol (.op o), p⟩ :: ts) = (flatExpr ts).map (.op o.text :: ·) := by
  rw [flatTail_operator, flatExpr_eq]
  cases term ts with
  | error cause rest => rfl
  | ok items rest => cases hrest : flatTail rest <;> simp [hrest]

theorem flatTail_of_not_atOperator {ts : List Token} (h : atOperator ts = false) :
    flatTail ts = .ok [] ts := by
  rw [flatTail.eq_def]
  split
  · exact absurd h (by simp [atOperator])
  · rfl

/-- An identifier without a parenthesis behind it is a term of its own. -/
theorem term_ident (name : String) (p : Pos) {ts : List Token} (h : atMark "(" ts = false) :
    term (⟨.ident name, p⟩ :: ts) = .ok [.operand (.ident name)] ts := by
  rw [term]
  rintro q rest rfl
  exact absurd h (by simp [atMark, Lexeme.mark?, Symbol.text])

theorem callArgs_rparen (p : Pos) (ts : List Token) :
    callArgs (⟨.symbol .rparen, p⟩ :: ts) = .ok [] ts := by
  rw [callArgs]

/-- Where a first argument can be read, the arguments start with it. -/
theorem callArgs_eq_ok_of_bind {ts rest : List Token} {args : List Flat}
    (h : ((flatExpr ts).bind fun arg rest => (moreArgs rest).map (arg :: ·)) = .ok args rest) :
    callArgs ts = .ok args rest := by
  rw [callArgs.eq_def]
  split
  · rw [flatExpr_eq, term.eq_def] at h
    exact absurd h (by simp)
  · rw [(flatProgress _).flatExpr.andThen_eq_bind]
    exact h

theorem moreArgs_rparen (p : Pos) (ts : List Token) :
    moreArgs (⟨.symbol .rparen, p⟩ :: ts) = .ok [] ts := by
  have h : expect ")" (⟨.symbol .rparen, p⟩ :: ts) = .ok () ts :=
    (expect_eq_ok_iff (m := .symbol .rparen) rfl).mpr ⟨p, rfl⟩
  rw [moreArgs.eq_def]
  simp [h]

/-! ### The words of an expression are read -/

theorem Ends.rparen (ws : List Lexeme) (p : Pos) (next : List Token) :
    Ends ws (⟨.symbol .rparen, p⟩ :: next) := ⟨rfl, fun _ => rfl⟩

theorem Ends.comma (ws : List Lexeme) (p : Pos) (next : List Token) :
    Ends ws (⟨.symbol .comma, p⟩ :: next) := ⟨rfl, fun _ => rfl⟩

mutual

/-- The words of a flat expression are read as it, if what follows does not continue them. -/
theorem FlatWords.flatExpr_eq_ok : ∀ {f : Flat} {ws : List Lexeme}, FlatWords f ws →
    ∀ {ts next : List Token}, words ts = ws → Ends ws next → flatExpr (ts ++ next) = .ok f next
  | _, _, .term h, ts, next, hts, hnext => by
    rw [flatExpr_eq, h.term_eq_ok hts hnext.2, Outcome.bind_ok, flatTail_of_not_atOperator hnext.1]
    simp
  | _, _, .more hf o hg, ts, next, hts, hnext => by
    simp only [words_eq_append_iff, words_eq_cons_iff] at hts
    obtain ⟨ts₁, _, rfl, hts₁, p, ts₂, rfl, hts₂⟩ := hts
    -- an operator is no parenthesis, so the term before it ends there
    have hmark : atMark "(" (⟨.symbol (.op o), p⟩ :: (ts₂ ++ next)) = false := by
      cases o <;> rfl
    have hterm := hf.term_eq_ok hts₁ fun _ => hmark
    rw [Ends, endsInIdent_append_cons, endsInIdent_symbol_cons] at hnext
    have hrest := hg.flatExpr_eq_ok hts₂ hnext
    rw [List.append_assoc, List.cons_append, flatExpr_eq, hterm, Outcome.bind_ok,
      flatTail_operator_eq_map, hrest]
    rfl

theorem TermWords.term_eq_ok : ∀ {f : Flat} {ws : List Lexeme}, TermWords f ws →
    ∀ {ts next : List Token}, words ts = ws →
      (endsInIdent ws = true → atMark "(" next = false) → term (ts ++ next) = .ok f next
  | _, _, .number n, ts, next, hts, _ => by
    simp only [words_eq_cons_iff, words_eq_nil_iff] at hts
    obtain ⟨p, _, rfl, rfl⟩ := hts
    rw [List.singleton_append, term]
  | _, _, .negative n, ts, next, hts, _ => by
    simp only [words_eq_cons_iff, words_eq_nil_iff] at hts
    obtain ⟨p, _, rfl, q, _, rfl, rfl⟩ := hts
    rw [List.cons_append, List.singleton_append, term]
  | _, _, .ident name, ts, next, hts, hnext => by
    simp only [words_eq_cons_iff, words_eq_nil_iff] at hts
    obtain ⟨p, _, rfl, rfl⟩ := hts
    rw [List.singleton_append, term_ident name p (hnext rfl)]
  | _, _, .group h, ts, next, hts, _ => by
    simp only [List.cons_append, words_eq_append_iff, words_eq_cons_iff, words_eq_nil_iff] at hts
    obtain ⟨p, _, rfl, ts, _, rfl, hts, q, _, rfl, rfl⟩ := hts
    have hinner := h.flatExpr_eq_ok hts (Ends.rparen _ q next)
    have hclose : expect ")" (⟨.symbol .rparen, q⟩ :: next) = .ok () next :=
      (expect_eq_ok_iff (m := .symbol .rparen) rfl).mpr ⟨q, rfl⟩
    rw [List.cons_append, List.append_assoc, List.singleton_append, term, hinner, Outcome.bind_ok,
      hclose]
    rfl
  | _, _, .noArgs name, ts, next, hts, _ => by
    simp only [words_eq_cons_iff, words_eq_nil_iff] at hts
    obtain ⟨p, _, rfl, q, _, rfl, r, _, rfl, rfl⟩ := hts
    rw [List.cons_append, List.cons_append, List.singleton_append, term, callArgs_rparen]
    rfl
  | _, _, .call name h, ts, next, hts, _ => by
    simp only [List.cons_append, words_eq_append_iff, words_eq_cons_iff, words_eq_nil_iff] at hts
    obtain ⟨p, _, rfl, q, _, rfl, ts, _, rfl, hts, r, _, rfl, rfl⟩ := hts
    have hargs := callArgs_eq_ok_of_bind (h.bind_eq_ok hts r next)
    rw [List.cons_append, List.cons_append, List.append_assoc, List.singleton_append, term, hargs]
    rfl

theorem ArgsWords.bind_eq_ok : ∀ {args : List Flat} {ws : List Lexeme}, ArgsWords args ws →
    ∀ {ts : List Token}, words ts = ws → ∀ (p : Pos) (next : List Token),
      ((flatExpr (ts ++ ⟨.symbol .rparen, p⟩ :: next)).bind fun arg rest =>
        (moreArgs rest).map (arg :: ·)) = .ok args next
  | _, _, .one h, ts, hts, p, next => by
    rw [h.flatExpr_eq_ok hts (Ends.rparen _ p next), Outcome.bind_ok, moreArgs_rparen]
    rfl
  | _, _, .more hf hargs, ts, hts, p, next => by
    simp only [words_eq_append_iff, words_eq_cons_iff] at hts
    obtain ⟨ts₁, _, rfl, hts₁, q, ts₂, rfl, hts₂⟩ := hts
    have hflat := hf.flatExpr_eq_ok hts₁ (Ends.comma _ q (ts₂ ++ ⟨.symbol .rparen, p⟩ :: next))
    rw [List.append_assoc, List.cons_append, hflat, Outcome.bind_ok, moreArgs_comma,
      hargs.bind_eq_ok hts₂ p next]
    rfl

end

/-! ### Only the words of an expression are read -/

/-- What the productions for flat expressions take off the tokens `ts` when they succeed. -/
structure FlatReads (ts : List Token) : Prop where
  term : ∀ {f : Flat} {rest : List Token}, NumScript.term ts = .ok f rest →
    ∃ used, ts = used ++ rest ∧ TermWords f (words used) ∧
      (endsInIdent (words used) = true → atMark "(" rest = false)
  flatExpr : ∀ {f : Flat} {rest : List Token}, NumScript.flatExpr ts = .ok f rest →
    ∃ used, ts = used ++ rest ∧ FlatWords f (words used) ∧ Ends (words used) rest
  callArgs : ∀ {args : List Flat} {rest : List Token}, NumScript.callArgs ts = .ok args rest →
    ∃ used p, ts = used ++ ⟨.symbol .rparen, p⟩ :: rest ∧
      (args = [] ∧ used = [] ∨ ArgsWords args (words used))
  moreArgs : ∀ {args : List Flat} {rest : List Token}, NumScript.moreArgs ts = .ok args rest →
    ∃ p, args = [] ∧ ts = ⟨.symbol .rparen, p⟩ :: rest ∨
      ∃ q used, ts = ⟨.symbol .comma, q⟩ :: (used ++ ⟨.symbol .rparen, p⟩ :: rest) ∧
        ArgsWords args (words used)

section Reads

variable {ts : List Token} (ih : ∀ rest : List Token, rest.length < ts.length → FlatReads rest)

include ih

theorem term_reads {f : Flat} {rest : List Token} (h : term ts = .ok f rest) :
    ∃ used, ts = used ++ rest ∧ TermWords f (words used) ∧
      (endsInIdent (words used) = true → atMark "(" rest = false) := by
  rw [term.eq_def] at h
  split at h
  · -- a group
    rename_i p rest'
    obtain ⟨f, mid, hf, hmid⟩ := Outcome.bind_eq_ok_iff.mp h
    obtain ⟨_, hclose, rfl⟩ := Outcome.map_eq_ok_iff.mp hmid
    obtain ⟨used, rfl, hused, -⟩ := (ih rest' (by simp)).flatExpr hf
    obtain ⟨q, rfl⟩ := (expect_eq_ok_iff (m := .symbol .rparen) rfl).mp hclose
    refine ⟨⟨.symbol .lparen, p⟩ :: used ++ [⟨.symbol .rparen, q⟩], by simp, ?_, ?_⟩
    · simpa using TermWords.group hused
    · simp
  · -- a numeral with a minus
    rename_i p n q rest'
    obtain ⟨rfl, rfl⟩ := Outcome.ok.inj h
    exact ⟨[⟨.symbol (.op .sub), p⟩, ⟨.number n, q⟩], rfl, .negative n, by simp⟩
  · -- a numeral without one
    rename_i n p rest'
    obtain ⟨rfl, rfl⟩ := Outcome.ok.inj h
    exact ⟨[⟨.number n, p⟩], rfl, .number n, by simp⟩
  · -- a call
    rename_i name p q rest'
    obtain ⟨args, hargs, rfl⟩ := Outcome.map_eq_ok_iff.mp h
    obtain ⟨used, r, rfl, ⟨rfl, rfl⟩ | hused⟩ :=
      (ih rest' (by simp only [List.length_cons]; omega)).callArgs hargs
    · exact ⟨[⟨.ident name, p⟩, ⟨.symbol .lparen, q⟩, ⟨.symbol .rparen, r⟩], rfl, .noArgs name,
        by simp⟩
    · refine ⟨⟨.ident name, p⟩ :: ⟨.symbol .lparen, q⟩ :: used ++ [⟨.symbol .rparen, r⟩],
        by simp, ?_, ?_⟩
      · simpa using TermWords.call name hused
      · simp
  · -- an identifier that is not called
    rename_i name p rest' hrest'
    obtain ⟨rfl, rfl⟩ := Outcome.ok.inj h
    refine ⟨[⟨.ident name, p⟩], rfl, .ident name, fun _ => Bool.eq_false_iff.mpr fun hmark => ?_⟩
    obtain ⟨q, rest, rfl⟩ := (atMark_iff (m := .symbol .lparen) rfl).mp hmark
    exact hrest' q rest rfl
  · exact absurd h (by simp)

theorem flatExpr_reads {f : Flat} {rest : List Token} (h : flatExpr ts = .ok f rest) :
    ∃ used, ts = used ++ rest ∧ FlatWords f (words used) ∧ Ends (words used) rest := by
  rw [flatExpr_eq] at h
  obtain ⟨f, mid, hf, hmid⟩ := Outcome.bind_eq_ok_iff.mp h
  obtain ⟨g, hg, rfl⟩ := Outcome.map_eq_ok_iff.mp hmid
  have hlt : mid.length < ts.length := (flatProgress ts).term.2 f mid hf
  obtain ⟨used, hts, hused, hmark⟩ := term_reads ih hf
  by_cases hop : atOperator mid = true
  · -- the rest behind the operator is an expression again
    obtain ⟨o, p, mid', rfl⟩ := atOperator_iff.mp hop
    rw [flatTail_operator_eq_map] at hg
    obtain ⟨g, hrest, rfl⟩ := Outcome.map_eq_ok_iff.mp hg
    obtain ⟨used', rfl, hused', hends⟩ :=
      (ih mid' (by simp only [List.length_cons] at hlt; omega)).flatExpr hrest
    refine ⟨used ++ ⟨.symbol (.op o), p⟩ :: used', by simp [hts], ?_, ?_⟩
    · rw [words_append, words_cons]
      exact .more hused o hused'
    · simpa [Ends] using hends
  · rw [flatTail_of_not_atOperator (by simpa using hop)] at hg
    obtain ⟨rfl, rfl⟩ := Outcome.ok.inj hg
    rw [List.append_nil]
    exact ⟨used, hts, .term hused, by simpa using hop, hmark⟩

/-- An argument followed by what `moreArgs` reads. -/
theorem args_read {args : List Flat} {rest : List Token}
    (h : ((flatExpr ts).bind fun arg rest => (moreArgs rest).map (arg :: ·)) = .ok args rest) :
    ∃ used p, ts = used ++ ⟨.symbol .rparen, p⟩ :: rest ∧ ArgsWords args (words used) := by
  obtain ⟨f, mid, hf, hmid⟩ := Outcome.bind_eq_ok_iff.mp h
  obtain ⟨args, hargs, rfl⟩ := Outcome.map_eq_ok_iff.mp hmid
  have hlt : mid.length < ts.length := (flatProgress ts).flatExpr.2 f mid hf
  obtain ⟨used, hts, hused, -⟩ := flatExpr_reads ih hf
  obtain ⟨p, ⟨rfl, rfl⟩ | ⟨q, used', rfl, hused'⟩⟩ := (ih mid hlt).moreArgs hargs
  · exact ⟨used, p, hts, .one hused⟩
  · refine ⟨used ++ ⟨.symbol .comma, q⟩ :: used', p, by simp [hts], ?_⟩
    rw [words_append, words_cons]
    exact .more hused hused'

end Reads

/-- The productions for flat expressions read words of flat expressions only. -/
theorem flatReads (ts : List Token) : FlatReads ts := by
  -- what recursion is on: every production hands fewer tokens on
  have ih : ∀ rest : List Token, rest.length < ts.length → FlatReads rest :=
    fun rest _ => flatReads rest
  refine ⟨term_reads ih, flatExpr_reads ih, ?_, ?_⟩
  · intro args rest h
    rw [callArgs.eq_def] at h
    split at h
    · rename_i p rest'
      obtain ⟨rfl, rfl⟩ := Outcome.ok.inj h
      exact ⟨[], p, rfl, .inl ⟨rfl, rfl⟩⟩
    · rw [(flatProgress ts).flatExpr.andThen_eq_bind] at h
      obtain ⟨used, p, hts, hused⟩ := args_read ih h
      exact ⟨used, p, hts, .inr hused⟩
  · intro args rest h
    rw [moreArgs.eq_def] at h
    split at h
    · rename_i q rest'
      have ih' : ∀ mid : List Token, mid.length < rest'.length → FlatReads mid :=
        fun mid hmid => ih mid (Nat.lt_succ_of_lt hmid)
      rw [(flatProgress rest').flatExpr.andThen_eq_bind] at h
      obtain ⟨used, p, rfl, hused⟩ := args_read ih' h
      exact ⟨p, .inr ⟨q, used, rfl, hused⟩⟩
    · obtain ⟨_, hclose, rfl⟩ := Outcome.map_eq_ok_iff.mp h
      obtain ⟨p, rfl⟩ := (expect_eq_ok_iff (m := .symbol .rparen) rfl).mp hclose
      exact ⟨p, .inl ⟨rfl, rfl⟩⟩
termination_by ts.length

/-- A flat expression is read exactly where its words come next and are not continued. -/
theorem flatExpr_eq_ok_iff {ts rest : List Token} {f : Flat} :
    flatExpr ts = .ok f rest ↔
      ∃ used, ts = used ++ rest ∧ FlatWords f (words used) ∧ Ends (words used) rest := by
  constructor
  · exact (flatReads ts).flatExpr
  · rintro ⟨used, rfl, hused, hends⟩
    exact hused.flatExpr_eq_ok rfl hends

end NumScript
