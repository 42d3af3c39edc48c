import NumScript.Proofs.Grammar
import NumScript.Proofs.Token.Shape

/-!
# NumScript.Proofs.Stmt.Completion

Where a production is stuck, nothing is wrong before: the tokens that it has taken are the start of
what it is a production for. Every production keeps this for the rules of the grammar that it stands
for (`Outcome.StuckIn`), so the tokens in front of an error can be completed to a program
(`statements_stuckIn`).
-/

namespace NumScript

/-! ### Completions -/

/-- The words can be completed to words of the language, by words that a text can hold. -/
def Completable (language : List Lexeme → Prop) (ws : List Lexeme) : Prop :=
  ∃ more, (∀ w ∈ more, w.isValid = true) ∧ language (ws ++ more)

theorem Completable.of_mem {language : List Lexeme → Prop} {ws : List Lexeme} (h : language ws) :
    Completable language ws :=
  ⟨[], List.forall_mem_nil _, by rwa [List.append_nil]⟩

/-- What can be completed to something that can be completed again. -/
theorem Completable.trans {language language' : List Lexeme → Prop} {ws : List Lexeme}
    (h : Completable language ws) (hnext : ∀ us, language us → Completable language' us) :
    Completable language' ws := by
  obtain ⟨more, hmore, hws⟩ := h
  obtain ⟨more', hmore', hws'⟩ := hnext _ hws
  exact ⟨more ++ more', List.forall_mem_append.mpr ⟨hmore, hmore'⟩, by rwa [← List.append_assoc]⟩

theorem Completable.prepend {language language' : List Lexeme → Prop} {ws us : List Lexeme}
    (h : Completable language us) (hws : ∀ vs, language vs → language' (ws ++ vs)) :
    Completable language' (ws ++ us) := by
  obtain ⟨more, hmore, hus⟩ := h
  exact ⟨more, hmore, by rw [List.append_assoc]; exact hws _ hus⟩

/-- The words `ws` are words of one language with words of another behind them. -/
def FollowedBy (first second : List Lexeme → Prop) (ws : List Lexeme) : Prop :=
  ∃ us vs, first us ∧ second vs ∧ ws = us ++ vs

theorem Completable.followedBy {first second : List Lexeme → Prop} {ws : List Lexeme}
    (h : Completable first ws) (hsecond : Completable second []) :
    Completable (FollowedBy first second) ws := by
  refine h.trans fun us hus => ?_
  obtain ⟨more, hmore, hvs⟩ := hsecond
  exact ⟨more, hmore, us, more, hus, hvs, rfl⟩

namespace Outcome

variable {α β : Type} {o : Outcome α} {ts : List Token} {language language' : List Lexeme → Prop}

/-- If the outcome is an error, the tokens that were taken are the start of words of the
language. -/
def StuckIn (o : Outcome α) (ts : List Token) (language : List Lexeme → Prop) : Prop :=
  ∀ cause rest, o = .error cause rest →
    ∃ used, ts = used ++ rest ∧ Completable language (words used)

theorem StuckIn.ok (a : α) (rest : List Token) : (Outcome.ok a rest).StuckIn ts language := nofun

/-- What is stuck at once has taken nothing. -/
theorem StuckIn.here (cause : ParseCause) (h : Completable language []) :
    (Outcome.error cause ts : Outcome α).StuckIn ts language := by
  intro cause' rest heq
  obtain ⟨rfl, rfl⟩ := Outcome.error.inj heq
  exact ⟨[], rfl, h⟩

theorem StuckIn.trans (h : o.StuckIn ts language)
    (hnext : ∀ us, language us → Completable language' us) : o.StuckIn ts language' := by
  intro cause rest heq
  obtain ⟨used, hused, hwords⟩ := h cause rest heq
  exact ⟨used, hused, hwords.trans hnext⟩

theorem StuckIn.map (h : o.StuckIn ts language) (f : α → β) : (o.map f).StuckIn ts language := by
  intro cause rest heq
  cases o with
  | ok a rest' => cases heq
  | error cause' rest' =>
    obtain ⟨rfl, rfl⟩ := Outcome.error.inj heq
    exact h _ _ rfl

/-- What is stuck behind some tokens. -/
theorem StuckIn.append (used : List Token) (h : o.StuckIn ts language)
    (hused : ∀ ws, language ws → language' (words used ++ ws)) :
    o.StuckIn (used ++ ts) language' := by
  intro cause rest heq
  obtain ⟨more, rfl, hmore⟩ := h cause rest heq
  exact ⟨used ++ more, (List.append_assoc _ _ _).symm, words_append used more ▸ hmore.prepend hused⟩

theorem StuckIn.cons {t : Token} (h : o.StuckIn ts language)
    (ht : ∀ ws, language ws → language' (t.lexeme :: ws)) : o.StuckIn (t :: ts) language' :=
  StuckIn.append [t] h ht

/-- A production that goes on where another one left off. -/
theorem StuckIn.bind {next : α → List Token → Outcome β} (h : o.StuckIn ts language)
    (hnext : ∀ a mid, o = .ok a mid → (next a mid).StuckIn ts language) :
    (o.bind next).StuckIn ts language := by
  cases o with
  | ok a mid => exact hnext a mid rfl
  | error cause rest =>
    intro cause' rest' heq
    obtain ⟨rfl, rfl⟩ := Outcome.error.inj heq
    exact h _ _ rfl

/-- Two productions, one behind the other. -/
theorem StuckIn.seq {first second : List Lexeme → Prop} {next : α → List Token → Outcome β}
    (h : o.StuckIn ts first) (hsecond : Completable second [])
    (hnext : ∀ a mid, o = .ok a mid →
      ∃ used, ts = used ++ mid ∧ first (words used) ∧ (next a mid).StuckIn mid second) :
    (o.bind next).StuckIn ts (FollowedBy first second) := by
  refine (h.trans fun us hus => (Completable.of_mem hus).followedBy hsecond).bind
    fun a mid hmid => ?_
  obtain ⟨used, rfl, hused, hmid'⟩ := hnext a mid hmid
  exact StuckIn.append used hmid' fun vs hvs => ⟨_, vs, hused, hvs, rfl⟩

end Outcome

open Outcome

/-! ### Single tokens -/

theorem Lexeme.isValid_of_mark? {m : Lexeme} {text : String} (h : m.mark? = some text) :
    m.isValid = true := by
  cases m with
  | number n => cases h
  | ident name => cases h
  | _ => rfl

/-- What needs only one more mark. -/
theorem Completable.of_mark {m : Lexeme} {text : String} (hm : m.mark? = some text)
    {language : List Lexeme → Prop} {ws : List Lexeme} (h : language (ws ++ [m])) :
    Completable language ws :=
  ⟨[m], List.forall_mem_singleton.mpr (Lexeme.isValid_of_mark? hm), h⟩

theorem Completable.mark_cons {m : Lexeme} {text : String} (hm : m.mark? = some text)
    {language : List Lexeme → Prop} (h : Completable language []) :
    Completable (fun ws => ∃ us, language us ∧ ws = m :: us) [] := by
  obtain ⟨more, hmore, hus⟩ := h
  exact ⟨m :: more, List.forall_mem_cons.mpr ⟨Lexeme.isValid_of_mark? hm, hmore⟩, more, hus, rfl⟩

theorem expect_stuckIn {m : Lexeme} {text : String} (hm : m.mark? = some text) (ts : List Token) :
    (expect text ts).StuckIn ts (· = [m]) := by
  unfold expect
  split
  · exact .ok _ _
  · exact .here _ (.of_mark hm rfl)

/-- A word that an expression can consist of. -/
def sampleName : String := "x"

theorem Completable.of_ident {language : List Lexeme → Prop} {ws : List Lexeme}
    (h : language (ws ++ [.ident sampleName])) : Completable language ws :=
  ⟨[.ident sampleName], by decide, h⟩

theorem expectIdent_stuckIn (ts : List Token) :
    (expectIdent ts).StuckIn ts fun ws => ∃ name, ws = [.ident name] := by
  unfold expectIdent
  split
  · exact .ok _ _
  · exact .here _ (.of_ident ⟨_, rfl⟩)

/-! ### Expressions -/

theorem IsExpr.completable : Completable IsExpr [] := .of_ident ⟨_, .term (.ident sampleName)⟩

/-- The words `ws` are a term. -/
def IsTerm (ws : List Lexeme) : Prop := ∃ f, TermWords f ws

/-- The words `ws` are arguments, at least one, and the parenthesis that closes them. -/
def IsArgs (ws : List Lexeme) : Prop :=
  ∃ args us, ArgsWords args us ∧ ws = us ++ [.symbol .rparen]

/-- The words `ws` close the arguments of a call, or go on with a comma and more of them. -/
def IsMoreArgs (ws : List Lexeme) : Prop :=
  ws = [.symbol .rparen] ∨ ∃ us, IsArgs us ∧ ws = .symbol .comma :: us

/-- The words `ws` are the arguments of a call, with the parenthesis that closes them. -/
def IsCallArgs (ws : List Lexeme) : Prop := ws = [.symbol .rparen] ∨ IsArgs ws

theorem FlatWords.isArgs {f : Flat} {ws us : List Lexeme} (hf : FlatWords f ws)
    (h : IsMoreArgs us) : IsArgs (ws ++ us) := by
  rcases h with rfl | ⟨_, ⟨args, us, hargs, rfl⟩, rfl⟩
  · exact ⟨_, ws, .one hf, rfl⟩
  · exact ⟨_, ws ++ .symbol .comma :: us, .more hf hargs, by simp⟩

theorem IsCallArgs.isTerm {ws : List Lexeme} (h : IsCallArgs ws) (name : String) :
    IsTerm (.ident name :: .symbol .lparen :: ws) := by
  rcases h with rfl | ⟨args, us, hargs, rfl⟩
  · exact ⟨_, .noArgs name⟩
  · exact ⟨_, .call name hargs⟩

/-- Where the productions for expressions are stuck on the tokens `ts`. -/
structure FlatStuckIn (ts : List Token) : Prop where
  term : (NumScript.term ts).StuckIn ts IsTerm
  flatExpr : (NumScript.flatExpr ts).StuckIn ts IsExpr
  callArgs : (NumScript.callArgs ts).StuckIn ts IsCallArgs
  moreArgs : (NumScript.moreArgs ts).StuckIn ts IsMoreArgs

section Flat

variable {ts : List Token} (ih : ∀ rest : List Token, rest.length < ts.length → FlatStuckIn rest)

include ih

theorem term_stuckIn : (term ts).StuckIn ts IsTerm := by
  rw [term.eq_def]
  split
  · rename_i p rest
    have hinner : ((flatExpr rest).bind fun inner rest' =>
        (expect ")" rest').map fun _ => Item.opening :: inner ++ [.closing]).StuckIn rest
          (FollowedBy IsExpr (· = [.symbol .rparen])) := by
      refine (ih rest (by simp)).flatExpr.seq (.of_mark (m := .symbol .rparen) rfl rfl)
        fun inner mid hmid => ?_
      obtain ⟨used, rfl, hused, -⟩ := flatExpr_eq_ok_iff.mp hmid
      exact ⟨used, rfl, ⟨_, hused⟩, (expect_stuckIn rfl mid).map _⟩
    refine hinner.cons ?_
    rintro _ ⟨us, _, ⟨f, hf⟩, rfl, rfl⟩
    exact ⟨_, .group hf⟩
  · exact .ok _ _
  · exact .ok _ _
  · rename_i name p q rest
    have hargs := (ih rest (by simp only [List.length_cons]; omega)).callArgs
    exact StuckIn.append [⟨.ident name, p⟩, ⟨.symbol .lparen, q⟩] (hargs.map _)
      fun _ h => h.isTerm name
  · exact .ok _ _
  · exact .here _ (.of_ident ⟨_, .ident _⟩)

theorem flatExpr_stuckIn : (flatExpr ts).StuckIn ts IsExpr := by
  rw [flatExpr_eq]
  refine ((term_stuckIn ih).trans fun us ⟨f, hf⟩ => .of_mem ⟨f, .term hf⟩).bind
    fun items mid hmid => StuckIn.map ?_ _
  have hlt : mid.length < ts.length := (flatProgress ts).term.2 items mid hmid
  obtain ⟨used, rfl, hused, -⟩ := (flatReads ts).term hmid
  by_cases hop : atOperator mid = true
  · obtain ⟨o, p, rest, rfl⟩ := atOperator_iff.mp hop
    rw [List.length_cons] at hlt
    rw [flatTail_operator_eq_map, List.append_cons]
    refine StuckIn.append _ ((ih rest (by omega)).flatExpr.map _) ?_
    rintro ws ⟨g, hg⟩
    simpa using ⟨_, FlatWords.more hused o hg⟩
  · rw [flatTail_of_not_atOperator (by simpa using hop)]
    exact .ok _ _

theorem args_stuckIn :
    ((flatExpr ts).bind fun arg rest => (moreArgs rest).map (arg :: ·)).StuckIn ts IsArgs := by
  refine ((flatExpr_stuckIn ih).trans fun us ⟨f, hf⟩ =>
    .of_mark (m := .symbol .rparen) rfl (hf.isArgs (.inl rfl))).bind fun arg mid hmid => ?_
  have hlt : mid.length < ts.length := (flatProgress ts).flatExpr.2 arg mid hmid
  obtain ⟨used, rfl, hused, -⟩ := flatExpr_eq_ok_iff.mp hmid
  exact StuckIn.append used ((ih mid hlt).moreArgs.map _) fun _ h => hused.isArgs h

end Flat

theorem flatStuckIn (ts : List Token) : FlatStuckIn ts := by
  have ih : ∀ rest : List Token, rest.length < ts.length → FlatStuckIn rest :=
    fun rest _ => flatStuckIn rest
  refine ⟨term_stuckIn ih, flatExpr_stuckIn ih, ?_, ?_⟩
  · rw [callArgs.eq_def]
    split
    · exact .ok _ _
    · rw [(flatProgress _).flatExpr.andThen_eq_bind]
      exact (args_stuckIn ih).trans fun us h => .of_mem (.inr h)
  · rw [moreArgs.eq_def]
    split
    · rename_i p rest
      rw [(flatProgress _).flatExpr.andThen_eq_bind]
      exact (args_stuckIn fun rest' h => ih rest' (Nat.lt_succ_of_lt h)).cons
        fun us h => .inr ⟨us, h, rfl⟩
    · exact ((expect_stuckIn (m := .symbol .rparen) rfl _).map _).trans
        fun us h => .of_mem (.inl h)
termination_by ts.length

/-! ### Parts of statements -/

theorem expression_stuckIn (ts : List Token) : (expression ts).StuckIn ts IsExpr := by
  refine (flatStuckIn ts).flatExpr.bind fun f mid hmid => ?_
  obtain ⟨used, rfl, hused, -⟩ := flatExpr_eq_ok_iff.mp hmid
  obtain ⟨e, he⟩ := hused.wellFormed.exists_resolve
  rw [he]
  exact .ok _ _

/-- What follows an expression. -/
theorem expression_seq {β : Type} {next : Expr → List Token → Outcome β} {ts : List Token}
    {second : List Lexeme → Prop} (hsecond : Completable second [])
    (hnext : ∀ e rest, rest.length < ts.length → (next e rest).StuckIn rest second) :
    ((expression ts).bind next).StuckIn ts (FollowedBy IsExpr second) := by
  refine (expression_stuckIn ts).seq hsecond fun e mid hmid => ?_
  have hlt : mid.length < ts.length := (expression_advances ts).2 e mid hmid
  obtain ⟨used, rfl, hused, -⟩ := expression_eq_ok_iff.mp hmid
  exact ⟨used, rfl, hused.isExpr, hnext e mid hlt⟩

/-- What follows an identifier. -/
theorem expectIdent_seq {β : Type} {next : String → List Token → Outcome β} {ts : List Token}
    {second : List Lexeme → Prop} (hsecond : Completable second [])
    (hnext : ∀ name rest, rest.length < ts.length → (next name rest).StuckIn rest second) :
    ((expectIdent ts).bind next).StuckIn ts
      fun ws => ∃ name us, second us ∧ ws = .ident name :: us := by
  refine ((expectIdent_stuckIn ts).seq hsecond fun name mid hmid => ?_).trans ?_
  · obtain ⟨p, rfl⟩ := expectIdent_eq_ok_iff.mp hmid
    exact ⟨[⟨.ident name, p⟩], rfl, ⟨name, rfl⟩, hnext name mid (by simp)⟩
  · rintro _ ⟨_, us, ⟨name, rfl⟩, hus, rfl⟩
    exact .of_mem ⟨name, us, hus, rfl⟩

/-- What follows a mark. -/
theorem expect_seq {β : Type} {m : Lexeme} {text : String} (hm : m.mark? = some text)
    {next : Unit → List Token → Outcome β} {ts : List Token} {second : List Lexeme → Prop}
    (hsecond : Completable second [])
    (hnext : ∀ rest, rest.length < ts.length → (next () rest).StuckIn rest second) :
    ((expect text ts).bind next).StuckIn ts fun ws => ∃ us, second us ∧ ws = m :: us := by
  refine ((expect_stuckIn hm ts).seq hsecond fun _ mid hmid => ?_).trans ?_
  · obtain ⟨p, rfl⟩ := (expect_eq_ok_iff hm).mp hmid
    exact ⟨[⟨m, p⟩], rfl, rfl, hnext mid (by simp)⟩
  · rintro _ ⟨_, us, rfl, hus, rfl⟩
    exact .of_mem ⟨us, hus, rfl⟩

theorem condition_stuckIn {k : Keyword} {text : String} (hk : k.text = text) (ts : List Token) :
    (condition text ts).StuckIn ts (FollowedBy IsExpr (· = [.keyword k])) := by
  have hmark : (Lexeme.keyword k).mark? = some text := congrArg some hk
  exact expression_seq (.of_mark hmark rfl) fun _ rest _ => (expect_stuckIn hmark rest).map _

theorem declaration_stuckIn (p : Pos) (ts : List Token) :
    (declaration p ts).StuckIn ts fun ws => IsStmt (.keyword .kwLocal :: ws) := by
  refine ((expectIdent_stuckIn ts).trans ?_).bind fun name mid hmid => ?_
  · rintro _ ⟨name, rfl⟩
    exact .of_mem (.declare name)
  · obtain ⟨q, rfl⟩ := expectIdent_eq_ok_iff.mp hmid
    split
    · rename_i r rest
      exact StuckIn.append [⟨.ident name, q⟩, ⟨.symbol .assign, r⟩]
        ((expression_stuckIn rest).map _) fun _ h => .declareAs name h
    · exact .ok _ _

theorem assignment_stuckIn (p q : Pos) (name : String) (r : Pos) (ts : List Token) :
    (assignment p (⟨.ident name, q⟩ :: ⟨.symbol .assign, r⟩ :: ts)).StuckIn
      (⟨.ident name, q⟩ :: ⟨.symbol .assign, r⟩ :: ts) IsStmt := by
  have hassign : expect "=" (⟨.symbol .assign, r⟩ :: ts) = .ok () ts :=
    (expect_eq_ok_iff (m := .symbol .assign) rfl).mpr ⟨r, rfl⟩
  rw [assignment, expectIdent, bind_ok, hassign, bind_ok]
  exact StuckIn.append [⟨.ident name, q⟩, ⟨.symbol .assign, r⟩] ((expression_stuckIn ts).map _)
    fun _ h => .assign name h

/-- The words `ws` are the parameters behind a first one and the parenthesis that closes them. -/
def IsMoreParams (ws : List Lexeme) : Prop := ∃ xs, ws = moreParamWords xs ++ [.symbol .rparen]

/-- The words `ws` are parameters and the parenthesis that closes them. -/
def IsParams (ws : List Lexeme) : Prop := ∃ xs, ws = paramWords xs ++ [.symbol .rparen]

theorem IsMoreParams.completable : Completable IsMoreParams [] :=
  .of_mark (m := .symbol .rparen) rfl ⟨[], rfl⟩

theorem IsParams.completable : Completable IsParams [] :=
  .of_mark (m := .symbol .rparen) rfl ⟨[], rfl⟩

theorem moreParams_stuckIn (ts : List Token) : (moreParams ts).StuckIn ts IsMoreParams := by
  have ih : ∀ rest : List Token, rest.length < ts.length →
      (moreParams rest).StuckIn rest IsMoreParams :=
    fun rest _ => moreParams_stuckIn rest
  rw [moreParams.eq_def]
  split
  · rename_i p rest
    rw [(expectIdent_advances rest).andThen_eq_bind]
    have hparam := (expectIdent_seq IsMoreParams.completable fun x rest' hlt =>
      (ih rest' (Nat.lt_succ_of_lt hlt)).map (x :: ·))
    refine hparam.cons ?_
    rintro _ ⟨x, _, ⟨xs, rfl⟩, rfl⟩
    exact ⟨x :: xs, rfl⟩
  · exact ((expect_stuckIn (m := .symbol .rparen) rfl _).map _).trans
      fun us h => .of_mem ⟨[], h⟩
termination_by ts.length

theorem params_stuckIn (ts : List Token) : (params ts).StuckIn ts IsParams := by
  unfold params
  split
  · exact .ok _ _
  · refine (expectIdent_seq IsMoreParams.completable fun x rest _ =>
      (moreParams_stuckIn rest).map (x :: ·)).trans ?_
    rintro _ ⟨x, _, ⟨xs, rfl⟩, rfl⟩
    exact .of_mem ⟨x :: xs, rfl⟩

/-- The words `ws` are the name of a function and its parameters. -/
def IsSignature (ws : List Lexeme) : Prop :=
  ∃ name us, (∃ vs, IsParams vs ∧ us = .symbol .lparen :: vs) ∧ ws = .ident name :: us

theorem signature_stuckIn (ts : List Token) : (signature ts).StuckIn ts IsSignature :=
  expectIdent_seq (.mark_cons (m := .symbol .lparen) rfl IsParams.completable)
    fun _ _ _ => expect_seq rfl IsParams.completable fun rest _ => (params_stuckIn rest).map _

/-- The words `ws` are bounds and the keyword before the body, with room for `seen` more bounds. -/
def IsMoreBounds (seen : Nat) (ws : List Lexeme) : Prop :=
  ∃ n us, IsBounds n us ∧ seen + n ≤ 3 ∧ ws = us ++ [.keyword .kwDo]

theorem IsMoreBounds.completable {seen : Nat} (hseen : seen ≤ 3) :
    Completable (IsMoreBounds seen) [] :=
  .of_mark (m := .keyword .kwDo) rfl ⟨0, [], .nil, hseen, rfl⟩

theorem moreBounds_stuckIn (seen : Nat) (hseen : seen ≤ 3) (ts : List Token) :
    (moreBounds seen ts).StuckIn ts (IsMoreBounds seen) := by
  have ih : ∀ rest : List Token, rest.length < ts.length → seen + 1 ≤ 3 →
      (moreBounds (seen + 1) rest).StuckIn rest (IsMoreBounds (seen + 1)) :=
    fun rest _ hseen => moreBounds_stuckIn (seen + 1) hseen rest
  rw [moreBounds.eq_def]
  split
  · rename_i p rest
    split
    · exact .here _ (IsMoreBounds.completable hseen)
    · rename_i hmax
      have hseen' : seen + 1 ≤ 3 := by
        rw [maxBounds] at hmax
        omega
      rw [(expression_advances rest).andThen_eq_bind]
      refine (expression_seq (IsMoreBounds.completable hseen') fun bound rest' hlt =>
        (ih rest' (Nat.lt_succ_of_lt hlt) hseen').map (bound :: ·)).cons ?_
      rintro _ ⟨us, _, hus, ⟨n, vs, hvs, hn, rfl⟩, rfl⟩
      exact ⟨n + 1, _, .cons hus hvs, by omega, by simp⟩
  · exact ((expect_stuckIn (m := .keyword .kwDo) rfl _).map _).trans
      fun us h => .of_mem ⟨0, [], .nil, hseen, h⟩
termination_by ts.length

/-- The words `ws` are the variable and the bounds of a counting loop, with the keyword before the
body. -/
def IsCountHead (ws : List Lexeme) : Prop :=
  ∃ var n us, IsBounds n us ∧ 1 ≤ n ∧ n ≤ 3 ∧ ws = .ident var :: (us ++ [.keyword .kwDo])

theorem countHead_stuckIn (ts : List Token) : (countHead ts).StuckIn ts IsCountHead := by
  have hone : 1 ≤ 3 := by decide
  have hbounds := IsExpr.completable.followedBy (IsMoreBounds.completable hone)
  refine (expectIdent_seq (.mark_cons (m := .symbol .comma) rfl hbounds)
    fun var _ _ => expect_seq rfl hbounds fun _ _ =>
      expression_seq (IsMoreBounds.completable hone) fun bound rest _ =>
        (moreBounds_stuckIn 1 hone rest).map fun bounds => (var, bound :: bounds)).trans ?_
  rintro _ ⟨var, _, ⟨_, ⟨us, _, hus, ⟨n, vs, hvs, hn, rfl⟩, rfl⟩, rfl⟩, rfl⟩
  exact .of_mem ⟨var, n + 1, _, .cons hus hvs, by omega, by omega, by simp⟩

/-! ### Statements -/

/-- The words of a body, with the keyword that ends it. -/
abbrev IsBody : List Lexeme → Prop := FollowedBy IsBlock (· = [.keyword .kwEnd])

/-- The words of a choice from its condition on. -/
abbrev IsBranch : List Lexeme → Prop :=
  FollowedBy (FollowedBy IsExpr (· = [.keyword .kwThen])) (FollowedBy IsBlock IsElse)

theorem IsBlock.completable : Completable IsBlock [] := .of_mem .nil

theorem IsElse.completable : Completable IsElse [] := .of_mark (m := .keyword .kwEnd) rfl .none

theorem IsBody.completable : Completable IsBody [] :=
  IsBlock.completable.followedBy (.of_mark (m := .keyword .kwEnd) rfl rfl)

theorem IsStmt.completable : Completable IsStmt [] :=
  IsExpr.completable.trans fun _ h => .of_mem (.expr h)

/-- Where the productions for statements are stuck on the tokens `ts`. -/
structure StmtStuckIn (ts : List Token) : Prop where
  stmt : (NumScript.stmt ts).StuckIn ts IsStmt
  block : ∀ stops, (NumScript.block stops ts).StuckIn ts IsBlock
  body : (NumScript.body ts).StuckIn ts IsBody
  branch : ∀ p, (NumScript.branch p ts).StuckIn ts IsBranch
  otherwise : (NumScript.otherwise ts).StuckIn ts IsElse

section Stmt

variable {ts : List Token} (ih : ∀ rest : List Token, rest.length < ts.length → StmtStuckIn rest)

include ih

theorem branch_stuckIn (p : Pos) : (branch p ts).StuckIn ts IsBranch := by
  rw [branch_eq]
  refine (condition_stuckIn (k := .kwThen) rfl ts).seq
    (IsBlock.completable.followedBy IsElse.completable) fun cond mid hmid => ?_
  have hlt : mid.length < ts.length := (condition_advances "then" ts).2 cond mid hmid
  obtain ⟨used, q, hts, hused⟩ := (condition_eq_ok_iff (k := .kwThen) rfl).mp hmid
  refine ⟨used ++ [⟨.keyword .kwThen, q⟩], by simp [hts], ⟨_, _, hused.isExpr, rfl, by simp⟩, ?_⟩
  refine ((ih mid hlt).block _).seq IsElse.completable fun stmts mid' hmid' => ?_
  obtain ⟨us, rfl, hus⟩ := (stmtReads mid).block hmid'
  rw [List.length_append] at hlt
  exact ⟨us, rfl, hus.isBlock, (ih mid' (by omega)).otherwise.map _⟩

theorem loop_stuckIn (p : Pos) :
    (loop p ts).StuckIn ts fun ws => IsStmt (.keyword .kwWhile :: ws) := by
  rw [loop_eq]
  refine ((condition_stuckIn (k := .kwDo) rfl ts).seq IsBody.completable
    fun cond mid hmid => ?_).trans ?_
  · have hlt : mid.length < ts.length := (condition_advances "do" ts).2 cond mid hmid
    obtain ⟨used, q, hts, hused⟩ := (condition_eq_ok_iff (k := .kwDo) rfl).mp hmid
    exact ⟨used ++ [⟨.keyword .kwDo, q⟩], by simp [hts], ⟨_, _, hused.isExpr, rfl, by simp⟩,
      (ih mid hlt).body.map _⟩
  · rintro _ ⟨_, _, ⟨ws, _, hws, rfl, rfl⟩, ⟨us, _, hus, rfl, rfl⟩, rfl⟩
    exact .of_mem (by simpa using IsStmt.loop hws hus)

theorem count_stuckIn (p : Pos) :
    (count p ts).StuckIn ts fun ws => IsStmt (.keyword .kwFor :: ws) := by
  rw [count_eq]
  refine ((countHead_stuckIn ts).seq IsBody.completable fun head mid hmid => ?_).trans ?_
  · have hlt : mid.length < ts.length := (countHead_advances ts).2 head mid hmid
    obtain ⟨q, used, r, hts, hused, hone, hthree⟩ := countHead_eq_ok_iff.mp hmid
    exact ⟨⟨.ident head.1, q⟩ :: (used ++ [⟨.keyword .kwDo, r⟩]), by simp [hts],
      ⟨head.1, _, _, hused.isBounds, hone, hthree, by simp⟩, (ih mid hlt).body.map _⟩
  · rintro _ ⟨_, _, ⟨var, n, ws, hws, hone, hthree, rfl⟩, ⟨us, _, hus, rfl, rfl⟩, rfl⟩
    exact .of_mem (by simpa using IsStmt.count var hws hone hthree hus)

theorem definition_stuckIn (p : Pos) :
    (definition p ts).StuckIn ts fun ws => IsStmt (.keyword .kwFunction :: ws) := by
  rw [definition_eq]
  refine ((signature_stuckIn ts).seq IsBody.completable fun head mid hmid => ?_).trans ?_
  · have hlt : mid.length < ts.length := (signature_advances ts).2 head mid hmid
    obtain ⟨q, r, used, t, hts, hused⟩ := signature_eq_ok_iff.mp hmid
    exact ⟨⟨.ident head.1, q⟩ :: ⟨.symbol .lparen, r⟩ :: (used ++ [⟨.symbol .rparen, t⟩]),
      by simp [hts], ⟨head.1, _, ⟨_, ⟨head.2, rfl⟩, rfl⟩, by simp [hused]⟩, (ih mid hlt).body.map _⟩
  · rintro _ ⟨_, _, ⟨name, _, ⟨_, ⟨xs, rfl⟩, rfl⟩, rfl⟩, ⟨us, _, hus, rfl, rfl⟩, rfl⟩
    exact .of_mem (by simpa using IsStmt.define name xs hus)

theorem stmt_stuckIn : (stmt ts).StuckIn ts IsStmt := by
  have ih' : ∀ t ts', ts = t :: ts' → ∀ rest : List Token, rest.length < ts'.length →
      StmtStuckIn rest := by
    rintro t ts' rfl rest hrest
    exact ih rest (Nat.lt_succ_of_lt hrest)
  rw [stmt.eq_def]
  split
  · exact (declaration_stuckIn _ _).cons fun _ h => h
  · exact (definition_stuckIn (ih' _ _ rfl) _).cons fun _ h => h
  · refine (branch_stuckIn (ih' _ _ rfl) _).cons ?_
    rintro _ ⟨_, _, ⟨ws, _, hws, rfl, rfl⟩, ⟨us, vs, hus, hvs, rfl⟩, rfl⟩
    simpa using IsStmt.branch hws hus hvs
  · exact (loop_stuckIn (ih' _ _ rfl) _).cons fun _ h => h
  · exact (count_stuckIn (ih' _ _ rfl) _).cons fun _ h => h
  · exact assignment_stuckIn _ _ _ _ _
  · exact ((expression_stuckIn _).map _).trans fun _ h => .of_mem (.expr h)
  · exact .here _ IsStmt.completable

theorem block_stuckIn (stops : List String) : (block stops ts).StuckIn ts IsBlock := by
  rw [block_eq]
  split
  · exact .ok _ _
  · split
    · rename_i hempty
      rw [List.isEmpty_iff.mp hempty]
      exact .here _ IsBlock.completable
    · refine ((stmt_stuckIn ih).seq IsBlock.completable fun s mid hmid => ?_).trans ?_
      · have hlt : mid.length < ts.length := (stmtProgress ts).stmt.2 s mid hmid
        obtain ⟨used, rfl, hused⟩ := (stmtReads ts).stmt hmid
        exact ⟨used, rfl, hused.isStmt, ((ih mid hlt).block stops).map _⟩
      · rintro _ ⟨ws, us, hws, hus, rfl⟩
        exact .of_mem (.cons hws hus)

end Stmt

theorem stmtStuckIn (ts : List Token) : StmtStuckIn ts := by
  have ih : ∀ rest : List Token, rest.length < ts.length → StmtStuckIn rest :=
    fun rest _ => stmtStuckIn rest
  refine ⟨stmt_stuckIn ih, block_stuckIn ih, ?_, branch_stuckIn ih, ?_⟩
  · rw [body]
    refine (block_stuckIn ih _).seq (.of_mark (m := .keyword .kwEnd) rfl rfl)
      fun stmts mid hmid => ?_
    obtain ⟨used, rfl, hused⟩ := (stmtReads ts).block hmid
    exact ⟨used, rfl, hused.isBlock, (expect_stuckIn rfl mid).map _⟩
  · rw [otherwise.eq_def]
    split
    · rename_i p rest
      refine (((ih rest (by simp)).branch p).map _).cons ?_
      rintro _ ⟨_, _, ⟨ws, _, hws, rfl, rfl⟩, ⟨us, vs, hus, hvs, rfl⟩, rfl⟩
      simpa using IsElse.chain hws hus hvs
    · rename_i p rest
      refine ((ih rest (by simp)).body.map _).cons ?_
      rintro _ ⟨us, _, hus, rfl, rfl⟩
      exact .body hus
    · refine ((expect_stuckIn (m := .keyword .kwEnd) rfl _).map _).trans ?_
      rintro _ rfl
      exact .of_mem .none
termination_by ts.length

/-- The tokens in front of an error can be completed to a program. -/
theorem statements_stuckIn (ts : List Token) : (statements ts).StuckIn ts IsBlock := by
  have ih : ∀ rest : List Token, rest.length < ts.length →
      (statements rest).StuckIn rest IsBlock :=
    fun rest _ => statements_stuckIn rest
  rw [statements_eq]
  split
  · exact .ok _ _
  · refine ((stmtStuckIn ts).stmt.seq IsBlock.completable fun s mid hmid => ?_).trans ?_
    · have hlt : mid.length < ts.length := (stmtProgress ts).stmt.2 s mid hmid
      obtain ⟨used, rfl, hused⟩ := (stmtReads ts).stmt hmid
      exact ⟨used, rfl, hused.isStmt, (ih mid hlt).map _⟩
    · rintro _ ⟨ws, us, hws, hus, rfl⟩
      exact .of_mem (.cons hws hus)
termination_by ts.length

end NumScript
