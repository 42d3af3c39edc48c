import NumScript.Proofs.Stmt.Derivation

/-!
# NumScript.Proofs.Stmt.Lookahead

How far a production looks. What it makes of some tokens depends on those that it takes and on the
one behind them. A production that is stuck has looked at the token in its way, and at one more if
that is a minus, because a minus is the sign of a number only if a numeral follows. So other tokens
behind these lead to the same outcome (`LooksAhead`); in particular, tokens that are no program stay
none, whatever comes behind the place where they are stuck (`statements_looksAhead`).
-/

namespace NumScript

open Outcome

/-! ### Tokens that start alike -/

/-- The tokens start with the same one, or there are none; if it is a minus, then also with the same
second one. -/
def SameFront (ts us : List Token) : Prop :=
  ts.head? = us.head? ∧
    ((∃ p, ts.head? = some ⟨.symbol (.op .sub), p⟩) → ts[1]? = us[1]?)

theorem head?_append_congr {ts us : List Token} (h : ts.head? = us.head?) (used : List Token) :
    (used ++ ts).head? = (used ++ us).head? := by
  cases used with
  | nil => exact h
  | cons t used => rfl

theorem eq_nil_of_head? {us : List Token} (h : ([] : List Token).head? = us.head?) : us = [] :=
  List.head?_eq_none_iff.mp h.symm

theorem exists_of_head? {t : Token} {ts us : List Token} (h : (t :: ts).head? = us.head?) :
    ∃ us', us = t :: us' := List.head?_eq_some_iff.mp h.symm

theorem atMark_congr {ts us : List Token} (h : ts.head? = us.head?) (text : String) :
    atMark text us = atMark text ts := by
  cases ts with
  | nil => rw [eq_nil_of_head? h]
  | cons t ts =>
    obtain ⟨us, rfl⟩ := exists_of_head? h
    rfl

theorem atOperator_congr {ts us : List Token} (h : ts.head? = us.head?) :
    atOperator us = atOperator ts := by
  cases ts with
  | nil => rw [eq_nil_of_head? h]
  | cons t ts =>
    obtain ⟨us, rfl⟩ := exists_of_head? h
    obtain ⟨l, p⟩ := t
    cases l with
    | symbol s => cases s <;> rfl
    | _ => rfl

/-! ### Productions that look no further -/

section Productions

variable {α β : Type} {production other : List Token → Outcome α} {ts : List Token}

/-- What the production makes of `ts`, it makes of all tokens that are the same as far as it looks:
those that it takes and the first one behind them, and where it is stuck at a minus, the second one
behind them as well. -/
structure LooksAhead (production : List Token → Outcome α) (ts : List Token) : Prop where
  leaves : (production ts).Leaves ts
  ok : ∀ {a : α} {used rest rest' : List Token}, ts = used ++ rest →
    production ts = .ok a rest → rest.head? = rest'.head? →
      production (used ++ rest') = .ok a rest'
  error : ∀ {cause : ParseCause} {used rest rest' : List Token}, ts = used ++ rest →
    production ts = .error cause rest → SameFront rest rest' →
      production (used ++ rest') = .error cause rest'

/-- A production that takes nothing. -/
theorem LooksAhead.of_done (a : α)
    (h : ∀ us : List Token, ts.head? = us.head? → production us = .ok a us) :
    LooksAhead production ts := by
  have hts := h ts rfl
  refine ⟨hts ▸ List.suffix_refl ts, fun {b used rest rest'} hsplit hok hhead => ?_,
    fun {_ _ _ _} _ herror _ => ?_⟩
  · obtain ⟨rfl, rfl⟩ := Outcome.ok.inj (hts.symm.trans hok)
    obtain rfl := List.self_eq_append_left.mp hsplit
    exact h rest' hhead
  · cases hts.symm.trans herror

/-- A production that is stuck at once. -/
theorem LooksAhead.of_stuck (cause : ParseCause)
    (h : ∀ us : List Token, SameFront ts us → production us = .error cause us) :
    LooksAhead production ts := by
  have hts := h ts ⟨rfl, fun _ => rfl⟩
  refine ⟨hts ▸ List.suffix_refl ts, fun {_ _ _ _} _ hok _ => ?_,
    fun {_ used rest rest'} hsplit herror hfront => ?_⟩
  · cases hts.symm.trans hok
  · obtain ⟨rfl, rfl⟩ := Outcome.error.inj (hts.symm.trans herror)
    obtain rfl := List.self_eq_append_left.mp hsplit
    exact h rest' hfront

/-- Productions that are the same on tokens with the same first one. -/
theorem LooksAhead.congr (heq : ∀ us : List Token, ts.head? = us.head? → production us = other us)
    (h : LooksAhead other ts) : LooksAhead production ts := by
  refine ⟨heq ts rfl ▸ h.leaves, fun {_ used rest rest'} hsplit hok hhead => ?_,
    fun {_ used rest rest'} hsplit herror hfront => ?_⟩
  · rw [heq (used ++ rest') (hsplit ▸ head?_append_congr hhead used)]
    exact h.ok hsplit ((heq ts rfl).symm.trans hok) hhead
  · rw [heq (used ++ rest') (hsplit ▸ head?_append_congr hfront.1 used)]
    exact h.error hsplit ((heq ts rfl).symm.trans herror) hfront

/-- A production that takes the first token and leaves the others to another one. -/
theorem LooksAhead.cons {t : Token}
    (heq : ∀ us : List Token, ts.head? = us.head? → production (t :: us) = other us)
    (h : LooksAhead other ts) : LooksAhead production (t :: ts) := by
  -- what is left is behind the first token
  have hused : ∀ {used rest : List Token}, t :: ts = used ++ rest → rest <:+ ts →
      ∃ used', used = t :: used' ∧ ts = used' ++ rest := by
    intro used rest hsplit hsuffix
    cases used with
    | nil =>
      have hlength := hsuffix.length_le
      rw [List.nil_append] at hsplit
      rw [← hsplit, List.length_cons] at hlength
      omega
    | cons u used' =>
      obtain ⟨rfl, rfl⟩ := List.cons.inj hsplit
      exact ⟨used', rfl, rfl⟩
  have hleaves := h.leaves
  refine ⟨heq ts rfl ▸ (hleaves.cons t).leaves, fun {_ used rest rest'} hsplit hok hhead => ?_,
    fun {_ used rest rest'} hsplit herror hfront => ?_⟩
  · rw [heq ts rfl] at hok
    rw [hok] at hleaves
    obtain ⟨used, rfl, hts⟩ := hused hsplit hleaves
    rw [List.cons_append, heq (used ++ rest') (hts ▸ head?_append_congr hhead used)]
    exact h.ok hts hok hhead
  · rw [heq ts rfl] at herror
    rw [herror] at hleaves
    obtain ⟨used, rfl, hts⟩ := hused hsplit hleaves
    rw [List.cons_append, heq (used ++ rest') (hts ▸ head?_append_congr hfront.1 used)]
    exact h.error hts herror hfront

/-- A production that takes one token and is done. -/
theorem LooksAhead.token {t : Token} (a : α)
    (h : ∀ us : List Token, ts.head? = us.head? → production (t :: us) = .ok a us) :
    LooksAhead production (t :: ts) := .cons h (.of_done a fun _ _ => rfl)

/-- What a production makes of the tokens behind one that it takes in any case. -/
theorem LooksAhead.tail {t : Token} (h : LooksAhead production (t :: ts))
    (hleaves : (production (t :: ts)).Leaves ts) :
    LooksAhead (fun us => production (t :: us)) ts := by
  have hcons : ∀ {used rest : List Token}, ts = used ++ rest → t :: ts = t :: used ++ rest :=
    fun hsplit => congrArg (t :: ·) hsplit
  exact ⟨hleaves, fun hsplit hok hhead => h.ok (hcons hsplit) hok hhead,
    fun hsplit herror hfront => h.error (hcons hsplit) herror hfront⟩

theorem LooksAhead.map (h : LooksAhead production ts) (f : α → β) :
    LooksAhead (fun us => (production us).map f) ts := by
  refine ⟨h.leaves.map f, fun {b used rest rest'} hsplit hok hhead => ?_,
    fun {cause used rest rest'} hsplit herror hfront => ?_⟩
  · obtain ⟨a, ha, rfl⟩ := Outcome.map_eq_ok_iff.mp hok
    show (production (used ++ rest')).map f = _
    rw [h.ok hsplit ha hhead, map_ok]
  · show (production (used ++ rest')).map f = _
    cases hts : production ts with
    | ok a mid => simp [hts] at herror
    | error cause' mid =>
      obtain ⟨rfl, rfl⟩ := Outcome.error.inj ((congrArg (Outcome.map f) hts).symm.trans herror)
      rw [h.error hsplit hts hfront, map_error]

theorem LooksAhead.bind {next : α → List Token → Outcome β} (h : LooksAhead production ts)
    (hnext : ∀ a mid, production ts = .ok a mid → LooksAhead (next a) mid) :
    LooksAhead (fun us => (production us).bind next) ts := by
  have hleaves := h.leaves
  cases ha : production ts with
  | error cause mid =>
    rw [ha] at hleaves
    have hbind : (production ts).bind next = .error cause mid := by rw [ha, bind_error]
    refine ⟨hbind ▸ hleaves, fun {b used rest rest'} hsplit hok hhead => ?_,
      fun {cause' used rest rest'} hsplit herror hfront => ?_⟩
    · cases hbind.symm.trans hok
    · obtain ⟨rfl, rfl⟩ := Outcome.error.inj (hbind.symm.trans herror)
      show (production (used ++ rest')).bind next = _
      rw [h.error hsplit ha hfront, bind_error]
  | ok a mid =>
    have hlooks := hnext a mid ha
    have hbind : (production ts).bind next = next a mid := by rw [ha, bind_ok]
    rw [ha, leaves_ok] at hleaves
    -- the second production starts in the middle, behind what the first one took
    have hmid : ∀ {used rest : List Token}, ts = used ++ rest → rest <:+ mid →
        ∃ used₁ used₂, used = used₁ ++ used₂ ∧ ts = used₁ ++ mid ∧ mid = used₂ ++ rest := by
      intro used rest hsplit hrest
      obtain ⟨used₁, hused₁⟩ := hleaves
      obtain ⟨used₂, rfl⟩ := hrest
      have hjoin : used₁ ++ used₂ ++ rest = used ++ rest := by
        rw [List.append_assoc, hused₁, hsplit]
      exact ⟨used₁, used₂, (List.append_cancel_right hjoin).symm, hused₁.symm, rfl⟩
    have hrest := hlooks.leaves
    refine ⟨hbind ▸ List.IsSuffix.trans hrest hleaves,
      fun {b used rest rest'} hsplit hok hhead => ?_,
      fun {cause' used rest rest'} hsplit herror hfront => ?_⟩
    · have hb := hbind.symm.trans hok
      rw [hb] at hrest
      obtain ⟨used₁, used₂, rfl, hts, rfl⟩ := hmid hsplit hrest
      show (production (used₁ ++ used₂ ++ rest')).bind next = _
      rw [List.append_assoc, h.ok hts ha (head?_append_congr hhead used₂), bind_ok]
      exact hlooks.ok rfl hb hhead
    · have hb := hbind.symm.trans herror
      rw [hb] at hrest
      obtain ⟨used₁, used₂, rfl, hts, rfl⟩ := hmid hsplit hrest
      show (production (used₁ ++ used₂ ++ rest')).bind next = _
      rw [List.append_assoc, h.ok hts ha (head?_append_congr hfront.1 used₂), bind_ok]
      exact hlooks.error rfl hb hfront

end Productions

/-! ### Single tokens -/

theorem expect_looksAhead (text : String) (ts : List Token) : LooksAhead (expect text) ts := by
  cases hmark : atMark text ts with
  | false =>
    refine .of_stuck (.marks [text]) fun us hfront => ?_
    rw [expect, atMark_congr hfront.1, hmark, if_neg Bool.false_ne_true]
  | true =>
    cases ts with
    | nil =>
      refine .of_done () fun us hhead => ?_
      rw [eq_nil_of_head? hhead, expect, if_pos hmark]
      rfl
    | cons t ts =>
      refine .token () fun us _ => ?_
      have hmark' : atMark text (t :: us) = true := hmark
      rw [expect, if_pos hmark']
      rfl

theorem expectIdent_looksAhead (ts : List Token) : LooksAhead expectIdent ts := by
  rcases ts with _ | ⟨⟨l, p⟩, ts⟩
  · refine .of_stuck .identifier fun us hfront => ?_
    rw [eq_nil_of_head? hfront.1]
    rfl
  · cases l with
    | ident name => exact .token name fun us _ => rfl
    | _ =>
      refine .of_stuck .identifier fun us hfront => ?_
      obtain ⟨us, rfl⟩ := exists_of_head? hfront.1
      rfl

/-! ### Flat expressions -/

/-- Where no term can start, the production for terms is stuck. -/
theorem term_of_not_startsTerm {t : Token} (h : startsTerm t.lexeme = false) (ts : List Token) :
    term (t :: ts) = .error .expression (t :: ts) := by
  obtain ⟨l, p⟩ := t
  cases l with
  | number n => cases h
  | ident name => cases h
  | keyword k => simp [term]
  | symbol s =>
    cases s with
    | lparen => cases h
    | op o =>
      cases o with
      | sub => cases h
      | _ => simp [term]
    | _ => simp [term]

/-- A minus is no term without a numeral behind it. -/
theorem term_minus (p : Pos) {ts : List Token} (h : ∀ n q, ts.head? ≠ some ⟨.number n, q⟩) :
    term (⟨.symbol (.op .sub), p⟩ :: ts) =
      .error .expression (⟨.symbol (.op .sub), p⟩ :: ts) := by
  rcases ts with _ | ⟨⟨l, q⟩, ts⟩
  · simp [term]
  · cases l with
    | number n => exact absurd rfl (h n q)
    | _ => simp [term]

/-- How far the productions for flat expressions look on the tokens `ts`. -/
structure FlatLooksAhead (ts : List Token) : Prop where
  term : LooksAhead NumScript.term ts
  flatExpr : LooksAhead NumScript.flatExpr ts
  flatTail : LooksAhead NumScript.flatTail ts
  callArgs : LooksAhead NumScript.callArgs ts
  moreArgs : LooksAhead NumScript.moreArgs ts

section Flat

variable {ts : List Token}
  (ih : ∀ rest : List Token, rest.length < ts.length → FlatLooksAhead rest)

include ih

theorem term_looksAhead : LooksAhead term ts := by
  rcases ts with _ | ⟨⟨l, p⟩, ts⟩
  · refine .of_stuck .expression fun us hfront => ?_
    rw [eq_nil_of_head? hfront.1]
    simp [term]
  · -- where no term starts, one token is enough to see it
    have hstuck (h : startsTerm l = false) : LooksAhead term (⟨l, p⟩ :: ts) := by
      refine .of_stuck .expression fun us hfront => ?_
      obtain ⟨us, rfl⟩ := exists_of_head? hfront.1
      exact term_of_not_startsTerm h us
    cases l with
    | keyword k => exact hstuck rfl
    | number n =>
      refine .token [.operand (.number n.value)] fun us _ => ?_
      rw [term]
    | ident name =>
      cases hmark : atMark "(" ts with
      | false =>
        refine .token [.operand (.ident name)] fun us hhead => ?_
        rw [term_ident name p ((atMark_congr hhead "(").trans hmark)]
      | true =>
        obtain ⟨q, ts, rfl⟩ := (atMark_iff (m := .symbol .lparen) rfl).mp hmark
        have hargs := (ih ts (by simp only [List.length_cons]; omega)).callArgs
        -- both tokens in front of the arguments are taken before these are looked at
        have hlooks : LooksAhead (fun us => (callArgs us.tail).map fun args =>
            [Item.operand (Operand.call name args)]) (⟨.symbol .lparen, q⟩ :: ts) :=
          .cons (fun us _ => rfl) (hargs.map _)
        refine .cons (fun us hhead => ?_) hlooks
        obtain ⟨us, rfl⟩ := exists_of_head? hhead
        rw [term]
        rfl
    | symbol s =>
      cases s with
      | lparen =>
        have hflat := (ih ts (by simp)).flatExpr
        exact .cons (fun us _ => term.eq_1 p us) (hflat.bind fun _ mid _ =>
          (expect_looksAhead ")" mid).map _)
      | op o =>
        by_cases ho : o = .sub
        · subst ho
          by_cases hnumber : ∃ n q, ts.head? = some ⟨.number n, q⟩
          · obtain ⟨n, q, hn⟩ := hnumber
            obtain ⟨ts, rfl⟩ := List.head?_eq_some_iff.mp hn
            have hlooks : LooksAhead
                (fun us => .ok [Item.operand (Operand.number n.value.neg)] us.tail)
                (⟨.number n, q⟩ :: ts) := .token _ fun us _ => rfl
            refine .cons (fun us hhead => ?_) hlooks
            obtain ⟨us, rfl⟩ := exists_of_head? hhead
            rw [term]
            rfl
          · -- here the token behind the minus is looked at, too
            refine .of_stuck .expression fun us hfront => ?_
            obtain ⟨us, rfl⟩ := exists_of_head? hfront.1
            have hsecond : ts.head? = us.head? := by
              simpa [List.head?_eq_getElem?] using hfront.2 ⟨p, rfl⟩
            exact term_minus p fun n q hn => hnumber ⟨n, q, hsecond.trans hn⟩
        · exact hstuck (by cases o <;> first | rfl | exact absurd rfl ho)
      | _ => exact hstuck rfl

theorem flatTail_looksAhead : LooksAhead flatTail ts := by
  cases hop : atOperator ts with
  | false =>
    exact .of_done [] fun us hhead =>
      flatTail_of_not_atOperator ((atOperator_congr hhead).trans hop)
  | true =>
    obtain ⟨o, p, ts, rfl⟩ := atOperator_iff.mp hop
    refine .cons (fun us _ => flatTail_operator o p us) ?_
    refine (ih ts (by simp)).term.bind fun items mid hmid => ?_
    have hlt := (flatProgress ts).term.2 items mid hmid
    exact (ih mid (Nat.lt_succ_of_lt hlt)).flatTail.map _

theorem flatExpr_looksAhead : LooksAhead flatExpr ts := by
  refine .congr (fun us _ => flatExpr_eq us) ?_
  refine (term_looksAhead ih).bind fun items mid hmid => ?_
  exact (ih mid ((flatProgress ts).term.2 items mid hmid)).flatTail.map _

/-- The first argument, and those that follow it. -/
theorem args_looksAhead :
    LooksAhead (fun us => (flatExpr us).bind fun arg rest => (moreArgs rest).map (arg :: ·))
      ts := by
  refine (flatExpr_looksAhead ih).bind fun arg mid hmid => ?_
  exact (ih mid ((flatProgress ts).flatExpr.2 arg mid hmid)).moreArgs.map _

end Flat

/-- Where no parenthesis closes the arguments, they start with a first one. -/
theorem callArgs_of_not_atMark {ts : List Token} (h : atMark ")" ts = false) :
    callArgs ts = (flatExpr ts).bind fun arg rest => (moreArgs rest).map (arg :: ·) := by
  rw [callArgs.eq_2 _ fun p rest hts => ?_, (flatProgress ts).flatExpr.andThen_eq_bind]
  rw [hts] at h
  cases h

theorem moreArgs_of_not_atMark {ts : List Token} (h : atMark "," ts = false) :
    moreArgs ts = (expect ")" ts).map fun _ => [] := by
  rw [moreArgs.eq_2 _ fun p rest hts => ?_]
  rw [hts] at h
  cases h

/-- The productions for flat expressions look no further than they have to. -/
theorem flatLooksAhead (ts : List Token) : FlatLooksAhead ts := by
  have ih : ∀ rest : List Token, rest.length < ts.length → FlatLooksAhead rest :=
    fun rest _ => flatLooksAhead rest
  refine ⟨term_looksAhead ih, flatExpr_looksAhead ih, flatTail_looksAhead ih, ?_, ?_⟩
  · cases hclose : atMark ")" ts with
    | true =>
      obtain ⟨p, ts, rfl⟩ := (atMark_iff (m := .symbol .rparen) rfl).mp hclose
      exact .token [] fun us _ => callArgs_rparen p us
    | false =>
      exact .congr (fun us hhead => callArgs_of_not_atMark ((atMark_congr hhead _).trans hclose))
        (args_looksAhead ih)
  · cases hcomma : atMark "," ts with
    | true =>
      obtain ⟨p, ts, rfl⟩ := (atMark_iff (m := .symbol .comma) rfl).mp hcomma
      exact .cons (fun us _ => moreArgs_comma p us)
        (args_looksAhead fun rest hlt => ih rest (Nat.lt_succ_of_lt hlt))
    | false =>
      exact .congr (fun us hhead => moreArgs_of_not_atMark ((atMark_congr hhead _).trans hcomma))
        ((expect_looksAhead ")" ts).map _)
termination_by ts.length

/-! ### Parts of statements -/

theorem expression_looksAhead (ts : List Token) : LooksAhead expression ts := by
  refine (flatLooksAhead ts).flatExpr.bind fun flat mid _ => ?_
  cases hresolve : Flat.resolve flat with
  | ok e => exact .of_done e fun us _ => rfl
  | error e => exact .of_stuck (.unresolved e) fun us _ => rfl

theorem condition_looksAhead (keyword : String) (ts : List Token) :
    LooksAhead (condition keyword) ts :=
  (expression_looksAhead ts).bind fun _ mid _ => (expect_looksAhead keyword mid).map _

theorem declaration_looksAhead (p : Pos) (ts : List Token) : LooksAhead (declaration p) ts := by
  refine (expectIdent_looksAhead ts).bind fun name mid _ => ?_
  cases hassign : atMark "=" mid with
  | true =>
    obtain ⟨q, mid, rfl⟩ := (atMark_iff (m := .symbol .assign) rfl).mp hassign
    exact .cons (fun us _ => rfl) ((expression_looksAhead mid).map _)
  | false =>
    refine .of_done (.declare p name (.number .zero)) fun us hhead => ?_
    have hassign' := (atMark_congr hhead "=").trans hassign
    split
    · cases hassign'
    · rfl

theorem moreParams_of_not_atMark {ts : List Token} (h : atMark "," ts = false) :
    moreParams ts = (expect ")" ts).map fun _ => [] := by
  rw [moreParams.eq_2 _ fun p rest hts => ?_]
  rw [hts] at h
  cases h

theorem moreParams_looksAhead (ts : List Token) : LooksAhead moreParams ts := by
  have ih : ∀ rest : List Token, rest.length < ts.length → LooksAhead moreParams rest :=
    fun rest _ => moreParams_looksAhead rest
  cases hcomma : atMark "," ts with
  | true =>
    obtain ⟨p, ts, rfl⟩ := (atMark_iff (m := .symbol .comma) rfl).mp hcomma
    refine .cons (fun us _ => moreParams_comma p us) ?_
    refine (expectIdent_looksAhead ts).bind fun param mid hmid => ?_
    exact (ih mid (Nat.lt_succ_of_lt ((expectIdent_advances ts).2 param mid hmid))).map _
  | false =>
    exact .congr (fun us hhead => moreParams_of_not_atMark ((atMark_congr hhead _).trans hcomma))
      ((expect_looksAhead ")" ts).map _)
termination_by ts.length

theorem params_of_not_atMark {ts : List Token} (h : atMark ")" ts = false) :
    params ts = (expectIdent ts).bind fun param rest => (moreParams rest).map (param :: ·) := by
  rw [params.eq_2 _ fun p rest hts => ?_]
  rw [hts] at h
  cases h

theorem params_looksAhead (ts : List Token) : LooksAhead params ts := by
  cases hclose : atMark ")" ts with
  | true =>
    obtain ⟨p, ts, rfl⟩ := (atMark_iff (m := .symbol .rparen) rfl).mp hclose
    exact .token [] fun us _ => rfl
  | false =>
    exact .congr (fun us hhead => params_of_not_atMark ((atMark_congr hhead _).trans hclose))
      ((expectIdent_looksAhead ts).bind fun _ mid _ => (moreParams_looksAhead mid).map _)

theorem signature_looksAhead (ts : List Token) : LooksAhead signature ts :=
  (expectIdent_looksAhead ts).bind fun _ mid _ =>
    (expect_looksAhead "(" mid).bind fun _ mid' _ => (params_looksAhead mid').map _

theorem moreBounds_of_not_atMark (seen : Nat) {ts : List Token} (h : atMark "," ts = false) :
    moreBounds seen ts = (expect "do" ts).map fun _ => [] := by
  rw [moreBounds.eq_2 _ _ fun p rest hts => ?_]
  rw [hts] at h
  cases h

theorem moreBounds_comma {seen : Nat} (hseen : seen ≠ maxBounds) (p : Pos) (ts : List Token) :
    moreBounds seen (⟨.symbol .comma, p⟩ :: ts) =
      (expression ts).bind fun bound rest => (moreBounds (seen + 1) rest).map (bound :: ·) := by
  rw [moreBounds, if_neg hseen, (expression_advances ts).andThen_eq_bind]

theorem moreBounds_looksAhead (seen : Nat) (ts : List Token) :
    LooksAhead (moreBounds seen) ts := by
  have ih : ∀ rest : List Token, rest.length < ts.length →
      LooksAhead (moreBounds (seen + 1)) rest :=
    fun rest _ => moreBounds_looksAhead (seen + 1) rest
  cases hcomma : atMark "," ts with
  | true =>
    obtain ⟨p, ts, rfl⟩ := (atMark_iff (m := .symbol .comma) rfl).mp hcomma
    by_cases hseen : seen = maxBounds
    · refine .of_stuck .tooManyBounds fun us hfront => ?_
      obtain ⟨us, rfl⟩ := exists_of_head? hfront.1
      rw [moreBounds, if_pos hseen]
    · refine .cons (fun us _ => moreBounds_comma hseen p us) ?_
      refine (expression_looksAhead ts).bind fun bound mid hmid => ?_
      exact (ih mid (Nat.lt_succ_of_lt ((expression_advances ts).2 bound mid hmid))).map _
  | false =>
    exact .congr
      (fun us hhead => moreBounds_of_not_atMark seen ((atMark_congr hhead _).trans hcomma))
      ((expect_looksAhead "do" ts).map _)
termination_by ts.length

theorem countHead_looksAhead (ts : List Token) : LooksAhead countHead ts :=
  (expectIdent_looksAhead ts).bind fun _ mid _ =>
    (expect_looksAhead "," mid).bind fun _ mid' _ =>
      (expression_looksAhead mid').bind fun _ mid'' _ => (moreBounds_looksAhead 1 mid'').map _

/-! ### Statements -/

/-- How far the productions for statements look on the tokens `ts`. -/
structure StmtLooksAhead (ts : List Token) : Prop where
  stmt : LooksAhead NumScript.stmt ts
  block : ∀ stops, LooksAhead (NumScript.block stops) ts
  body : LooksAhead NumScript.body ts
  branch : ∀ p, LooksAhead (NumScript.branch p) ts
  otherwise : LooksAhead NumScript.otherwise ts

/-- An expression that starts with an identifier takes it. -/
theorem expression_ident_leaves (name : String) (p : Pos) (ts : List Token) :
    (expression (⟨.ident name, p⟩ :: ts)).Leaves ts := by
  have hterm : (term (⟨.ident name, p⟩ :: ts)).Leaves ts := by
    cases hmark : atMark "(" ts with
    | false =>
      rw [term_ident name p hmark]
      exact List.suffix_refl ts
    | true =>
      obtain ⟨q, ts, rfl⟩ := (atMark_iff (m := .symbol .lparen) rfl).mp hmark
      rw [term]
      exact (((flatProgress ts).callArgs.leaves.map _).cons _).leaves
  have hflat : (flatExpr (⟨.ident name, p⟩ :: ts)).Leaves ts := by
    rw [flatExpr_eq]
    exact hterm.bind fun _ rest _ => (flatProgress rest).flatTail.map _
  refine hflat.bind fun flat rest _ => ?_
  cases Flat.resolve flat <;> exact List.suffix_refl rest

section Statements

variable {ts : List Token}
  (ih : ∀ rest : List Token, rest.length < ts.length → StmtLooksAhead rest)

include ih

theorem definition_looksAhead (p : Pos) : LooksAhead (definition p) ts := by
  refine .congr (fun us _ => definition_eq p us) ?_
  refine (signature_looksAhead ts).bind fun head mid hmid => ?_
  exact (ih mid ((signature_advances ts).2 head mid hmid)).body.map _

theorem loop_looksAhead (p : Pos) : LooksAhead (loop p) ts := by
  refine .congr (fun us _ => loop_eq p us) ?_
  refine (condition_looksAhead "do" ts).bind fun cond mid hmid => ?_
  exact (ih mid ((condition_advances "do" ts).2 cond mid hmid)).body.map _

theorem count_looksAhead (p : Pos) : LooksAhead (count p) ts := by
  refine .congr (fun us _ => count_eq p us) ?_
  refine (countHead_looksAhead ts).bind fun head mid hmid => ?_
  exact (ih mid ((countHead_advances ts).2 head mid hmid)).body.map _

theorem branch_looksAhead (p : Pos) : LooksAhead (branch p) ts := by
  refine .congr (fun us _ => branch_eq p us) ?_
  refine (condition_looksAhead "then" ts).bind fun cond mid hmid => ?_
  have hlt := (condition_advances "then" ts).2 cond mid hmid
  refine ((ih mid hlt).block _).bind fun stmts mid' hmid' => ?_
  have hle := (stmtProgress mid).block ["elseif", "else", "end"]
  rw [hmid', leaves_ok] at hle
  exact (ih mid' (Nat.lt_of_le_of_lt hle.length_le hlt)).otherwise.map _

theorem stmt_looksAhead : LooksAhead stmt ts := by
  rcases ts with _ | ⟨⟨l, p⟩, ts⟩
  · refine .of_stuck .expression fun us hfront => ?_
    rw [eq_nil_of_head? hfront.1]
    simp [stmt]
  · have ih' : ∀ rest : List Token, rest.length < ts.length → StmtLooksAhead rest :=
      fun rest hlt => ih rest (Nat.lt_succ_of_lt hlt)
    -- the kinds of statements that the first token alone tells to be expressions
    have hexpr (h : ∀ us, stmt (⟨l, p⟩ :: us) = (expression (⟨l, p⟩ :: us)).map (.expr p ·)) :
        LooksAhead stmt (⟨l, p⟩ :: ts) := by
      refine .congr (fun us hhead => ?_) ((expression_looksAhead (⟨l, p⟩ :: ts)).map (.expr p ·))
      obtain ⟨us, rfl⟩ := exists_of_head? hhead
      exact h us
    cases l with
    | number n => exact hexpr fun us => by rw [stmt] <;> nofun
    | symbol s => exact hexpr fun us => by rw [stmt] <;> nofun
    | keyword k =>
      cases k with
      | kwLocal => exact .cons (fun us _ => stmt.eq_1 p us) (declaration_looksAhead p ts)
      | kwFunction => exact .cons (fun us _ => stmt.eq_2 p us) (definition_looksAhead ih' p)
      | kwIf => exact .cons (fun us _ => stmt.eq_3 p us) (branch_looksAhead ih' p)
      | kwWhile => exact .cons (fun us _ => stmt.eq_4 p us) (loop_looksAhead ih' p)
      | kwFor => exact .cons (fun us _ => stmt.eq_5 p us) (count_looksAhead ih' p)
      | _ => exact hexpr fun us => by rw [stmt] <;> nofun
    | ident name =>
      cases hassign : atMark "=" ts with
      | true =>
        obtain ⟨q, ts, rfl⟩ := (atMark_iff (m := .symbol .assign) rfl).mp hassign
        refine .cons (fun us hhead => ?_) (((expect_looksAhead "=" _).bind fun _ mid _ =>
          (expression_looksAhead mid).map (Stmt.assign p name ·)))
        obtain ⟨us, rfl⟩ := exists_of_head? hhead
        rw [stmt]
        rfl
      | false =>
        -- the second token is looked at first, but the identifier is taken in any case
        have hlooks := ((expression_looksAhead (⟨.ident name, p⟩ :: ts)).map (Stmt.expr p ·)).tail
          ((expression_ident_leaves name p ts).map _)
        refine .cons (fun us hhead => ?_) hlooks
        exact stmt_of_startsTerm rfl fun _ => (atMark_congr hhead _).trans hassign

theorem block_looksAhead (stops : List String) : LooksAhead (block stops) ts := by
  have hstops : ∀ us : List Token, ts.head? = us.head? →
      stops.any (atMark · us) = stops.any (atMark · ts) := by
    intro us hhead
    exact congrArg stops.any (funext fun text => atMark_congr hhead text)
  cases hany : stops.any (atMark · ts) with
  | true =>
    refine .of_done [] fun us hhead => ?_
    rw [block_eq, hstops us hhead, if_pos hany]
  | false =>
    cases ts with
    | nil =>
      refine .of_stuck (.marks stops) fun us hfront => ?_
      obtain rfl := eq_nil_of_head? hfront.1
      rw [block_eq, hany]
      rfl
    | cons t ts =>
      refine .congr (fun us hhead => ?_) ((stmt_looksAhead ih).bind fun s mid hmid =>
        ((ih mid ((stmtProgress _).stmt.2 s mid hmid)).block stops).map (s :: ·))
      obtain ⟨us, rfl⟩ := exists_of_head? hhead
      rw [block_eq, hstops (t :: us) rfl, hany]
      rfl

end Statements

theorem otherwise_of_not_atMark {ts : List Token} (hchain : atMark "elseif" ts = false)
    (helse : atMark "else" ts = false) : otherwise ts = (expect "end" ts).map fun _ => none := by
  rw [otherwise.eq_3 _ (fun p rest hts => ?_) (fun p rest hts => ?_)]
  · rw [hts] at hchain
    cases hchain
  · rw [hts] at helse
    cases helse

/-- The productions for statements look no further than they have to. -/
theorem stmtLooksAhead (ts : List Token) : StmtLooksAhead ts := by
  have ih : ∀ rest : List Token, rest.length < ts.length → StmtLooksAhead rest :=
    fun rest _ => stmtLooksAhead rest
  refine ⟨stmt_looksAhead ih, block_looksAhead ih, ?_, branch_looksAhead ih, ?_⟩
  · exact .congr (fun us _ => body.eq_1 us) ((block_looksAhead ih ["end"]).bind fun _ mid _ =>
      (expect_looksAhead "end" mid).map _)
  · cases hchain : atMark "elseif" ts with
    | true =>
      obtain ⟨p, ts, rfl⟩ := (atMark_iff (m := .keyword .kwElseif) rfl).mp hchain
      exact .cons (fun us _ => otherwise.eq_1 p us) (((ih ts (by simp)).branch p).map _)
    | false =>
      cases helse : atMark "else" ts with
      | true =>
        obtain ⟨p, ts, rfl⟩ := (atMark_iff (m := .keyword .kwElse) rfl).mp helse
        exact .cons (fun us _ => otherwise.eq_2 p us) ((ih ts (by simp)).body.map _)
      | false =>
        exact .congr (fun us hhead => otherwise_of_not_atMark
          ((atMark_congr hhead _).trans hchain) ((atMark_congr hhead _).trans helse))
          ((expect_looksAhead "end" ts).map _)
termination_by ts.length

/-- Tokens that are no program are none with other tokens behind the place where they are stuck. -/
theorem statements_looksAhead (ts : List Token) : LooksAhead statements ts := by
  have ih : ∀ rest : List Token, rest.length < ts.length → LooksAhead statements rest :=
    fun rest _ => statements_looksAhead rest
  cases ts with
  | nil =>
    refine .of_done [] fun us hhead => ?_
    rw [eq_nil_of_head? hhead, statements_eq]
    rfl
  | cons t ts =>
    refine .congr (fun us hhead => ?_) ((stmtLooksAhead (t :: ts)).stmt.bind fun s mid hmid =>
      (ih mid ((stmtProgress _).stmt.2 s mid hmid)).map (s :: ·))
    obtain ⟨us, rfl⟩ := exists_of_head? hhead
    rw [statements_eq]
    rfl
termination_by ts.length

end NumScript
