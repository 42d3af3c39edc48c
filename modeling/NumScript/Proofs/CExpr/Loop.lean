import NumScript.Proofs.CExpr.Value
import NumScript.Proofs.Codegen.Reading

/-!
# NumScript.Proofs.CExpr.Loop

Counting loops of C: how C reads the header of one, and what it does. A header is taken apart at its
semicolons into a counter with its first value, a test and a step; the last two may be chosen by a
condition. C reads a header in one way at most (`ReadsAsLoop.unique`), because no part of it can
have a semicolon in it (`semicolon_not_mem_of_lexC`).

A loop is run on states that its body changes in each round. The body may look at the counter, but
it does not assign it. What a run does is determined (`CLoop.Runs.unique`), and a loop whose counter
always takes the same step makes one round for each value up to the first one at which the test
fails (`CLoop.visits_counts`).
-/

namespace NumScript

/-! ### Headers -/

/-- A part of a header, or two of them of which a condition chooses one. -/
inductive CChoice (α : Type) where
  | always (a : α)
  | either (cond : CExpr) (yes no : α)

/-- What a loop does to its counter behind each round. -/
inductive CStep where
  | up
  | down

/-- The first value of a counter: an integer constant or an expression. -/
inductive CStart where
  | whole (n : Nat)
  | expr (e : CExpr)

/-- The header of a counting loop. -/
@[ext]
structure CLoop where
  counter : String
  first : CStart
  test : CChoice CExpr
  step : CChoice CStep

/-! ### How C reads a header -/

/-- The tokens are the choice, if `P` says which tokens its parts are. -/
inductive CChoice.Derives {α : Type} (P : List CToken → α → Prop) : List CToken → CChoice α → Prop
  | always {ts : List CToken} {a : α} (h : P ts a) : Derives P ts (.always a)
  | either {ts us vs : List CToken} {cond : CExpr} {yes no : α}
      (hcond : CDerives (.upTo topRank) ts cond) (hyes : P us yes) (hno : P vs no) :
      Derives P (ts ++ .other "?" :: (us ++ .other ":" :: vs)) (.either cond yes no)

/-- How a step is written behind the counter. -/
def CStep.text : CStep → String
  | .up => "++"
  | .down => "--"

/-- The tokens are the step of a counter. -/
def CStep.Derives (counter : String) (ts : List CToken) (s : CStep) : Prop :=
  ts = [.word counter, .other s.text]

/-- C reads the text as the first value of a counter. -/
inductive CStart.Reads : String → CStart → Prop
  | whole (n : Nat) : Reads (String.ofList (natDigits n)) (.whole n)
  | expr {text : String} {e : CExpr} (h : ReadsAsC text e) : Reads text (.expr e)

/-- C reads the text as the choice, if `P` says which tokens its parts are. -/
def CChoice.Reads {α : Type} (P : List CToken → α → Prop) (text : String) (c : CChoice α) : Prop :=
  ∃ ts, lexC text.toList = some ts ∧ c.Derives P ts

/-- C reads the text as the header of a counting loop, with the brace that begins its body. -/
def ReadsAsLoop (text : String) (loop : CLoop) : Prop :=
  ∃ first test step : String,
    text = "for (int " ++ loop.counter ++ " = " ++ first ++ "; " ++ test ++ "; " ++ step
      ++ ") \x7b" ∧
    isCName loop.counter = true ∧ loop.counter ∉ cKeywords ∧ loop.first.Reads first ∧
    loop.test.Reads (CDerives (.upTo topRank)) test ∧
    loop.step.Reads (CStep.Derives loop.counter) step

/-! ### A semicolon is a token of its own -/

theorem semicolon_not_mem_of_all_isWordChar {cs : List Char} (h : cs.all isWordChar = true) :
    ';' ∉ cs :=
  fun hmem => absurd (List.all_eq_true.mp h ';' hmem) (by decide)

theorem numberTail_append (behindMark : Bool) (cs : List Char) :
    cs = (numberTail behindMark cs).1 ++ (numberTail behindMark cs).2 ∧
      ';' ∉ (numberTail behindMark cs).1 := by
  induction cs generalizing behindMark with
  | nil => exact ⟨rfl, List.not_mem_nil⟩
  | cons c cs ih =>
    rw [numberTail]
    split
    · rename_i hc
      obtain ⟨hsplit, hbody⟩ := ih (c == 'e' || c == 'E' || c == 'p' || c == 'P')
      refine ⟨congrArg (c :: ·) hsplit, ?_⟩
      rw [List.mem_cons, not_or]
      refine ⟨?_, hbody⟩
      rintro rfl
      cases behindMark <;> exact absurd hc (by decide)
    · exact ⟨rfl, List.not_mem_nil⟩

theorem semicolon_punctuators : ∀ p ∈ punctuators, p.1.toList ≠ [] ∧
    (';' ∈ p.1.toList → p.2 = .other ";") := by
  decide +kernel

/-- A semicolon of the text is the token that is read, or is left behind it. -/
theorem readToken_semicolon {c : Char} {cs rest : List Char} {t : CToken}
    (h : readToken c cs = some (t, rest)) (hmem : ';' ∈ c :: cs) :
    t = .other ";" ∨ ';' ∈ rest := by
  -- the text is what has been read and the rest, so what has been read must have no semicolon
  have hbehind : ∀ {read : List Char}, c :: cs = read ++ rest → ';' ∉ read → ';' ∈ rest := by
    intro read hsplit hread
    rw [hsplit] at hmem
    exact (List.mem_append.mp hmem).resolve_left hread
  unfold readToken at h
  split at h
  · rename_i hc
    obtain ⟨-, rfl⟩ := Prod.mk.inj (Option.some.inj h)
    refine .inr (@hbehind (c :: cs.takeWhile isWordChar) ?_ ?_)
    · rw [List.cons_append, List.takeWhile_append_dropWhile]
    · refine semicolon_not_mem_of_all_isWordChar ?_
      rw [List.all_cons, List.all_takeWhile, isWordChar, hc]
      rfl
  · split at h
    · rename_i hstart
      obtain ⟨value, -, heq⟩ := Option.map_eq_some_iff.mp h
      obtain ⟨-, rfl⟩ := Prod.mk.inj heq
      obtain ⟨hsplit, hbody⟩ := numberTail_append false cs
      refine .inr (@hbehind (c :: (numberTail false cs).1) ?_ ?_)
      · rw [List.cons_append, ← hsplit]
      · rw [List.mem_cons, not_or]
        refine ⟨?_, hbody⟩
        rintro rfl
        rcases isDigit_or_point_of_startsWithNumeral hstart with hdigit | hpoint
        · exact absurd hdigit (by decide)
        · exact absurd hpoint (by decide)
    · obtain ⟨p, hp, heq⟩ := Option.map_eq_some_iff.mp h
      obtain ⟨rfl, rfl⟩ := Prod.mk.inj heq
      obtain ⟨hne, hsemicolon⟩ := semicolon_punctuators p (List.mem_of_find?_eq_some hp)
      have hstarts : p.1.toList <+: c :: cs := by
        rw [punctuator?] at hp
        simpa using List.find?_some hp
      by_cases htext : ';' ∈ p.1.toList
      · exact .inl (hsemicolon htext)
      · refine .inr (@hbehind p.1.toList ?_ htext)
        obtain ⟨d, ds, hchars⟩ := List.exists_cons_of_ne_nil hne
        obtain ⟨rest, hrest⟩ := hstarts
        rw [hchars, List.cons_append] at hrest
        obtain ⟨rfl, rfl⟩ := List.cons.inj hrest
        rw [hchars]
        simp

/-- Where no token is a semicolon there is none in the text. -/
theorem semicolon_not_mem_of_lexC {cs : List Char} {ts : List CToken} (h : lexC cs = some ts)
    (hts : .other ";" ∉ ts) : ';' ∉ cs := by
  fun_induction lexC cs generalizing ts with
  | case1 => exact List.not_mem_nil
  | case2 c cs hc ih =>
    rw [List.mem_cons, not_or]
    refine ⟨?_, ih h hts⟩
    rintro rfl
    exact absurd hc (by decide)
  | case3 => cases h
  | case4 c cs hc t rest hread ih =>
    obtain ⟨us, hus, rfl⟩ := Option.map_eq_some_iff.mp h
    rw [List.mem_cons, not_or] at hts
    intro hmem
    rcases readToken_semicolon hread hmem with rfl | hrest
    · exact hts.1 rfl
    · exact ih hus hts.2 hrest

mutual

/-- All tokens of an expression are among those that expressions are made of. -/
theorem CDerives.other_not_mem {r : CRank} {ts : List CToken} {e : CExpr} (h : CDerives r ts e)
    (text : String) : .other text ∉ ts := by
  match h with
  | .ident _ => simp
  | .number _ => simp
  | .paren h => simpa using h.other_not_mem text
  | .applied h => exact h.other_not_mem text
  | .call hcallee hargs =>
    simpa using ⟨hcallee.other_not_mem text, hargs.other_not_mem text⟩
  | .unprefixed h => exact h.other_not_mem text
  | .neg h => simpa using h.other_not_mem text
  | .cast _ h => simpa using h.other_not_mem text
  | .tighter h => exact h.other_not_mem text
  | .binary _ hleft hright =>
    simpa using ⟨hleft.other_not_mem text, hright.other_not_mem text⟩

theorem CDerivesArgs.other_not_mem {ts : List CToken} {es : List CExpr} (h : CDerivesArgs ts es)
    (text : String) : .other text ∉ ts := by
  match h with
  | .nil => exact List.not_mem_nil
  | .single h => exact h.other_not_mem text
  | .cons h hrest => simpa using ⟨h.other_not_mem text, hrest.other_not_mem text⟩

end

/-! ### One reading at most -/

/-- Two lists that are equal are split alike at the first place of an element. -/
theorem append_cons_cancel {α : Type} {a : α} {xs ys rest rest' : List α} (hxs : a ∉ xs)
    (hys : a ∉ ys) (h : xs ++ a :: rest = ys ++ a :: rest') : xs = ys ∧ rest = rest' := by
  rcases List.append_eq_append_iff.mp h with ⟨zs, rfl, hzs⟩ | ⟨zs, rfl, hzs⟩
  all_goals
    cases zs with
    | nil =>
      rw [List.append_nil]
      exact ⟨rfl, by simpa [eq_comm] using hzs⟩
    | cons z zs =>
      obtain ⟨rfl, -⟩ := List.cons.inj hzs
      simp at hxs hys

/-- The parts of a choice are told apart by their tokens, and have neither of its signs in them. -/
structure IsPart {α : Type} (P : List CToken → α → Prop) : Prop where
  unique : ∀ {ts : List CToken} {a a' : α}, P ts a → P ts a' → a = a'
  unsigned : ∀ {ts : List CToken} {a : α}, P ts a →
    .other "?" ∉ ts ∧ .other ":" ∉ ts ∧ .other ";" ∉ ts

theorem isPart_cDerives : IsPart (CDerives (.upTo topRank)) where
  unique h h' := h.unique h'
  unsigned h := ⟨h.other_not_mem _, h.other_not_mem _, h.other_not_mem _⟩

theorem isPart_cStep (counter : String) : IsPart (CStep.Derives counter) where
  unique {ts s s'} h h' := by
    have htext : s.text = s'.text := by simpa using h.symm.trans h'
    cases s <;> cases s' <;> first | rfl | exact absurd htext (by decide)
  unsigned {ts s} h := by
    rw [h]
    cases s <;> simp [CStep.text]

namespace CChoice.Derives

variable {α : Type} {P : List CToken → α → Prop} {ts : List CToken} {c c' : CChoice α}

theorem unique (hP : IsPart P) (h : c.Derives P ts) (h' : c'.Derives P ts) : c = c' := by
  cases h with
  | always h =>
    generalize hts : ts = ts' at h'
    cases h' with
    | always h' =>
      subst hts
      rw [hP.unique h h']
    | either =>
      subst hts
      exact absurd (by simp) (hP.unsigned h).1
  | @either ts us vs cond yes no hcond hyes hno =>
    generalize hts : ts ++ .other "?" :: (us ++ .other ":" :: vs) = ts' at h'
    cases h' with
    | always h' =>
      subst hts
      exact absurd (by simp) (hP.unsigned h').1
    | either hcond' hyes' hno' =>
      obtain ⟨rfl, hrest⟩ :=
        append_cons_cancel (hcond.other_not_mem _) (hcond'.other_not_mem _) hts
      obtain ⟨rfl, rfl⟩ :=
        append_cons_cancel (hP.unsigned hyes).2.1 (hP.unsigned hyes').2.1 hrest
      rw [hcond.unique hcond', hP.unique hyes hyes', hP.unique hno hno']

theorem semicolon_not_mem (hP : IsPart P) (h : c.Derives P ts) : .other ";" ∉ ts := by
  cases h with
  | always h => exact (hP.unsigned h).2.2
  | either hcond hyes hno =>
    simpa using ⟨hcond.other_not_mem ";", (hP.unsigned hyes).2.2, (hP.unsigned hno).2.2⟩

end CChoice.Derives

/-- A part of a header has no semicolon, and is read in one way at most. -/
theorem CChoice.Reads.semicolon_not_mem {α : Type} {P : List CToken → α → Prop} (hP : IsPart P)
    {text : String} {c : CChoice α} (h : c.Reads P text) : ';' ∉ text.toList := by
  obtain ⟨ts, hlex, hderives⟩ := h
  exact semicolon_not_mem_of_lexC hlex (hderives.semicolon_not_mem hP)

theorem CChoice.Reads.unique {α : Type} {P : List CToken → α → Prop} (hP : IsPart P)
    {text : String} {c c' : CChoice α} (h : c.Reads P text) (h' : c'.Reads P text) : c = c' := by
  obtain ⟨ts, hlex, hderives⟩ := h
  obtain ⟨ts', hlex', hderives'⟩ := h'
  obtain rfl : ts = ts' := Option.some.inj (hlex.symm.trans hlex')
  exact hderives.unique hP hderives'

/-- An integer constant is no expression of doubles. -/
theorem lexC_natDigits (n : Nat) : lexC (natDigits n) = none := by
  obtain ⟨d, ds, hdigits⟩ := List.exists_cons_of_ne_nil (natDigits_ne_nil n)
  have hall := isDigit_natDigits n
  rw [hdigits] at hall ⊢
  have hd : d.isDigit = true ∧ ds.all Char.isDigit = true := by simpa using hall
  have htail : numberTail false ds = (ds, []) := by
    have htail := numberTail_digits hd.2 []
    rwa [List.append_nil, numberTail, List.append_nil] at htail
  have hfloating : floating? (d :: ds) = none := by
    refine if_neg ?_
    rw [Bool.not_eq_true, List.any_eq_false]
    intro c hc hmark
    have hdigit := List.all_eq_true.mp hall c hc
    simp only [Bool.or_eq_true, beq_iff_eq] at hmark
    rcases hmark with (rfl | rfl) | rfl <;> exact absurd hdigit (by decide)
  have hword : isWordStart d = false := by
    refine Bool.eq_false_iff.mpr fun hstart => ?_
    rw [isDigit_of_isWordStart hstart] at hd
    cases hd.1
  have hread : readToken d ds = none := by
    rw [readToken, if_neg (by simp [hword]), if_pos (startsWithNumeral_of_isDigit hd.1 ds), htail,
      hfloating]
    rfl
  have hblank := isWhitespace_of_isWordChar (isWordChar_of_isDigit hd.1)
  rw [lexC, if_neg (by simp [hblank])]
  split
  · rfl
  · rename_i hsome
    rw [hread] at hsome
    cases hsome

namespace CStart.Reads

variable {text : String} {s s' : CStart}

theorem unique (h : s.Reads text) (h' : s'.Reads text) : s = s' := by
  cases h with
  | whole n =>
    generalize htext : String.ofList (natDigits n) = text' at h'
    cases h' with
    | whole m =>
      have hdigits := congrArg natOfDigits (String.ofList_inj.mp htext)
      rw [natOfDigits_natDigits, natOfDigits_natDigits] at hdigits
      rw [hdigits]
    | expr h' =>
      subst htext
      obtain ⟨ts, hlex, -⟩ := h'
      rw [String.toList_ofList, lexC_natDigits] at hlex
      cases hlex
  | expr h =>
    cases h' with
    | whole m =>
      obtain ⟨ts, hlex, -⟩ := h
      rw [String.toList_ofList, lexC_natDigits] at hlex
      cases hlex
    | expr h' => rw [h.unique h']

theorem semicolon_not_mem (h : s.Reads text) : ';' ∉ text.toList := by
  cases h with
  | whole n =>
    rw [String.toList_ofList]
    intro hmem
    exact absurd (List.all_eq_true.mp (isDigit_natDigits n) _ hmem) (by decide)
  | expr h =>
    obtain ⟨ts, hlex, hderives⟩ := h
    exact semicolon_not_mem_of_lexC hlex (hderives.other_not_mem ";")

end CStart.Reads

/-- C reads a header in one way at most. -/
theorem ReadsAsLoop.unique {text : String} {loop loop' : CLoop} (h : ReadsAsLoop text loop)
    (h' : ReadsAsLoop text loop') : loop = loop' := by
  obtain ⟨a, b, c, rfl, hname, -, ha, hb, hc⟩ := h
  obtain ⟨a', b', c', htext, hname', -, ha', hb', hc'⟩ := h'
  have hblank : ∀ {name : String}, isCName name = true → ' ' ∉ name.toList := fun hname hmem =>
    absurd (List.all_eq_true.mp (isCName.all_isWordChar hname) _ hmem) (by decide)
  have hchars : loop.counter.toList ++ ' ' :: '=' :: ' ' :: (a.toList ++ ';' :: ' ' ::
        (b.toList ++ ';' :: ' ' :: (c.toList ++ [')', ' ', '\x7b']))) =
      loop'.counter.toList ++ ' ' :: '=' :: ' ' :: (a'.toList ++ ';' :: ' ' ::
        (b'.toList ++ ';' :: ' ' :: (c'.toList ++ [')', ' ', '\x7b']))) := by
    simpa using congrArg String.toList htext
  -- the name of the counter ends at the first blank, the other parts at semicolons
  obtain ⟨hx, hchars⟩ := append_cons_cancel (hblank hname) (hblank hname') hchars
  obtain ⟨hfirst, hchars⟩ := append_cons_cancel ha.semicolon_not_mem ha'.semicolon_not_mem
    (List.cons.inj (List.cons.inj hchars).2).2
  obtain ⟨htest, hchars⟩ := append_cons_cancel (hb.semicolon_not_mem isPart_cDerives)
    (hb'.semicolon_not_mem isPart_cDerives) (List.cons.inj hchars).2
  have hstep := List.append_cancel_right (List.cons.inj hchars).2
  obtain rfl := String.toList_inj.mp hfirst
  obtain rfl := String.toList_inj.mp htest
  obtain rfl := String.toList_inj.mp hstep
  have hcounter : loop.counter = loop'.counter := String.toList_inj.mp hx
  rw [← hcounter] at hc'
  exact CLoop.ext hcounter (ha.unique ha') (hb.unique isPart_cDerives hb')
    (hc.unique (isPart_cStep _) hc')

/-! ### Running a loop -/

/-- The one of two that the condition chooses. -/
def CChoice.pick? {α : Type} (ρ : CEnv) : CChoice α → Option α
  | .always a => some a
  | .either cond yes no => (cond.eval ρ).map fun v => if v.isTrue then yes else no

theorem CChoice.pick?_either {α : Type} {ρ : CEnv} {cond : CExpr} {b : Bool} (yes no : α)
    (h : cond.eval ρ = some (.ofBool b)) :
    (CChoice.either cond yes no).pick? ρ = some (if b then yes else no) := by
  rw [pick?, h, Option.map_some, CValue.isTrue_ofBool]

/-- What a step adds to the counter. -/
def CStep.amount : CStep → Int
  | .up => 1
  | .down => -1

/-- The first value as an `int`. -/
def CStart.value? (ρ : CEnv) : CStart → Option Int
  | .whole n => checkedInt n
  | .expr e => do
    let v ← e.eval ρ
    v.toInt?

namespace CLoop

variable (loop : CLoop) (ρ : CEnv)

/-- The variables while the counter is `n`. The others do not change while the loop runs. -/
def envAt (n : Int) : CEnv := Function.update ρ loop.counter (some (.int n))

/-- The counter in the beginning. It has no value itself while its first value is computed. -/
def start? : Option Int := loop.first.value? (Function.update ρ loop.counter none)

/-- Whether the test holds while the counter is `n`. -/
def goesOn? (n : Int) : Option Bool := do
  let test ← loop.test.pick? (loop.envAt ρ n)
  let v ← test.eval (loop.envAt ρ n)
  return v.isTrue

/-- The counter in the round behind the one in which it is `n`. -/
def next? (n : Int) : Option Int := do
  let step ← loop.step.pick? (loop.envAt ρ n)
  checkedInt (n + step.amount)

/-- `loop.Rounds ρ body n s visited last s'`: with the counter at `n` and the state `s`, the loop
makes a round for each of the values `visited` of its counter, in each of which `body` changes the
state, and stops with the counter at `last` and the state `s'`. -/
inductive Rounds {S : Type} (body : Int → S → S) : Int → S → List Int → Int → S → Prop
  | stop {n : Int} (s : S) (htest : loop.goesOn? ρ n = some false) : Rounds body n s [] n s
  | round {n n' last : Int} {s s' : S} {visited : List Int}
      (htest : loop.goesOn? ρ n = some true) (hnext : loop.next? ρ n = some n')
      (h : Rounds body n' (body n s) visited last s') :
      Rounds body n s (n :: visited) last s'

/-- From the state `s`, the loop makes a round for each of the values `visited` of its counter and
stops with the counter at `last` and the state `s'`. -/
def Runs {S : Type} (body : Int → S → S) (s : S) (visited : List Int) (last : Int) (s' : S) :
    Prop :=
  ∃ n, loop.start? ρ = some n ∧ loop.Rounds ρ body n s visited last s'

end CLoop

section Runs

variable {loop : CLoop} {ρ : CEnv} {S : Type} {body : Int → S → S}

theorem CLoop.eval_counter (loop : CLoop) (ρ : CEnv) (n : Int) :
    (CExpr.ident loop.counter).eval (loop.envAt ρ n) = some (.int n) := by
  rw [CExpr.eval, envAt, Function.update_self]

theorem CLoop.goesOn?_of_pick {n : Int} {test : CExpr} {b : Bool}
    (hpick : loop.test.pick? (loop.envAt ρ n) = some test)
    (htest : test.eval (loop.envAt ρ n) = some (.ofBool b)) : loop.goesOn? ρ n = some b := by
  rw [goesOn?, hpick]
  show (test.eval (loop.envAt ρ n) >>= _) = _
  rw [htest]
  exact congrArg some (CValue.isTrue_ofBool b)

theorem CLoop.next?_of_pick {n : Int} {step : CStep}
    (hpick : loop.step.pick? (loop.envAt ρ n) = some step) :
    loop.next? ρ n = checkedInt (n + step.amount) := by
  rw [next?, hpick]
  rfl

theorem CLoop.Rounds.unique {n last last' : Int} {s t t' : S} {visited visited' : List Int}
    (h : loop.Rounds ρ body n s visited last t) (h' : loop.Rounds ρ body n s visited' last' t') :
    visited = visited' ∧ last = last' ∧ t = t' := by
  induction h generalizing visited' with
  | stop s htest =>
    cases h' with
    | stop => exact ⟨rfl, rfl, rfl⟩
    | round htest' => cases htest.symm.trans htest'
  | round htest hnext _ ih =>
    cases h' with
    | stop _ htest' => cases htest.symm.trans htest'
    | round htest' hnext' h' =>
      obtain rfl := Option.some.inj (hnext.symm.trans hnext')
      obtain ⟨rfl, rfl, rfl⟩ := ih h'
      exact ⟨rfl, rfl, rfl⟩

/-- A loop runs in one way at most. -/
theorem CLoop.Runs.unique {last last' : Int} {s t t' : S} {visited visited' : List Int}
    (h : loop.Runs ρ body s visited last t) (h' : loop.Runs ρ body s visited' last' t') :
    visited = visited' ∧ last = last' ∧ t = t' := by
  obtain ⟨n, hn, hrounds⟩ := h
  obtain ⟨n', hn', hrounds'⟩ := h'
  obtain rfl := Option.some.inj (hn.symm.trans hn')
  exact hrounds.unique hrounds'

end Runs

/-! ### Counting -/

/-- The first `k` values of a counter that starts at `n`. -/
def CStep.counts (step : CStep) (n : Int) (k : Nat) : List Int :=
  (List.range k).map fun i : Nat => n + step.amount * i

theorem CStep.counts_succ (step : CStep) (n : Int) (k : Nat) :
    step.counts n (k + 1) = n :: step.counts (n + step.amount) k := by
  rw [counts, List.range_succ_eq_map, List.map_cons, List.map_map]
  refine congrArg₂ _ (by simp) (List.map_congr_left fun i _ => ?_)
  show n + step.amount * (i + 1 : Nat) = n + step.amount + step.amount * i
  push_cast
  ring

theorem CStep.length_counts (step : CStep) (n : Int) (k : Nat) :
    (step.counts n k).length = k := by
  rw [counts, List.length_map, List.length_range]

theorem CStep.mem_counts_up {n i : Int} {k : Nat} : i ∈ up.counts n k ↔ n ≤ i ∧ i < n + k := by
  simp only [counts, amount, List.mem_map, List.mem_range]
  constructor
  · rintro ⟨j, hj, rfl⟩
    omega
  · intro hi
    exact ⟨(i - n).toNat, by omega, by omega⟩

theorem CStep.mem_counts_down {n i : Int} {k : Nat} :
    i ∈ down.counts n k ↔ n - k < i ∧ i ≤ n := by
  simp only [counts, amount, List.mem_map, List.mem_range]
  constructor
  · rintro ⟨j, hj, rfl⟩
    omega
  · intro hi
    exact ⟨(n - i).toNat, by omega, by omega⟩

namespace CLoop

/-- Whatever its body does, the loop makes one round for each of the values, in this order, and
stops with its counter at `last`. -/
def Visits (loop : CLoop) (ρ : CEnv) (values : List Int) (last : Int) : Prop :=
  ∀ (S : Type) (body : Int → S → S) (s s' : S) (visited : List Int) (n : Int),
    loop.Runs ρ body s visited n s' ↔
      visited = values ∧ n = last ∧ s' = values.foldl (fun s i => body i s) s

variable {loop : CLoop} {ρ : CEnv} {step : CStep}

/-- A loop visits what it visits, and nothing else. -/
theorem Visits.unique {values values' : List Int} {last last' : Int}
    (h : loop.Visits ρ values last) (h' : loop.Visits ρ values' last') :
    values = values' ∧ last = last' := by
  have hrun := (h Unit (fun _ s => s) () () values last).mpr ⟨rfl, rfl, rfl⟩
  obtain ⟨hvalues, hlast, -⟩ := (h' Unit (fun _ s => s) () () values last).mp hrun
  exact ⟨hvalues, hlast⟩

/-- A round for each step, as long as the test holds. -/
theorem rounds_counts {S : Type} {body : Int → S → S}
    (hnext : ∀ i, loop.next? ρ i = checkedInt (i + step.amount)) (k : Nat) {n : Int}
    (hfits : FitsInt n) (hlast : FitsInt (n + step.amount * k))
    (htest : ∀ i : Nat, i ≤ k → loop.goesOn? ρ (n + step.amount * i) = some (decide (i < k)))
    (s : S) :
    loop.Rounds ρ body n s (step.counts n k) (n + step.amount * k)
      ((step.counts n k).foldl (fun s i => body i s) s) := by
  induction k generalizing n s with
  | zero =>
    have hhere := htest 0 (Nat.le_refl 0)
    simp only [Nat.cast_zero, mul_zero, add_zero] at hhere ⊢
    exact .stop s hhere
  | succ k ih =>
    have hmove : ∀ i : Nat, n + step.amount * (i + 1 : Nat) =
        n + step.amount + step.amount * i := by
      intro i
      push_cast
      ring
    have hhere : loop.goesOn? ρ n = some true := by
      simpa using htest 0 (Nat.zero_le _)
    -- the next value is on the way to the last one, so an `int` holds it too
    have hfits' : FitsInt (n + step.amount) := by
      unfold FitsInt at hfits hlast ⊢
      cases step <;> simp only [CStep.amount] at hlast ⊢ <;> omega
    rw [step.counts_succ, hmove]
    refine .round hhere (by rw [hnext, checkedInt_of_fits hfits']) (ih hfits' ?_ ?_ (body n s))
    · rw [← hmove]
      exact hlast
    · intro i hi
      rw [← hmove, htest (i + 1) (Nat.succ_le_succ hi)]
      simp

/-- A loop visits the values of its counter up to the first one at which the test fails. -/
theorem visits_counts {n last : Int} (k : Nat) (hk : n + step.amount * k = last)
    (hstart : loop.start? ρ = some n)
    (hnext : ∀ i, loop.next? ρ i = checkedInt (i + step.amount)) (hfits : FitsInt n)
    (hlast : FitsInt last)
    (htest : ∀ i : Nat, i ≤ k → loop.goesOn? ρ (n + step.amount * i) = some (decide (i < k))) :
    loop.Visits ρ (step.counts n k) last := by
  intro S body s s' visited stopped
  have hrun : loop.Runs ρ body s (step.counts n k) last
      ((step.counts n k).foldl (fun s i => body i s) s) := by
    subst hk
    exact ⟨n, hstart, rounds_counts hnext k hfits hlast htest s⟩
  constructor
  · intro hrun'
    exact hrun'.unique hrun
  · rintro ⟨rfl, rfl, rfl⟩
    exact hrun

end CLoop

end NumScript
