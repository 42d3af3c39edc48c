import NumScript.Codegen.Stmt
import NumScript.Proofs.CExpr.Loop

/-!
# NumScript.Proofs.Codegen.Counting

What the loops count that counting loops are written as. The bounds are constants: numbers, or
variables that keep their value.

With a start and a stop the direction is decided by the bounds, but the counter runs between the
bounds without their fractions. As truncation keeps the order, the two never disagree, and the
counter runs from the one to the other (`twoBounds_visits`). With a stop alone the counter is
compared with the stop itself, so a fraction makes one more round than with a start at zero
(`bounds_agree_iff_whole`, `fractionalStop_bounds_differ`).
-/

namespace NumScript

/-! ### How the headers are read -/

/-- The loop that C reads in the header of a counting loop with a start and a stop. -/
def twoBoundLoop (counter : String) (first stop : CExpr) : CLoop where
  counter := counter
  first := .expr (.cast .int first)
  test := .either (.binary .gt first stop) (.binary .gt (.ident counter) (.cast .int stop))
    (.binary .lt (.ident counter) (.cast .int stop))
  step := .either (.binary .gt first stop) .down .up

/-- The loop that C reads in the header of a counting loop with a stop alone. -/
def oneBoundLoop (counter : String) (stop : CExpr) : CLoop where
  counter := counter
  first := .whole 0
  test := .always (.binary .lt (.ident counter) stop)
  step := .always .up

theorem lexC_step (s : CStep) (cs : List Char) :
    lexC (s.text.toList ++ cs) = (lexC cs).map (.other s.text :: ·) := by
  cases s <;> exact lexC_token (by decide) (readToken_punctuator (by decide) rfl rfl rfl)

theorem lexC_question (cs : List Char) :
    lexC ('?' :: cs) = (lexC cs).map (.other "?" :: ·) :=
  lexC_token (by decide) (readToken_punctuator (by decide) rfl rfl rfl)

theorem lexC_colon (cs : List Char) :
    lexC (':' :: ' ' :: cs) = (lexC cs).map (.other ":" :: ·) := by
  rw [← lexC_blank cs]
  exact lexC_token (by decide) (readToken_punctuator (by decide) rfl rfl rfl)

theorem Lexes.step {x : String} (hx : isCName x = true) (s : CStep) :
    Lexes (x ++ s.text) [.word x, .other s.text] := by
  intro rest _
  have hsign : ∀ c ∈ (s.text.toList ++ rest).head?, isWordChar c = false := by
    intro c hc
    cases s <;> exact Option.some.inj hc ▸ rfl
  rw [String.toList_append, List.append_assoc, lexC_word hx hsign, lexC_step, Option.map_map]
  rfl

/-- A condition and the two parts that it chooses from. -/
theorem CChoice.reads_either {α : Type} {P : List CToken → α → Prop} {t u v : String}
    {ts us vs : List CToken} {cond : CExpr} {yes no : α} (ht : Lexes t ts) (hu : Lexes u us)
    (hv : Lexes v vs) (hcond : CDerives (.upTo topRank) ts cond) (hyes : P us yes)
    (hno : P vs no) : (CChoice.either cond yes no).Reads P (t ++ " ? " ++ u ++ " : " ++ v) := by
  refine ⟨_, ?_, .either hcond hyes hno⟩
  have htext : (t ++ " ? " ++ u ++ " : " ++ v).toList =
      t.toList ++ ' ' :: '?' :: ' ' :: (u.toList ++ ' ' :: ':' :: ' ' :: v.toList) := by simp
  rw [htext, ht _ (separates_cons (by simp) _), lexC_blank, lexC_question, lexC_blank,
    hu _ (separates_cons (by simp) _), lexC_blank, lexC_colon, hv.lexC_toList]
  rfl

section Headers

variable {x t u : String} {e e' : CExpr}

/-- A comparison of operands, as part of a header. -/
theorem Denotes.exists_between (o : COp) (h : Denotes t e) (h' : Denotes u e') :
    ∃ ts, Lexes (t ++ " " ++ o.text ++ " " ++ u) ts ∧
      CDerives (.upTo topRank) ts (.binary o e e') := by
  obtain ⟨ts, hlexes, hderives⟩ := h
  obtain ⟨us, hlexes', hderives'⟩ := h'
  exact ⟨_, hlexes.binary o hlexes', hderives.between o hderives'⟩

theorem countHeader_two_reads (hx : isCName x = true) (hkeyword : x ∉ cKeywords)
    (h : Denotes t e) (h' : Denotes u e') {header : String}
    (hheader : countHeader x [t, u] = .ok header) : ReadsAsLoop header (twoBoundLoop x e e') := by
  have hcounter : Denotes x (.ident x) := .ident hx hkeyword
  have hstop : Denotes ("(int)" ++ u) (.cast .int e') := h'.cast .int
  obtain ⟨ds, hdown, hdown'⟩ := h.exists_between .gt h'
  obtain ⟨gs, habove, habove'⟩ := hcounter.exists_between .gt hstop
  obtain ⟨ls, hbelow, hbelow'⟩ := hcounter.exists_between .lt hstop
  obtain rfl := Except.ok.inj hheader
  refine ⟨"(int)" ++ t, _, _, ?_, hx, hkeyword, .expr (h.cast .int).readsAsC,
    CChoice.reads_either hdown habove hbelow hdown' habove' hbelow',
    CChoice.reads_either hdown (.step hx .down) (.step hx .up) hdown' rfl rfl⟩
  rw [← String.toList_inj]
  simp [twoBoundLoop, countTest, COp.text, CStep.text]

theorem countHeader_one_reads (hx : isCName x = true) (hkeyword : x ∉ cKeywords)
    (h : Denotes t e) {header : String} (hheader : countHeader x [t] = .ok header) :
    ReadsAsLoop header (oneBoundLoop x e) := by
  have hcounter : Denotes x (.ident x) := .ident hx hkeyword
  obtain ⟨ts, hbelow, hbelow'⟩ := hcounter.exists_between .lt h
  obtain rfl := Except.ok.inj hheader
  refine ⟨"0", _, _, ?_, hx, hkeyword, .whole 0, ⟨ts, hbelow.lexC_toList, .always hbelow'⟩,
    _, (Lexes.step hx .up).lexC_toList, .always rfl⟩
  rw [← String.toList_inj]
  simp [oneBoundLoop, COp.text, CStep.text]

end Headers

/-! ### How the headers are written -/

/-- A counting loop with these bounds is written with this header: the header is one line, its body
follows one level deeper, and then its last brace. -/
def Build.WritesCount (var : String) (bounds : List Expr) (header : String) : Prop :=
  ∀ (returns : Bool) (p : Pos) (body : List Stmt),
    Build.stmt returns (.count p var bounds body) = do
      Build.enter p
      Build.line header
      Build.indented (Build.stmts false body)
      Build.line "\x7d"

/-- The header is the one for the texts of the bounds, if these do not depend on the functions that
are defined. -/
theorem Build.writesCount_of_lowerArgs {var header : String} {bounds : List Expr}
    {texts : List String} (hbounds : ∀ names p, lowerArgs names p bounds = .ok texts)
    (hheader : countHeader (safeName var) texts = .ok header) :
    Build.WritesCount var bounds header := by
  intro returns p body
  have hexprs : Build.exprs bounds = pure texts := by
    funext b
    show Build.ofExcept (lowerArgs b.names b.pos bounds) b = _
    rw [hbounds]
    rfl
  rw [Build.stmt, hexprs]
  show (Build.enter p >>= fun _ => Build.ofExcept (countHeader (safeName var) texts) >>= _) = _
  rw [hheader]
  rfl

/-- A counting loop is written with one header. -/
theorem Build.WritesCount.unique {var header header' : String} {bounds : List Expr}
    (h : Build.WritesCount var bounds header) (h' : Build.WritesCount var bounds header') :
    header = header' := by
  -- with an empty body, the header is the first of the two lines that are written
  have hwrite : ∀ {header : String}, Build.WritesCount var bounds header →
      Build.stmt false (.count .nowhere var bounds []) (Builder.start (.empty toString)) =
        .ok () { Builder.start (.empty toString) with
          lines := [String.ofList [] ++ header, String.ofList [] ++ "\x7d"] } := by
    intro header h
    rw [h]
    rfl
  have hlines := (hwrite h).symm.trans (hwrite h')
  simpa using hlines

/-- The counting loop is written with a header that C reads in one way, as a loop that visits these
values and stops with its counter at `last`. -/
def Build.Counts (ρ : CEnv) (var : String) (bounds : List Expr) (values : List Int) (last : Int) :
    Prop :=
  ∃ header loop, Build.WritesCount var bounds header ∧
    (∀ loop', ReadsAsLoop header loop' ↔ loop' = loop) ∧ loop.Visits ρ values last

theorem Build.counts_of_reads {ρ : CEnv} {var header : String} {bounds : List Expr} {loop : CLoop}
    {values : List Int} {last : Int} (hwrites : Build.WritesCount var bounds header)
    (hreads : ReadsAsLoop header loop) (hvisits : loop.Visits ρ values last) :
    Build.Counts ρ var bounds values last :=
  ⟨header, loop, hwrites, fun _ => ⟨fun h => h.unique hreads, fun h => h ▸ hreads⟩, hvisits⟩

theorem Build.Counts.unique {ρ : CEnv} {var : String} {bounds : List Expr}
    {values values' : List Int} {last last' : Int} (h : Build.Counts ρ var bounds values last)
    (h' : Build.Counts ρ var bounds values' last') : values = values' ∧ last = last' := by
  obtain ⟨header, loop, hwrites, hreads, hvisits⟩ := h
  obtain ⟨header', loop', hwrites', hreads', hvisits'⟩ := h'
  obtain rfl := hwrites.unique hwrites'
  obtain rfl := (hreads' loop).mp ((hreads loop).mpr rfl)
  exact hvisits.unique hvisits'

/-! ### Constants -/

/-- The expression is a rational constant for a loop that counts in the variable `var`: a number, or
another variable, which has its value from around the loop. -/
inductive IsConstant (ρ : CEnv) (var : String) : Expr → ℚ → Prop
  | number {v : Double} {q : ℚ} (h : v.rat? = some q) : IsConstant ρ var (.number v) q
  | named {x : String} {q : ℚ} (hname : isCName x = true) (hother : x ≠ var)
      (h : ρ (safeName x) = some (.double q)) : IsConstant ρ var (.ident x) q

theorem Double.eval_lowered {v : Double} {q : ℚ} (h : v.rat? = some q) (ρ : CEnv) :
    v.lowered.eval ρ = some (.double q) := by
  cases v with
  | finite negative m =>
    cases negative with
    | false =>
      obtain rfl := Option.some.inj h
      rfl
    | true =>
      obtain rfl := Option.some.inj h
      rfl
  | infinite negative => cases h
  | nan => cases h

/-- A constant is an operand of C, and has its value whatever the counter is. -/
theorem IsConstant.exists_denotes {ρ : CEnv} {var : String} {e : Expr} {q : ℚ}
    (h : IsConstant ρ var e q) : ∃ text t, (∀ names p, e.lower names p = .ok text) ∧
      Denotes text t ∧ ∀ v, t.eval (Function.update ρ (safeName var) v) = some (.double q) := by
  cases h with
  | @number v _ h =>
    have hv : v ≠ .nan := by
      rintro rfl
      cases h
    exact ⟨_, _, fun _ _ => rfl, Double.literal_denotes hv, fun _ => Double.eval_lowered h _⟩
  | @named x _ hname hother h =>
    have hsafe : safeName x ≠ safeName var := fun heq => hother (safeName_injective heq)
    refine ⟨_, _, fun _ _ => rfl,
      .ident (safeName_isCName hname) (safeName_not_mem_cKeywords x), fun v => ?_⟩
    rw [CExpr.eval, Function.update_of_ne hsafe, h]

/-! ### What the loops do -/

section Loops

variable {ρ : CEnv} {x : String} {e e' : CExpr} {a b : ℚ}

section TwoBounds

variable (he : ∀ v, e.eval (Function.update ρ x v) = some (.double a))
  (he' : ∀ v, e'.eval (Function.update ρ x v) = some (.double b))

include he

theorem twoBoundLoop_start? (ha : FitsInt (truncate a)) :
    (twoBoundLoop x e e').start? ρ = some (truncate a) := by
  have hcast : (CExpr.cast .int e).eval (Function.update ρ x none) = some (.int (truncate a)) :=
    CExpr.eval_cast_int (he none) (checkedInt_of_fits ha)
  show ((CExpr.cast .int e).eval (Function.update ρ x none) >>= _) = _
  rw [hcast]
  rfl

include he'

/-- The direction is decided by the bounds as they are. -/
theorem twoBoundLoop_direction (v : Option CValue) :
    (CExpr.binary .gt e e').eval (Function.update ρ x v) = some (.ofBool (decide (b < a))) :=
  CExpr.eval_binary (he v) (he' v) rfl

theorem twoBoundLoop_next? (n : Int) : (twoBoundLoop x e e').next? ρ n =
    checkedInt (n + (if b < a then CStep.down else .up).amount) := by
  have hpick := CChoice.pick?_either CStep.down CStep.up
    (twoBoundLoop_direction he he' (some (.int n)))
  simp only [decide_eq_true_eq] at hpick
  exact CLoop.next?_of_pick hpick

/-- The counter is compared with the stop without its fraction. -/
theorem twoBoundLoop_goesOn? (hb : FitsInt (truncate b)) (n : Int) :
    (twoBoundLoop x e e').goesOn? ρ n =
      some (if b < a then decide (truncate b < n) else decide (n < truncate b)) := by
  have hcounter := (twoBoundLoop x e e').eval_counter ρ n
  have hcast : (CExpr.cast .int e').eval ((twoBoundLoop x e e').envAt ρ n) =
      some (.int (truncate b)) := CExpr.eval_cast_int (he' _) (checkedInt_of_fits hb)
  have hpick := CChoice.pick?_either (CExpr.binary .gt (.ident x) (.cast .int e'))
    (.binary .lt (.ident x) (.cast .int e')) (twoBoundLoop_direction he he' (some (.int n)))
  simp only [decide_eq_true_eq] at hpick
  split
  · rename_i hdown
    rw [if_pos hdown] at hpick
    exact CLoop.goesOn?_of_pick hpick
      (CExpr.eval_binary hcounter hcast (by simp [COp.holds?, CValue.rat]))
  · rename_i hup
    rw [if_neg hup] at hpick
    exact CLoop.goesOn?_of_pick hpick
      (CExpr.eval_binary hcounter hcast (by simp [COp.holds?, CValue.rat]))

/-- The counter runs from the start to the stop, both without their fractions. -/
theorem twoBoundLoop_visits (ha : FitsInt (truncate a)) (hb : FitsInt (truncate b)) :
    (twoBoundLoop x e e').Visits ρ
      ((if b < a then CStep.down else .up).counts (truncate a) (truncate a - truncate b).natAbs)
      (truncate b) := by
  have hnext := twoBoundLoop_next? he he'
  have htest := twoBoundLoop_goesOn? he he' hb
  by_cases hdown : b < a
  · have hle := truncate_mono hdown.le
    simp only [if_pos hdown] at hnext htest ⊢
    refine CLoop.visits_counts _ ?_ (twoBoundLoop_start? he ha) hnext ha hb fun i hi => ?_
    · simp only [CStep.amount]
      omega
    · rw [htest, Option.some_inj, decide_eq_decide]
      simp only [CStep.amount]
      omega
  · have hle := truncate_mono (not_lt.mp hdown)
    simp only [if_neg hdown] at hnext htest ⊢
    refine CLoop.visits_counts _ ?_ (twoBoundLoop_start? he ha) hnext ha hb fun i hi => ?_
    · simp only [CStep.amount]
      omega
    · rw [htest, Option.some_inj, decide_eq_decide]
      simp only [CStep.amount]
      omega

end TwoBounds

/-- The counter is compared with the stop itself, and runs to the first whole number that is not
below it. -/
theorem oneBoundLoop_visits (he : ∀ v, e.eval (Function.update ρ x v) = some (.double b))
    (hb : 0 ≤ b) (hfits : FitsInt ⌈b⌉) :
    (oneBoundLoop x e).Visits ρ (CStep.up.counts 0 ⌈b⌉.toNat) ⌈b⌉ := by
  have hceil : 0 ≤ ⌈b⌉ := Int.ceil_nonneg hb
  have htest : ∀ n : Int, (oneBoundLoop x e).goesOn? ρ n = some (decide ((n : ℚ) < b)) :=
    fun n => CLoop.goesOn?_of_pick rfl
      (CExpr.eval_binary ((oneBoundLoop x e).eval_counter ρ n) (he _) rfl)
  refine CLoop.visits_counts _ ?_ rfl (fun n => CLoop.next?_of_pick rfl) (by decide) hfits
    fun i hi => ?_
  · simp only [CStep.amount]
    omega
  · rw [htest, Option.some_inj, decide_eq_decide, ← Int.lt_ceil]
    simp only [CStep.amount]
    omega

end Loops

/-! ### What is counted -/

section Counts

variable {ρ : CEnv} {var : String} {first stop : Expr} {a b : ℚ}

theorem IsConstant.counts_two (hvar : isCName var = true) (hfirst : IsConstant ρ var first a)
    (hstop : IsConstant ρ var stop b) (ha : FitsInt (truncate a)) (hb : FitsInt (truncate b)) :
    Build.Counts ρ var [first, stop]
      ((if b < a then CStep.down else .up).counts (truncate a) (truncate a - truncate b).natAbs)
      (truncate b) := by
  obtain ⟨t, e, hlower, hdenotes, heval⟩ := hfirst.exists_denotes
  obtain ⟨u, e', hlower', hdenotes', heval'⟩ := hstop.exists_denotes
  have hlowers : ∀ names p, lowerArgs names p [first, stop] = .ok [t, u] := by
    intro names p
    simp only [lowerArgs, hlower, hlower']
    rfl
  exact Build.counts_of_reads (Build.writesCount_of_lowerArgs hlowers rfl)
    (countHeader_two_reads (safeName_isCName hvar) (safeName_not_mem_cKeywords var) hdenotes
      hdenotes' rfl)
    (twoBoundLoop_visits heval heval' ha hb)

theorem IsConstant.counts_one (hvar : isCName var = true) (hstop : IsConstant ρ var stop b)
    (hb : 0 ≤ b) (hfits : FitsInt ⌈b⌉) :
    Build.Counts ρ var [stop] (CStep.up.counts 0 ⌈b⌉.toNat) ⌈b⌉ := by
  obtain ⟨t, e, hlower, hdenotes, heval⟩ := hstop.exists_denotes
  have hlowers : ∀ names p, lowerArgs names p [stop] = .ok [t] := by
    intro names p
    simp only [lowerArgs, hlower]
    rfl
  exact Build.counts_of_reads (Build.writesCount_of_lowerArgs hlowers rfl)
    (countHeader_one_reads (safeName_isCName hvar) (safeName_not_mem_cKeywords var) hdenotes rfl)
    (oneBoundLoop_visits heval hb hfits)

/-- A counting loop with a start and a stop makes one round for each whole number from the start
toward the stop, both without their fractions, and its counter stays between these. -/
theorem twoBounds_visits (hvar : isCName var = true) (hfirst : IsConstant ρ var first a)
    (hstop : IsConstant ρ var stop b) (ha : FitsInt (truncate a)) (hb : FitsInt (truncate b)) :
    ∃ values, Build.Counts ρ var [first, stop] values (truncate b) ∧
      values.length = (truncate a - truncate b).natAbs ∧
      (b < a → values = CStep.down.counts (truncate a) (truncate a - truncate b).natAbs ∧
        ∀ n, n ∈ values ↔ truncate b < n ∧ n ≤ truncate a) ∧
      (a ≤ b → values = CStep.up.counts (truncate a) (truncate a - truncate b).natAbs ∧
        ∀ n, n ∈ values ↔ truncate a ≤ n ∧ n < truncate b) ∧
      ∀ n ∈ values ++ [truncate b],
        min (truncate a) (truncate b) ≤ n ∧ n ≤ max (truncate a) (truncate b) := by
  have hcounts := hfirst.counts_two hvar hstop ha hb
  rcases lt_or_ge b a with hdown | hup
  · have hle := truncate_mono hdown.le
    rw [if_pos hdown] at hcounts
    have hmem : ∀ n, n ∈ CStep.down.counts (truncate a) (truncate a - truncate b).natAbs ↔
        truncate b < n ∧ n ≤ truncate a := by
      intro n
      rw [CStep.mem_counts_down]
      omega
    refine ⟨_, hcounts, CStep.length_counts .., fun _ => ⟨rfl, hmem⟩,
      fun hup => absurd hdown (not_lt.mpr hup), fun n hn => ?_⟩
    rw [List.mem_append, hmem, List.mem_singleton] at hn
    omega
  · have hle := truncate_mono hup
    rw [if_neg (not_lt.mpr hup)] at hcounts
    have hmem : ∀ n, n ∈ CStep.up.counts (truncate a) (truncate a - truncate b).natAbs ↔
        truncate a ≤ n ∧ n < truncate b := by
      intro n
      rw [CStep.mem_counts_up]
      omega
    refine ⟨_, hcounts, CStep.length_counts .., fun hdown => absurd hdown (not_lt.mpr hup),
      fun _ => ⟨rfl, hmem⟩, fun n hn => ?_⟩
    rw [List.mem_append, hmem, List.mem_singleton] at hn
    omega

end Counts

/-- Two and a half. -/
def twoAndHalf : Double := .ofRatio false 5 2

theorem twoAndHalf_eq : twoAndHalf = .finite false ⟨5 * Nat.pow 2 50, 1023, by decide⟩ := by
  decide +kernel

theorem rat?_twoAndHalf : twoAndHalf.rat? = some (5 / 2) := by
  rw [twoAndHalf_eq]
  exact congrArg some (Magnitude.rat_eq_div (by decide) (by decide +kernel))

theorem rat?_neg_twoAndHalf : twoAndHalf.neg.rat? = some (-(5 / 2)) := by
  rw [Double.rat?_neg, rat?_twoAndHalf]
  rfl

/-- A variable that is worth two and a third. -/
def thirds : CEnv := fun x => if x = "n" then some (.double (7 / 3)) else none

/-- Down across zero, from a variable to a negative number, both with fractions. -/
theorem acrossZero_twoBounds_visits :
    IsConstant thirds "i" (.ident "n") (7 / 3) ∧
      IsConstant thirds "i" (.number twoAndHalf.neg) (-(5 / 2)) ∧
      Build.Counts thirds "i" [.ident "n", .number twoAndHalf.neg] [2, 1, 0, -1] (-2) := by
  have hfirst : IsConstant thirds "i" (.ident "n") (7 / 3) := .named (by decide) (by decide) rfl
  have hstop : IsConstant thirds "i" (.number twoAndHalf.neg) (-(5 / 2)) :=
    .number rat?_neg_twoAndHalf
  have ha : truncate (7 / 3) = 2 := by norm_num [truncate]
  have hb : truncate (-(5 / 2)) = -2 := by norm_num [truncate]
  obtain ⟨values, hcounts, -, hdown, -⟩ :=
    twoBounds_visits (by decide) hfirst hstop (ha ▸ by decide) (hb ▸ by decide)
  rw [(hdown (by norm_num)).1, ha, hb] at hcounts
  exact ⟨hfirst, hstop, hcounts⟩

section FromZero

variable {ρ : CEnv} {var : String} {stop : Expr} {b : ℚ}

/-- With a start at zero the counter runs to the stop without its fraction. -/
theorem IsConstant.counts_zero (hvar : isCName var = true) (hstop : IsConstant ρ var stop b)
    (hb : 0 ≤ b) (hfits : FitsInt (truncate b)) :
    Build.Counts ρ var [.number .zero, stop] (CStep.up.counts 0 (truncate b).toNat)
      (truncate b) := by
  have hzero : IsConstant ρ var (.number .zero) 0 := .number Double.rat?_zero
  have hnonneg : 0 ≤ truncate b := truncate_zero ▸ truncate_mono hb
  have hcounts := hzero.counts_two hvar hstop (truncate_zero ▸ by decide) hfits
  have hlength : (0 - truncate b).natAbs = (truncate b).toNat := by omega
  rwa [if_neg (not_lt.mpr hb), truncate_zero, hlength] at hcounts

/-- With a stop alone a counting loop visits every whole number from zero that is below the stop,
and with a start at zero those that are below it by one or more. It is the same loop exactly if the
stop has no fraction. -/
theorem bounds_agree_iff_whole (hvar : isCName var = true) (hstop : IsConstant ρ var stop b)
    (hb : 0 ≤ b) (hfits : b ≤ 2147483647) :
    Build.Counts ρ var [stop] (CStep.up.counts 0 ⌈b⌉.toNat) ⌈b⌉ ∧
      Build.Counts ρ var [.number .zero, stop] (CStep.up.counts 0 (truncate b).toNat)
        (truncate b) ∧
      (∀ n : Int, n ∈ CStep.up.counts 0 ⌈b⌉.toNat ↔ 0 ≤ n ∧ (n : ℚ) < b) ∧
      (∀ n : Int, n ∈ CStep.up.counts 0 (truncate b).toNat ↔ 0 ≤ n ∧ (n : ℚ) + 1 ≤ b) ∧
      ((∃ values last, Build.Counts ρ var [stop] values last ∧
        Build.Counts ρ var [.number .zero, stop] values last) ↔ b = truncate b) := by
  have hceil : 0 ≤ ⌈b⌉ ∧ ⌈b⌉ ≤ 2147483647 := ⟨Int.ceil_nonneg hb, Int.ceil_le.mpr hfits⟩
  have hfloor : 0 ≤ truncate b ∧ truncate b ≤ ⌈b⌉ := by
    rw [truncate_of_nonneg hb]
    exact ⟨Int.floor_nonneg.mpr hb, Int.floor_le_ceil b⟩
  have hone := hstop.counts_one hvar hb ⟨by omega, by omega⟩
  have hzero := hstop.counts_zero hvar hb ⟨by omega, by omega⟩
  refine ⟨hone, hzero, fun n => ?_, fun n => ?_, ?_⟩
  · rw [CStep.mem_counts_up, ← Int.lt_ceil]
    omega
  · have hbelow : (n : ℚ) + 1 ≤ b ↔ n + 1 ≤ truncate b := by
      rw [truncate_of_nonneg hb, Int.le_floor]
      push_cast
      rfl
    rw [CStep.mem_counts_up, hbelow]
    omega
  · rw [← ceil_eq_truncate_iff hb]
    constructor
    · rintro ⟨values, last, hone', hzero'⟩
      exact (hone.unique hone').2.trans (hzero'.unique hzero).2
    · intro hwhole
      exact ⟨_, _, hone, hwhole ▸ hzero⟩

end FromZero

/-- Both loops visit the same values for a variable that is worth three. -/
theorem wholeStop_bounds_agree :
    IsConstant (fun _ => some (.double 3)) "i" (.ident "n") 3 ∧
      ∃ values last, Build.Counts (fun _ => some (.double 3)) "i" [.ident "n"] values last ∧
        Build.Counts (fun _ => some (.double 3)) "i" [.number .zero, .ident "n"] values last := by
  have hstop : IsConstant (fun _ => some (.double 3)) "i" (.ident "n") 3 :=
    .named (by decide) (by decide) rfl
  obtain ⟨-, -, -, -, hagree⟩ := bounds_agree_iff_whole (by decide) hstop (by norm_num)
    (by norm_num)
  exact ⟨hstop, hagree.mpr (by norm_num [truncate])⟩

/-- Below two and a half there are three whole numbers from zero, but only two rounds are made with
a start at zero. -/
theorem fractionalStop_bounds_differ :
    Build.Counts (fun _ => none) "i" [.number twoAndHalf] [0, 1, 2] 3 ∧
      Build.Counts (fun _ => none) "i" [.number .zero, .number twoAndHalf] [0, 1] 2 ∧
      ¬ ∃ values last, Build.Counts (fun _ => none) "i" [.number twoAndHalf] values last ∧
        Build.Counts (fun _ => none) "i" [.number .zero, .number twoAndHalf] values last := by
  have hstop : IsConstant (fun _ => none) "i" (.number twoAndHalf) (5 / 2) :=
    .number rat?_twoAndHalf
  have hceil : ⌈(5 / 2 : ℚ)⌉ = 3 := by norm_num
  have htruncate : truncate (5 / 2) = 2 := by norm_num [truncate]
  have hone := hstop.counts_one (by decide) (by norm_num) (hceil ▸ by decide)
  have hzero := hstop.counts_zero (by decide) (by norm_num) (htruncate ▸ by decide)
  rw [hceil] at hone
  rw [htruncate] at hzero
  refine ⟨hone, hzero, ?_⟩
  rintro ⟨values, last, hone', hzero'⟩
  have hlast : (3 : Int) = 2 := (hone.unique hone').2.trans (hzero'.unique hzero).2
  exact absurd hlast (by decide)

end NumScript
