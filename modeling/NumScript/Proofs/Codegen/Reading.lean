import NumScript.Proofs.CExpr.Lexer
import NumScript.Proofs.Codegen.Lowered

/-!
# NumScript.Proofs.Codegen.Reading

C reads the text of an expression as the tree that the expression is lowered to, and as nothing else
(`Expr.lower_reads`).

Wherever the text of an expression is put, it is an operand: no operator in it but a minus sign is
outside of parentheses. This is `Denotes`, and it is kept by every way to put texts together.
-/

namespace NumScript

/-- C reads the whole text as the expression. -/
def ReadsAsC (text : String) (e : CExpr) : Prop :=
  ∃ ts, lexC text.toList = some ts ∧ CDerives (.upTo topRank) ts e

/-- C reads a text in one way at most. -/
theorem ReadsAsC.unique {text : String} {e e' : CExpr} (h : ReadsAsC text e)
    (h' : ReadsAsC text e') : e = e' := by
  obtain ⟨ts, hlex, hderives⟩ := h
  obtain ⟨ts', hlex', hderives'⟩ := h'
  obtain rfl : ts = ts' := Option.some.inj (hlex.symm.trans hlex')
  exact hderives.unique hderives'

/-! ### Operands -/

theorem CDerives.upTo_le {n m : Nat} {ts : List CToken} {e : CExpr} (h : CDerives (.upTo n) ts e)
    (hle : n ≤ m) : CDerives (.upTo m) ts e := by
  induction hle with
  | refl => exact h
  | step _ ih => exact .tighter ih

/-- An operator between operands is an expression. -/
theorem CDerives.between {ts us : List CToken} {e e' : CExpr} (o : COp)
    (h : CDerives (.upTo 0) ts e) (h' : CDerives (.upTo 0) us e') :
    CDerives (.upTo topRank) (ts ++ .op o :: us) (.binary o e e') := by
  obtain ⟨n, hrank, htop⟩ : ∃ n, o.rank = n + 1 ∧ n + 1 ≤ topRank := by
    cases o <;> exact ⟨_, rfl, by decide⟩
  have hbinary : CDerives (.upTo (n + 1)) (ts ++ .op o :: us) (.binary o e e') :=
    .binary hrank (h.upTo_le (Nat.zero_le _)) (h'.upTo_le (Nat.zero_le _))
  exact hbinary.upTo_le htop

theorem cDerivesArgs_of_forall₂ {tss : List (List CToken)} {es : List CExpr}
    (h : List.Forall₂ (CDerives (.upTo 0)) tss es) :
    CDerivesArgs ([.comma].intercalate tss) es := by
  induction h with
  | nil => exact .nil
  | cons hfirst hrest ih =>
    cases hrest with
    | nil =>
      rw [List.intercalate_singleton]
      exact .single (hfirst.upTo_le (Nat.zero_le _))
    | cons hsecond hrest =>
      rw [List.intercalate_cons_cons, List.append_assoc]
      exact .cons (hfirst.upTo_le (Nat.zero_le _)) ih

/-- The text is the expression in C, also as an operand. -/
def Denotes (text : String) (e : CExpr) : Prop :=
  ∃ ts, Lexes text ts ∧ CDerives (.upTo 0) ts e

namespace Denotes

variable {t u : String} {e e' : CExpr}

theorem readsAsC (h : Denotes t e) : ReadsAsC t e := by
  obtain ⟨ts, hlexes, hderives⟩ := h
  exact ⟨ts, hlexes.lexC_toList, hderives.upTo_le (Nat.zero_le _)⟩

/-- The text may be put together in another way. -/
theorem of_toList (h : Denotes t e) (hu : u.toList = t.toList) : Denotes u e :=
  String.toList_inj.mp hu ▸ h

theorem ident (h : isCName t = true) (hkeyword : t ∉ cKeywords) : Denotes t (.ident t) :=
  ⟨_, .word h, .unprefixed (.applied (.ident hkeyword))⟩

theorem number (m : Magnitude) :
    Denotes (String.ofList (m.text .standard)) (.number (.finite false m)) :=
  ⟨_, .number m, .unprefixed (.applied (.number _))⟩

theorem neg (h : Denotes t e) {c : Char} {cs : List Char} (ht : t.toList = c :: cs)
    (hc : isWordChar c = true) : Denotes ("-" ++ t) (.neg e) := by
  obtain ⟨ts, hlexes, hderives⟩ := h
  exact ⟨_, hlexes.minus ht hc, .neg hderives⟩

/-- In parentheses there may be any expression. -/
theorem paren_of_lexes {ts : List CToken} (hlexes : Lexes t ts)
    (hderives : CDerives (.upTo topRank) ts e) : Denotes ("(" ++ t ++ ")") e :=
  ⟨_, hlexes.paren, .unprefixed (.applied (.paren hderives))⟩

theorem paren (h : Denotes t e) : Denotes ("(" ++ t ++ ")") e := by
  obtain ⟨ts, hlexes, hderives⟩ := h
  exact paren_of_lexes hlexes (hderives.upTo_le (Nat.zero_le _))

theorem cast (type : CType) (h : Denotes t e) :
    Denotes ("(" ++ type.text ++ ")" ++ t) (.cast type e) := by
  obtain ⟨ts, hlexes, hderives⟩ := h
  exact ⟨_, hlexes.cast type, .cast type hderives⟩

/-- An operator is always put into parentheses with its operands. -/
theorem binary (o : COp) (h : Denotes t e) (h' : Denotes u e') :
    Denotes ("(" ++ (t ++ " " ++ o.text ++ " " ++ u) ++ ")") (.binary o e e') := by
  obtain ⟨ts, hlexes, hderives⟩ := h
  obtain ⟨us, hlexes', hderives'⟩ := h'
  exact paren_of_lexes (hlexes.binary o hlexes') (hderives.between o hderives')

theorem call (h : isCName t = true) (hkeyword : t ∉ cKeywords) {args : List String}
    {es : List CExpr} (hargs : List.Forall₂ Denotes args es) :
    Denotes (t ++ "(" ++ ", ".intercalate args ++ ")") (.call (.ident t) es) := by
  obtain ⟨tss, hlexes, hderives⟩ : ∃ tss, List.Forall₂ Lexes args tss ∧
      List.Forall₂ (CDerives (.upTo 0)) tss es := by
    induction hargs with
    | nil => exact ⟨[], .nil, .nil⟩
    | cons harg _ ih =>
      obtain ⟨ts, hlexes, hderives⟩ := harg
      obtain ⟨tss, hlexes', hderives'⟩ := ih
      exact ⟨ts :: tss, .cons hlexes hlexes', .cons hderives hderives'⟩
  have hcall : CDerives .applied ([.word t] ++ .lparen :: ([.comma].intercalate tss ++ [.rparen]))
      (.call (.ident t) es) :=
    .call (.applied (.ident hkeyword)) (cDerivesArgs_of_forall₂ hderives)
  exact ⟨_, .call h hlexes, .unprefixed hcall⟩

end Denotes

/-! ### Numbers and operators -/

theorem infinityName_denotes : Denotes infinityName (.ident infinityName) :=
  .ident (by decide) (by decide)

theorem Magnitude.neg_text_denotes (m : Magnitude) :
    Denotes (String.ofList ('-' :: m.text .standard)) (.neg (.number (.finite false m))) := by
  obtain ⟨t, hchars, -, -⟩ := m.exists_parts .standard
  obtain ⟨d, ds, hwhole⟩ := List.exists_cons_of_ne_nil t.whole_ne_nil
  have hd : d.isDigit = true := List.all_eq_true.mp t.whole_digits d (by simp [hwhole])
  have htext : (String.ofList (m.text .standard)).toList =
      d :: (ds ++ (t.fractionChars ++ t.exponentChars)) := by
    rw [String.toList_ofList, hchars, DecimalParts.chars, hwhole]
    rfl
  exact ((Denotes.number m).neg htext (isWordChar_of_isDigit hd)).of_toList (by simp)

/-- A number is read as what it is lowered to. -/
theorem Double.literal_denotes {v : Double} (hv : v ≠ .nan) : Denotes v.literal v.lowered := by
  cases v with
  | nan => exact absurd rfl hv
  | infinite negative =>
    cases negative with
    | false => exact infinityName_denotes
    | true =>
      have hneg : Denotes ("-" ++ infinityName) (.neg (.ident infinityName)) :=
        infinityName_denotes.neg rfl (by decide)
      exact hneg.paren
  | finite negative m =>
    cases negative with
    | false => exact Denotes.number m
    | true =>
      -- the text of negative zero has a minus sign too, but no parentheses
      have hneg : Denotes (finite true m).text (.neg (.number (.finite false m))) :=
        m.neg_text_denotes
      rw [literal]
      · split
        · exact hneg.paren
        · exact hneg
      · intro negative h
        cases h

theorem Operator.apply_denotes (o : Operator) {left right : String} {l r : CExpr}
    (hl : Denotes left l) (hr : Denotes right r) :
    Denotes (o.apply left right) (o.lowered l r) := by
  cases o with
  | pow =>
    have hargs : List.Forall₂ Denotes [left, right] [l, r] := .cons hl (.cons hr .nil)
    exact (Denotes.call (t := "pow") (by decide) (by decide) hargs).of_toList (by simp [apply])
  | div =>
    exact ((hl.cast .double).binary .div hr).of_toList (by simp [apply, CType.text, COp.text])
  | mod =>
    exact ((hl.cast .int).binary .mod (hr.cast .int)).of_toList
      (by simp [apply, CType.text, COp.text])
  | add | sub | mul | leq | geq | lt | gt | eq | neq =>
    exact (hl.binary _ hr).of_toList (by simp [apply, text, COp.text])

/-! ### Expressions -/

mutual

/-- An expression that has a meaning in C has a text and a tree, and the text is read as the
tree. -/
theorem Expr.exists_denotes {names : NameTable} (hnames : names.IsNumbered) (p : Pos) :
    ∀ {e : Expr}, e.isReadable names = true → ∃ text t, e.lower names p = .ok text ∧
      e.lowered names = some t ∧ Denotes text t
  | .number v, he => ⟨_, _, rfl, rfl, Double.literal_denotes (bne_iff_ne.mp he)⟩
  | .ident x, he => by
    rw [Expr.isReadable, Bool.and_eq_true] at he
    exact ⟨_, _, rfl, rfl, .ident (safeName_isCName he.1) (safeName_not_mem_cKeywords x)⟩
  | .call name args, he => by
    rw [Expr.isReadable, Bool.and_eq_true] at he
    obtain ⟨d, hd, harity⟩ := (Option.any_eq_true _ _).mp he.1
    obtain ⟨texts, ts, htexts, hts, hargs⟩ := exists_denotesArgs hnames p he.2
    have hmem := (NameTable.mem_of_find? hd).1
    refine ⟨d.symbol ++ "(" ++ ", ".intercalate texts ++ ")", .call (.ident d.symbol) ts, ?_, ?_,
      .call (hnames.symbol_isCName hmem) (hnames.symbol_not_mem_cKeywords hmem) hargs⟩
    · rw [Expr.lower, hd]
      show (if d.arity = args.length then _ else _) = _
      rw [if_pos (of_decide_eq_true harity), htexts]
      rfl
    · rw [Expr.lowered, hd, hts]
      rfl
  | .binary o left right, he => by
    rw [Expr.isReadable, Bool.and_eq_true] at he
    obtain ⟨text, t, htext, ht, hdenotes⟩ := Expr.exists_denotes hnames p he.1
    obtain ⟨text', t', htext', ht', hdenotes'⟩ := Expr.exists_denotes hnames p he.2
    refine ⟨o.apply text text', o.lowered t t', ?_, ?_, o.apply_denotes hdenotes hdenotes'⟩
    · rw [Expr.lower, htext, htext']
      rfl
    · rw [Expr.lowered, ht, ht']
      rfl
  | .pair _ _, he => by cases he
  | .hole, he => by cases he

theorem exists_denotesArgs {names : NameTable} (hnames : names.IsNumbered) (p : Pos) :
    ∀ {es : List Expr}, readableArgs names es = true → ∃ texts ts,
      lowerArgs names p es = .ok texts ∧ loweredArgs names es = some ts ∧
      List.Forall₂ Denotes texts ts
  | [], _ => ⟨[], [], rfl, rfl, .nil⟩
  | e :: es, he => by
    rw [readableArgs, Bool.and_eq_true] at he
    obtain ⟨text, t, htext, ht, hdenotes⟩ := Expr.exists_denotes hnames p he.1
    obtain ⟨texts, ts, htexts, hts, hdenotes'⟩ := exists_denotesArgs hnames p he.2
    refine ⟨text :: texts, t :: ts, ?_, ?_, .cons hdenotes hdenotes'⟩
    · rw [lowerArgs, htext, htexts]
      rfl
    · rw [loweredArgs, ht, hts]
      rfl

end

/-- An expression that has a meaning in C is written as a text that C reads as the tree that the
expression is lowered to, and as no other tree; and no other such expression is written as the same
text. -/
theorem Expr.lower_reads {names : NameTable} (hnames : names.IsNumbered) (p : Pos) {e : Expr}
    (he : e.isReadable names = true) :
    ∃ text t, e.lower names p = .ok text ∧ e.lowered names = some t ∧
      (∀ t', ReadsAsC text t' ↔ t' = t) ∧
      ∀ e' : Expr, e'.isReadable names = true → e'.lower names p = .ok text → e' = e := by
  obtain ⟨text, t, htext, ht, hdenotes⟩ := Expr.exists_denotes hnames p he
  refine ⟨text, t, htext, ht, ?_, ?_⟩
  · intro t'
    constructor
    · intro hreads
      exact hreads.unique hdenotes.readsAsC
    · rintro rfl
      exact hdenotes.readsAsC
  · intro e' he' htext'
    obtain ⟨text', t', htext'', ht', hdenotes'⟩ := Expr.exists_denotes hnames p he'
    obtain rfl : text' = text := Except.ok.inj (htext''.symm.trans htext')
    obtain rfl : t' = t := hdenotes'.readsAsC.unique hdenotes.readsAsC
    exact Expr.lowered_injective hnames he' he ht' ht

/-- A call of a function of two parameters, on a remainder of negative numbers and on a power. -/
def signedCall : Expr :=
  .call "g"
    [.binary .mod (.number (.finite true .zero))
      (.number (.finite true ⟨5629499534213120, 1023, by decide⟩)),
     .binary .pow (.binary .div (.ident "x") (.ident "int")) (.number (.infinite true))]

/-- The text and the tree of a call where every operand could be regrouped. -/
theorem signedCall_lower_reads :
    ∃ names, (NameTable.empty NameTable.counting).define "g" 2 ⟨1, 1⟩ = .ok ("f1_g", names) ∧
      names.IsNumbered ∧ signedCall.isReadable names = true ∧
      ∃ t, signedCall.lowered names = some t ∧ ∀ t',
        ReadsAsC "f1_g(((int)-0.0 % (int)(-2.5)), pow(((double)x / v_int), (-HUGE_VAL)))" t' ↔
          t' = t := by
  have hdefine : (NameTable.empty NameTable.counting).define "g" 2 ⟨1, 1⟩ =
      .ok ("f1_g", ⟨NameTable.counting, [⟨"g", "f1_g", 2, ⟨1, 1⟩⟩]⟩) := by
    with_unfolding_all rfl
  have hnumbered := NameTable.isNumbered_empty.define hdefine (by decide)
  have hreadable :
      signedCall.isReadable ⟨NameTable.counting, [⟨"g", "f1_g", 2, ⟨1, 1⟩⟩]⟩ = true := by
    decide +kernel
  refine ⟨_, hdefine, hnumbered, hreadable, ?_⟩
  obtain ⟨text, t, htext, ht, hreads, -⟩ := Expr.lower_reads hnumbered ⟨2, 1⟩ hreadable
  have hlower : signedCall.lower ⟨NameTable.counting, [⟨"g", "f1_g", 2, ⟨1, 1⟩⟩]⟩ ⟨2, 1⟩ =
      .ok "f1_g(((int)-0.0 % (int)(-2.5)), pow(((double)x / v_int), (-HUGE_VAL)))" := by
    decide +kernel
  rw [hlower] at htext
  cases htext
  exact ⟨t, ht, hreads⟩

end NumScript
