import NumScript.Codegen.Name
import NumScript.Number.Double

/-!
# NumScript.Proofs.CExpr.Grammar

The expressions of C, as far as they are needed: identifiers, numbers, calls, unary minus, casts to
`int` and `double`, and the binary operators for numbers. `CDerives` is the grammar, with the ranks
of C's own: a primary expression, an applied one, an expression with prefixes, and four ranks
of binary operators, each of which groups to the left.

The grammar is unambiguous (`CDerives.unique`). This is shown with a reader by recursive descent: it
takes every derivation back to its tree (`CDerives.reads`), and being a function it has one answer.
-/

namespace NumScript

/-! ### Trees and tokens -/

/-- Binary operators of C. -/
inductive COp where
  | mul | div | mod | add | sub | lt | gt | le | ge | eq | ne
deriving DecidableEq, Repr

namespace COp

/-- How an operator is written. -/
def text : COp → String
  | .mul => "*" | .div => "/" | .mod => "%" | .add => "+" | .sub => "-" | .lt => "<" | .gt => ">"
  | .le => "<=" | .ge => ">=" | .eq => "==" | .ne => "!="

/-- The rank of an operator. One of a lower rank binds tighter. -/
def rank : COp → Nat
  | .mul => 1 | .div => 1 | .mod => 1 | .add => 2 | .sub => 2 | .lt => 3 | .gt => 3 | .le => 3
  | .ge => 3 | .eq => 4 | .ne => 4

end COp

/-- The highest rank. -/
def topRank : Nat := 4

/-- Types that a number is cast to. -/
inductive CType where
  | int
  | double
deriving DecidableEq, Repr

/-- How a type is written. -/
def CType.text : CType → String
  | .int => "int"
  | .double => "double"

/-- The type that is written so. -/
def CType.ofText? (text : String) : Option CType :=
  if text = "int" then some .int else if text = "double" then some .double else none

theorem CType.ofText?_text (ty : CType) : ofText? ty.text = some ty := by
  cases ty <;> decide

theorem CType.text_of_ofText? {text : String} {ty : CType} (h : ofText? text = some ty) :
    text = ty.text := by
  unfold ofText? at h
  split at h
  · rename_i htext
    cases h
    exact htext
  · split at h
    · rename_i htext
      cases h
      exact htext
    · cases h

/-- Expressions of C. -/
inductive CExpr where
  | number (value : Double)
  | ident (name : String)
  | call (callee : CExpr) (args : List CExpr)
  | neg (operand : CExpr)
  | cast (type : CType) (operand : CExpr)
  | binary (op : COp) (left right : CExpr)

/-- Tokens of C. A punctuator that no expression above has is `other`. -/
inductive CToken where
  | word (name : String)
  | number (value : Double)
  | op (o : COp)
  | lparen
  | rparen
  | comma
  | other (text : String)
deriving DecidableEq, Repr

/-! ### The grammar -/

/-- What an expression can be without parentheses around it. At rank 0 are expressions with
prefixes, at the others those of binary operators up to that rank. -/
inductive CRank where
  | primary
  | applied
  | upTo (rank : Nat)

mutual

/-- `CDerives r ts e`: the tokens `ts` are the expression `e`, of rank `r`. -/
inductive CDerives : CRank → List CToken → CExpr → Prop
  | ident {name : String} (h : name ∉ cKeywords) : CDerives .primary [.word name] (.ident name)
  | number (value : Double) : CDerives .primary [.number value] (.number value)
  | paren {ts : List CToken} {e : CExpr} (h : CDerives (.upTo topRank) ts e) :
      CDerives .primary (.lparen :: (ts ++ [.rparen])) e
  | applied {ts : List CToken} {e : CExpr} (h : CDerives .primary ts e) : CDerives .applied ts e
  | call {ts us : List CToken} {callee : CExpr} {args : List CExpr}
      (hcallee : CDerives .applied ts callee) (hargs : CDerivesArgs us args) :
      CDerives .applied (ts ++ .lparen :: (us ++ [.rparen])) (.call callee args)
  | unprefixed {ts : List CToken} {e : CExpr} (h : CDerives .applied ts e) : CDerives (.upTo 0) ts e
  | neg {ts : List CToken} {e : CExpr} (h : CDerives (.upTo 0) ts e) :
      CDerives (.upTo 0) (.op .sub :: ts) (.neg e)
  | cast (type : CType) {ts : List CToken} {e : CExpr} (h : CDerives (.upTo 0) ts e) :
      CDerives (.upTo 0) (.lparen :: .word type.text :: .rparen :: ts) (.cast type e)
  | tighter {n : Nat} {ts : List CToken} {e : CExpr} (h : CDerives (.upTo n) ts e) :
      CDerives (.upTo (n + 1)) ts e
  | binary {n : Nat} {o : COp} (ho : o.rank = n + 1) {ts us : List CToken} {left right : CExpr}
      (hleft : CDerives (.upTo (n + 1)) ts left) (hright : CDerives (.upTo n) us right) :
      CDerives (.upTo (n + 1)) (ts ++ .op o :: us) (.binary o left right)

/-- The tokens are the arguments, with commas between them. -/
inductive CDerivesArgs : List CToken → List CExpr → Prop
  | nil : CDerivesArgs [] []
  | single {ts : List CToken} {e : CExpr} (h : CDerives (.upTo topRank) ts e) : CDerivesArgs ts [e]
  | cons {ts us : List CToken} {e e' : CExpr} {es : List CExpr} (h : CDerives (.upTo topRank) ts e)
      (hrest : CDerivesArgs us (e' :: es)) : CDerivesArgs (ts ++ .comma :: us) (e :: e' :: es)

end

/-! ### Recursive descent -/

/-- The type of a cast whose opening parenthesis has been read. -/
def castType? : List CToken → Option CType
  | .word name :: .rparen :: _ => CType.ofText? name
  | _ => none

/-- What has been read of the tokens `ts`, at least one of them, and what is left of them. -/
structure Taken (α : Type) (ts : List CToken) where
  value : α
  rest : List CToken
  shorter : rest.length < ts.length

/-- What has been read, if that was a token at least. -/
def taken? {α : Type} (ts : List CToken) : Option (α × List CToken) → Option (Taken α ts)
  | some (value, rest) => if h : rest.length < ts.length then some ⟨value, rest, h⟩ else none
  | none => none

theorem taken?_some {α : Type} {ts rest : List CToken} (value : α)
    (h : rest.length < ts.length) : taken? ts (some (value, rest)) = some ⟨value, rest, h⟩ :=
  dif_pos h

mutual

/-- Reads an expression with prefixes. -/
def readPrefixed (ts : List CToken) : Option (CExpr × List CToken) :=
  match ts with
  | .op .sub :: ts => do
    let (e, rest) ← readPrefixed ts
    return (.neg e, rest)
  | .lparen :: ts =>
    match castType? ts with
    | some type => do
      let (e, rest) ← readPrefixed (ts.drop 2)
      return (.cast type e, rest)
    | none =>
      match taken? ts (readUpTo topRank ts) with
      | some ⟨e, .rparen :: rest, _⟩ => readCalls e rest
      | _ => none
  | .word name :: ts => if name ∈ cKeywords then none else readCalls (.ident name) ts
  | .number value :: ts => readCalls (.number value) ts
  | _ => none
termination_by (ts.length, 0)
decreasing_by
  all_goals
    apply Prod.Lex.left
    simp only [List.length_cons, List.length_drop] at *
    omega

/-- Reads the calls behind a callee. -/
def readCalls (callee : CExpr) (ts : List CToken) : Option (CExpr × List CToken) :=
  match ts with
  | .lparen :: ts => do
    let ⟨args, rest, _⟩ ← taken? ts (readArgs ts)
    readCalls (.call callee args) rest
  | ts => some (callee, ts)
termination_by (ts.length, 0)

/-- Reads arguments and the parenthesis behind them. -/
def readArgs (ts : List CToken) : Option (List CExpr × List CToken) :=
  match ts with
  | .rparen :: ts => some ([], ts)
  | ts =>
    match taken? ts (readUpTo topRank ts) with
    | some ⟨e, .rparen :: rest, _⟩ => some ([e], rest)
    | some ⟨e, .comma :: rest, _⟩ => do
      let (es, rest) ← readArgs rest
      return (e :: es, rest)
    | _ => none
termination_by (ts.length, topRank + 2)
decreasing_by
  · exact Prod.Lex.right _ (by decide)
  · apply Prod.Lex.left
    simp only [List.length_cons] at *
    omega

/-- Reads an expression with binary operators up to a rank. -/
def readUpTo (n : Nat) (ts : List CToken) : Option (CExpr × List CToken) :=
  match n with
  | 0 => readPrefixed ts
  | n + 1 => do
    let ⟨e, rest, _⟩ ← taken? ts (readUpTo n ts)
    readOperators n e rest
termination_by (ts.length, n + 1)

/-- Reads the operators of rank `n + 1` behind a left operand. -/
def readOperators (n : Nat) (left : CExpr) (ts : List CToken) : Option (CExpr × List CToken) :=
  match ts with
  | .op o :: ts =>
    if o.rank = n + 1 then do
      let ⟨right, rest, _⟩ ← taken? ts (readUpTo n ts)
      readOperators n (.binary o left right) rest
    else some (left, .op o :: ts)
  | ts => some (left, ts)
termination_by (ts.length, 0)

end

section

variable {ts rest : List CToken} {e : CExpr}

theorem readPrefixed_cast (type : CType) (h : readPrefixed ts = some (e, rest)) :
    readPrefixed (.lparen :: .word type.text :: .rparen :: ts) = some (.cast type e, rest) := by
  have htype : castType? (.word type.text :: .rparen :: ts) = some type := CType.ofText?_text type
  rw [readPrefixed, htype]
  show (readPrefixed ts >>= _) = _
  rw [h]
  rfl

theorem readPrefixed_paren (hcast : castType? ts = none)
    (h : readUpTo topRank ts = some (e, .rparen :: rest))
    (hlt : (CToken.rparen :: rest).length < ts.length) :
    readPrefixed (.lparen :: ts) = readCalls e rest := by
  rw [readPrefixed, hcast, h, taken?_some e hlt]

theorem readCalls_call (callee : CExpr) {args : List CExpr} (h : readArgs ts = some (args, rest))
    (hlt : rest.length < ts.length) :
    readCalls callee (.lparen :: ts) = readCalls (.call callee args) rest := by
  rw [readCalls, h, taken?_some args hlt]
  rfl

theorem readCalls_stop {callee : CExpr} (h : ts.head? ≠ some .lparen) :
    readCalls callee ts = some (callee, ts) := by
  rw [readCalls]
  intro us hts
  exact h (hts ▸ rfl)

theorem readUpTo_succ {n : Nat} (h : readUpTo n ts = some (e, rest))
    (hlt : rest.length < ts.length) : readUpTo (n + 1) ts = readOperators n e rest := by
  rw [readUpTo, h, taken?_some e hlt]
  rfl

theorem readOperators_next {n : Nat} {o : COp} (ho : o.rank = n + 1) (left : CExpr)
    (h : readUpTo n ts = some (e, rest)) (hlt : rest.length < ts.length) :
    readOperators n left (.op o :: ts) = readOperators n (.binary o left e) rest := by
  rw [readOperators, if_pos ho, h, taken?_some e hlt]
  rfl

theorem readOperators_stop {n : Nat} {left : CExpr}
    (h : ∀ o, ts.head? = some (.op o) → o.rank ≠ n + 1) :
    readOperators n left ts = some (left, ts) := by
  by_cases hop : ∃ o us, ts = .op o :: us
  · obtain ⟨o, us, rfl⟩ := hop
    rw [readOperators, if_neg (h o rfl)]
  · rw [readOperators]
    intro o us hts
    exact hop ⟨o, us, hts⟩

theorem readArgs_last (hts : ts.head? ≠ some .rparen)
    (h : readUpTo topRank ts = some (e, .rparen :: rest))
    (hlt : (CToken.rparen :: rest).length < ts.length) : readArgs ts = some ([e], rest) := by
  rw [readArgs]
  · rw [h, taken?_some e hlt]
  · intro us hus
    exact hts (hus ▸ rfl)

theorem readArgs_comma {rest' : List CToken} {es : List CExpr} (hts : ts.head? ≠ some .rparen)
    (h : readUpTo topRank ts = some (e, .comma :: rest))
    (hlt : (CToken.comma :: rest).length < ts.length) (hrest : readArgs rest = some (es, rest')) :
    readArgs ts = some (e :: es, rest') := by
  rw [readArgs]
  · rw [h, taken?_some e hlt]
    show (readArgs rest >>= _) = _
    rw [hrest]
    rfl
  · intro us hus
    exact hts (hus ▸ rfl)

end

/-! ### Derivations are read -/

/-- What is read of tokens that start with an expression of the rank. -/
def readRank : CRank → List CToken → Option (CExpr × List CToken)
  | .primary, ts => readPrefixed ts
  | .applied, ts => readPrefixed ts
  | .upTo n, ts => readUpTo n ts

/-- What is read once an expression of the rank has been read. -/
def readBehind : CRank → CExpr → List CToken → Option (CExpr × List CToken)
  | .primary, e, ts => readCalls e ts
  | .applied, e, ts => readCalls e ts
  | .upTo 0, e, ts => some (e, ts)
  | .upTo (n + 1), e, ts => readOperators n e ts

/-- The tokens cannot continue an expression that is an operand at the rank. -/
def Follows : CRank → List CToken → Prop
  | .primary, _ => True
  | .applied, _ => True
  | .upTo n, ts => ts.head? ≠ some .lparen ∧ ∀ o, ts.head? = some (.op o) → n ≤ o.rank

theorem Follows.tighter {n : Nat} {ts : List CToken} (h : Follows (.upTo (n + 1)) ts) :
    Follows (.upTo n) ts :=
  ⟨h.1, fun o ho => Nat.le_of_succ_le (h.2 o ho)⟩

/-- Before something that has to follow a wider expression, a tighter one is complete. -/
theorem readBehind_of_follows {n : Nat} {e : CExpr} {ts : List CToken}
    (h : Follows (.upTo (n + 1)) ts) : readBehind (.upTo n) e ts = some (e, ts) := by
  cases n with
  | zero => rfl
  | succ n => exact readOperators_stop fun o ho => Nat.ne_of_gt (h.2 o ho)

/-- No expression starts with the name of a type or a closing parenthesis. -/
theorem CDerives.exists_head {r : CRank} {ts : List CToken} {e : CExpr} (h : CDerives r ts e) :
    ∃ t us, ts = t :: us ∧ t ≠ .rparen ∧ ∀ type : CType, t ≠ .word type.text := by
  match h with
  | @CDerives.ident name hname =>
    refine ⟨.word name, [], rfl, by simp, ?_⟩
    intro type htype
    cases htype
    exact hname (by cases type <;> decide)
  | .number value => exact ⟨.number value, [], rfl, by simp, by simp⟩
  | .paren _ => exact ⟨.lparen, _, rfl, by simp, by simp⟩
  | .applied h => exact h.exists_head
  | .call hcallee _ =>
    obtain ⟨t, us, rfl, ht⟩ := hcallee.exists_head
    exact ⟨t, _, rfl, ht⟩
  | .unprefixed h => exact h.exists_head
  | .neg _ => exact ⟨.op .sub, _, rfl, by simp, by simp⟩
  | .cast _ _ => exact ⟨.lparen, _, rfl, by simp, by simp⟩
  | .tighter h => exact h.exists_head
  | .binary _ hleft _ =>
    obtain ⟨t, us, rfl, ht⟩ := hleft.exists_head
    exact ⟨t, _, rfl, ht⟩

theorem CDerives.castType?_eq_none {r : CRank} {ts : List CToken} {e : CExpr} (h : CDerives r ts e)
    (rest : List CToken) : castType? (ts ++ rest) = none := by
  obtain ⟨t, us, rfl, -, ht⟩ := h.exists_head
  unfold castType?
  split
  · rename_i name _ heq
    obtain ⟨rfl, -⟩ := List.cons.inj heq
    cases hname : CType.ofText? name with
    | none => rfl
    | some type => exact absurd (CType.text_of_ofText? hname ▸ rfl) (ht type)
  · rfl

theorem CDerives.length_lt_append {r : CRank} {ts : List CToken} {e : CExpr} (h : CDerives r ts e)
    (rest : List CToken) : rest.length < (ts ++ rest).length := by
  obtain ⟨t, us, rfl, -, -⟩ := h.exists_head
  simp only [List.cons_append, List.length_cons, List.length_append]
  omega

theorem CDerives.head?_ne_rparen {r : CRank} {ts : List CToken} {e : CExpr} (h : CDerives r ts e)
    (rest : List CToken) : (ts ++ rest).head? ≠ some .rparen := by
  obtain ⟨t, us, rfl, ht, -⟩ := h.exists_head
  simpa using ht

mutual

/-- The reader takes a derivation back to its tree. -/
theorem CDerives.reads {r : CRank} {ts : List CToken} {e : CExpr} (h : CDerives r ts e)
    (rest : List CToken) (hrest : Follows r rest) :
    readRank r (ts ++ rest) = readBehind r e rest := by
  match h with
  | .ident hname =>
    show readPrefixed (.word _ :: rest) = readCalls _ rest
    rw [readPrefixed, if_neg hname]
  | .number value =>
    show readPrefixed (.number value :: rest) = readCalls _ rest
    rw [readPrefixed]
  | @CDerives.paren ts e h =>
    have hinner : readUpTo topRank (ts ++ .rparen :: rest) = some (e, .rparen :: rest) :=
      (h.reads (.rparen :: rest) ⟨by simp, by simp⟩).trans (readOperators_stop (by simp))
    show readPrefixed (.lparen :: (ts ++ [.rparen] ++ rest)) = readCalls _ rest
    rw [List.append_assoc, List.singleton_append]
    exact readPrefixed_paren (h.castType?_eq_none _) hinner (h.length_lt_append _)
  | .applied h => exact h.reads rest trivial
  | @CDerives.call ts us callee args hcallee hargs =>
    have hinner := hcallee.reads (.lparen :: (us ++ .rparen :: rest)) trivial
    show readPrefixed (ts ++ .lparen :: (us ++ [.rparen]) ++ rest) = readCalls _ rest
    have htokens : ts ++ .lparen :: (us ++ [.rparen]) ++ rest =
        ts ++ .lparen :: (us ++ .rparen :: rest) := by simp
    rw [htokens]
    refine hinner.trans ?_
    refine readCalls_call callee (hargs.reads rest) ?_
    rw [List.length_append, List.length_cons]
    omega
  | @CDerives.unprefixed ts e h =>
    show readUpTo 0 (ts ++ rest) = some (e, rest)
    rw [readUpTo]
    exact (h.reads rest trivial).trans (readCalls_stop hrest.1)
  | @CDerives.neg ts e h =>
    have hinner : readUpTo 0 (ts ++ rest) = some (e, rest) := h.reads rest hrest
    rw [readUpTo] at hinner
    show readUpTo 0 (.op .sub :: (ts ++ rest)) = some (.neg e, rest)
    rw [readUpTo, readPrefixed]
    show (readPrefixed (ts ++ rest) >>= _) = _
    rw [hinner]
    rfl
  | @CDerives.cast type ts e h =>
    have hinner : readUpTo 0 (ts ++ rest) = some (e, rest) := h.reads rest hrest
    rw [readUpTo] at hinner
    show readUpTo 0 (.lparen :: .word type.text :: .rparen :: (ts ++ rest)) =
      some (.cast type e, rest)
    rw [readUpTo]
    exact readPrefixed_cast type hinner
  | @CDerives.tighter n ts e h =>
    have hinner : readUpTo n (ts ++ rest) = some (e, rest) :=
      (h.reads rest hrest.tighter).trans (readBehind_of_follows hrest)
    exact readUpTo_succ hinner (h.length_lt_append rest)
  | @CDerives.binary n o ho ts us left right hleft hright =>
    have hfollows : Follows (.upTo (n + 1)) (.op o :: (us ++ rest)) := by
      refine ⟨by simp, ?_⟩
      intro o' ho'
      cases ho'
      exact Nat.le_of_eq ho.symm
    have hfirst := hleft.reads (.op o :: (us ++ rest)) hfollows
    have hsecond : readUpTo n (us ++ rest) = some (right, rest) :=
      (hright.reads rest hrest.tighter).trans (readBehind_of_follows hrest)
    show readUpTo (n + 1) (ts ++ .op o :: us ++ rest) = readOperators n (.binary o left right) rest
    rw [List.append_assoc, List.cons_append]
    refine hfirst.trans ?_
    exact readOperators_next ho left hsecond (hright.length_lt_append rest)

theorem CDerivesArgs.reads {ts : List CToken} {es : List CExpr} (h : CDerivesArgs ts es)
    (rest : List CToken) : readArgs (ts ++ .rparen :: rest) = some (es, rest) := by
  match h with
  | .nil => rw [List.nil_append, readArgs]
  | @CDerivesArgs.single ts e h =>
    have hinner : readUpTo topRank (ts ++ .rparen :: rest) = some (e, .rparen :: rest) :=
      (h.reads (.rparen :: rest) ⟨by simp, by simp⟩).trans (readOperators_stop (by simp))
    exact readArgs_last (h.head?_ne_rparen _) hinner (h.length_lt_append _)
  | @CDerivesArgs.cons ts us e e' es h hrest =>
    have hinner : readUpTo topRank (ts ++ .comma :: (us ++ .rparen :: rest)) =
        some (e, .comma :: (us ++ .rparen :: rest)) :=
      (h.reads (.comma :: (us ++ .rparen :: rest)) ⟨by simp, by simp⟩).trans
        (readOperators_stop (by simp))
    rw [List.append_assoc, List.cons_append]
    exact readArgs_comma (h.head?_ne_rparen _) hinner (h.length_lt_append _) (hrest.reads rest)

end

/-- Tokens are one expression at most. -/
theorem CDerives.unique {n : Nat} {ts : List CToken} {e e' : CExpr} (h : CDerives (.upTo n) ts e)
    (h' : CDerives (.upTo n) ts e') : e = e' := by
  have hend : ∀ {e : CExpr}, CDerives (.upTo n) ts e → readUpTo n ts = some (e, []) := by
    intro e h
    have hread := (h.reads [] ⟨by simp, by simp⟩).trans
      (readBehind_of_follows ⟨by simp, by simp⟩ : readBehind (.upTo n) e [] = _)
    rw [List.append_nil] at hread
    exact hread
  have heq := (hend h).symm.trans (hend h')
  exact (Prod.mk.inj (Option.some.inj heq)).1

end NumScript
