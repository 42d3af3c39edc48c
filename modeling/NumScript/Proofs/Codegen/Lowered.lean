import NumScript.Codegen.Expr
import NumScript.Proofs.CExpr.Grammar
import NumScript.Proofs.Codegen.Growth
import NumScript.Proofs.Codegen.Name

/-!
# NumScript.Proofs.Codegen.Lowered

The C expression that an expression is lowered to, as a tree. `^` becomes a call of `pow`, a
quotient is one of doubles and a remainder one of integers; the other operators become those of C.
A number below zero becomes the negative of its size.

Distinct expressions are lowered to distinct trees (`Expr.lowered_injective`).
-/

namespace NumScript

/-! ### Lowered trees -/

/-- The name of infinity. -/
def infinityName : String := "HUGE_VAL"

/-- A number as a tree. -/
def Double.lowered : Double → CExpr
  | .finite false magnitude => .number (.finite false magnitude)
  | .finite true magnitude => .neg (.number (.finite false magnitude))
  | .infinite false => .ident infinityName
  | .infinite true => .neg (.ident infinityName)
  | .nan => .ident "nan"

/-- An application of an operator as a tree. -/
def Operator.lowered (o : Operator) (left right : CExpr) : CExpr :=
  match o with
  | .pow => .call (.ident "pow") [left, right]
  | .div => .binary .div (.cast .double left) right
  | .mod => .binary .mod (.cast .int left) (.cast .int right)
  | .add => .binary .add left right
  | .sub => .binary .sub left right
  | .mul => .binary .mul left right
  | .leq => .binary .le left right
  | .geq => .binary .ge left right
  | .lt => .binary .lt left right
  | .gt => .binary .gt left right
  | .eq => .binary .eq left right
  | .neq => .binary .ne left right

mutual

/-- An expression as a tree, with the functions of `names`. -/
def Expr.lowered (names : NameTable) : Expr → Option CExpr
  | .number value => some value.lowered
  | .ident name => some (.ident (safeName name))
  | .call name args => do
    let d ← names.find? name
    let ts ← loweredArgs names args
    return .call (.ident d.symbol) ts
  | .binary op left right => do
    let l ← left.lowered names
    let r ← right.lowered names
    return op.lowered l r
  | .pair _ _ => none
  | .hole => none

/-- Expressions as trees. -/
def loweredArgs (names : NameTable) : List Expr → Option (List CExpr)
  | [] => some []
  | e :: es => do
    let t ← e.lowered names
    let ts ← loweredArgs names es
    return t :: ts

end

/-! ### Readable expressions -/

mutual

/-- Whether an expression has a meaning in C: its numbers are numbers, its variables are words and
not the name of infinity, and its calls fit the functions of `names`. -/
def Expr.isReadable (names : NameTable) : Expr → Bool
  | .number value => value != .nan
  | .ident name => isCName name && name != infinityName
  | .call name args =>
    (names.find? name).any (fun d => decide (d.arity = (args.length : Int))) &&
      readableArgs names args
  | .binary _ left right => left.isReadable names && right.isReadable names
  | .pair _ _ => false
  | .hole => false

/-- Whether all expressions have a meaning in C. -/
def readableArgs (names : NameTable) : List Expr → Bool
  | [] => true
  | e :: es => e.isReadable names && readableArgs names es

end

/-- The symbols of the table are made from `1`, `2`, `3` and so on, and from words. -/
structure NameTable.IsNumbered (t : NameTable) : Prop where
  regular : t.IsRegular
  suffix : t.suffix = counting
  named : ∀ d ∈ t.definitions, d.name.toList.all isWordChar = true

theorem NameTable.isNumbered_empty : (empty counting).IsNumbered :=
  ⟨isRegular_empty counting, rfl, fun _ h => absurd h List.not_mem_nil⟩

namespace NameTable.IsNumbered

variable {t : NameTable} (ht : t.IsNumbered)

include ht

/-- A definition of a word keeps the table numbered. -/
theorem define {t' : NameTable} {name symbol : String} {arity : Int} {p : Pos}
    (h : t.define name arity p = .ok (symbol, t')) (hname : name.toList.all isWordChar = true) :
    t'.IsNumbered := by
  refine ⟨ht.regular.define h, ?_, ?_⟩
  · rw [← ht.suffix]
    exact (extends_of_define h).suffix
  · obtain ⟨-, -, rfl⟩ := define_eq_ok_iff.mp h
    intro d hd
    rcases List.mem_append.mp hd with hd | hd
    · exact ht.named d hd
    · obtain rfl := List.mem_singleton.mp hd
      exact hname

theorem exists_symbol {d : Definition} (hd : d ∈ t.definitions) :
    ∃ k, d.symbol = mangle (counting k) d.name := by
  obtain ⟨i, hi⟩ := List.mem_iff_getElem?.mp hd
  have hsymbol := ht.regular.symbol i d hi
  rw [ht.suffix] at hsymbol
  exact ⟨i, hsymbol⟩

theorem symbol_isCName {d : Definition} (hd : d ∈ t.definitions) : isCName d.symbol = true := by
  obtain ⟨k, hk⟩ := ht.exists_symbol hd
  rw [hk]
  exact mangle_isCName k (ht.named d hd)

theorem symbol_not_mem_cKeywords {d : Definition} (hd : d ∈ t.definitions) :
    d.symbol ∉ cKeywords := by
  obtain ⟨k, hk⟩ := ht.exists_symbol hd
  rw [hk]
  exact mangle_not_mem_cKeywords k d.name

theorem symbol_ne_pow {d : Definition} (hd : d ∈ t.definitions) : d.symbol ≠ "pow" := by
  obtain ⟨k, hk⟩ := ht.exists_symbol hd
  rw [hk]
  exact mangle_ne_pow k d.name

theorem name_eq_of_symbol_eq {d d' : Definition} (hd : d ∈ t.definitions)
    (hd' : d' ∈ t.definitions) (h : d.symbol = d'.symbol) : d.name = d'.name := by
  obtain ⟨j, hj⟩ := ht.exists_symbol hd
  obtain ⟨k, hk⟩ := ht.exists_symbol hd'
  rw [hj, hk] at h
  exact mangle_injective h

end NameTable.IsNumbered

/-! ### Trees tell expressions apart -/

/-- What a tree says about the expression that is lowered to it. -/
inductive Shape where
  | number (value : Double)
  | ident (name : String)
  | call (symbol : String) (args : List CExpr)
  | application (op : Operator) (left right : CExpr)
  | other

/-- The shape of a tree. -/
def CExpr.shape : CExpr → Shape
  | .number value => .number value
  | .neg (.number value) => .number value.neg
  | .neg (.ident _) => .number (.infinite true)
  | .ident name => if name = infinityName then .number (.infinite false) else .ident name
  | .call (.ident name) args =>
    if name = "pow" then
      match args with
      | [left, right] => .application .pow left right
      | _ => .other
    else .call name args
  | .binary .div (.cast .double left) right => .application .div left right
  | .binary .mod (.cast .int left) (.cast .int right) => .application .mod left right
  | .binary .add left right => .application .add left right
  | .binary .sub left right => .application .sub left right
  | .binary .mul left right => .application .mul left right
  | .binary .le left right => .application .leq left right
  | .binary .ge left right => .application .geq left right
  | .binary .lt left right => .application .lt left right
  | .binary .gt left right => .application .gt left right
  | .binary .eq left right => .application .eq left right
  | .binary .ne left right => .application .neq left right
  | _ => .other

theorem Operator.shape_lowered (o : Operator) (left right : CExpr) :
    (o.lowered left right).shape = .application o left right := by
  cases o <;> rfl

theorem Double.shape_lowered {v : Double} (hv : v ≠ .nan) : v.lowered.shape = .number v := by
  cases v with
  | finite negative m => cases negative <;> rfl
  | infinite negative => cases negative <;> rfl
  | nan => exact absurd rfl hv

theorem shape_safeName {x : String} (hx : x ≠ infinityName) :
    (CExpr.ident (safeName x)).shape = .ident (safeName x) := by
  refine if_neg ?_
  intro h
  have hsafe : safeName infinityName = infinityName := by decide
  exact hx (safeName_injective (h.trans hsafe.symm))

/-- What a shape says about an expression. -/
def Shape.Fits (names : NameTable) : Shape → Expr → Prop
  | .number value, e => e = .number value
  | .ident name, e => ∃ x, e = .ident x ∧ safeName x = name
  | .call symbol ts, e => ∃ name args d, e = .call name args ∧ names.find? name = some d ∧
      d.symbol = symbol ∧ loweredArgs names args = some ts
  | .application op l r, e => ∃ left right, e = .binary op left right ∧
      left.lowered names = some l ∧ right.lowered names = some r
  | .other, _ => False

/-- The shape of an expression's tree fits the expression. -/
theorem Expr.shape_fits {names : NameTable} (hnames : names.IsNumbered) {e : Expr}
    (he : e.isReadable names = true) {t : CExpr} (h : e.lowered names = some t) :
    t.shape.Fits names e := by
  cases e with
  | number v =>
    cases h
    rw [Double.shape_lowered (bne_iff_ne.mp he)]
    rfl
  | ident x =>
    cases h
    rw [isReadable, Bool.and_eq_true] at he
    rw [shape_safeName (bne_iff_ne.mp he.2)]
    exact ⟨x, rfl, rfl⟩
  | call name args =>
    obtain ⟨d, hd, h⟩ := Option.bind_eq_some_iff.mp h
    obtain ⟨ts, hts, h⟩ := Option.bind_eq_some_iff.mp h
    cases h
    have hshape : (CExpr.call (.ident d.symbol) ts).shape = .call d.symbol ts :=
      if_neg (hnames.symbol_ne_pow (NameTable.mem_of_find? hd).1)
    rw [hshape]
    exact ⟨name, args, d, rfl, hd, rfl, hts⟩
  | binary o left right =>
    obtain ⟨l, hl, h⟩ := Option.bind_eq_some_iff.mp h
    obtain ⟨r, hr, h⟩ := Option.bind_eq_some_iff.mp h
    cases h
    rw [o.shape_lowered]
    exact ⟨left, right, rfl, hl, hr⟩
  | pair left right => cases h
  | hole => cases h

theorem exists_of_loweredArgs_cons {names : NameTable} {e : Expr} {es : List Expr}
    {ts : List CExpr} (h : loweredArgs names (e :: es) = some ts) : ∃ t us,
      e.lowered names = some t ∧ loweredArgs names es = some us ∧ ts = t :: us := by
  obtain ⟨t, ht, h⟩ := Option.bind_eq_some_iff.mp h
  obtain ⟨us, hus, h⟩ := Option.bind_eq_some_iff.mp h
  exact ⟨t, us, ht, hus, (Option.some.inj h).symm⟩

mutual

/-- Distinct expressions are lowered to distinct trees. -/
theorem Expr.lowered_injective {names : NameTable} (hnames : names.IsNumbered) {e e' : Expr}
    {t : CExpr} (he : e.isReadable names = true) (he' : e'.isReadable names = true)
    (h : e.lowered names = some t) (h' : e'.lowered names = some t) : e = e' := by
  have hfits := Expr.shape_fits hnames he h
  have hfits' := Expr.shape_fits hnames he' h'
  -- both expressions fit the same shape, so they differ in their parts at most
  cases hshape : t.shape with
  | number v =>
    rw [hshape] at hfits hfits'
    exact hfits.trans hfits'.symm
  | ident name =>
    rw [hshape] at hfits hfits'
    obtain ⟨x, rfl, hx⟩ := hfits
    obtain ⟨y, rfl, hy⟩ := hfits'
    rw [safeName_injective (hx.trans hy.symm)]
  | call symbol ts =>
    rw [hshape] at hfits hfits'
    obtain ⟨name, args, d, rfl, hd, hsymbol, hts⟩ := hfits
    obtain ⟨name', args', d', rfl, hd', hsymbol', hts'⟩ := hfits'
    rw [Expr.isReadable, Bool.and_eq_true] at he he'
    have hname := hnames.name_eq_of_symbol_eq (NameTable.mem_of_find? hd).1
      (NameTable.mem_of_find? hd').1 (hsymbol.trans hsymbol'.symm)
    rw [(NameTable.mem_of_find? hd).2, (NameTable.mem_of_find? hd').2] at hname
    rw [hname, loweredArgs_injective hnames he.2 he'.2 hts hts']
  | application o l r =>
    rw [hshape] at hfits hfits'
    obtain ⟨left, right, rfl, hl, hr⟩ := hfits
    obtain ⟨left', right', rfl, hl', hr'⟩ := hfits'
    rw [Expr.isReadable, Bool.and_eq_true] at he he'
    rw [Expr.lowered_injective hnames he.1 he'.1 hl hl',
      Expr.lowered_injective hnames he.2 he'.2 hr hr']
  | other =>
    rw [hshape] at hfits
    cases hfits
termination_by sizeOf e

theorem loweredArgs_injective {names : NameTable} (hnames : names.IsNumbered)
    {es es' : List Expr} {ts : List CExpr} (hes : readableArgs names es = true)
    (hes' : readableArgs names es' = true) (h : loweredArgs names es = some ts)
    (h' : loweredArgs names es' = some ts) : es = es' := by
  match es, es' with
  | [], [] => rfl
  | [], e' :: es' =>
    obtain ⟨t, us, -, -, rfl⟩ := exists_of_loweredArgs_cons h'
    cases h
  | e :: es, [] =>
    obtain ⟨t, us, -, -, rfl⟩ := exists_of_loweredArgs_cons h
    cases h'
  | e :: es, e' :: es' =>
    obtain ⟨t, us, ht, hus, rfl⟩ := exists_of_loweredArgs_cons h
    obtain ⟨t', us', ht', hus', htrees⟩ := exists_of_loweredArgs_cons h'
    obtain ⟨rfl, rfl⟩ := List.cons.inj htrees
    rw [readableArgs, Bool.and_eq_true] at hes hes'
    rw [Expr.lowered_injective hnames hes.1 hes'.1 ht ht',
      loweredArgs_injective hnames hes.2 hes'.2 hus hus']
termination_by sizeOf es

end

end NumScript
