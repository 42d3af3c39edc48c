import Mathlib.Data.Rat.Floor
import NumScript.Proofs.CExpr.Grammar

/-!
# NumScript.Proofs.CExpr.Value

What expressions of C are worth, as far as the headers of counting loops need it: numbers,
variables, minus signs, casts and comparisons. An `int` has 32 bits. A `double` is the rational
number that it stands for, so that comparing it with an `int` is exact, as it is in C. An expression
has no value where C leaves its meaning undefined, such as the cast of a number that no `int` holds;
neither have sums, products and calls, which do not occur in the headers that are read here.
-/

namespace NumScript

/-! ### Numbers -/

/-- The rational number that a size stands for, in units of `2 ^ (-1074)`. -/
def Magnitude.rat (m : Magnitude) : ℚ := (m.units : ℚ) / (Nat.pow 2 1074 : Nat)

theorem Magnitude.rat_eq_div {m : Magnitude} {num den : Nat} (hden : den ≠ 0)
    (h : m.units * den = num * Nat.pow 2 1074) : m.rat = num / den := by
  have hpow : ∀ n, Nat.pow 2 n ≠ 0 := fun n => (Nat.two_pow_pos n).ne'
  rw [rat, div_eq_div_iff (Nat.cast_ne_zero.mpr (hpow 1074)) (Nat.cast_ne_zero.mpr hden),
    ← Nat.cast_mul, ← Nat.cast_mul, h]

/-- The rational number that a finite value stands for. -/
def Double.rat? : Double → Option ℚ
  | .finite false m => some m.rat
  | .finite true m => some (-m.rat)
  | .infinite _ => none
  | .nan => none

theorem Double.rat?_zero : Double.zero.rat? = some 0 := by
  have hunits : Magnitude.zero.units = 0 := Nat.zero_mul _
  show some Magnitude.zero.rat = some 0
  rw [Magnitude.rat, hunits, Nat.cast_zero, zero_div]

theorem Double.rat?_neg (v : Double) : v.neg.rat? = v.rat?.map (- ·) := by
  cases v with
  | finite negative m => cases negative <;> simp [neg, rat?]
  | infinite negative => rfl
  | nan => rfl

/-- The whole number that is left of a number without its fraction. -/
def truncate (q : ℚ) : Int := if 0 ≤ q then ⌊q⌋ else ⌈q⌉

theorem truncate_of_nonneg {q : ℚ} (h : 0 ≤ q) : truncate q = ⌊q⌋ := if_pos h

theorem truncate_of_neg {q : ℚ} (h : q < 0) : truncate q = ⌈q⌉ := if_neg (not_le.mpr h)

/-- Truncation keeps the order, also across zero. -/
theorem truncate_mono {p q : ℚ} (h : p ≤ q) : truncate p ≤ truncate q := by
  rcases lt_or_ge p 0 with hp | hp
  · rw [truncate_of_neg hp]
    rcases lt_or_ge q 0 with hq | hq
    · rw [truncate_of_neg hq]
      exact Int.ceil_mono h
    · rw [truncate_of_nonneg hq]
      calc ⌈p⌉ ≤ 0 := Int.ceil_le.mpr (by simpa using hp.le)
        _ ≤ ⌊q⌋ := Int.floor_nonneg.mpr hq
  · rw [truncate_of_nonneg hp, truncate_of_nonneg (hp.trans h)]
    exact Int.floor_mono h

theorem truncate_zero : truncate 0 = 0 := by
  rw [truncate_of_nonneg le_rfl, Int.floor_zero]

/-- A number without a fraction is the smallest whole number that is not below it. -/
theorem ceil_eq_truncate_iff {q : ℚ} (h : 0 ≤ q) : ⌈q⌉ = truncate q ↔ q = truncate q := by
  rw [truncate_of_nonneg h]
  constructor
  · intro hceil
    refine le_antisymm ?_ (Int.floor_le q)
    rw [← hceil]
    exact Int.le_ceil q
  · intro hq
    rw [hq, Int.ceil_intCast, Int.floor_intCast]

/-- An `int` holds the number. -/
def FitsInt (n : Int) : Prop := -2147483648 ≤ n ∧ n ≤ 2147483647

instance (n : Int) : Decidable (FitsInt n) := inferInstanceAs (Decidable (_ ∧ _))

/-- The number, if an `int` holds it. -/
def checkedInt (n : Int) : Option Int := if FitsInt n then some n else none

theorem checkedInt_of_fits {n : Int} (h : FitsInt n) : checkedInt n = some n := if_pos h

/-! ### Values -/

/-- A value of C. -/
inductive CValue where
  | int (n : Int)
  | double (q : ℚ)

namespace CValue

/-- The number that a value is. -/
def rat : CValue → ℚ
  | .int n => n
  | .double q => q

/-- The value as an `int`. -/
def toInt? : CValue → Option Int
  | .int n => some n
  | .double q => checkedInt (truncate q)

/-- Whether a condition with this value holds. -/
def isTrue (v : CValue) : Bool := decide (v.rat ≠ 0)

/-- What a comparison is worth. -/
def ofBool (b : Bool) : CValue := .int (if b then 1 else 0)

@[simp]
theorem isTrue_ofBool (b : Bool) : (ofBool b).isTrue = b := by
  cases b <;> simp [ofBool, isTrue, rat]

end CValue

/-- The values of variables. -/
abbrev CEnv := String → Option CValue

/-- Whether a comparison holds; the other operators compare nothing. -/
def COp.holds? (o : COp) (x y : ℚ) : Option Bool :=
  match o with
  | .lt => some (decide (x < y))
  | .gt => some (decide (y < x))
  | .le => some (decide (x ≤ y))
  | .ge => some (decide (y ≤ x))
  | .eq => some (decide (x = y))
  | .ne => some (decide (x ≠ y))
  | .mul | .div | .mod | .add | .sub => none

/-- The value of an expression. -/
def CExpr.eval (ρ : CEnv) : CExpr → Option CValue
  | .number value => value.rat?.map .double
  | .ident name => ρ name
  | .neg operand => do
    match ← operand.eval ρ with
    | .int n => (checkedInt (-n)).map .int
    | .double q => some (.double (-q))
  | .cast .int operand => do
    let v ← operand.eval ρ
    v.toInt?.map .int
  | .cast .double operand => do
    let v ← operand.eval ρ
    return .double v.rat
  | .binary o left right => do
    let x ← left.eval ρ
    let y ← right.eval ρ
    (o.holds? x.rat y.rat).map .ofBool
  | .call _ _ => none

namespace CExpr

variable {ρ : CEnv} {e e' : CExpr} {x y : CValue}

theorem eval_cast_int {n : Int} (h : e.eval ρ = some x) (hx : x.toInt? = some n) :
    (cast .int e).eval ρ = some (.int n) := by
  rw [eval, h]
  show (x.toInt?.map _) = _
  rw [hx]
  rfl

theorem eval_binary {o : COp} {b : Bool} (h : e.eval ρ = some x) (h' : e'.eval ρ = some y)
    (hb : o.holds? x.rat y.rat = some b) : (binary o e e').eval ρ = some (.ofBool b) := by
  rw [eval, h, h']
  show ((o.holds? x.rat y.rat).map _) = _
  rw [hb]
  rfl

end CExpr

end NumScript
