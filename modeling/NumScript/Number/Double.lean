/-!
# NumScript.Number.Double

The numbers of the language are binary64 values. The compiler only reads, negates and writes them,
so they are kept as exact data and not as machine words: every finite value is a whole number of
units of `2 ^ (-1074)`, the smallest positive step, and a `Magnitude` is the one canonical way to
write that whole number as `mantissa * 2 ^ scale`. Equality of the data is then equality of the
values, apart from the two zeros, which differ in their sign.

`Double.ofRatio` rounds a quotient of naturals to the nearest value, a tie going to the even
mantissa.
-/

namespace NumScript

/-! ### Rounding a quotient -/

/-- The natural number nearest to `num / den`, a tie going to the even one. -/
def roundDiv (num den : Nat) : Nat :=
  let quotient := num / den
  let twice := 2 * (num % den)
  if twice < den ∨ (twice = den ∧ quotient % 2 = 0) then quotient else quotient + 1

/-- An exact quotient is kept. -/
theorem roundDiv_mul_left (n : Nat) {den : Nat} (h : 0 < den) : roundDiv (n * den) den = n := by
  simp [roundDiv, Nat.mul_div_cancel n h, h]

/-! ### Finite magnitudes -/

/-- The size of a finite value: `mantissa * 2 ^ scale` units of `2 ^ (-1074)`. The mantissa has at
most 53 bits, and all 53 of them whenever the scale is positive, so each size is written in one way
only. -/
structure Magnitude where
  mantissa : Nat
  scale : Nat
  canonical : mantissa < Nat.pow 2 53 ∧ scale ≤ 2045 ∧ (scale = 0 ∨ Nat.pow 2 52 ≤ mantissa)
deriving DecidableEq, Repr

namespace Magnitude

/-- The size as a whole number of units. -/
def units (m : Magnitude) : Nat := m.mantissa * Nat.pow 2 m.scale

/-- The size of zero. -/
def zero : Magnitude := ⟨0, 0, by decide⟩

/-- The size nearest to `num / den` units, or `none` when that is past the largest finite one.
Rounding up may fill a 54th bit, which is carried into the scale. -/
def ofUnits? (num den : Nat) : Option Magnitude :=
  let scale := (num / den).log2 - 52
  let rounded := roundDiv num (den * Nat.pow 2 scale)
  let carry := rounded == Nat.pow 2 53
  let mantissa := if carry then Nat.pow 2 52 else rounded
  let scale := if carry then scale + 1 else scale
  if h : mantissa < Nat.pow 2 53 ∧ scale ≤ 2045 ∧ (scale = 0 ∨ Nat.pow 2 52 ≤ mantissa) then
    some ⟨mantissa, scale, h⟩
  else
    none

end Magnitude

/-! ### Values -/

/-- A binary64 value. -/
inductive Double where
  | finite (negative : Bool) (magnitude : Magnitude)
  | infinite (negative : Bool)
  | nan
deriving DecidableEq, Repr

namespace Double

/-- Positive zero. -/
def zero : Double := .finite false .zero

/-- The value with the other sign. Both zeros exist, so negation is never lossy. -/
def neg : Double → Double
  | .finite negative magnitude => .finite (!negative) magnitude
  | .infinite negative => .infinite (!negative)
  | .nan => .nan

@[simp]
theorem neg_neg (v : Double) : v.neg.neg = v := by
  cases v <;> simp [neg]

/-- Whether the value lies below zero. Negative zero does not. -/
def isNegative : Double → Bool
  | .finite negative magnitude => negative && magnitude.mantissa != 0
  | .infinite negative => negative
  | .nan => false

/-- The value with the given sign and size; there is no size past the largest finite one. -/
def ofSize (negative : Bool) : Option Magnitude → Double
  | some magnitude => .finite negative magnitude
  | none => .infinite negative

/-- The value nearest to `num / den`, with the given sign. -/
def ofRatio (negative : Bool) (num den : Nat) : Double :=
  ofSize negative (Magnitude.ofUnits? (num * Nat.pow 2 1074) den)

end Double

end NumScript
