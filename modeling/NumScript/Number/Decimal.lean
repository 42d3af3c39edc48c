import NumScript.Number.Double

/-!
# NumScript.Number.Decimal

Decimal numbers `digits * 10 ^ exponent`, the form in which a value is written down. A decimal is
turned into the nearest binary64 value, and every finite value has an exact decimal, because a power
of two divides a power of ten.
-/

namespace NumScript

/-! ### Digit sequences -/

/-- The number that a decimal digit stands for. -/
def digitValue (c : Char) : Nat := c.toNat - '0'.toNat

/-- The number that a sequence of decimal digits stands for; the empty sequence is zero. -/
def natOfDigits (cs : List Char) : Nat := cs.foldl (fun n c => 10 * n + digitValue c) 0

/-- The decimal digits of a number, the most significant first. -/
def natDigits (n : Nat) : List Char := Nat.toDigits 10 n

@[simp]
theorem natOfDigits_nil : natOfDigits [] = 0 := rfl

/-! ### Decimals -/

/-- The number `digits * 10 ^ exponent`. -/
structure Decimal where
  digits : Nat
  exponent : Int
deriving DecidableEq, Repr

namespace Decimal

/-- The value nearest to the decimal, with the given sign. A decimal of at least `10 ^ 400` is past
every finite value and one below `10 ^ (-400)` is nearer to zero than to anything else, so neither
needs its power of ten computed. -/
def toDouble (negative : Bool) (d : Decimal) : Double :=
  if d.digits = 0 then .finite negative .zero
  else if 400 < d.exponent then .infinite negative
  else if d.exponent + (natDigits d.digits).length < -400 then .finite negative .zero
  else
    .ofRatio negative (d.digits * Nat.pow 10 d.exponent.toNat) (Nat.pow 10 (-d.exponent).toNat)

/-- The exact decimal of a finite size. A unit is `2 ^ (-1074)`, so the size is the mantissa times
`2 ^ (scale - 1074)`, and a negative power `2 ^ (-k)` is `5 ^ k * 10 ^ (-k)`. -/
def ofMagnitude (m : Magnitude) : Decimal :=
  let k := 1074 - m.scale
  ⟨m.mantissa * Nat.pow 2 (m.scale - 1074) * Nat.pow 5 k, -k⟩

end Decimal

end NumScript
