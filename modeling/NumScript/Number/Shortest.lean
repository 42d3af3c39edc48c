import NumScript.Number.Decimal

/-!
# NumScript.Number.Shortest

The shortest decimal of a finite size: of the decimals that read back as that size, one with the
fewest digits, and of those the nearest.

For a given number of digits only two decimals can qualify, the neighbours of the exact value on the
grid of that many digits: the decimals that read back as one size form an interval around its exact
value, so if any point of the grid lies in it, a neighbour does. Seventeen digits always suffice;
the exact decimal closes the search, so the result reads back without an appeal to that fact.
-/

namespace NumScript

namespace Decimal

/-- Whether the decimal is read as the size `m`. -/
def readsAs (d : Decimal) (m : Magnitude) : Bool := d.toDouble false == .finite false m

/-- The nearer of two neighbours if both are accepted, else the accepted one. -/
def pick (accepts : Decimal → Bool) (below above : Decimal) (belowIsNearer : Bool) :
    Option Decimal :=
  if accepts below && (belowIsNearer || !accepts above) then some below
  else if accepts above then some above
  else none

/-- Only accepted decimals are picked. -/
theorem accepts_of_pick {accepts : Decimal → Bool} {below above d : Decimal} {nearer : Bool}
    (h : pick accepts below above nearer = some d) : accepts d = true := by
  unfold pick at h
  split at h
  · obtain rfl := Option.some.inj h
    simp_all
  · split at h
    · obtain rfl := Option.some.inj h
      assumption
    · exact absurd h (by simp)

/-- The decimal that reads as `m` and is nearest to it, of those that end `dropped` places before
the exact decimal does. A tie between the two neighbours goes to the even one. -/
def nearest? (m : Magnitude) (dropped : Nat) : Option Decimal :=
  let exact := (ofMagnitude m).digits
  let unit := Nat.pow 10 dropped
  let exponent := (ofMagnitude m).exponent + dropped
  pick (·.readsAs m) ⟨exact / unit, exponent⟩ ⟨exact / unit + 1, exponent⟩
    (roundDiv exact unit == exact / unit)

/-- What the search finds on a grid reads back. -/
theorem readsAs_of_nearest? {m : Magnitude} {dropped : Nat} {d : Decimal}
    (h : nearest? m dropped = some d) : d.readsAs m = true := by
  unfold nearest? at h
  exact @accepts_of_pick (·.readsAs m) _ _ _ _ h

/-- The first of the digit counts from `count` on for which `nearest?` finds a decimal, trying
`tries` of them, and else the exact decimal. The exact decimal has `length` digits. -/
def shortestFrom (m : Magnitude) (length count : Nat) : (tries : Nat) → Decimal
  | 0 => ofMagnitude m
  | tries + 1 =>
    match nearest? m (length - count) with
    | some d => d
    | none => shortestFrom m length (count + 1) tries

/-- The shortest decimal that reads as `m`. -/
def shortest (m : Magnitude) : Decimal :=
  shortestFrom m (natDigits (ofMagnitude m).digits).length 1 17

end Decimal

end NumScript
