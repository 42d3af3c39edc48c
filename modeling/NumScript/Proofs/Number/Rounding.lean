import Mathlib.Algebra.Group.Nat.Defs
import NumScript.Number.Shortest

/-!
# NumScript.Proofs.Number.Rounding

Rounding to a binary64 value depends on the number alone, not on how it is written: a common factor
of numerator and denominator does not matter (`Double.ofRatio_mul_mul_right`), nor do zeros at the
end of a decimal (`Decimal.toDouble_mul_pow`), and the two shortcuts of `Decimal.toDouble` agree
with rounding (`Decimal.toDouble_eq_ofRatio`). A size is rounded to itself
(`Magnitude.ofUnits?_units`).

So the exact decimal of a size reads back as that size, and with it whatever decimal the search for
the shortest one ends in (`Decimal.shortest_readsAs`).
-/

namespace NumScript

/-! ### Common factors -/

theorem roundDiv_mul_mul_right (num den : Nat) {c : Nat} (hc : 0 < c) :
    roundDiv (num * c) (den * c) = roundDiv num den := by
  have hlt : 2 * (num % den * c) < den * c ↔ 2 * (num % den) < den := by
    rw [← Nat.mul_assoc]
    exact Nat.mul_lt_mul_right hc
  have heq : 2 * (num % den * c) = den * c ↔ 2 * (num % den) = den := by
    rw [← Nat.mul_assoc]
    exact Nat.mul_left_inj (Nat.pos_iff_ne_zero.mp hc)
  unfold roundDiv
  simp only [Nat.mul_div_mul_right _ _ hc, Nat.mul_mod_mul_right, hlt, heq]

theorem Magnitude.ofUnits?_mul_mul_right (num den : Nat) {c : Nat} (hc : 0 < c) :
    ofUnits? (num * c) (den * c) = ofUnits? num den := by
  unfold ofUnits?
  simp only [Nat.mul_div_mul_right _ _ hc, Nat.mul_right_comm den c,
    roundDiv_mul_mul_right _ _ hc]

/-- A quotient is counted in units of `2 ^ (-n)` with `n = 1074`. The exponent is a variable here,
so that no proof below computes the power. -/
theorem Double.exists_ofRatio_eq : ∃ n : Nat, n = 1074 ∧ ∀ (negative : Bool) (num den : Nat),
    ofRatio negative num den = ofSize negative (Magnitude.ofUnits? (num * 2 ^ n) den) := by
  obtain ⟨n, hn⟩ : ∃ n, n = 1074 := ⟨_, rfl⟩
  refine ⟨n, hn, ?_⟩
  intro negative num den
  rw [ofRatio, ← hn]
  rfl

/-- The value nearest to a quotient stays when numerator and denominator are multiplied by the same
number. -/
theorem Double.ofRatio_mul_mul_right (negative : Bool) (num den : Nat) {c : Nat} (hc : 0 < c) :
    ofRatio negative (num * c) (den * c) = ofRatio negative num den := by
  obtain ⟨n, -, hratio⟩ := exists_ofRatio_eq
  rw [hratio, hratio, Nat.mul_right_comm, Magnitude.ofUnits?_mul_mul_right _ _ hc]

/-! ### Sizes -/

namespace Magnitude

/-- The scale of a size can be read off its number of units. -/
theorem log2_units (m : Magnitude) : m.units.log2 - 52 = m.scale := by
  obtain ⟨hlt, -, hscale⟩ := m.canonical
  rcases hscale with hzero | hfull
  · -- without a scale, the units are the mantissa, which has at most 53 bits
    rw [units, hzero]
    by_cases h : m.mantissa = 0
    · rw [h]
      decide
    · have hlog : m.mantissa.log2 < 53 := (Nat.log2_lt h).mpr hlt
      simp only [Nat.pow_eq, Nat.pow_zero, Nat.mul_one]
      omega
  · have hpos : 0 < m.mantissa := Nat.lt_of_lt_of_le (by decide) hfull
    have hunits : m.units ≠ 0 :=
      Nat.pos_iff_ne_zero.mp (Nat.mul_pos hpos (Nat.pow_pos (by decide)))
    have hlog : m.units.log2 = 52 + m.scale := by
      rw [Nat.log2_eq_iff hunits, Nat.add_right_comm, Nat.pow_add, Nat.pow_add]
      exact ⟨Nat.mul_le_mul_right _ hfull,
        Nat.mul_lt_mul_of_pos_right hlt (Nat.pow_pos (by decide))⟩
    omega

theorem eq_zero_of_mantissa (m : Magnitude) (h : m.mantissa = 0) : m = .zero := by
  obtain ⟨mantissa, scale, hlt, hmax, hscale⟩ := m
  subst h
  rcases hscale with rfl | hfull
  · rfl
  · exact absurd hfull (by decide)

/-- A size is rounded to itself. -/
theorem ofUnits?_units (m : Magnitude) : ofUnits? m.units 1 = some m := by
  have hround : roundDiv m.units (1 * Nat.pow 2 m.scale) = m.mantissa := by
    rw [Nat.one_mul]
    exact roundDiv_mul_left _ (Nat.pow_pos (by decide))
  have hcarry : (m.mantissa == Nat.pow 2 53) = false :=
    beq_eq_false_iff_ne.mpr (Nat.ne_of_lt m.canonical.1)
  unfold ofUnits?
  simp only [Nat.div_one, m.log2_units, hround, hcarry]
  exact dif_pos m.canonical

/-- Less than half a unit is rounded to zero. -/
theorem ofUnits?_of_lt_half {num den : Nat} (h : 2 * num < den) : ofUnits? num den = some zero := by
  have hdiv : num / den = 0 := Nat.div_eq_of_lt (by omega)
  have hmod : num % den = num := Nat.mod_eq_of_lt (by omega)
  have hscale : (num / den).log2 - 52 = 0 := by
    rw [hdiv]
    rfl
  have hround : roundDiv num (den * Nat.pow 2 0) = 0 := by
    show roundDiv num (den * 1) = 0
    rw [Nat.mul_one, roundDiv, hdiv, hmod]
    simp [h]
  unfold ofUnits?
  simp only [hscale, hround]
  rfl

/-- A number of units with more than 2098 bits is past the largest size. -/
theorem ofUnits?_of_le_log2 {num den : Nat} (h : 2098 ≤ (num / den).log2) :
    ofUnits? num den = none := by
  unfold ofUnits?
  refine dif_neg ?_
  intro hfits
  have hscale := hfits.2.1
  split at hscale <;> omega

end Magnitude

/-! ### Decimals -/

theorem two_pow_le_ten_pow (k : Nat) : 2 ^ (3 * k) ≤ 10 ^ k := by
  rw [Nat.pow_mul]
  exact Nat.pow_le_pow_left (by decide) k

namespace Decimal

/-- A decimal with a large exponent is past the largest size. -/
theorem ofRatio_of_large (negative : Bool) {digits e : Nat} (hdigits : digits ≠ 0) (he : 400 < e) :
    Double.ofRatio negative (digits * 10 ^ e) 1 = .infinite negative := by
  obtain ⟨n, hn, hratio⟩ := Double.exists_ofRatio_eq
  have hpow : 2 ^ (3 * e + n) ≤ digits * 10 ^ e * 2 ^ n := by
    rw [Nat.pow_add]
    refine Nat.mul_le_mul_right _ (Nat.le_trans (two_pow_le_ten_pow e) ?_)
    exact Nat.le_mul_of_pos_left _ (Nat.pos_iff_ne_zero.mpr hdigits)
  have hne : digits * 10 ^ e * 2 ^ n ≠ 0 :=
    Nat.pos_iff_ne_zero.mp (Nat.lt_of_lt_of_le (Nat.pow_pos (by decide)) hpow)
  have hlog : 3 * e + n ≤ (digits * 10 ^ e * 2 ^ n).log2 := (Nat.le_log2 hne).mpr hpow
  have hnone : Magnitude.ofUnits? (digits * 10 ^ e * 2 ^ n) 1 = none := by
    refine Magnitude.ofUnits?_of_le_log2 ?_
    rw [Nat.div_one]
    omega
  rw [hratio, hnone, Double.ofSize]

/-- A decimal whose first digit is far behind the point is below half a unit. -/
theorem ofRatio_of_small (negative : Bool) {digits length k : Nat} (hdigits : digits < 10 ^ length)
    (hk : length + 400 < k) :
    Double.ofRatio negative digits (10 ^ k) = .finite negative .zero := by
  obtain ⟨n, hn, hratio⟩ := Double.exists_ofRatio_eq
  obtain ⟨j, rfl⟩ : ∃ j, k = length + j := ⟨k - length, by omega⟩
  have hpow : 2 ^ (n + 1) ≤ 10 ^ j :=
    Nat.le_trans (Nat.pow_le_pow_right (by decide) (by omega)) (two_pow_le_ten_pow j)
  have hhalf : 2 * (digits * 2 ^ n) < 10 ^ (length + j) :=
    calc 2 * (digits * 2 ^ n) = digits * 2 ^ (n + 1) := by
          rw [Nat.mul_left_comm, Nat.pow_succ, Nat.mul_comm 2]
      _ ≤ digits * 10 ^ j := Nat.mul_le_mul_left _ hpow
      _ < 10 ^ length * 10 ^ j := Nat.mul_lt_mul_of_pos_right hdigits (Nat.pow_pos (by decide))
      _ = 10 ^ (length + j) := (Nat.pow_add _ _ _).symm
  rw [hratio, Magnitude.ofUnits?_of_lt_half hhalf, Double.ofSize]

/-- The size that a decimal is rounded to does not depend on the sign. -/
theorem exists_toDouble_eq_ofSize (d : Decimal) :
    ∃ size, ∀ negative, d.toDouble negative = Double.ofSize negative size := by
  unfold toDouble
  split
  · exact ⟨some .zero, fun _ => rfl⟩
  · split
    · exact ⟨none, fun _ => rfl⟩
    · split
      · exact ⟨some .zero, fun _ => rfl⟩
      · exact ⟨_, fun _ => rfl⟩

/-- The two shortcuts of `toDouble` agree with rounding. -/
theorem toDouble_eq_ofRatio (negative : Bool) {d : Decimal} (h : d.digits ≠ 0) :
    d.toDouble negative =
      .ofRatio negative (d.digits * 10 ^ d.exponent.toNat) (10 ^ (-d.exponent).toNat) := by
  rw [toDouble, if_neg h]
  split
  · rename_i hlarge
    have hexp : (-d.exponent).toNat = 0 := by omega
    rw [hexp, Nat.pow_zero, ofRatio_of_large negative h (by omega)]
  · split
    · rename_i hsmall
      have hexp : d.exponent.toNat = 0 := by omega
      have hdigits : d.digits < 10 ^ (natDigits d.digits).length :=
        (Nat.length_toDigits_le_iff (by decide) Nat.length_toDigits_pos).mp (Nat.le_refl _)
      rw [hexp, Nat.pow_zero, Nat.mul_one, ofRatio_of_small negative hdigits (by omega)]
    · rfl

/-- Zeros at the end of the digits can be counted in the exponent instead. -/
theorem toDouble_mul_pow (negative : Bool) {n : Nat} (hn : n ≠ 0) (k : Nat) (e : Int) :
    toDouble negative ⟨n * 10 ^ k, e⟩ = toDouble negative ⟨n, e + k⟩ := by
  have hnk : n * 10 ^ k ≠ 0 := Nat.mul_ne_zero hn (Nat.pos_iff_ne_zero.mp (Nat.pow_pos (by decide)))
  rw [toDouble_eq_ofRatio negative hnk, toDouble_eq_ofRatio negative hn]
  -- the powers of ten on the two sides differ by a common factor
  obtain ⟨j, hj⟩ : ∃ j, (-e).toNat = (-(e + k)).toNat + j :=
    ⟨(-e).toNat - (-(e + k)).toNat, by omega⟩
  have hnum : k + e.toNat = (e + k).toNat + j := by omega
  show Double.ofRatio negative (n * 10 ^ k * 10 ^ e.toNat) (10 ^ (-e).toNat) = _
  rw [Nat.mul_assoc, ← Nat.pow_add, hnum, hj, Nat.pow_add, Nat.pow_add, ← Nat.mul_assoc]
  exact Double.ofRatio_mul_mul_right negative _ _ (Nat.pow_pos (by decide))

/-- The digits of the exact decimal, in units, are those of the size times a power of ten. -/
theorem ofMagnitude_digits_mul {n : Nat} (hn : n = 1074) (m : Magnitude) :
    (ofMagnitude m).digits * 2 ^ n = m.units * 10 ^ (n - m.scale) := by
  have hsplit : 2 ^ (m.scale - n) * 2 ^ n = 2 ^ m.scale * 2 ^ (n - m.scale) := by
    rw [← Nat.pow_add, ← Nat.pow_add]
    congr 1
    omega
  have hten : 10 ^ (n - m.scale) = 2 ^ (n - m.scale) * 5 ^ (n - m.scale) := by
    rw [← Nat.mul_pow]
  calc (ofMagnitude m).digits * 2 ^ n
      = m.mantissa * 2 ^ (m.scale - n) * 5 ^ (n - m.scale) * 2 ^ n := by
        rw [ofMagnitude, ← hn]
        rfl
    _ = m.mantissa * (2 ^ (m.scale - n) * 2 ^ n) * 5 ^ (n - m.scale) := by
        simp only [Nat.mul_assoc, Nat.mul_comm, Nat.mul_left_comm]
    _ = m.mantissa * 2 ^ m.scale * 10 ^ (n - m.scale) := by
        rw [hsplit, hten]
        simp only [Nat.mul_assoc]

/-- The exact decimal of a size reads back as that size. -/
theorem ofMagnitude_readsAs (m : Magnitude) : (ofMagnitude m).readsAs m = true := by
  refine beq_iff_eq.mpr ?_
  by_cases hzero : m.mantissa = 0
  · have hm : m = .zero := m.eq_zero_of_mantissa hzero
    rw [hm]
    decide +kernel
  · have hdigits : (ofMagnitude m).digits ≠ 0 :=
      Nat.mul_ne_zero (Nat.mul_ne_zero hzero (Nat.pos_iff_ne_zero.mp (Nat.pow_pos (by decide))))
        (Nat.pos_iff_ne_zero.mp (Nat.pow_pos (by decide)))
    obtain ⟨n, hn, hratio⟩ := Double.exists_ofRatio_eq
    have hexp : (ofMagnitude m).exponent.toNat = 0 ∧
        (-(ofMagnitude m).exponent).toNat = n - m.scale := by
      simp only [ofMagnitude]
      omega
    have hround : Magnitude.ofUnits? (m.units * 10 ^ (n - m.scale)) (10 ^ (n - m.scale)) =
        some m := by
      have hfactor := Magnitude.ofUnits?_mul_mul_right m.units 1
        (Nat.pow_pos (by decide) : 0 < 10 ^ (n - m.scale))
      rw [Nat.one_mul, m.ofUnits?_units] at hfactor
      exact hfactor
    rw [toDouble_eq_ofRatio false hdigits, hexp.1, hexp.2, Nat.pow_zero, Nat.mul_one, hratio,
      ofMagnitude_digits_mul hn, hround, Double.ofSize]

theorem shortestFrom_readsAs (m : Magnitude) (length count tries : Nat) :
    (shortestFrom m length count tries).readsAs m = true := by
  induction tries generalizing count with
  | zero => exact ofMagnitude_readsAs m
  | succ tries ih =>
    rw [shortestFrom]
    split
    · rename_i d hd
      exact readsAs_of_nearest? hd
    · exact ih (count + 1)

/-- The shortest decimal of a size reads back as that size. -/
theorem shortest_readsAs (m : Magnitude) : (shortest m).readsAs m = true :=
  shortestFrom_readsAs m _ _ _

end Decimal

end NumScript
