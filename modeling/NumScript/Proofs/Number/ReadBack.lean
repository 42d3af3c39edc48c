import NumScript.Proofs.Number.Rounding
import NumScript.Proofs.Token.Shape

/-!
# NumScript.Proofs.Number.ReadBack

The text of a size, taken apart. It consists of digits, digits behind a point and an exponent
(`DecimalParts`), of which one of the last two may be missing, and read as a decimal it is rounded
to the size that was written (`Magnitude.exists_parts`). The layout of the text, positional or
scientific, moves the point and adds zeros, but does not change the number.
-/

namespace NumScript

/-! ### Digits -/

theorem natOfDigits_append (cs ds : List Char) :
    natOfDigits (cs ++ ds) = natOfDigits cs * 10 ^ ds.length + natOfDigits ds := by
  have happend : natOfDigits (cs ++ ds) = Nat.ofDigitChars 10 ds (natOfDigits cs) :=
    Nat.ofDigitChars_append 0
  rw [happend, Nat.ofDigitChars_eq_ofDigitChars_zero, Nat.mul_comm]
  rfl

@[simp]
theorem natOfDigits_zeros (n : Nat) : natOfDigits (zeros n) = 0 :=
  (Nat.ofDigitChars_replicate_zero).trans (Nat.mul_zero _)

@[simp]
theorem length_zeros (n : Nat) : (zeros n).length = n := List.length_replicate

theorem isDigit_zeros (n : Nat) : (zeros n).all Char.isDigit = true := by
  rw [zeros, List.all_replicate]
  simp

@[simp]
theorem natOfDigits_natDigits (n : Nat) : natOfDigits (natDigits n) = n :=
  Nat.ofDigitChars_ten_toDigits

theorem isDigit_natDigits (n : Nat) : (natDigits n).all Char.isDigit = true :=
  List.all_eq_true.mpr fun _ hc => Nat.isDigit_of_mem_toDigits (by decide) (by decide) hc

theorem natDigits_ne_nil (n : Nat) : natDigits n ≠ [] := Nat.toDigits_ne_nil

theorem natOfDigits_zero : natOfDigits ['0'] = 0 := rfl

/-- The zeros that are dropped can be put back. -/
theorem exists_dropTrailingZeros (ds : List Char) :
    ∃ k, ds = dropTrailingZeros ds ++ zeros k := by
  have hsplit := congrArg List.reverse
    (List.takeWhile_append_dropWhile (p := (· == '0')) (l := ds.reverse))
  rw [List.reverse_append, List.reverse_reverse] at hsplit
  have hzeros : (ds.reverse.takeWhile (· == '0')).reverse =
      zeros (ds.reverse.takeWhile (· == '0')).length := by
    refine List.eq_replicate_iff.mpr ⟨List.length_reverse, ?_⟩
    intro c hc
    have hzero : (c == '0') = true :=
      List.all_eq_true.mp List.all_takeWhile c (List.mem_reverse.mp hc)
    exact beq_iff_eq.mp hzero
  exact ⟨_, hzeros ▸ hsplit.symm⟩

theorem isDigit_dropTrailingZeros {ds : List Char} (h : ds.all Char.isDigit = true) :
    (dropTrailingZeros ds).all Char.isDigit = true := by
  obtain ⟨k, hk⟩ := exists_dropTrailingZeros ds
  rw [hk, List.all_append, Bool.and_eq_true] at h
  exact h.1

theorem natOfDigits_dropTrailingZeros_ne_zero {ds : List Char} (h : natOfDigits ds ≠ 0) :
    natOfDigits (dropTrailingZeros ds) ≠ 0 := by
  obtain ⟨k, hk⟩ := exists_dropTrailingZeros ds
  intro hzero
  rw [hk, natOfDigits_append, hzero] at h
  simp at h

theorem newline_not_mem_of_all_isDigit {ds : List Char} (h : ds.all Char.isDigit = true) :
    '\n' ∉ ds :=
  fun hmem => absurd (List.all_eq_true.mp h _ hmem) (by decide)

/-! ### Written decimals -/

/-- The parts of a written decimal: digits, digits behind a point, and the sign and the digits of an
exponent. -/
structure DecimalParts where
  whole : List Char
  fraction : Option (List Char)
  exponent : Option (Bool × List Char)
  whole_digits : whole.all Char.isDigit = true
  whole_ne_nil : whole ≠ []
  fraction_digits : ∀ ds ∈ fraction, ds.all Char.isDigit = true
  fraction_ne_nil : ∀ ds ∈ fraction, ds ≠ []
  exponent_digits : ∀ e ∈ exponent, e.2.all Char.isDigit = true ∧ e.2 ≠ []

namespace DecimalParts

/-- The text of the fraction. -/
def fractionChars (t : DecimalParts) : List Char :=
  match t.fraction with
  | none => []
  | some ds => '.' :: ds

/-- The text of the exponent. -/
def exponentChars (t : DecimalParts) : List Char :=
  match t.exponent with
  | none => []
  | some (negative, ds) => 'e' :: (if negative then '-' else '+') :: ds

/-- The text. -/
def chars (t : DecimalParts) : List Char := t.whole ++ (t.fractionChars ++ t.exponentChars)

/-- The number in the exponent. -/
def scale (t : DecimalParts) : Int :=
  match t.exponent with
  | none => 0
  | some (negative, ds) => if negative then -(natOfDigits ds : Int) else natOfDigits ds

/-- The number that is written. -/
def decimal (t : DecimalParts) : Decimal :=
  ⟨natOfDigits (t.whole ++ t.fraction.getD []), t.scale - (t.fraction.getD []).length⟩

theorem readExponent?_exponentChars (t : DecimalParts) :
    readExponent? t.exponentChars = some t.scale := by
  unfold exponentChars scale
  cases h : t.exponent with
  | none => rfl
  | some e =>
    obtain ⟨negative, ds⟩ := e
    obtain ⟨hdigits, hne⟩ := t.exponent_digits _ h
    cases negative <;> simp_all [readExponent?]

/-- What follows the digits of a part is no digit. -/
theorem isDigit_head?_exponentChars (t : DecimalParts) :
    ∀ c ∈ t.exponentChars.head?, c.isDigit = false := by
  unfold exponentChars
  split
  · simp
  · simp

/-- A written decimal is read as the number that is written. -/
theorem read?_chars (t : DecimalParts) : Decimal.read? t.chars = some t.decimal := by
  have hwhole : t.whole.isEmpty = false := List.isEmpty_eq_false_iff.mpr t.whole_ne_nil
  have hexponent := t.readExponent?_exponentChars
  unfold Decimal.read? chars fractionChars decimal
  cases hfraction : t.fraction with
  | none =>
    have hstop := t.isDigit_head?_exponentChars
    rw [List.nil_append, takeWhile_append_stop t.whole_digits hstop,
      dropWhile_append_stop t.whole_digits hstop]
    -- an exponent does not start with a point
    unfold exponentChars at hexponent ⊢
    cases h : t.exponent with
    | none => simp_all
    | some e => simp_all
  | some ds =>
    have hstop : ∀ c ∈ (('.' :: ds) ++ t.exponentChars).head?, c.isDigit = false := by simp
    have hds := t.fraction_digits ds hfraction
    rw [takeWhile_append_stop t.whole_digits hstop, dropWhile_append_stop t.whole_digits hstop]
    simp only [List.cons_append, takeWhile_append_stop hds t.isDigit_head?_exponentChars,
      dropWhile_append_stop hds t.isDigit_head?_exponentChars, hexponent, hwhole]
    rfl

end DecimalParts

/-! ### Layouts -/

/-- The text `cs` is that of a number with a point or an exponent, and the number is rounded like
the decimal `d`. -/
def WritesDecimal (cs : List Char) (d : Decimal) : Prop :=
  ∃ t : DecimalParts, cs = t.chars ∧ (t.fraction.isSome = true ∨ t.exponent.isSome = true) ∧
    t.decimal.toDouble false = d.toDouble false

theorem positional_writes {ds : List Char} (hds : ds.all Char.isDigit = true)
    (hpos : natOfDigits ds ≠ 0) (point : Int) :
    WritesDecimal (positional ds point) ⟨natOfDigits ds, point - ds.length⟩ := by
  have hne : ds ≠ [] := by
    intro hnil
    exact hpos (hnil ▸ rfl)
  unfold positional
  split
  · -- zeros behind the point
    rename_i hpoint
    refine ⟨⟨['0'], some (zeros (-point).toNat ++ ds), none, by decide, by simp, ?_, by simp [hne],
      by simp⟩,
      by simp [DecimalParts.chars, DecimalParts.fractionChars, DecimalParts.exponentChars],
      .inl rfl, ?_⟩
    · intro fraction hfraction
      obtain rfl := Option.some.inj hfraction
      rw [List.all_append, isDigit_zeros, hds]
      rfl
    · have hdigits : natOfDigits (['0'] ++ (zeros (-point).toNat ++ ds)) = natOfDigits ds := by
        simp only [natOfDigits_append, natOfDigits_zeros, natOfDigits_zero, Nat.zero_mul,
          Nat.zero_add]
      have hexp : (0 : Int) - ((zeros (-point).toNat ++ ds).length : Int) = point - ds.length := by
        simp only [List.length_append, length_zeros]
        omega
      show Decimal.toDouble false ⟨natOfDigits (['0'] ++ (zeros (-point).toNat ++ ds)),
        0 - ((zeros (-point).toNat ++ ds).length : Int)⟩ = _
      rw [hdigits, hexp]
  · split
    · -- the point among the digits
      rename_i hpoint hlength
      refine ⟨⟨ds.take point.toNat, some (ds.drop point.toNat), none, ?_, ?_, ?_, ?_, by simp⟩,
        by simp [DecimalParts.chars, DecimalParts.fractionChars, DecimalParts.exponentChars],
        .inl rfl, ?_⟩
      · exact List.all_eq_true.mpr fun c hc => List.all_eq_true.mp hds c (List.mem_of_mem_take hc)
      · intro hnil
        rcases List.take_eq_nil_iff.mp hnil with hzero | hzero
        · omega
        · exact hne hzero
      · intro fraction hfraction
        obtain rfl := Option.some.inj hfraction
        exact List.all_eq_true.mpr fun c hc => List.all_eq_true.mp hds c (List.mem_of_mem_drop hc)
      · intro fraction hfraction hnil
        obtain rfl := Option.some.inj hfraction
        have hend := List.drop_eq_nil_iff.mp hnil
        omega
      · have hexp : (0 : Int) - ((ds.drop point.toNat).length : Int) = point - ds.length := by
          rw [List.length_drop]
          omega
        show Decimal.toDouble false ⟨natOfDigits (ds.take point.toNat ++ ds.drop point.toNat),
          0 - ((ds.drop point.toNat).length : Int)⟩ = _
        rw [List.take_append_drop, hexp]
    · -- zeros in front of the point
      rename_i hpoint hlength
      refine ⟨⟨ds ++ zeros (point.toNat - ds.length), some ['0'], none, ?_, ?_, by decide, by simp,
        by simp⟩,
        by simp [DecimalParts.chars, DecimalParts.fractionChars, DecimalParts.exponentChars],
        .inl rfl, ?_⟩
      · simp [hds, isDigit_zeros]
      · simp [hne]
      · have hdigits : natOfDigits (ds ++ zeros (point.toNat - ds.length) ++ ['0']) =
            natOfDigits ds * 10 ^ (point.toNat - ds.length + 1) := by
          rw [natOfDigits_append, natOfDigits_append, natOfDigits_zeros, natOfDigits_zero,
            length_zeros, Nat.pow_succ, ← Nat.mul_assoc]
          rfl
        have hexp : (-1 : Int) + ((point.toNat - ds.length + 1 : Nat) : Int) =
            point - ds.length := by omega
        show Decimal.toDouble false ⟨natOfDigits (ds ++ zeros (point.toNat - ds.length) ++ ['0']),
          -1⟩ = _
        rw [hdigits, Decimal.toDouble_mul_pow false hpos, hexp]

theorem exponentText_eq (width : Nat) (e : Int) : ∃ ds : List Char,
    exponentText width e = (if e < 0 then '-' else '+') :: ds ∧ ds.all Char.isDigit = true ∧
      ds ≠ [] ∧ natOfDigits ds = e.natAbs := by
  refine ⟨zeros (width - (natDigits e.natAbs).length) ++ natDigits e.natAbs, rfl, ?_, ?_, ?_⟩
  · simp [isDigit_zeros, isDigit_natDigits]
  · simp [natDigits_ne_nil]
  · rw [natOfDigits_append]
    simp

theorem scientific_writes {ds : List Char} (hds : ds.all Char.isDigit = true) (hne : ds ≠ [])
    (width : Nat) (point : Int) :
    WritesDecimal (scientific width ds point) ⟨natOfDigits ds, point - ds.length⟩ := by
  obtain ⟨es, hexponent, hes, hesne, hvalue⟩ := exponentText_eq width (point - 1)
  have hscale :
      (if decide (point - 1 < 0) = true then -(natOfDigits es : Int) else natOfDigits es) =
        point - 1 := by
    rw [hvalue]
    by_cases hneg : point - 1 < 0
    · rw [if_pos (decide_eq_true hneg)]
      omega
    · rw [if_neg (by simpa using hneg)]
      omega
  match ds, hne with
  | [d], _ =>
    -- one digit, and no point
    refine ⟨⟨[d], none, some (decide (point - 1 < 0), es), hds, by simp, by simp, by simp, ?_⟩, ?_,
      .inr rfl, ?_⟩
    · intro e he
      obtain rfl := Option.some.inj he
      exact ⟨hes, hesne⟩
    · simp [scientific, hexponent, DecimalParts.chars, DecimalParts.fractionChars,
        DecimalParts.exponentChars]
    · show Decimal.toDouble false ⟨natOfDigits ([d] ++ []), _ - (0 : Int)⟩ = _
      simp only [DecimalParts.scale]
      rw [hscale]
      simp
  | d :: d' :: rest, _ =>
    rw [List.all_cons, Bool.and_eq_true] at hds
    refine ⟨⟨[d], some (d' :: rest), some (decide (point - 1 < 0), es), by simp [hds.1], by simp,
      ?_, by simp, ?_⟩, ?_, .inl rfl, ?_⟩
    · intro fraction hfraction
      obtain rfl := Option.some.inj hfraction
      exact hds.2
    · intro e he
      obtain rfl := Option.some.inj he
      exact ⟨hes, hesne⟩
    · simp [scientific, hexponent, DecimalParts.chars, DecimalParts.fractionChars,
        DecimalParts.exponentChars]
    · show Decimal.toDouble false ⟨natOfDigits ([d] ++ (d' :: rest)),
        _ - ((d' :: rest).length : Int)⟩ = _
      simp only [DecimalParts.scale]
      rw [hscale]
      congr 2
      simp only [List.length_cons]
      omega

/-! ### Sizes -/

theorem Decimal.shortest_toDouble (m : Magnitude) :
    (Decimal.shortest m).toDouble false = .finite false m :=
  beq_iff_eq.mp (Decimal.shortest_readsAs m)

/-- Only zero is written without a digit other than zero. -/
theorem Decimal.shortest_digits_ne_zero {m : Magnitude} (h : m.mantissa ≠ 0) :
    (Decimal.shortest m).digits ≠ 0 := by
  intro hzero
  have hreads := Decimal.shortest_toDouble m
  rw [Decimal.toDouble, if_pos hzero] at hreads
  have hm : Magnitude.zero = m := (Double.finite.inj hreads).2
  exact h (hm ▸ rfl)

/-- The text of a decimal writes that decimal. -/
theorem Decimal.text_writes {d : Decimal} (hd : d.digits ≠ 0) (format : NumberFormat) :
    WritesDecimal (d.text format) d := by
  obtain ⟨k, hk⟩ := exists_dropTrailingZeros (natDigits d.digits)
  have hdigits : natOfDigits (dropTrailingZeros (natDigits d.digits)) * 10 ^ k = d.digits := by
    have hall := congrArg natOfDigits hk
    rw [natOfDigits_natDigits, natOfDigits_append] at hall
    simpa using hall.symm
  have hpos : natOfDigits (dropTrailingZeros (natDigits d.digits)) ≠ 0 :=
    natOfDigits_dropTrailingZeros_ne_zero (by rw [natOfDigits_natDigits]; exact hd)
  have hall : (dropTrailingZeros (natDigits d.digits)).all Char.isDigit = true :=
    isDigit_dropTrailingZeros (isDigit_natDigits d.digits)
  have hlength : (natDigits d.digits).length =
      (dropTrailingZeros (natDigits d.digits)).length + k := by
    have h := congrArg List.length hk
    simpa using h
  have hvalue : d.toDouble false = Decimal.toDouble false
      ⟨natOfDigits (dropTrailingZeros (natDigits d.digits)),
        (natDigits d.digits).length + d.exponent -
          (dropTrailingZeros (natDigits d.digits)).length⟩ := by
    have hexp : ((natDigits d.digits).length : Int) + d.exponent -
        (dropTrailingZeros (natDigits d.digits)).length = d.exponent + k := by
      rw [hlength]
      omega
    rw [hexp, ← Decimal.toDouble_mul_pow false hpos, hdigits]
  have hwrites : ∀ cs : List Char, WritesDecimal cs
      ⟨natOfDigits (dropTrailingZeros (natDigits d.digits)),
        (natDigits d.digits).length + d.exponent -
          (dropTrailingZeros (natDigits d.digits)).length⟩ → WritesDecimal cs d := by
    intro cs hcs
    obtain ⟨t, hchars, hfloat, hdouble⟩ := hcs
    exact ⟨t, hchars, hfloat, hdouble.trans hvalue.symm⟩
  unfold Decimal.text
  dsimp only
  split
  · exact hwrites _ (positional_writes hall hpos _)
  · refine hwrites _ (scientific_writes hall ?_ _ _)
    intro hnil
    exact hpos (by rw [hnil]; rfl)

/-- The text of a size is that of a number with a point or an exponent, and reads back as the
size. -/
theorem Magnitude.exists_parts (m : Magnitude) (format : NumberFormat) :
    ∃ t : DecimalParts, m.text format = t.chars ∧
      (t.fraction.isSome = true ∨ t.exponent.isSome = true) ∧
      t.decimal.toDouble false = .finite false m := by
  unfold Magnitude.text
  split
  · rename_i hzero
    refine ⟨⟨['0'], some ['0'], none, by decide, by simp, by decide, by simp, by simp⟩, rfl,
      .inl rfl, ?_⟩
    rw [m.eq_zero_of_mantissa hzero]
    rfl
  · rename_i hpos
    obtain ⟨t, hchars, hfloat, hdouble⟩ :=
      Decimal.text_writes (Decimal.shortest_digits_ne_zero hpos) format
    exact ⟨t, hchars, hfloat, hdouble.trans (Decimal.shortest_toDouble m)⟩

end NumScript
