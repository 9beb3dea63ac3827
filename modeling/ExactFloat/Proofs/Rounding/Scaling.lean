import ExactFloat.Proofs.Fraction
import ExactFloat.Proofs.Tail

/-!
# The scaled division

A fraction is divided after one of its parts was shifted. The shift makes the dividend longer than
the divisor by two bits more than the precision, whatever the lengths of the parts are, and lengths
alone give the quotient two or three bits more than the precision.
-/

namespace ExactFloat

namespace Fraction

/-- The exponent of the power of two that multiplies the fraction. -/
def scale (precision : Nat) (q : Fraction) : Int :=
  precision + 2 - (q.numerator.bitLength - q.denominator.bitLength)

def dividend (precision : Nat) (q : Fraction) : Magnitude :=
  if 0 ≤ q.scale precision then q.numerator <<< (q.scale precision).toNat else q.numerator

def divisor (precision : Nat) (q : Fraction) : Magnitude :=
  if 0 ≤ q.scale precision then q.denominator else q.denominator <<< (-q.scale precision).toNat

/-- The exponent of the bit of the quotient with the index `precision - 1`. -/
def quotientExponent (precision : Nat) (q : Fraction) : Int :=
  (precision - 1 : Nat) - q.scale precision

variable {precision : Nat} {q : Fraction}

theorem divisor_ne_zero (h : q.WellFormed) : (q.divisor precision).toNat ≠ 0 := by
  unfold divisor
  split
  · exact h
  · rw [Magnitude.toNat_shiftLeft]
    exact Nat.mul_ne_zero h (Nat.ne_of_gt (Nat.two_pow_pos _))

theorem dividend_div_divisor (precision : Nat) (q : Fraction) :
    ((q.dividend precision).toNat : ℚ) / (q.divisor precision).toNat =
      |q.value| * 2 ^ q.scale precision := by
  rw [abs_value]
  unfold dividend divisor
  by_cases up : 0 ≤ q.scale precision
  · obtain ⟨i, shift⟩ := Int.eq_ofNat_of_zero_le up
    rw [if_pos up, if_pos up, Magnitude.toNat_shiftLeft, shift, Int.toNat_natCast, zpow_natCast]
    push_cast
    ring
  · obtain ⟨i, shift⟩ := Int.eq_ofNat_of_zero_le (show 0 ≤ -q.scale precision by omega)
    have down : q.scale precision = -(i : Int) := by omega
    rw [if_neg up, if_neg up, Magnitude.toNat_shiftLeft, shift, Int.toNat_natCast, down, zpow_neg,
      zpow_natCast]
    push_cast
    rw [div_mul_eq_div_div, div_eq_mul_inv _ ((2 : ℚ) ^ i)]

theorem bitLength_dividend (precision : Nat) (nonzero : q.value ≠ 0) :
    (q.dividend precision).bitLength = (q.divisor precision).bitLength + (precision + 2) := by
  unfold dividend divisor
  by_cases up : 0 ≤ q.scale precision
  · rw [if_pos up, if_pos up, Magnitude.bitLength_shiftLeft (numerator_ne_zero nonzero)]
    unfold scale at up ⊢
    omega
  · rw [if_neg up, if_neg up,
      Magnitude.bitLength_shiftLeft (wellFormed_of_value_ne_zero nonzero)]
    unfold scale at up ⊢
    omega

/-! ## Room for the shifts -/

/-- The exponents reckoned with before the division fit in machine integers. -/
structure HasRoom (precision : Nat) (q : Fraction) : Prop where
  precision_lt : (precision : Int) + 2 < 2 ^ 63
  scale_lt : q.scale precision < 2 ^ 63
  lengths_lt : |(q.numerator.bitLength : Int) - q.denominator.bitLength| < 2 ^ 61

theorem abs_scale_le (moderate : precision < 2 ^ 60) (short : q.ShorterThan (2 ^ 60)) :
    |q.scale precision| ≤ 2 ^ 61 := by
  obtain ⟨numerator, denominator⟩ := short
  rw [abs_le, scale]
  omega

theorem hasRoom_of_moderate (moderate : precision < 2 ^ 60) (short : q.ShorterThan (2 ^ 60)) :
    q.HasRoom precision where
  precision_lt := by omega
  scale_lt := lt_of_le_of_lt (abs_le.1 (abs_scale_le moderate short)).2 (by norm_num)
  lengths_lt := by
    obtain ⟨numerator, denominator⟩ := short
    rw [abs_lt]
    omega

/-- The bits that are cut off and a carry add up to four, for which there is room as well. -/
theorem HasRoom.abs_quotientExponent_lt (room : q.HasRoom precision) :
    |q.quotientExponent precision| < 2 ^ 62 - 4 := by
  have lengths := abs_lt.1 room.lengths_lt
  rw [abs_lt, quotientExponent, scale]
  omega

theorem bitLength_dividend_lt (nonzero : q.value ≠ 0) (moderate : precision < 2 ^ 60)
    (short : q.ShorterThan (2 ^ 60)) : (q.dividend precision).bitLength < 2 ^ 62 := by
  obtain ⟨numerator, denominator⟩ := short
  unfold dividend
  split
  · rw [Magnitude.bitLength_shiftLeft (numerator_ne_zero nonzero), scale]
    omega
  · omega

end Fraction

/-- A division of a scaled fraction that was carried out. -/
structure ScaledDivision (precision : Nat) (q : Fraction) where
  quotient : Magnitude
  remainder : Magnitude
  run : (q.dividend precision).divMod (q.divisor precision) = .ok (quotient, remainder)
  quotient_eq : quotient.toNat = (q.dividend precision).toNat / (q.divisor precision).toNat
  remainder_eq : remainder.toNat = (q.dividend precision).toNat % (q.divisor precision).toNat
  divisor_ne_zero : (q.divisor precision).toNat ≠ 0

namespace ScaledDivision

variable {precision : Nat} {q : Fraction}

theorem nonempty (precision : Nat) (h : q.WellFormed) : Nonempty (ScaledDivision precision q) := by
  have divisor : (q.divisor precision).toNat ≠ 0 := Fraction.divisor_ne_zero h
  obtain ⟨quotient, remainder, run, quotientEq, remainderEq⟩ :=
    Magnitude.divMod_eq_ok (q.dividend precision) (q.divisor precision) divisor
  exact ⟨⟨quotient, remainder, run, quotientEq, remainderEq, divisor⟩⟩

def part (d : ScaledDivision precision q) : ℚ :=
  d.remainder.toNat / (q.divisor precision).toNat

theorem part_nonneg (d : ScaledDivision precision q) : 0 ≤ d.part := by
  unfold part
  positivity

theorem part_lt_one (d : ScaledDivision precision q) : d.part < 1 := by
  have pos := Nat.pos_of_ne_zero d.divisor_ne_zero
  rw [part, div_lt_one (Nat.cast_pos.2 pos), d.remainder_eq]
  exact_mod_cast Nat.mod_lt _ pos

theorem ofRemainder_eq (d : ScaledDivision precision q) :
    Tail.ofRemainder d.remainder (q.divisor precision) = .ofPart d.part :=
  Tail.ofRemainder_eq d.remainder d.divisor_ne_zero

theorem length (d : ScaledDivision precision q) (nonzero : q.value ≠ 0) :
    d.quotient.bitLength = precision + 2 ∨ d.quotient.bitLength = precision + 3 :=
  Magnitude.bitLength_quotient d.divisor_ne_zero d.quotient_eq
    (Fraction.bitLength_dividend precision nonzero)

theorem value (d : ScaledDivision precision q) :
    (d.quotient.toNat + d.part) * 2 ^ (-q.scale precision) = |q.value| := by
  have divisor : ((q.divisor precision).toNat : ℚ) ≠ 0 := Nat.cast_ne_zero.2 d.divisor_ne_zero
  have split : ((q.dividend precision).toNat : ℚ) =
      (q.divisor precision).toNat * d.quotient.toNat + d.remainder.toNat := by
    rw [d.quotient_eq, d.remainder_eq]
    exact_mod_cast (Nat.div_add_mod _ _).symm
  have total : d.quotient.toNat + d.part = |q.value| * 2 ^ q.scale precision := by
    rw [← Fraction.dividend_div_divisor, split, part, add_div, mul_div_cancel_left₀ _ divisor]
  rw [total, mul_assoc, ← zpow_add₀ (by norm_num), add_neg_cancel, zpow_zero, mul_one]

end ScaledDivision

end ExactFloat
