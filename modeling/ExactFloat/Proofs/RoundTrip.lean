import ExactFloat.Proofs.Equality
import ExactFloat.Proofs.Rounding.Direction

/-!
# Floats survive the way through fractions

A number with a significand of the length of the format is converted without rounding, in every
mode. So a float that became a fraction comes back from it, into its own format or into a wider
one, and from the wider one back into its own.
-/

namespace ExactFloat.BinaryFloat

/-! ## Conversion of numbers of the grid -/

theorem parts_of_signed {negative : Bool} {x y : ℚ} (pos : 0 < x)
    (value : y = if negative then -x else x) : decide (y < 0) = negative ∧ |y| = x ∧ y ≠ 0 := by
  subst value
  cases negative with
  | false => exact ⟨decide_eq_false (lt_asymm pos), abs_of_pos pos, ne_of_gt pos⟩
  | true =>
      rw [if_pos rfl, abs_neg]
      exact ⟨decide_eq_true (neg_neg_of_pos pos), abs_of_pos pos, neg_ne_zero.2 (ne_of_gt pos)⟩

/-- A number with a significand of the length of the format keeps its sign, its significand and its
exponent, if the format has the exponent. -/
theorem ofFraction_of_grid {format : Format} (mode : Mode) {q : Fraction} {negative : Bool}
    {n : Nat} {e : Int} (valid : format.validate = .ok ()) (moderate : format.precision < 2 ^ 60)
    (short : q.ShorterThan (2 ^ 60)) (lower : 2 ^ (format.precision - 1) ≤ n)
    (upper : n < 2 ^ format.precision) (admitted : format.admitExponent e = .ok ())
    (value : q.value = if negative then -(n * 2 ^ (e - (format.precision - 1)) : ℚ)
      else n * 2 ^ (e - (format.precision - 1))) :
    ∃ m : Magnitude, m.toNat = n ∧
      ofFraction format mode q = .ok (⟨format, negative, e, m, .normal⟩, .eq) := by
  have significandPos : (0 : ℚ) < n := by
    exact_mod_cast Nat.lt_of_lt_of_le (Nat.two_pow_pos _) lower
  have pos := mul_pos significandPos (two_zpow_pos (e - (format.precision - 1)))
  obtain ⟨sign, magnitude, nonzero⟩ := parts_of_signed pos value
  obtain ⟨c, m, significand, result⟩ := ofFraction_eq mode sign valid nonzero moderate short
  have part := c.part_eq_zero ⟨n, _, lower, upper, magnitude⟩
  have direction := c.direction_eq mode negative
  rw [if_pos part] at direction
  rw [c.result_eq mode negative lower upper magnitude] at significand result
  refine ⟨m, significand, ?_⟩
  rw [result, direction, admitted]
  rfl

/-! ## Fractions of floats -/

/-- The parts of the fraction of a float are no longer than precision and exponent together. -/
theorem exists_convertsTo_short {f : BinaryFloat} (normal : f.category = .normal)
    (length : f.significand.bitLength = f.format.precision) (moderate : f.format.precision < 2 ^ 59)
    (near : |f.exponent| < 2 ^ 59) : ∃ q, f.ConvertsTo q ∧ q.ShorterThan (2 ^ 60) := by
  obtain ⟨q, converts, numerator, denominator⟩ := convertsTo_of_normal normal
  have bounds := abs_lt.1 near
  have lowest : f.lowestExponent = f.exponent - (f.format.precision - 1) := rfl
  have short := Magnitude.toNat_lt_two_pow_bitLength f.significand
  rw [length] at short
  refine ⟨q, converts, ?_, ?_⟩
  · have below : q.numerator.toNat < 2 ^ (f.format.precision + f.lowestExponent.toNat) := by
      rw [pow_add]
      exact Nat.lt_of_le_of_lt numerator (Nat.mul_lt_mul_of_pos_right short (Nat.two_pow_pos _))
    have le := Magnitude.bitLength_le_iff.2 below
    omega
  · have below : q.denominator.toNat < 2 ^ ((-f.lowestExponent).toNat + 1) :=
      Nat.lt_of_le_of_lt denominator (Nat.pow_lt_pow_right (by decide) (Nat.lt_succ_self _))
    have le := Magnitude.bitLength_le_iff.2 below
    omega

/-! ## Wider formats -/

theorem exists_roundTrip_of_normal {f : BinaryFloat} {wider : Format} (mode mode' : Mode)
    (normal : f.category = .normal) (length : f.significand.bitLength = f.format.precision)
    (valid : f.format.validate = .ok ()) (admitted : f.format.admitExponent f.exponent = .ok ())
    (widerValid : wider.validate = .ok ())
    (widerAdmitted : wider.admitExponent f.exponent = .ok ())
    (precision_le : f.format.precision ≤ wider.precision) (moderate : wider.precision < 2 ^ 59)
    (near : |f.exponent| < 2 ^ 59) :
    ∃ (q r : Fraction) (m m' : Magnitude),
      f.ConvertsTo q ∧
      ofFraction wider mode q = .ok (⟨wider, f.negative, f.exponent, m, .normal⟩, .eq) ∧
      ConvertsTo ⟨wider, f.negative, f.exponent, m, .normal⟩ r ∧
      ofFraction f.format mode' r =
        .ok (⟨f.format, f.negative, f.exponent, m', .normal⟩, .eq) ∧
      r.value = q.value ∧ m'.toNat = f.significand.toNat := by
  obtain ⟨pos, -, -⟩ := Format.validate_eq_ok_iff.1 valid
  obtain ⟨q, converts, short⟩ := exists_convertsTo_short normal length (by omega) near
  have value := Option.some.inj (converts.value.symm.trans (value_of_normal normal))
  have nonzero : f.significand.toNat ≠ 0 := by
    rw [ne_eq, ← Magnitude.bitLength_eq_zero, length]
    exact pos
  have lower := Magnitude.two_pow_le_toNat nonzero
  have upper := Magnitude.toNat_lt_two_pow_bitLength f.significand
  rw [length] at lower upper
  have widened := widened_value precision_le f.significand.toNat f.exponent
  have widerLower := two_pow_le_widened pos precision_le lower
  have widerUpper := widened_lt_two_pow precision_le upper
  -- The wider float has the same significand with zero bits below it.
  obtain ⟨m, same, run⟩ := ofFraction_of_grid mode widerValid (by omega) short widerLower
    widerUpper widerAdmitted (widened.symm ▸ value)
  rw [← same] at widerLower widerUpper widened
  let g : BinaryFloat := ⟨wider, f.negative, f.exponent, m, .normal⟩
  have gNormal : g.category = .normal := rfl
  obtain ⟨r, back, backShort⟩ := exists_convertsTo_short gNormal
    (Magnitude.bitLength_eq_of_bounds widerLower widerUpper) moderate near
  have backValue := Option.some.inj (back.value.symm.trans (value_of_normal gNormal))
  rw [show g.format = wider from rfl, show g.significand = m from rfl,
    show g.exponent = f.exponent from rfl, widened] at backValue
  obtain ⟨m', same', run'⟩ := ofFraction_of_grid mode' valid (by omega) backShort lower upper
    admitted backValue
  exact ⟨q, r, m, m', converts, run, back, run', backValue.trans value.symm, same'⟩

/-- A finite float comes back from its fraction, through its own format or a wider one, whatever the
modes. -/
theorem roundTrip {f : BinaryFloat} {wider : Format} {least greatest : Int} (mode mode' : Mode)
    (context : Context) (finite : f.isFinite = true) (wellFormed : f.WellFormed)
    (valid : f.format.validate = .ok ()) (widerValid : wider.validate = .ok ())
    (precision_le : f.format.precision ≤ wider.precision)
    (range : wider.exponentRange = .ok (least, greatest)) (least_le : least ≤ f.exponent)
    (le_greatest : f.exponent ≤ greatest) (moderate : wider.precision < 2 ^ 59)
    (near : |f.exponent| < 2 ^ 59) :
    ∃ (q : Fraction) (g : BinaryFloat) (r : Fraction) (h : BinaryFloat),
      f.toFraction context = .ok (q, context) ∧ ofFraction wider mode q = .ok (g, .eq) ∧
      g.toFraction context = .ok (r, context) ∧ ofFraction f.format mode' r = .ok (h, .eq) ∧
      g.value? = f.value? ∧ (h == f) = true ∧
      (f.isNormal = true → g.isNormal = true ∧ g.negative = f.negative ∧ g.exponent = f.exponent ∧
        h.isNormal = true ∧ h.negative = f.negative ∧ h.exponent = f.exponent ∧
        h.significand.toNat = f.significand.toNat) ∧
      (f.isZero = true → g = zero wider false ∧ h = zero f.format false) := by
  rcases isFinite_iff.1 finite with normal | zero
  · obtain ⟨length, own⟩ := (wellFormed_iff_of_normal normal).1 wellFormed
    have admitted := (Format.admitExponent_eq_ok_iff range).2 ⟨least_le, le_greatest⟩
    obtain ⟨q, r, m₁, m₂, converts, run, back, run', value, same⟩ :=
      exists_roundTrip_of_normal mode mode' normal length valid own widerValid admitted
        precision_le moderate near
    refine ⟨q, _, r, _, converts.toFraction_eq context, run, back.toFraction_eq context, run',
      ?_, ?_, ?_, ?_⟩
    · rw [back.value, converts.value, value]
    · rw [beq_iff_sameParts_of_normal rfl, sameParts_iff]
      exact ⟨rfl, rfl, same, normal.symm⟩
    · exact fun _ => ⟨rfl, rfl, rfl, rfl, rfl, rfl, same⟩
    · intro zero
      simp [isZero, normal] at zero
  · have converts := convertsTo_zero zero
    have back := convertsTo_zero (f := BinaryFloat.zero wider false) rfl
    have run := ofFraction_of_value_eq_zero mode widerValid converts.wellFormed
      Fraction.value_zero
    have run' := ofFraction_of_value_eq_zero mode' valid converts.wellFormed Fraction.value_zero
    refine ⟨.zero, _, .zero, _, converts.toFraction_eq context, run, back.toFraction_eq context,
      run', back.value.trans converts.value.symm, ?_, ?_, fun _ => ⟨rfl, rfl⟩⟩
    · exact beq_zero rfl zero
    · intro normal
      simp [isNormal, zero] at normal

/-- Minus three eighths goes through a format with five bits and comes back to two. -/
theorem roundTrip_of_three_eighths :
    ∃ (q : Fraction) (g : BinaryFloat) (r : Fraction) (h : BinaryFloat),
      toFraction ⟨⟨3, 2, .nearestEven⟩, true, -2, .ofWord 3, .normal⟩ ⟨true⟩ = .ok (q, ⟨true⟩) ∧
      ofFraction ⟨4, 5, .towardZero⟩ .upward q = .ok (g, .eq) ∧ g.exponent = -2 ∧
      g.toFraction ⟨true⟩ = .ok (r, ⟨true⟩) ∧
      ofFraction ⟨3, 2, .nearestEven⟩ .downward r = .ok (h, .eq) ∧ h.significand.toNat = 3 := by
  have widerValid : Format.validate ⟨4, 5, .towardZero⟩ = .ok () := rfl
  have range : Format.exponentRange ⟨4, 5, .towardZero⟩ = .ok (-6, 7) := rfl
  have near : |(-2 : Int)| < 2 ^ 59 := by norm_num
  obtain ⟨q, g, r, h, there, wide, back, narrow, -, -, normal, -⟩ :=
    roundTrip (f := ⟨⟨3, 2, .nearestEven⟩, true, -2, .ofWord 3, .normal⟩) .upward .downward
      ⟨true⟩ rfl ⟨rfl, by decide⟩ rfl widerValid (by decide) range (by decide) (by decide)
      (by decide) near
  obtain ⟨-, -, exponent, -, -, -, significand⟩ := normal rfl
  exact ⟨q, g, r, h, there, wide, exponent, back, narrow, significand⟩

end ExactFloat.BinaryFloat
