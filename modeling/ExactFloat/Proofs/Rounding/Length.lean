import ExactFloat.Conversion.Rounding
import ExactFloat.Proofs.Rounding.Scaling

/-!
# Rounded significands have the length of the precision

Whatever the tail and the mode, a significand that was rounded has exactly as many bits as the
precision: it is cut off or widened to them, and where the next significand has one bit more, the
carry moves that bit to the exponent. This holds of a precision that wrapped to a negative number
too, for which no bit is left.
-/

namespace ExactFloat

namespace Rounded

theorem length_of_align {precision exponent exponent' : Int} {significand kept : Magnitude}
    {below tail : Tail} (wide : 0 < precision → significand.toNat ≠ 0)
    (run : align precision exponent significand below = .ok (exponent', kept, tail)) :
    kept.bitLength = precision.toNat := by
  unfold align at run
  dsimp only at run
  -- Cut off, widened, or of the right length already.
  split at run
  · next cut =>
    obtain ⟨excess, difference, run⟩ := bind_eq_ok_iff.1 run
    obtain ⟨_, -, run⟩ := bind_eq_ok_iff.1 run
    obtain ⟨-, rfl⟩ := fits_of_int64 difference
    cases run
    rw [Magnitude.bitLength_shiftRight]
    omega
  · split at run
    · next widened =>
      obtain ⟨_, -, run⟩ := bind_eq_ok_iff.1 run
      obtain ⟨missing, difference, run⟩ := bind_eq_ok_iff.1 run
      obtain ⟨_, -, run⟩ := bind_eq_ok_iff.1 run
      obtain ⟨-, rfl⟩ := fits_of_int64 difference
      cases run
      rw [Magnitude.bitLength_shiftLeft (wide (by omega))]
      omega
    · cases run
      omega

/-- The next number is at most one bit longer, and then the carry shortens it. -/
theorem length_of_increment {precision exponent exponent' : Int} {significand next : Magnitude}
    (length : significand.bitLength = precision.toNat)
    (run : increment precision exponent significand = .ok (exponent', next)) :
    next.bitLength = precision.toNat := by
  have value : (significand + .one).toNat = significand.toNat + 1 := by
    rw [Magnitude.toNat_add, Magnitude.toNat_one]
  have atLeast : significand.bitLength ≤ (significand + .one).bitLength :=
    Magnitude.bitLength_mono (by omega)
  have atMost := Magnitude.bitLength_add_one_le significand
  have nonzero : (significand + .one).bitLength ≠ 0 := by
    rw [ne_eq, Magnitude.bitLength_eq_zero, value]
    exact Nat.succ_ne_zero _
  unfold increment at run
  dsimp only at run
  split at run
  · next carry =>
    obtain ⟨_, -, run⟩ := bind_eq_ok_iff.1 run
    cases run
    rw [Magnitude.bitLength_shiftRight]
    omega
  · next fits =>
    cases run
    omega

theorem length_of_ofTail {precision exponent : Int} {mode : Mode} {negative : Bool}
    {significand : Magnitude} {below : Tail} {r : Rounded}
    (wide : 0 < precision → significand.toNat ≠ 0)
    (run : ofTail precision mode negative exponent significand below = .ok r) :
    r.significand.bitLength = precision.toNat := by
  unfold ofTail at run
  obtain ⟨⟨_, kept, tail⟩, aligned, run⟩ := bind_eq_ok_iff.1 run
  have length := length_of_align wide aligned
  dsimp only at run
  split at run
  · cases run
    exact length
  · obtain ⟨_, -, run⟩ := bind_eq_ok_iff.1 run
    split at run
    · obtain ⟨⟨_, next⟩, incremented, run⟩ := bind_eq_ok_iff.1 run
      cases run
      exact length_of_increment length incremented
    · cases run
      exact length

/-- Scaling moves the lengths of dividend and divisor apart by the scale. -/
theorem length_of_operands {q : Fraction} {scale : Int} {dividend divisor : Magnitude}
    (numerator : q.numerator.toNat ≠ 0) (nonzero : divisor.toNat ≠ 0)
    (run : operands q scale = .ok (dividend, divisor)) :
    (dividend.bitLength : Int) - divisor.bitLength =
      q.numerator.bitLength - q.denominator.bitLength + scale := by
  unfold operands at run
  split at run
  · cases run
    rw [Magnitude.bitLength_shiftLeft numerator]
    omega
  · obtain ⟨_, opposite, run⟩ := bind_eq_ok_iff.1 run
    obtain ⟨-, rfl⟩ := fits_of_int64 opposite
    cases run
    have denominator : q.denominator.toNat ≠ 0 := by
      rw [Magnitude.toNat_shiftLeft] at nonzero
      exact left_ne_zero_of_mul nonzero
    rw [Magnitude.bitLength_shiftLeft denominator]
    omega

/-- The scale makes the quotient longer than any precision that is positive, so there is something
to round. -/
theorem length_of_ofFraction {format : Format} {mode : Mode} {q : Fraction} {r : Rounded}
    (numerator : q.numerator.toNat ≠ 0) (run : ofFraction format mode q = .ok r) :
    r.significand.bitLength = (asInt64 format.precision).toNat := by
  unfold ofFraction at run
  dsimp only at run
  generalize asInt64 format.precision = precision at run ⊢
  obtain ⟨_, sum, run⟩ := bind_eq_ok_iff.1 run
  obtain ⟨-, rfl⟩ := fits_of_int64 sum
  obtain ⟨scale, difference, run⟩ := bind_eq_ok_iff.1 run
  obtain ⟨-, rfl⟩ := fits_of_int64 difference
  obtain ⟨⟨dividend, divisor⟩, scaled, run⟩ := bind_eq_ok_iff.1 run
  obtain ⟨⟨quotient, remainder⟩, division, run⟩ := bind_eq_ok_iff.1 run
  obtain ⟨_, -, run⟩ := bind_eq_ok_iff.1 run
  obtain ⟨_, -, run⟩ := bind_eq_ok_iff.1 run
  dsimp only at division run
  refine length_of_ofTail (fun positive => ?_) run
  obtain ⟨bits, rfl⟩ := Int.eq_succ_of_zero_lt positive
  obtain ⟨nonzero, value, -⟩ := Magnitude.values_of_divMod division
  have lengths := length_of_operands numerator nonzero scaled
  have longer : dividend.bitLength = divisor.bitLength + (bits + 2 + 1) := by omega
  rw [ne_eq, ← Magnitude.bitLength_eq_zero]
  have length := Magnitude.bitLength_quotient nonzero value longer
  omega

end Rounded

end ExactFloat
