import ExactFloat.Conversion.ToFraction
import ExactFloat.Proofs.Dyadic
import ExactFloat.Proofs.Format
import ExactFloat.Proofs.Fraction

/-!
# Every finite float is a fraction

The significand and the power of two of a normal float become the two sides of a fraction, and
lowest terms keep its number. The parts are no longer than the significand and the exponent make
them.
-/

namespace ExactFloat

/-! ## Scaled numbers -/

theorem Fraction.ofScaled_eq_ok (negative : Bool) (m : Magnitude) (e : Int) :
    ∃ q, ofScaled negative m e = .ok q ∧ q.negative = negative ∧
      q.numerator.toNat = m.toNat * 2 ^ e.toNat ∧ q.denominator.toNat = 2 ^ (-e).toNat := by
  have one : ¬Magnitude.one.isZero = true := by
    rw [Magnitude.isZero_iff, Magnitude.toNat_one]
    exact one_ne_zero
  by_cases nonneg : 0 ≤ e
  · refine ⟨⟨negative, m <<< e.toNat, .one⟩, ?_, rfl, Magnitude.toNat_shiftLeft _ _, ?_⟩
    · unfold ofScaled ofParts
      rw [if_pos nonneg, if_neg one]
      rfl
    · have none : (-e).toNat = 0 := by omega
      rw [Magnitude.toNat_one, none, pow_zero]
  · have value : (Magnitude.one <<< (-e).toNat).toNat = 2 ^ (-e).toNat := by
      rw [Magnitude.toNat_shiftLeft, Magnitude.toNat_one, Nat.one_mul]
    have nonzero : ¬(Magnitude.one <<< (-e).toNat).isZero = true := by
      rw [Magnitude.isZero_iff, value]
      exact Nat.ne_of_gt (Nat.two_pow_pos _)
    refine ⟨⟨negative, m, Magnitude.one <<< (-e).toNat⟩, ?_, rfl, ?_, value⟩
    · unfold ofScaled ofParts
      rw [if_neg nonneg, if_neg nonzero]
      rfl
    · have none : e.toNat = 0 := by omega
      rw [none, pow_zero, Nat.mul_one]

theorem Fraction.value_of_ofScaled {negative : Bool} {m : Magnitude} {e : Int} {q : Fraction}
    (run : ofScaled negative m e = .ok q) :
    q.WellFormed ∧ q.value = if negative then -(m.toNat * 2 ^ e : ℚ) else m.toNat * 2 ^ e := by
  obtain ⟨p, run', sign, numerator, denominator⟩ := ofScaled_eq_ok negative m e
  obtain rfl : p = q := Except.ok.inj (run'.symm.trans run)
  have quotient : (p.numerator.toNat / p.denominator.toNat : ℚ) = m.toNat * 2 ^ e := by
    rw [numerator, denominator, ← two_pow_div]
    push_cast
    rw [mul_div_assoc]
  constructor
  · rw [WellFormed, denominator]
    exact Nat.ne_of_gt (Nat.two_pow_pos _)
  · rw [value, quotient, sign]

namespace BinaryFloat

/-! ## Floats with a value -/

variable {f : BinaryFloat}

theorem value_of_normal (normal : f.category = .normal) :
    f.value? = some
      (if f.negative then -(f.significand.toNat * 2 ^ (f.exponent - (f.format.precision - 1)) : ℚ)
        else f.significand.toNat * 2 ^ (f.exponent - (f.format.precision - 1))) := by
  rw [value?, normal]
  rfl

/-- The float is converted to the fraction `q`, which is its number in lowest terms. The conversion
changes no context and reports nothing. -/
structure ConvertsTo (f : BinaryFloat) (q : Fraction) : Prop where
  run : ∀ context events, (Observed.toFraction f).runFrom (context, events) =
    (.ok q, context, events)
  compareFraction : ∀ p, f.compareFraction p = .ok (some (compare q p))
  value : f.value? = some q.value
  wellFormed : q.WellFormed
  coprime : q.numerator.toNat.Coprime q.denominator.toNat

theorem convertsTo_of_normal (normal : f.category = .normal) :
    ∃ q, f.ConvertsTo q ∧ q.numerator.toNat ≤ f.significand.toNat * 2 ^ f.lowestExponent.toNat ∧
      q.denominator.toNat ≤ 2 ^ (-f.lowestExponent).toNat := by
  obtain ⟨p, scaled, -, numerator, denominator⟩ :=
    Fraction.ofScaled_eq_ok f.negative f.significand f.lowestExponent
  obtain ⟨wellFormed, value⟩ := Fraction.value_of_ofScaled scaled
  obtain ⟨q, canonical, reduced⟩ := Fraction.canonical_eq_ok wellFormed
  have run : f.normalFraction = .ok q := by
    rw [normalFraction, scaled]
    exact canonical
  refine ⟨q, ⟨fun context events => ?_, fun p => ?_, ?_, reduced.wellFormed, reduced.coprime⟩,
    numerator ▸ reduced.numerator_le, denominator ▸ reduced.denominator_le⟩
  · rw [Observed.toFraction, normal]
    exact congrArg (fun outcome => (outcome, context, events)) run
  · rw [compareFraction, normal]
    simp only [run, ok_bind, pure_eq_ok]
  · rw [reduced.value, value?, normal, value]

theorem convertsTo_zero (zero : f.category = .zero) : f.ConvertsTo .zero := by
  constructor
  · intro context events
    rw [Observed.toFraction, zero]
    rfl
  · intro p
    rw [compareFraction, zero]
    rfl
  · rw [value?, zero, Fraction.value_zero]
  · simp [Fraction.WellFormed, Fraction.zero]
  · simp [Fraction.zero]

theorem isFinite_iff : f.isFinite = true ↔ f.category = .normal ∨ f.category = .zero := by
  rw [isFinite, Bool.or_eq_true, isNormal, isZero, decide_eq_true_iff, decide_eq_true_iff]

theorem exists_convertsTo (finite : f.isFinite = true) : ∃ q, f.ConvertsTo q := by
  rcases isFinite_iff.1 finite with normal | zero
  · obtain ⟨q, converts, -⟩ := convertsTo_of_normal normal
    exact ⟨q, converts⟩
  · exact ⟨_, convertsTo_zero zero⟩

namespace ConvertsTo

variable {p : Fraction}

theorem toFraction_eq (h : f.ConvertsTo p) (context : Context) :
    f.toFraction context = .ok (p, context) := by
  rw [toFraction, h.run]
  rfl

theorem compareFraction_eq (h : f.ConvertsTo p) {q : Fraction} (wellFormed : q.WellFormed) :
    f.compareFraction q = .ok (some (compare p.value q.value)) := by
  rw [h.compareFraction, Fraction.compare_eq h.wellFormed wellFormed]

end ConvertsTo

/-! ## The converted fraction -/

/-- Without a value a float raises the flag and becomes zero, which zeros become without it. -/
theorem toFraction_of_not_normal (h : f.isNormal = false) (context : Context) :
    f.toFraction context =
      .ok (.zero, { context with rangeError := context.rangeError || (f.isNaN || f.isInfinite) }) := by
  unfold toFraction Observed.toFraction isNaN isInfinite
  cases category : f.category with
  | normal => simp [isNormal, category] at h
  | zero =>
      simp only [reduceCtorEq, decide_false, Bool.or_false]
      rfl
  | infinity | nan =>
      simp only [reduceCtorEq, decide_false, decide_true, Bool.true_or, Bool.or_true]
      rfl

theorem signed_eq_mul (negative : Bool) (x : ℚ) :
    (if negative then -x else x) = (-1) ^ negative.toNat * x := by
  cases negative <;> simp

/-- A significand that is not zero becomes a fraction in lowest terms, with what the trailing zeros
of the significand leave of the power of two below the line. -/
theorem ConvertsTo.lowest {q : Fraction} (h : f.ConvertsTo q) (normal : f.category = .normal)
    (nonzero : f.significand.toNat ≠ 0) :
    q.isCanonical = .ok true ∧
      q.value = (-1) ^ f.negative.toNat *
        (f.significand.toNat * 2 ^ (f.exponent - (f.format.precision - 1))) ∧
      q.denominator.toNat = 2 ^ (-(f.exponent - (f.format.precision - 1) +
        f.significand.toNat.factorization 2)).toNat := by
  have value := Option.some.inj (h.value.symm.trans (value_of_normal normal))
  generalize f.exponent - ((f.format.precision : Int) - 1) = place at value
  have pos : (0 : ℚ) < f.significand.toNat * 2 ^ place :=
    mul_pos (Nat.cast_pos.2 (Nat.pos_of_ne_zero nonzero)) (zpow_pos (by norm_num) _)
  have magnitude : |q.value| = f.significand.toNat * 2 ^ place := by
    rw [value, signed_eq_mul, abs_mul, abs_neg_one_pow, one_mul, abs_of_pos pos]
  have numerator : q.numerator.toNat ≠ 0 := by
    rw [ne_eq, ← Fraction.value_eq_zero_iff h.wellFormed, ← abs_eq_zero, magnitude]
    exact ne_of_gt pos
  refine ⟨?_, ?_, ?_⟩
  · rw [Fraction.isCanonical_eq_ok numerator, decide_eq_true h.coprime]
  · rw [value, signed_eq_mul]
  · rw [← Fraction.den_value_of_coprime h.wellFormed h.coprime, ← Rat.den_abs_eq_den, magnitude,
      den_mul_two_zpow nonzero]

/-- Each float of a valid format is converted without an error. A normal float becomes its exact
number in lowest terms, all others become zero, and only those without a value raise the flag. -/
theorem toFraction_canonical (context : Context) (valid : f.format.validate = .ok ())
    (wellFormed : f.WellFormed) (moderate : f.format.precision < 2 ^ 60) :
    ∃ q, f.toFraction context =
        .ok (q, { context with rangeError := context.rangeError || (f.isNaN || f.isInfinite) }) ∧
      (f.isNormal = true →
        let place := f.exponent - (f.format.precision - 1)
        f.scaled? = some (f.negative, f.significand, place) ∧ FitsInt64 place ∧
        q.isCanonical = .ok true ∧ q.numerator.toNat.Coprime q.denominator.toNat ∧
        q.value = (-1) ^ f.negative.toNat * (f.significand.toNat * 2 ^ place) ∧
        q.denominator.toNat = 2 ^ (-(place + f.significand.toNat.factorization 2)).toNat) ∧
      (f.isNormal = false → q = .zero) := by
  cases isNormal : f.isNormal with
  | false =>
      refine ⟨.zero, toFraction_of_not_normal isNormal context, ?_, fun _ => rfl⟩
      exact fun normal => absurd normal Bool.false_ne_true
  | true =>
      have normal : f.category = .normal := of_decide_eq_true isNormal
      obtain ⟨pos, -, -⟩ := Format.validate_eq_ok_iff.1 valid
      obtain ⟨length, admitted⟩ := (wellFormed_iff_of_normal normal).1 wellFormed
      have nonzero : f.significand.toNat ≠ 0 := by
        rw [ne_eq, ← Magnitude.bitLength_eq_zero, length]
        exact pos
      have near := abs_lt.1 (Format.abs_exponent_lt valid admitted)
      obtain ⟨q, converts, -⟩ := convertsTo_of_normal normal
      obtain ⟨canonical, value, denominator⟩ := converts.lowest normal nonzero
      refine ⟨q, ?_, ?_, ?_⟩
      · rw [converts.toFraction_eq]
        simp [isNaN, isInfinite, normal]
      · intro _ place
        have fits : FitsInt64 place := by
          simp only [place, FitsInt64, int64Limit]
          omega
        have scaled : f.scaled? = some (f.negative, f.significand, place) := if_pos isNormal
        exact ⟨scaled, fits, canonical, converts.coprime, value, denominator⟩
      · intro special
        cases special

/-- Minus six eighths is minus three quarters in lowest terms, under a flag that was up before. -/
theorem toFraction_canonical_of_three_quarters :
    ∃ q, toFraction ⟨⟨3, 3, .nearestEven⟩, true, -1, .ofWord 6, .normal⟩ ⟨true⟩ =
        .ok (q, ⟨true⟩) ∧
      q.value = -(3 / 4) ∧ q.denominator.toNat = 4 := by
  obtain ⟨q, run, normal, -⟩ := toFraction_canonical
    (f := ⟨⟨3, 3, .nearestEven⟩, true, -1, .ofWord 6, .normal⟩) ⟨true⟩ rfl ⟨rfl, by decide⟩
    (show 3 < 2 ^ 60 by norm_num)
  obtain ⟨-, -, -, -, value, denominator⟩ := normal rfl
  refine ⟨q, run, ?_, ?_⟩
  · rw [value]
    decide +kernel
  · rw [denominator]
    decide +kernel

end BinaryFloat

end ExactFloat
