import ExactFloat.Proofs.Format
import ExactFloat.Proofs.Rounding.Cut
import ExactFloat.Proofs.Rounding.Length
import ExactFloat.Proofs.Rounding.Observed

/-!
# The conversion of fractions computes a cut

The scaled quotient and its remainder are the magnitude in another unit. With two or three bits
more than the precision it is cut off there, and the tails of both steps together are the class of
the part cut off. The steps of exponent arithmetic need room, which there is while precision and
lengths stay below `2 ^ 60`.
-/

namespace ExactFloat

namespace Cut

variable {precision : Nat} {x : ℚ}

/-! ## Directions -/

def direction (c : Cut precision x) (mode : Mode) (negative : Bool) : Ordering :=
  if negative then compare x (c.rounded mode negative) else compare (c.rounded mode negative) x

theorem direction_eq (c : Cut precision x) (mode : Mode) (negative : Bool) :
    c.direction mode negative =
      if c.part = 0 then .eq else Rounded.directionOf negative (c.away mode negative) := by
  by_cases exact : c.part = 0
  · have same : c.rounded mode negative = x :=
      (c.rounded_of_exact mode negative exact).trans (c.eq_floor exact).symm
    rw [if_pos exact, direction, same]
    simp
  · have below := c.floor_lt exact
    have above := c.lt_next
    rw [if_neg exact, direction, rounded]
    cases c.away mode negative <;> cases negative
    · exact compare_lt_iff_lt.2 below
    · exact compare_gt_iff_gt.2 below
    · exact compare_gt_iff_gt.2 above
    · exact compare_lt_iff_lt.2 above

theorem bitLength_of_result (c : Cut precision x) {mode : Mode} {negative : Bool} {m : Magnitude}
    (significand : m.toNat = (c.result mode negative).1) : m.bitLength = precision := by
  apply Magnitude.bitLength_eq_of_bounds <;> rw [significand]
  · exact c.two_pow_le_result mode negative
  · exact c.result_lt_two_pow mode negative

/-- A rounded magnitude is the one that a cut gives. -/
structure Gives (c : Cut precision x) (mode : Mode) (negative : Bool) (r : Rounded) : Prop where
  exponent : r.exponent = (c.result mode negative).2
  significand : r.significand.toNat = (c.result mode negative).1
  direction : r.direction = c.direction mode negative

theorem Gives.length {c : Cut precision x} {mode : Mode} {negative : Bool} {r : Rounded}
    (gives : c.Gives mode negative r) : r.significand.bitLength = precision :=
  c.bitLength_of_result gives.significand

/-! ## Cutting off at the precision -/

def ofExcess {n excess : Nat} {t : ℚ} (e : Int) (pos : precision ≠ 0)
    (lower : 2 ^ (precision + excess - 1) ≤ n) (upper : n < 2 ^ (precision + excess))
    (nonneg : 0 ≤ t) (lt_one : t < 1) : Cut precision ((n + t) * 2 ^ e) where
  significand := n / 2 ^ excess
  unit := e + excess
  part := ((n % 2 ^ excess : Nat) + t) / (2 ^ excess : Nat)
  lower := by
    rw [Nat.le_div_iff_mul_le (Nat.two_pow_pos excess), ← pow_add]
    apply le_of_eq_of_le _ lower
    congr 1
    omega
  upper := by
    rw [Nat.div_lt_iff_lt_mul (Nat.two_pow_pos excess), ← pow_add]
    exact upper
  part_nonneg := by positivity
  part_lt_one := by
    have whole : (0 : ℚ) < (2 ^ excess : Nat) := Nat.cast_pos.2 (Nat.two_pow_pos excess)
    have rest : ((n % 2 ^ excess : Nat) : ℚ) + 1 ≤ (2 ^ excess : Nat) := by
      exact_mod_cast Nat.mod_lt n (Nat.two_pow_pos excess)
    rw [div_lt_one whole]
    linarith
  value := by
    have whole : ((2 ^ excess : Nat) : ℚ) ≠ 0 :=
      Nat.cast_ne_zero.2 (Nat.ne_of_gt (Nat.two_pow_pos excess))
    have split : (n : ℚ) = (2 ^ excess : Nat) * (n / 2 ^ excess : Nat) + (n % 2 ^ excess : Nat) := by
      exact_mod_cast (Nat.div_add_mod n (2 ^ excess)).symm
    rw [zpow_add₀ (by norm_num), zpow_natCast, ← Nat.cast_ofNat, ← Nat.cast_pow]
    conv_lhs => rw [split]
    field_simp
    ring

end Cut

namespace Rounded

theorem align_eq_ok {precision : Nat} (exponent : Int) {significand : Magnitude} {t : ℚ}
    {excess : Nat} (length : significand.bitLength = precision + (excess + 1)) (nonneg : 0 ≤ t)
    (lt_one : t < 1) (small : excess + 1 < 2 ^ 63)
    (lower : -2 ^ 63 ≤ exponent + (excess + 1 : Nat))
    (upper : exponent + (excess + 1 : Nat) < 2 ^ 63) :
    align precision exponent significand (.ofPart t) =
      .ok (exponent + (excess + 1 : Nat), significand >>> (excess + 1),
        .ofPart (((significand.toNat % 2 ^ (excess + 1) : Nat) + t) / (2 ^ (excess + 1) : Nat))) := by
  have longer : (precision : Int) < significand.bitLength := by omega
  have difference : (significand.bitLength : Int) - precision = (excess + 1 : Nat) := by omega
  unfold align
  simp only [if_pos longer, difference]
  rw [int64_eq_ok (by omega) (by omega), ok_bind, int64_eq_ok lower upper, ok_bind,
    Int.toNat_natCast, Tail.tailBelow_eq, Tail.join_ofPart _ _ nonneg lt_one]
  rfl

theorem increment_eq_ok {precision : Nat} (exponent : Int) {significand : Magnitude}
    (pos : precision ≠ 0) (short : significand.toNat < 2 ^ precision)
    (lower : -2 ^ 63 ≤ exponent + 1) (upper : exponent + 1 < 2 ^ 63) :
    ∃ next : Magnitude,
      increment precision exponent significand =
        .ok (if significand.toNat + 1 = 2 ^ precision then exponent + 1 else exponent, next) ∧
      next.toNat =
        if significand.toNat + 1 = 2 ^ precision then 2 ^ (precision - 1)
        else significand.toNat + 1 := by
  have value : (significand + .one).toNat = significand.toNat + 1 := by
    rw [Magnitude.toNat_add, Magnitude.toNat_one]
  unfold increment
  by_cases carry : significand.toNat + 1 = 2 ^ precision
  · have long : (precision : Int) < (significand + .one).bitLength := by
      rw [Nat.cast_lt, ← Nat.not_le, Magnitude.bitLength_le_iff, value, carry]
      exact Nat.lt_irrefl _
    refine ⟨(significand + .one) >>> 1, ?_, ?_⟩
    · simp only [if_pos long, if_pos carry, int64_eq_ok lower upper, ok_bind]
      rfl
    · rw [if_pos carry, Magnitude.toNat_shiftRight, value, carry]
      exact Nat.pow_div (Nat.pos_of_ne_zero pos) (by decide)
  · have fits : ¬(precision : Int) < (significand + .one).bitLength := by
      rw [Nat.cast_lt, Nat.not_lt, Magnitude.bitLength_le_iff, value]
      omega
    refine ⟨significand + .one, ?_, ?_⟩
    · simp only [if_neg fits, if_neg carry]
      rfl
    · rw [if_neg carry, value]

/-- Once a number is cut off at the precision, its part and its last bit decide the rounding. -/
theorem ofTail_of_align {precision : Nat} {x : ℚ} (c : Cut precision x) (mode : Mode)
    (negative : Bool) {exponent : Int} {significand kept : Magnitude} {below : Tail}
    (aligned : align precision exponent significand below =
      .ok (c.unit + (precision - 1), kept, .ofPart c.part))
    (same : kept.toNat = c.significand) (lower : -2 ^ 62 ≤ c.unit + (precision - 1))
    (upper : c.unit + (precision - 1) < 2 ^ 62) :
    ∃ r, ofTail precision mode negative exponent significand below = .ok r ∧
      c.Gives mode negative r := by
  have nonzero : kept.toNat ≠ 0 := by
    have lower := c.lower
    have pos := Nat.two_pow_pos (precision - 1)
    omega
  have odd : kept.isOdd = .ok (c.significand % 2 == 1) := by
    rw [Magnitude.isOdd_eq (Magnitude.words_ne_nil nonzero), same]
  have goes : mode.goesAway negative (.ofPart c.part) (c.significand % 2 == 1) =
      c.away mode negative := rfl
  have direction := c.direction_eq mode negative
  unfold ofTail
  rw [aligned, ok_bind]
  simp only [odd, ok_bind, goes]
  -- Without a tail the mode is not asked, but it would stay as well.
  by_cases exact : c.part = 0
  · have stays : c.away mode negative = false := by simp [Cut.away, exact, Mode.goesAway]
    rw [if_pos exact] at direction
    refine ⟨_, if_pos (Tail.ofPart_eq_empty.2 exact), ?_, ?_, direction.symm⟩
    · simp [Cut.result, stays]
    · simp [Cut.result, stays, same]
  · rw [if_neg exact] at direction
    rw [if_neg (mt Tail.ofPart_eq_empty.1 exact)]
    cases away : c.away mode negative with
    | false =>
        rw [away] at direction
        refine ⟨_, if_neg Bool.false_ne_true, ?_, ?_, direction.symm⟩
        · simp [Cut.result, away]
        · simp [Cut.result, away, same]
    | true =>
        have short : kept.toNat < 2 ^ precision := same ▸ c.upper
        obtain ⟨next, run, value⟩ := increment_eq_ok (c.unit + (precision - 1))
          c.precision_ne_zero short (by omega) (by omega)
        rw [away] at direction
        rw [if_pos rfl, run]
        rw [same] at value
        refine ⟨_, rfl, ?_, ?_, direction.symm⟩
        · simp only [Cut.result, away, if_true, same]
          split_ifs
          · ring
          · rfl
        · simp only [Cut.result, away, if_true]
          rw [value]
          split_ifs <;> rfl

theorem ofTail_eq_ok {precision excess : Nat} {exponent : Int} {significand : Magnitude} {t : ℚ}
    (mode : Mode) (negative : Bool) (pos : precision ≠ 0)
    (length : significand.bitLength = precision + (excess + 1)) (nonneg : 0 ≤ t) (lt_one : t < 1)
    (lower : -2 ^ 62 ≤ exponent) (upper : exponent + (excess + 1 : Nat) < 2 ^ 62) :
    ∃ (c : Cut precision ((significand.toNat + t) * 2 ^ (exponent - (precision - 1))))
      (r : Rounded),
      ofTail precision mode negative exponent significand (.ofPart t) = .ok r ∧
        c.Gives mode negative r := by
  have nonzero : significand.toNat ≠ 0 := by
    rw [ne_eq, ← Magnitude.bitLength_eq_zero]
    omega
  have atLeast := Magnitude.two_pow_le_toNat nonzero
  have below := Magnitude.toNat_lt_two_pow_bitLength significand
  rw [length] at atLeast below
  let c := Cut.ofExcess (exponent - (precision - 1)) pos atLeast below nonneg lt_one
  have leading : exponent + (excess + 1 : Nat) = c.unit + (precision - 1) := by
    show _ = exponent - (precision - 1) + (excess + 1 : Nat) + ((precision : Int) - 1)
    ring
  have aligned := align_eq_ok exponent length nonneg lt_one (by omega) (by omega) (by omega)
  rw [leading] at aligned
  exact ⟨c, ofTail_of_align c mode negative aligned
    (Magnitude.toNat_shiftRight significand (excess + 1)) (by omega) (by omega)⟩

/-! ## The scaled quotient -/

theorem operands_eq_ok {precision : Nat} {q : Fraction} (lower : -2 ^ 62 ≤ q.scale precision) :
    operands q (q.scale precision) = .ok (q.dividend precision, q.divisor precision) := by
  unfold operands Fraction.dividend Fraction.divisor
  by_cases up : 0 ≤ q.scale precision
  · rw [if_pos up, if_pos up, if_pos up]
    rfl
  · rw [if_neg up, if_neg up, if_neg up, int64_eq_ok (by omega) (by omega), ok_bind]
    rfl

/-- With room no step of exponent arithmetic stands between the division and the rounding. -/
theorem ofFraction_eq_ofTail {format : Format} (mode : Mode) {q : Fraction}
    (pos : format.precision ≠ 0) (room : q.HasRoom format.precision)
    (d : ScaledDivision format.precision q) :
    ofFraction format mode q =
      ofTail format.precision mode q.isNegative (q.quotientExponent format.precision) d.quotient
        (.ofPart d.part) := by
  have precision := room.precision_lt
  have scale := room.scale_lt
  have lengths := abs_lt.1 room.lengths_lt
  have trailing : format.trailingBits = .ok (format.precision - 1) := if_neg pos
  have shift : (format.precision : Int) + 2 - (q.numerator.bitLength - q.denominator.bitLength) =
      q.scale format.precision := rfl
  have lower : -2 ^ 62 ≤ q.scale format.precision := by omega
  unfold ofFraction
  dsimp only
  rw [asInt64_of_lt (by omega), int64_eq_ok (by omega) (by omega), ok_bind, shift,
    int64_eq_ok (by omega) scale, ok_bind, operands_eq_ok lower, ok_bind]
  dsimp only
  rw [d.run, ok_bind, trailing, ok_bind, asInt64_of_lt (by omega),
    int64_eq_ok (by omega) (by omega), ok_bind, ← Fraction.quotientExponent, d.ofRemainder_eq]

theorem fits_of_ofFraction {format : Format} {mode : Mode} {q : Fraction} {r : Rounded}
    (moderate : format.precision < 2 ^ 63) (run : ofFraction format mode q = .ok r) :
    FitsInt64 (format.precision + 2) ∧ FitsInt64 (q.scale format.precision) := by
  unfold ofFraction at run
  rw [asInt64_of_lt moderate] at run
  obtain ⟨_, precision, run⟩ := bind_eq_ok_iff.1 run
  obtain ⟨_, scale, -⟩ := bind_eq_ok_iff.1 run
  obtain ⟨fits, rfl⟩ := fits_of_int64 precision
  exact ⟨fits, (fits_of_int64 scale).1⟩

theorem ofFraction_eq_ok {format : Format} (mode : Mode) {q : Fraction} {negative : Bool}
    (sign : decide (q.value < 0) = negative) (nonzero : q.value ≠ 0)
    (pos : format.precision ≠ 0) (room : q.HasRoom format.precision) :
    ∃ (c : Cut format.precision |q.value|) (r : Rounded),
      ofFraction format mode q = .ok r ∧ c.Gives mode negative r := by
  have wellFormed := Fraction.wellFormed_of_value_ne_zero nonzero
  have bounds := abs_lt.1 room.abs_quotientExponent_lt
  obtain ⟨d⟩ := ScaledDivision.nonempty format.precision wellFormed
  obtain ⟨excess, length, small⟩ : ∃ excess,
      d.quotient.bitLength = format.precision + (excess + 1) ∧ excess ≤ 2 := by
    rcases d.length nonzero with length | length
    · exact ⟨1, length, by omega⟩
    · exact ⟨2, length, le_refl 2⟩
  have unit : q.quotientExponent format.precision - (format.precision - 1) =
      -q.scale format.precision := by
    rw [Fraction.quotientExponent]
    omega
  have spec := ofTail_eq_ok mode negative pos length d.part_nonneg d.part_lt_one
    (show -2 ^ 62 ≤ q.quotientExponent format.precision by omega) (by omega)
  rw [unit, d.value] at spec
  rw [ofFraction_eq_ofTail mode pos room d, Fraction.isNegative_eq wellFormed, sign]
  exact spec

end Rounded

/-! ## The float -/

namespace BinaryFloat

theorem ofFraction_of_invalid {format : Format} {failure : Failure} (mode : Mode) (q : Fraction)
    (invalid : format.validate = .error failure) :
    ofFraction format mode q = .error failure := by
  rw [ofFraction, (Observed.ofFraction_gives_steps format mode q).outcome_eq, invalid]
  rfl

theorem ofFraction_of_value_eq_zero {format : Format} {q : Fraction} (mode : Mode)
    (valid : format.validate = .ok ()) (wellFormed : q.WellFormed) (zero : q.value = 0) :
    ofFraction format mode q = .ok (.zero format false, .eq) := by
  obtain ⟨r, canonical, reduced⟩ := Fraction.canonical_eq_ok wellFormed
  have isZero : r.isZero = true := by
    rw [Fraction.isZero_iff reduced.wellFormed, reduced.value, zero]
  rw [ofFraction, (Observed.ofFraction_gives_steps format mode q).outcome_eq, valid, canonical]
  simp only [ok_bind, if_pos isZero]
  rfl

/-- Once the fraction in lowest terms is rounded to the length of the format, only the range of the
exponents can refuse it. -/
theorem ofFraction_of_rounded {format : Format} {mode : Mode} {q r : Fraction} {rounded : Rounded}
    (valid : format.validate = .ok ()) (canonical : q.canonical = .ok r)
    (notZero : ¬r.isZero = true) (run : Rounded.ofFraction format mode r = .ok rounded)
    (length : rounded.significand.bitLength = format.precision) :
    ofFraction format mode q = (format.admitExponent rounded.exponent).map fun _ =>
      (⟨format, r.isNegative, rounded.exponent, rounded.significand, .normal⟩,
        rounded.direction) := by
  rw [ofFraction, (Observed.ofFraction_gives_steps format mode q).outcome_eq, valid, canonical]
  simp only [ok_bind, if_neg notZero, run, length, beq_self_eq_true, ensure_eq_ok, pure_eq_ok]
  cases format.admitExponent rounded.exponent with
  | error failure => rfl
  | ok _ => rfl

/-- All that a successful conversion went through. Zero is the only number that is not rounded. A
precision that wraps leads to no float, as its significands would be shorter. -/
theorem parts_of_ofFraction {format : Format} {mode : Mode} {q : Fraction} {f : BinaryFloat}
    {direction : Ordering} (run : ofFraction format mode q = .ok (f, direction)) :
    format.validate = .ok () ∧ ∃ r, q.canonical = .ok r ∧
      ((r.isZero = true ∧ f = .zero format false ∧ direction = .eq) ∨
        r.isZero = false ∧ format.precision < 2 ^ 63 ∧
          ∃ rounded, Rounded.ofFraction format mode r = .ok rounded ∧
            format.admitExponent rounded.exponent = .ok () ∧
            f = ⟨format, r.isNegative, rounded.exponent, rounded.significand, .normal⟩ ∧
            direction = rounded.direction) := by
  rw [ofFraction, (Observed.ofFraction_gives_steps format mode q).outcome_eq] at run
  obtain ⟨_, valid, run⟩ := bind_eq_ok_iff.1 run
  obtain ⟨r, canonical, run⟩ := bind_eq_ok_iff.1 run
  refine ⟨valid, r, canonical, ?_⟩
  split at run
  · next zero =>
    cases run
    exact .inl ⟨zero, rfl, rfl⟩
  · next nonzero =>
    obtain ⟨rounded, rounding, run⟩ := bind_eq_ok_iff.1 run
    obtain ⟨_, admitted, run⟩ := bind_eq_ok_iff.1 run
    obtain ⟨_, checked, run⟩ := bind_eq_ok_iff.1 run
    cases run
    have numerator : r.numerator.toNat ≠ 0 := mt (Magnitude.isZero_iff r.numerator).2 nonzero
    have length := Rounded.length_of_ofFraction numerator rounding
    have same := beq_iff_eq.1 (ensure_eq_ok_iff.1 checked)
    have wrapped := asInt64_lt format.precision
    have moderate : format.precision < 2 ^ 63 := by omega
    exact .inr ⟨eq_false_of_ne_true nonzero, moderate, rounded, rounding, admitted, rfl, rfl⟩

theorem exists_rounded {format : Format} (mode : Mode) {q r : Fraction} {negative : Bool}
    (sign : decide (q.value < 0) = negative) (valid : format.validate = .ok ())
    (nonzero : q.value ≠ 0) (canonical : q.canonical = .ok r)
    (room : r.HasRoom format.precision) :
    ∃ (c : Cut format.precision |q.value|) (rounded : Rounded),
      Rounded.ofFraction format mode r = .ok rounded ∧ c.Gives mode negative rounded ∧
      ofFraction format mode q = (format.admitExponent rounded.exponent).map fun _ =>
        (⟨format, negative, rounded.exponent, rounded.significand, .normal⟩, rounded.direction) := by
  obtain ⟨pos, -, -⟩ := Format.validate_eq_ok_iff.1 valid
  have reduced := Fraction.reduced_of_canonical (Fraction.wellFormed_of_value_ne_zero nonzero)
    canonical
  have reducedSign : decide (r.value < 0) = negative := by rw [reduced.value, sign]
  have isNegative := (Fraction.isNegative_eq reduced.wellFormed).trans reducedSign
  have spec := Rounded.ofFraction_eq_ok mode reducedSign (reduced.value_ne_zero nonzero) pos room
  rw [reduced.value] at spec
  obtain ⟨c, rounded, run, gives⟩ := spec
  refine ⟨c, rounded, run, gives, ?_⟩
  rw [ofFraction_of_rounded valid canonical (reduced.not_isZero nonzero) run gives.length,
    isNegative]

/-- A nonzero fraction becomes the rounded number of a cut, if the exponent is in the range. -/
theorem ofFraction_eq {format : Format} (mode : Mode) {q : Fraction} {negative : Bool}
    (sign : decide (q.value < 0) = negative) (valid : format.validate = .ok ())
    (nonzero : q.value ≠ 0) (moderate : format.precision < 2 ^ 60)
    (short : q.ShorterThan (2 ^ 60)) :
    ∃ (c : Cut format.precision |q.value|) (m : Magnitude),
      m.toNat = (c.result mode negative).1 ∧
      ofFraction format mode q = (format.admitExponent (c.result mode negative).2).map fun _ =>
        (⟨format, negative, (c.result mode negative).2, m, .normal⟩, c.direction mode negative) := by
  obtain ⟨r, canonical, reduced⟩ :=
    Fraction.canonical_eq_ok (Fraction.wellFormed_of_value_ne_zero nonzero)
  obtain ⟨c, rounded, -, gives, result⟩ := exists_rounded mode sign valid nonzero canonical
    (Fraction.hasRoom_of_moderate moderate (reduced.shorterThan short))
  refine ⟨c, rounded.significand, gives.significand, ?_⟩
  rw [result, gives.exponent, gives.direction]

end BinaryFloat

end ExactFloat
