import ExactFloat.Proofs.Rounding.Conversion

/-!
# Conversions keep within the machine

A conversion of moderate size returns a float or a rejection and never breaches a check. The trace
of a conversion names its intermediate results with the bounds that the next step relies on: the
divisions come out, the quotient is longer than the precision by two or three bits, one carry is
all that rounding can add, and exponents and lengths stay far below what machine words hold.
-/

namespace ExactFloat

namespace Rounded

variable {precision exponent : Int} {significand : Magnitude}

theorem exponent_increment {carried : Int} {next : Magnitude}
    (run : increment precision exponent significand = .ok (carried, next)) :
    carried = exponent ∨ carried = exponent + 1 := by
  unfold increment at run
  dsimp only at run
  split at run
  · obtain ⟨_, step, result⟩ := bind_eq_ok_iff.1 run
    cases result
    exact .inr (fits_of_int64 step).2.symm
  · cases run
    exact .inl rfl

theorem exponent_ofTail {mode : Mode} {negative : Bool} {below tail : Tail} {top : Int}
    {kept : Magnitude} {r : Rounded}
    (aligned : align precision exponent significand below = .ok (top, kept, tail))
    (run : ofTail precision mode negative exponent significand below = .ok r) :
    r.exponent = top ∨ r.exponent = top + 1 := by
  unfold ofTail at run
  rw [aligned] at run
  simp only [ok_bind] at run
  split at run
  · cases run
    exact .inl rfl
  · obtain ⟨_, -, run⟩ := bind_eq_ok_iff.1 run
    split at run
    · obtain ⟨⟨carried, next⟩, step, result⟩ := bind_eq_ok_iff.1 run
      cases result
      exact exponent_increment step
    · cases run
      exact .inl rfl

end Rounded

/-! ## Traces -/

/-- The intermediate results in the conversion of a nonzero fraction to a valid format. All bounds
on exponents and lengths leave room in machine words of 64 bits, signed or not. -/
structure Trace (format : Format) (mode : Mode) (q : Fraction) where
  /-- The greatest common divisor of the parts. -/
  factor : Magnitude
  factor_run : q.numerator.gcd q.denominator = .ok factor
  /-- No remainder is left and no subtraction borrows. -/
  numerator_even : ∃ numerator, q.numerator.exactQuotient factor = .ok numerator
  denominator_even : ∃ denominator, q.denominator.exactQuotient factor = .ok denominator
  /-- The fraction in lowest terms. -/
  lowest : Fraction
  lowest_run : q.canonical = .ok lowest
  lowest_short : lowest.ShorterThan (2 ^ 60)
  scale_le : |lowest.scale format.precision| ≤ 2 ^ 61
  dividend_length : (lowest.dividend format.precision).bitLength =
    (lowest.divisor format.precision).bitLength + (format.precision + 2)
  dividend_short : (lowest.dividend format.precision).bitLength < 2 ^ 62
  /-- The division of the scaled fraction. It ran, so no subtraction borrowed. -/
  division : ScaledDivision format.precision lowest
  /-- How many bits of the quotient are cut off. -/
  excess : Nat
  excess_eq : excess = 2 ∨ excess = 3
  quotient_length : division.quotient.bitLength = format.precision + excess
  exponent_lt : |lowest.quotientExponent format.precision| < 2 ^ 62
  aligned : ∃ tail, Rounded.align format.precision (lowest.quotientExponent format.precision)
      division.quotient (.ofRemainder division.remainder (lowest.divisor format.precision)) =
    .ok (lowest.quotientExponent format.precision + excess, division.quotient >>> excess, tail)
  kept_length : (division.quotient >>> excess).bitLength = format.precision
  carry_length : (division.quotient >>> excess + .one).bitLength ≤ format.precision + 1
  /-- What is rounded is this quotient, with the remainder below it. -/
  rounding : Rounded.ofFraction format mode lowest =
    Rounded.ofTail format.precision mode lowest.isNegative
      (lowest.quotientExponent format.precision) division.quotient
      (.ofRemainder division.remainder (lowest.divisor format.precision))
  rounded : Rounded
  rounded_run : Rounded.ofFraction format mode lowest = .ok rounded
  rounded_exponent : rounded.exponent = lowest.quotientExponent format.precision + excess ∨
    rounded.exponent = lowest.quotientExponent format.precision + excess + 1
  rounded_lt : |rounded.exponent| < 2 ^ 62
  rounded_length : rounded.significand.bitLength = format.precision
  /-- Only the range of the exponents can still refuse the float. -/
  outcome : BinaryFloat.ofFraction format mode q =
    (format.admitExponent rounded.exponent).map fun _ =>
      (⟨format, lowest.isNegative, rounded.exponent, rounded.significand, .normal⟩,
        rounded.direction)

namespace ScaledDivision

/-- The rounding starts with a cut of two or three bits. -/
theorem exists_aligned {precision : Nat} {q : Fraction} (d : ScaledDivision precision q)
    (nonzero : q.value ≠ 0) (room : q.HasRoom precision) :
    ∃ excess, (excess = 2 ∨ excess = 3) ∧ d.quotient.bitLength = precision + excess ∧
      ∃ tail, Rounded.align precision (q.quotientExponent precision) d.quotient (.ofPart d.part) =
        .ok (q.quotientExponent precision + excess, d.quotient >>> excess, tail) := by
  have bounds := abs_lt.1 room.abs_quotientExponent_lt
  have align {excess : Nat} (length : d.quotient.bitLength = precision + (excess + 1))
      (small : excess ≤ 2) := Rounded.align_eq_ok (q.quotientExponent precision) length
    d.part_nonneg d.part_lt_one (by omega) (by omega) (by omega)
  rcases d.length nonzero with length | length
  · exact ⟨2, .inl rfl, length, _, align length (by omega)⟩
  · exact ⟨3, .inr rfl, length, _, align length (le_refl 2)⟩

end ScaledDivision

namespace Trace

variable {format : Format} {q : Fraction}

theorem nonempty (mode : Mode) (valid : format.validate = .ok ()) (nonzero : q.value ≠ 0)
    (moderate : format.precision < 2 ^ 60) (short : q.ShorterThan (2 ^ 60)) :
    Nonempty (Trace format mode q) := by
  obtain ⟨pos, -, -⟩ := Format.validate_eq_ok_iff.1 valid
  have wellFormed := Fraction.wellFormed_of_value_ne_zero nonzero
  obtain ⟨factor, numerator, denominator, factorRun, numeratorRun, denominatorRun, -⟩ :=
    Fraction.exists_factor (Fraction.numerator_ne_zero nonzero)
  obtain ⟨r, canonical, reduced⟩ := Fraction.canonical_eq_ok wellFormed
  have rNonzero := reduced.value_ne_zero nonzero
  have rShort := reduced.shorterThan short
  have room := Fraction.hasRoom_of_moderate moderate rShort
  obtain ⟨d⟩ := ScaledDivision.nonempty format.precision reduced.wellFormed
  obtain ⟨excess, few, length, tail, aligned⟩ := d.exists_aligned rNonzero room
  have kept : (d.quotient >>> excess).bitLength = format.precision := by
    rw [Magnitude.bitLength_shiftRight, length, Nat.add_sub_cancel]
  have carry := Magnitude.bitLength_add_one_le (d.quotient >>> excess)
  rw [kept] at carry
  have rounding := Rounded.ofFraction_eq_ofTail mode pos room d
  obtain ⟨c, rounded, run, gives⟩ := Rounded.ofFraction_eq_ok mode rfl rNonzero pos room
  have carried : rounded.exponent = r.quotientExponent format.precision + excess ∨
      rounded.exponent = r.quotientExponent format.precision + excess + 1 :=
    Rounded.exponent_ofTail aligned (rounding.symm.trans run)
  have exponent := room.abs_quotientExponent_lt
  exact ⟨{
    factor
    factor_run := factorRun
    numerator_even := ⟨numerator, numeratorRun⟩
    denominator_even := ⟨denominator, denominatorRun⟩
    lowest := r
    lowest_run := canonical
    lowest_short := rShort
    scale_le := Fraction.abs_scale_le moderate rShort
    dividend_length := Fraction.bitLength_dividend format.precision rNonzero
    dividend_short := Fraction.bitLength_dividend_lt rNonzero moderate rShort
    division := d
    excess
    excess_eq := few
    quotient_length := length
    exponent_lt := by omega
    aligned := ⟨tail, d.ofRemainder_eq ▸ aligned⟩
    kept_length := kept
    carry_length := carry
    rounding := d.ofRemainder_eq ▸ rounding
    rounded
    rounded_run := run
    rounded_exponent := carried
    rounded_lt := by
      rw [abs_lt] at exponent ⊢
      omega
    rounded_length := gives.length
    outcome := BinaryFloat.ofFraction_of_rounded valid canonical (reduced.not_isZero nonzero) run
      gives.length }⟩

theorem outcome_cases {mode : Mode} (trace : Trace format mode q)
    (valid : format.validate = .ok ()) :
    (∃ result, BinaryFloat.ofFraction format mode q = .ok result) ∨
      (∃ exponent greatest, BinaryFloat.ofFraction format mode q =
        reject (.exponentTooLarge exponent greatest)) ∨
      ∃ exponent least, BinaryFloat.ofFraction format mode q =
        reject (.exponentTooSmall exponent least) := by
  rw [trace.outcome, Format.admitExponent_eq (Format.exponentRange_eq_ok valid)]
  split_ifs
  · exact .inr (.inl ⟨_, _, rfl⟩)
  · exact .inr (.inr ⟨_, _, rfl⟩)
  · exact .inl ⟨_, rfl⟩

end Trace

namespace BinaryFloat

/-- A conversion of moderate size returns a float or is refused for its format or its exponent; no
internal check fails and no machine integer leaves its range on the way. -/
theorem ofFraction_safe {format : Format} (mode : Mode) {q : Fraction} (wellFormed : q.WellFormed)
    (moderate : format.precision < 2 ^ 60) (short : q.ShorterThan (2 ^ 60)) :
    ((∃ result, ofFraction format mode q = .ok result) ∨
      ofFraction format mode q = reject (.precisionTooSmall format.precision 1) ∨
      ofFraction format mode q = reject (.exponentWidth format.exponentBits) ∨
      (∃ exponent greatest,
        ofFraction format mode q = reject (.exponentTooLarge exponent greatest)) ∨
      ∃ exponent least,
        ofFraction format mode q = reject (.exponentTooSmall exponent least)) ∧
    (format.validate = .ok () ↔
      format.precision ≠ 0 ∧ 2 ≤ format.exponentBits ∧ format.exponentBits ≤ 62) ∧
    (format.validate = .ok () →
      format.exponentRange =
        .ok (2 - 2 ^ (format.exponentBits - 1), 2 ^ (format.exponentBits - 1) - 1) ∧
      (q.value ≠ 0 → Nonempty (Trace format mode q))) := by
  refine ⟨?_, Format.validate_eq_ok_iff, fun valid => ⟨Format.exponentRange_eq_ok valid,
    fun nonzero => Trace.nonempty mode valid nonzero moderate short⟩⟩
  rcases format.validate_cases with valid | narrow | width
  · by_cases zero : q.value = 0
    · exact .inl ⟨_, ofFraction_of_value_eq_zero mode valid wellFormed zero⟩
    · obtain ⟨trace⟩ := Trace.nonempty mode valid zero moderate short
      rcases trace.outcome_cases valid with float | large | small
      · exact .inl float
      · exact .inr (.inr (.inr (.inl large)))
      · exact .inr (.inr (.inr (.inr small)))
  · exact .inr (.inl (ofFraction_of_invalid mode q narrow))
  · exact .inr (.inr (.inl (ofFraction_of_invalid mode q width)))

/-- In the widest range, minus fifteen quarters is rounded with a carry. -/
theorem ofFraction_safe_of_widest :
    ∃ trace : Trace ⟨62, 3, .towardZero⟩ .nearestEven ⟨true, .ofWord 30, .ofWord 8⟩,
      trace.lowest = ⟨true, .ofWord 15, .ofWord 4⟩ ∧ trace.rounded = ⟨2, .ofWord 4, .lt⟩ := by
  have value : (⟨true, .ofWord 30, .ofWord 8⟩ : Fraction).value = -(15 / 4) := by decide +kernel
  have nonzero : (⟨true, .ofWord 30, .ofWord 8⟩ : Fraction).value ≠ 0 := by
    rw [value]
    norm_num
  have valid : Format.validate ⟨62, 3, .towardZero⟩ = .ok () := rfl
  have moderate : (⟨62, 3, .towardZero⟩ : Format).precision < 2 ^ 60 := by decide
  obtain ⟨-, -, spec⟩ := ofFraction_safe .nearestEven
    (Fraction.wellFormed_of_value_ne_zero nonzero) moderate (by decide)
  obtain ⟨trace⟩ := (spec valid).2 nonzero
  have lowest : trace.lowest = ⟨true, .ofWord 15, .ofWord 4⟩ :=
    Except.ok.inj (trace.lowest_run.symm.trans rfl)
  have rounded := trace.rounded_run
  rw [lowest] at rounded
  exact ⟨trace, lowest, Except.ok.inj (rounded.symm.trans rfl)⟩

end BinaryFloat

end ExactFloat
