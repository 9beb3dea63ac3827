import ExactFloat.Proofs.Rounding.Conversion
import ExactFloat.Proofs.Rounding.Range

/-!
# The conversion of fractions rounds correctly

The float that a fraction is converted to is the fraction itself rounded in the grid of all numbers
of its precision, as if there were no range. The range only says which of these numbers are floats,
and a number outside is refused with the exponent it was rounded to.
-/

namespace ExactFloat

namespace Cut

variable {precision : Nat} {x : ℚ}

theorem rounds_result (c : Cut precision x) (mode : Mode) (negative : Bool) :
    Rounds mode negative precision x
      ((c.result mode negative).1 * 2 ^ ((c.result mode negative).2 - (precision - 1))) := by
  rw [← c.rounded_eq_result]
  exact c.rounds mode negative

theorem roundsInto_result (c : Cut precision x) (mode : Mode) (negative : Bool) :
    RoundsInto mode negative precision x (c.result mode negative).2 :=
  ⟨_, c.rounds_result mode negative,
    two_zpow_le_of_lower c.precision_ne_zero (c.two_pow_le_result mode negative) _,
    lt_two_zpow_of_upper (c.result_lt_two_pow mode negative) _⟩

end Cut

namespace BinaryFloat

variable {format : Format} {mode : Mode} {q : Fraction} {f : BinaryFloat} {direction : Ordering}

theorem validate_of_ofFraction (run : ofFraction format mode q = .ok (f, direction)) :
    format.validate = .ok () :=
  (parts_of_ofFraction run).1

/-- The rounding gives the significand its length, and the check of the range comes after it. -/
theorem wellFormed_of_ofFraction (run : ofFraction format mode q = .ok (f, direction)) :
    f.format = format ∧ f.WellFormed := by
  obtain ⟨-, r, -, ⟨-, rfl, -⟩ | ⟨nonzero, moderate, rounded, rounding, admitted, rfl, -⟩⟩ :=
    parts_of_ofFraction run
  · exact ⟨rfl, rfl, rfl⟩
  · have numerator : r.numerator.toNat ≠ 0 :=
      mt (Magnitude.isZero_iff r.numerator).2 (ne_true_of_eq_false nonzero)
    have length := Rounded.length_of_ofFraction numerator rounding
    rw [asInt64_of_lt moderate, Int.toNat_natCast] at length
    exact ⟨rfl, length, admitted⟩

theorem exists_cut {negative : Bool} (sign : decide (q.value < 0) = negative)
    (nonzero : q.value ≠ 0) (moderate : format.precision < 2 ^ 60)
    (short : q.ShorterThan (2 ^ 60)) (run : ofFraction format mode q = .ok (f, direction)) :
    ∃ (c : Cut format.precision |q.value|) (m : Magnitude),
      m.toNat = (c.result mode negative).1 ∧
      f = ⟨format, negative, (c.result mode negative).2, m, .normal⟩ ∧
      direction = c.direction mode negative := by
  obtain ⟨c, m, significand, result⟩ :=
    ofFraction_eq mode sign (validate_of_ofFraction run) nonzero moderate short
  refine ⟨c, m, significand, ?_⟩
  rw [result] at run
  cases admitted : format.admitExponent (c.result mode negative).2 with
  | error failure =>
      rw [admitted] at run
      cases run
  | ok _ =>
      rw [admitted] at run
      cases run
      exact ⟨rfl, rfl⟩

/-- Whenever a nonzero fraction becomes a float, the float is the correct rounding of it. -/
theorem ofFraction_rounds (nonzero : q.value ≠ 0) (moderate : format.precision < 2 ^ 60)
    (short : q.ShorterThan (2 ^ 60)) (run : ofFraction format mode q = .ok (f, direction)) :
    f.isNormal = true ∧ f.format = format ∧ f.negative = decide (q.value < 0) ∧
      Rounds mode (decide (q.value < 0)) format.precision |q.value|
        (f.significand.toNat * 2 ^ (f.exponent - (format.precision - 1))) := by
  obtain ⟨c, m, value, rfl, -⟩ := exists_cut rfl nonzero moderate short run
  refine ⟨rfl, rfl, rfl, ?_⟩
  show Rounds _ _ _ _ (m.toNat * 2 ^ (_ - _))
  rw [value]
  exact c.rounds_result mode _

/-- Halfway between 15 and 16 the even significand is the one behind the carry. -/
theorem ofFraction_rounds_of_tie :
    ofFraction ⟨5, 4, .towardZero⟩ .nearestEven ⟨true, .ofWord 62, .ofWord 4⟩ =
        .ok (⟨⟨5, 4, .towardZero⟩, true, 4, .ofWord 8, .normal⟩, .lt) ∧
      Rounds .nearestEven true 4 (31 / 2) 16 := by
  have run : ofFraction ⟨5, 4, .towardZero⟩ .nearestEven ⟨true, .ofWord 62, .ofWord 4⟩ =
      .ok (⟨⟨5, 4, .towardZero⟩, true, 4, .ofWord 8, .normal⟩, .lt) := rfl
  have value : (⟨true, .ofWord 62, .ofWord 4⟩ : Fraction).value = -(31 / 2) := by decide +kernel
  have nonzero : (⟨true, .ofWord 62, .ofWord 4⟩ : Fraction).value ≠ 0 := by
    rw [value]
    norm_num
  obtain ⟨-, -, -, rounds⟩ := ofFraction_rounds nonzero (by decide) (by decide) run
  have negative : decide ((-(31 / 2) : ℚ) < 0) = true := by decide +kernel
  rw [value, negative, abs_neg, abs_of_pos (by norm_num)] at rounds
  constructor
  · exact run
  · convert rounds using 1
    decide +kernel

/-! ## The range -/

/-- The exponent of the rounded number, which the bounds of the mode are about, is checked against
the range. -/
theorem ofFraction_cases (mode : Mode) {negative : Bool} {least greatest : Int}
    (sign : decide (q.value < 0) = negative) (valid : format.validate = .ok ())
    (range : format.exponentRange = .ok (least, greatest)) (nonzero : q.value ≠ 0)
    (moderate : format.precision < 2 ^ 60) (short : q.ShorterThan (2 ^ 60)) :
    ∃ (exponent : Int) (f : BinaryFloat) (direction : Ordering),
      f.isNormal = true ∧ f.exponent = exponent ∧
      RoundsInto mode negative format.precision |q.value| exponent ∧
      (∀ k, mode.Reaches negative format.precision k |q.value| ↔ k ≤ exponent) ∧
      ofFraction format mode q =
        if greatest < exponent then reject (.exponentTooLarge exponent greatest)
        else if exponent < least then reject (.exponentTooSmall exponent least)
        else .ok (f, direction) := by
  obtain ⟨c, m, -, result⟩ := ofFraction_eq mode sign valid nonzero moderate short
  refine ⟨(c.result mode negative).2, ⟨format, negative, (c.result mode negative).2, m, .normal⟩,
    c.direction mode negative, rfl, rfl, c.roundsInto_result mode negative,
    c.reaches_iff mode negative, ?_⟩
  rw [result, Format.admitExponent_eq range]
  split_ifs <;> rfl

/-- The range is decided on the rounded number. What is in the interval of the mode becomes a normal
float, and anything else is refused with the exponent that the float would have had. -/
theorem ofFraction_range (mode : Mode) {least greatest : Int} (valid : format.validate = .ok ())
    (range : format.exponentRange = .ok (least, greatest)) (nonzero : q.value ≠ 0)
    (moderate : format.precision < 2 ^ 60) (short : q.ShorterThan (2 ^ 60)) :
    let negative := decide (q.value < 0)
    let interval := mode.interval negative format.precision least greatest
    ((∃ result, ofFraction format mode q = .ok result) ↔ |q.value| ∈ interval) ∧
      (∀ f direction, ofFraction format mode q = .ok (f, direction) → f.isNormal = true ∧
        RoundsInto mode negative format.precision |q.value| f.exponent) ∧
      (|q.value| ∈ interval ∨ (∀ x ∈ interval, x < |q.value|) ∨ ∀ x ∈ interval, |q.value| < x) ∧
      ((∀ x ∈ interval, x < |q.value|) → ∃ exponent,
        RoundsInto mode negative format.precision |q.value| exponent ∧
        ofFraction format mode q = reject (.exponentTooLarge exponent greatest)) ∧
      ((∀ x ∈ interval, |q.value| < x) → ∃ exponent,
        RoundsInto mode negative format.precision |q.value| exponent ∧
        ofFraction format mode q = reject (.exponentTooSmall exponent least)) := by
  intro negative interval
  obtain ⟨pos, -, -⟩ := Format.validate_eq_ok_iff.1 valid
  have around := Format.range_around_zero valid range
  -- without a number inside, everything would be above the interval and below it
  have inside : 2 ^ least ∈ interval := Mode.two_zpow_mem_interval pos (by omega)
  obtain ⟨exponent, f, direction, normal, same, into, reaches, result⟩ :=
    ofFraction_cases mode rfl valid range nonzero moderate short
  have mem : |q.value| ∈ interval ↔ least ≤ exponent ∧ ¬greatest < exponent := by
    rw [mem_interval_iff, reaches, reaches, Int.add_one_le_iff]
  rw [result]
  split_ifs with above below
  · have greater : ∀ x ∈ interval, x < |q.value| :=
      fun x => Mode.gt_of_mem_interval ((reaches _).2 above)
    refine ⟨⟨?_, ?_⟩, ?_, .inr (.inl greater), ?_, ?_⟩
    · intro ⟨_, run⟩
      cases run
    · intro member
      exact absurd above (mem.1 member).2
    · intro f direction run
      cases run
    · intro _
      exact ⟨exponent, into, rfl⟩
    · intro smaller
      exact absurd (greater _ inside) (lt_asymm (smaller _ inside))
  · have smaller : ∀ x ∈ interval, |q.value| < x :=
      fun x => Mode.lt_of_mem_interval (fun h => not_lt.2 ((reaches _).1 h) below)
    refine ⟨⟨?_, ?_⟩, ?_, .inr (.inr smaller), ?_, ?_⟩
    · intro ⟨_, run⟩
      cases run
    · intro member
      exact absurd below (not_lt.2 (mem.1 member).1)
    · intro f direction run
      cases run
    · intro greater
      exact absurd (smaller _ inside) (lt_asymm (greater _ inside))
    · intro _
      exact ⟨exponent, into, rfl⟩
  · have member : |q.value| ∈ interval := mem.2 ⟨not_lt.1 below, above⟩
    refine ⟨⟨?_, ?_⟩, ?_, .inl member, ?_, ?_⟩
    · intro _
      exact member
    · intro _
      exact ⟨_, rfl⟩
    · intro f direction run
      cases run
      rw [same]
      exact ⟨normal, into⟩
    · intro greater
      exact absurd (greater _ member) (lt_irrefl _)
    · intro smaller
      exact absurd (smaller _ member) (lt_irrefl _)

/-- A number at the open end of the interval is rounded to four, one place above the range. -/
theorem ofFraction_range_of_carry :
    ofFraction ⟨2, 3, .towardZero⟩ .nearestEven ⟨false, .ofWord 15, .ofWord 4⟩ =
        reject (.exponentTooLarge 2 1) ∧
      RoundsInto .nearestEven false 3 (15 / 4) 2 := by
  have run : ofFraction ⟨2, 3, .towardZero⟩ .nearestEven ⟨false, .ofWord 15, .ofWord 4⟩ =
      reject (.exponentTooLarge 2 1) := rfl
  have value : (⟨false, .ofWord 15, .ofWord 4⟩ : Fraction).value = 15 / 4 := by decide +kernel
  have nonzero : (⟨false, .ofWord 15, .ofWord 4⟩ : Fraction).value ≠ 0 := by
    rw [value]
    norm_num
  have range : Format.exponentRange ⟨2, 3, .towardZero⟩ = .ok (0, 1) := rfl
  have spec := ofFraction_range .nearestEven rfl range nonzero (by decide) (by decide)
  have positive : decide ((15 / 4 : ℚ) < 0) = false := by decide +kernel
  rw [value, positive, abs_of_pos (by norm_num)] at spec
  obtain ⟨-, -, -, above, -⟩ := spec
  obtain ⟨exponent, into, same⟩ := above fun x mem => by
    have upper := mem.2
    norm_num at upper
    linarith
  rw [run] at same
  cases same
  exact ⟨run, into⟩

end BinaryFloat

end ExactFloat
