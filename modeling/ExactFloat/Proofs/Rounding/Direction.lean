import ExactFloat.Proofs.Rounding.Correct
import ExactFloat.Proofs.ToFraction

/-!
# The direction of a rounding is the order of float and fraction

The direction comes from the sign and from what was cut off. The comparison of the float with the
fraction goes back to lowest terms and multiplies crosswise. Both look at the same two numbers.
-/

namespace ExactFloat

theorem compare_signed (x y : ℚ) :
    (if decide (y < 0) then compare |y| x else compare x |y|) =
      compare (if decide (y < 0) then -x else x) y := by
  by_cases negative : y < 0
  · rw [decide_eq_true negative, if_pos rfl, if_pos rfl, abs_of_neg negative]
    have mirrored := Fraction.compare_neg_neg x (-y)
    rw [neg_neg] at mirrored
    rw [mirrored]
    exact Std.OrientedCmp.eq_swap
  · rw [decide_eq_false negative, if_neg Bool.false_ne_true, if_neg Bool.false_ne_true,
      abs_of_nonneg (not_lt.1 negative)]

namespace BinaryFloat

variable {format : Format} {mode : Mode} {q : Fraction} {f : BinaryFloat} {direction : Ordering}

theorem value_of_result {x : ℚ} (c : Cut format.precision x) (mode : Mode) (negative : Bool)
    {m : Magnitude} (significand : m.toNat = (c.result mode negative).1) :
    value? ⟨format, negative, (c.result mode negative).2, m, .normal⟩ =
      some (if negative then -c.rounded mode negative else c.rounded mode negative) := by
  rw [value_of_normal rfl, significand, ← c.rounded_eq_result]

theorem direction_eq_compare (wellFormed : q.WellFormed) (moderate : format.precision < 2 ^ 60)
    (short : q.ShorterThan (2 ^ 60)) (run : ofFraction format mode q = .ok (f, direction)) :
    ∃ p, f.ConvertsTo p ∧ direction = compare p.value q.value := by
  by_cases zero : q.value = 0
  · rw [ofFraction_of_value_eq_zero mode (validate_of_ofFraction run) wellFormed zero] at run
    cases run
    refine ⟨_, convertsTo_zero rfl, ?_⟩
    rw [zero, compare_eq_iff_eq.2 Fraction.value_zero]
  · obtain ⟨c, m, significand, rfl, rfl⟩ := exists_cut rfl zero moderate short run
    obtain ⟨p, converts, -⟩ := convertsTo_of_normal
      (f := ⟨format, decide (q.value < 0), _, m, .normal⟩) rfl
    have number := converts.value.symm.trans (value_of_result c mode _ significand)
    refine ⟨p, converts, ?_⟩
    rw [Option.some.inj number]
    exact compare_signed _ _

/-- The reported direction is the order of the float and the fraction, so only an exact float is
reported as exact. -/
theorem ofFraction_direction (wellFormed : q.WellFormed) (moderate : format.precision < 2 ^ 60)
    (short : q.ShorterThan (2 ^ 60)) (run : ofFraction format mode q = .ok (f, direction)) :
    f.compareFraction q = .ok (some direction) ∧
      (direction = .eq ↔ f.value? = some q.value) := by
  obtain ⟨p, converts, rfl⟩ := direction_eq_compare wellFormed moderate short run
  constructor
  · exact converts.compareFraction_eq wellFormed
  · rw [compare_eq_iff_eq, converts.value, Option.some_inj]

/-- Minus a third is rounded up to minus a quarter. -/
theorem ofFraction_direction_of_third :
    ofFraction ⟨3, 2, .nearestEven⟩ .upward ⟨true, .ofWord 2, .ofWord 6⟩ =
        .ok (⟨⟨3, 2, .nearestEven⟩, true, -2, .ofWord 2, .normal⟩, .gt) ∧
      compareFraction ⟨⟨3, 2, .nearestEven⟩, true, -2, .ofWord 2, .normal⟩
          ⟨true, .ofWord 2, .ofWord 6⟩ = .ok (some .gt) ∧
      value? ⟨⟨3, 2, .nearestEven⟩, true, -2, .ofWord 2, .normal⟩ ≠
        some (Fraction.value ⟨true, .ofWord 2, .ofWord 6⟩) := by
  have run : ofFraction ⟨3, 2, .nearestEven⟩ .upward ⟨true, .ofWord 2, .ofWord 6⟩ =
      .ok (⟨⟨3, 2, .nearestEven⟩, true, -2, .ofWord 2, .normal⟩, .gt) := rfl
  obtain ⟨order, exact⟩ := ofFraction_direction (by decide) (by decide) (by decide) run
  refine ⟨run, order, fun same => ?_⟩
  cases exact.2 same

end BinaryFloat

end ExactFloat
