import ExactFloat.Proofs.Fraction
import ExactFloat.Proofs.Rounding.Observed

/-!
# Conversion and change of sign

The sign of a fraction decides on the lowest terms, on the direction in which two of the modes round,
on the sign of the float and on how the rounding is reported. All of these turn around together, so
that the conversion of a number and that of its negative are mirror images, down to the refusals and
the breaches.
-/

namespace ExactFloat

/-- The mode that does below zero what the other one does above. -/
def Mode.mirror : Mode → Mode
  | .upward => .downward
  | .downward => .upward
  | mode => mode

theorem Mode.goesAway_mirror (mode : Mode) (negative : Bool) (tail : Tail) (lastBitSet : Bool) :
    mode.mirror.goesAway (!negative) tail lastBitSet = mode.goesAway negative tail lastBitSet := by
  cases mode <;> cases tail <;> simp [Mode.mirror, Mode.goesAway]

/-! ## Fractions -/

namespace Fraction

variable {q : Fraction}

theorem isNegative_neg (nonzero : q.isZero = false) : q.neg.isNegative = !q.isNegative := by
  have same : q.neg.isZero = q.isZero := rfl
  rw [isNegative, isNegative, same, nonzero]
  simp [neg]

theorem canonical_neg (nonzero : q.isZero = false) : q.neg.canonical = q.canonical.map neg := by
  have keep : ¬q.numerator.isZero = true := ne_true_of_eq_false nonzero
  have keep' : ¬q.neg.numerator.isZero = true := keep
  unfold canonical
  rw [if_neg keep, if_neg keep', map_bind_eq]
  apply bind_congr
  intro factor
  split
  · rfl
  · simp only [map_bind_eq]
    rfl

end Fraction

/-! ## Rounded magnitudes -/

namespace Rounded

def mirror (r : Rounded) : Rounded :=
  { r with direction := r.direction.swap }

theorem directionOf_not (negative away : Bool) :
    directionOf (!negative) away = (directionOf negative away).swap := by
  cases negative <;> cases away <;> rfl

theorem ofTail_mirror (precision : Int) (mode : Mode) (negative : Bool) (exponent : Int)
    (significand : Magnitude) (below : Tail) :
    ofTail precision mode.mirror (!negative) exponent significand below =
      (ofTail precision mode negative exponent significand below).map mirror := by
  unfold ofTail
  rw [map_bind_eq]
  apply bind_congr
  rintro ⟨exponent, kept, tail⟩
  simp only [mode.goesAway_mirror, directionOf_not]
  split
  · rfl
  · rw [map_bind_eq]
    apply bind_congr
    intro odd
    split
    · rw [map_bind_eq]
      rfl
    · rfl

theorem ofFraction_mirror (format : Format) (mode : Mode) {q : Fraction}
    (nonzero : q.isZero = false) :
    ofFraction format mode.mirror q.neg = (ofFraction format mode q).map mirror := by
  unfold ofFraction
  dsimp only
  generalize asInt64 format.precision = precision
  -- No step before the rounding of the tail looks at the sign, so both runs share them.
  rw [map_bind_eq]
  refine bind_congr fun _ => ?_
  rw [map_bind_eq]
  refine bind_congr fun scale => ?_
  rw [map_bind_eq]
  refine bind_congr fun (dividend, divisor) => ?_
  rw [map_bind_eq]
  refine bind_congr fun (quotient, remainder) => ?_
  rw [map_bind_eq]
  refine bind_congr fun _ => ?_
  rw [map_bind_eq]
  refine bind_congr fun exponent => ?_
  rw [Fraction.isNegative_neg nonzero, ofTail_mirror]

end Rounded

/-! ## Floats -/

namespace BinaryFloat

/-- Converting the negative of a number in the mirrored mode gives the negative of the float, with
the direction turned around, or fails in the same way. -/
theorem ofFraction_neg (format : Format) (mode : Mode) {q : Fraction} (nonzero : q.value ≠ 0) :
    ofFraction format mode.mirror q.neg =
      (ofFraction format mode q).map (Prod.map neg Ordering.swap) := by
  have wellFormed := Fraction.wellFormed_of_value_ne_zero nonzero
  have notZero := eq_false_of_ne_true (mt (Fraction.isZero_iff wellFormed).1 nonzero)
  obtain ⟨r, canonical, reduced⟩ := Fraction.canonical_eq_ok wellFormed
  have kept : r.isZero = false := eq_false_of_ne_true (reduced.not_isZero nonzero)
  have kept' : r.neg.isZero = false := kept
  rw [ofFraction, ofFraction, (Observed.ofFraction_gives_steps format _ _).outcome_eq,
    (Observed.ofFraction_gives_steps format _ _).outcome_eq, map_bind_eq]
  refine bind_congr fun _ => ?_
  rw [Fraction.canonical_neg notZero, canonical]
  show (Except.ok r.neg >>= _) = Except.map _ (Except.ok r >>= _)
  simp only [ok_bind, kept, kept', Bool.false_eq_true, if_false]
  rw [Rounded.ofFraction_mirror _ _ kept, Fraction.isNegative_neg kept]
  cases Rounded.ofFraction format mode r with
  | error failure => rfl
  | ok rounded =>
      show (format.admitExponent rounded.exponent >>= _) =
        Except.map _ (format.admitExponent rounded.exponent >>= _)
      simp only [map_bind_eq]
      rfl

/-- Minus a third rounded down is the mirror image of a third rounded up. -/
theorem ofFraction_neg_of_third :
    (⟨false, .ofWord 2, .ofWord 6⟩ : Fraction).value ≠ 0 ∧
      ofFraction ⟨3, 2, .nearestEven⟩ .downward ⟨true, .ofWord 2, .ofWord 6⟩ =
        .ok (⟨⟨3, 2, .nearestEven⟩, true, -2, .ofWord 3, .normal⟩, .lt) := by
  have value : (⟨false, .ofWord 2, .ofWord 6⟩ : Fraction).value = 1 / 3 := by decide +kernel
  have nonzero : (⟨false, .ofWord 2, .ofWord 6⟩ : Fraction).value ≠ 0 := by
    rw [value]
    norm_num
  have run : ofFraction ⟨3, 2, .nearestEven⟩ .upward ⟨false, .ofWord 2, .ofWord 6⟩ =
      .ok (⟨⟨3, 2, .nearestEven⟩, false, -2, .ofWord 3, .normal⟩, .gt) := rfl
  have mirrored := ofFraction_neg ⟨3, 2, .nearestEven⟩ .upward nonzero
  rw [run] at mirrored
  exact ⟨nonzero, mirrored⟩

end BinaryFloat

end ExactFloat
