import ExactFloat.Proofs.Order
import ExactFloat.Proofs.Rounding.Direction

/-!
# Rounding keeps the order

A greater magnitude is never rounded to a lesser one. Either the upper neighbour of the first number
lies between the two, or both have the same lower neighbour, and then the greater part of the last
unit decides. With signs this is the order of the floats, and for the exponents it says which
refusals imply which others.
-/

namespace ExactFloat

/-! ## Decisions -/

/-- Above a half the decision to go away from zero does not hang on the tail any more. -/
theorem Mode.goesAway_aboveHalf (mode : Mode) (negative odd : Bool) {tail : Tail}
    (goes : mode.goesAway negative tail odd = true) :
    mode.goesAway negative .aboveHalf odd = true := by
  cases tail <;> cases mode <;> simp_all [Mode.goesAway]

/-- A greater part of the last unit does not lead back to the lower neighbour. -/
theorem Mode.goesAway_mono (mode : Mode) (negative odd : Bool) {t t' : ℚ} (nonneg : 0 ≤ t)
    (le : t ≤ t') (goes : mode.goesAway negative (.ofPart t) odd = true) :
    mode.goesAway negative (.ofPart t') odd = true := by
  rcases eq_or_lt_of_le nonneg with rfl | pos
  · simp [Mode.goesAway] at goes
  rcases lt_trichotomy t' (1 / 2) with below | half | above
  · rw [Tail.ofPart_of_lt pos (lt_of_le_of_lt le below)] at goes
    rw [Tail.ofPart_of_lt (lt_of_lt_of_le pos le) below]
    exact goes
  · rcases eq_or_lt_of_le le with rfl | lt
    · exact goes
    · rw [Tail.ofPart_of_lt pos (half ▸ lt)] at goes
      rw [half, Tail.ofPart_half]
      cases mode <;> simp_all [Mode.goesAway]
  · rw [Tail.ofPart_of_gt above]
    exact mode.goesAway_aboveHalf negative odd goes

/-! ## Magnitudes -/

namespace Cut

variable {precision : Nat} {x y : ℚ}

theorem floor_pos (c : Cut precision x) : 0 < c.floor := by
  have unit := two_zpow_pos c.unit
  exact lt_of_lt_of_le (by positivity) c.two_pow_le_floor

theorem floor_le_rounded (c : Cut precision x) (mode : Mode) (negative : Bool) :
    c.floor ≤ c.rounded mode negative := by
  unfold rounded
  split
  · exact le_of_lt (lt_of_le_of_lt c.floor_le c.lt_next)
  · exact le_refl _

theorem rounded_le_next (c : Cut precision x) (mode : Mode) (negative : Bool) :
    c.rounded mode negative ≤ c.next := by
  unfold rounded
  split
  · exact le_refl _
  · exact le_of_lt (lt_of_le_of_lt c.floor_le c.lt_next)

theorem rounded_pos (c : Cut precision x) (mode : Mode) (negative : Bool) :
    0 < c.rounded mode negative :=
  lt_of_lt_of_le c.floor_pos (c.floor_le_rounded mode negative)

theorem pos (c : Cut precision x) : 0 < x :=
  lt_of_lt_of_le c.floor_pos c.floor_le

/-- Between a number and its upper neighbour only the part grows. -/
theorem parts_of_not_next_le (c : Cut precision x) (d : Cut precision y) (le : x ≤ y)
    (inside : ¬c.next ≤ y) :
    c.significand = d.significand ∧ c.unit = d.unit ∧ c.part ≤ d.part := by
  have floor : c.floor = d.floor := by
    apply le_antisymm
    · exact d.isGreatest_floor.2 ⟨c.floor_mem_grid, le_trans c.floor_le le⟩
    · exact c.le_floor d.floor_mem_grid (lt_of_le_of_lt d.floor_le (not_le.1 inside))
  obtain ⟨significand, unit⟩ := c.parts_eq_of_floor_eq d floor
  have parts : c.part * 2 ^ c.unit ≤ d.part * 2 ^ c.unit := by
    have cValue := c.eq_floor_add
    have dValue := d.eq_floor_add
    rw [← unit] at dValue
    linarith
  exact ⟨significand, unit, le_of_mul_le_mul_right parts (two_zpow_pos _)⟩

theorem rounded_mono (c : Cut precision x) (d : Cut precision y) (le : x ≤ y) (mode : Mode)
    (negative : Bool) : c.rounded mode negative ≤ d.rounded mode negative := by
  by_cases crossed : c.next ≤ y
  · calc c.rounded mode negative ≤ c.next := c.rounded_le_next mode negative
      _ ≤ d.floor := d.isGreatest_floor.2 ⟨c.next_mem_grid, crossed⟩
      _ ≤ d.rounded mode negative := d.floor_le_rounded mode negative
  · obtain ⟨significand, unit, part⟩ := c.parts_of_not_next_le d le crossed
    cases goes : c.away mode negative with
    | true =>
        have goes' : d.away mode negative = true := by
          rw [away, significand] at goes
          exact mode.goesAway_mono negative _ c.part_nonneg part goes
        rw [rounded, rounded, if_pos goes, if_pos goes', next, next, significand, unit]
    | false =>
        have stays : c.rounded mode negative = d.floor := by
          rw [rounded, goes, if_neg Bool.false_ne_true, floor, floor, significand, unit]
        rw [stays]
        exact d.floor_le_rounded mode negative

theorem exponent_mono (c : Cut precision x) (d : Cut precision y) (le : x ≤ y) (mode : Mode)
    (negative : Bool) : (c.result mode negative).2 ≤ (d.result mode negative).2 := by
  rw [← d.reaches_iff mode negative]
  exact ((c.reaches_iff mode negative _).2 (le_refl _)).mono le

end Cut

/-! ## Numbers with a sign -/

/-- The number `y` is the number `x` rounded to a precision, with its sign. Zero stays zero. -/
def RoundsSigned (mode : Mode) (precision : Nat) (x y : ℚ) : Prop :=
  x = 0 ∧ y = 0 ∨ ∃ c : Cut precision |x|,
    y = if x < 0 then -c.rounded mode true else c.rounded mode false

namespace RoundsSigned

variable {mode : Mode} {precision : Nat} {x x' y y' : ℚ}

theorem nonneg (h : RoundsSigned mode precision x y) (le : 0 ≤ x) : 0 ≤ y := by
  rcases h with ⟨-, rfl⟩ | ⟨c, rfl⟩
  · exact le_refl _
  · rw [if_neg (not_lt.2 le)]
    exact le_of_lt (c.rounded_pos mode false)

theorem nonpos (h : RoundsSigned mode precision x y) (le : x ≤ 0) : y ≤ 0 := by
  rcases h with ⟨-, rfl⟩ | ⟨c, rfl⟩
  · exact le_refl _
  · rw [if_pos (lt_of_le_of_ne le (abs_pos.1 c.pos))]
    exact neg_nonpos_of_nonneg (le_of_lt (c.rounded_pos mode true))

theorem mono (h : RoundsSigned mode precision x y) (h' : RoundsSigned mode precision x' y')
    (le : x ≤ x') : y ≤ y' := by
  rcases le_or_gt x 0 with xNonpos | xPos
  · rcases le_or_gt 0 x' with xNonneg' | xNeg'
    · exact le_trans (h.nonpos xNonpos) (h'.nonneg xNonneg')
    · -- both below zero, where the lesser number has the greater magnitude
      have xNeg := lt_of_le_of_lt le xNeg'
      rcases h with ⟨rfl, -⟩ | ⟨c, rfl⟩
      · exact absurd xNeg (lt_irrefl 0)
      rcases h' with ⟨rfl, -⟩ | ⟨d, rfl⟩
      · exact absurd xNeg' (lt_irrefl 0)
      rw [if_pos xNeg, if_pos xNeg', neg_le_neg_iff]
      apply d.rounded_mono c
      rw [abs_of_neg xNeg, abs_of_neg xNeg']
      exact neg_le_neg le
  · have xPos' := lt_of_lt_of_le xPos le
    rcases h with ⟨rfl, -⟩ | ⟨c, rfl⟩
    · exact absurd xPos (lt_irrefl 0)
    rcases h' with ⟨rfl, -⟩ | ⟨d, rfl⟩
    · exact absurd xPos' (lt_irrefl 0)
    rw [if_neg (lt_asymm xPos), if_neg (lt_asymm xPos')]
    apply c.rounded_mono d
    rwa [abs_of_pos xPos, abs_of_pos xPos']

end RoundsSigned

/-! ## Floats -/

namespace BinaryFloat

section

variable {format : Format} {mode : Mode}

theorem exists_roundsSigned {q : Fraction} {f : BinaryFloat} {direction : Ordering}
    (wellFormed : q.WellFormed) (moderate : format.precision < 2 ^ 60)
    (short : q.ShorterThan (2 ^ 60)) (run : ofFraction format mode q = .ok (f, direction)) :
    ∃ y, f.value? = some y ∧ RoundsSigned mode format.precision q.value y := by
  by_cases zero : q.value = 0
  · rw [ofFraction_of_value_eq_zero mode (validate_of_ofFraction run) wellFormed zero] at run
    cases run
    exact ⟨0, rfl, .inl ⟨zero, rfl⟩⟩
  · obtain ⟨c, m, significand, rfl, -⟩ := exists_cut rfl zero moderate short run
    refine ⟨_, value_of_result c mode _ significand, .inr ⟨c, ?_⟩⟩
    by_cases negative : q.value < 0 <;> simp [negative]

/-- Farther from zero an exponent that is too large stays too large, and nearer to zero one that is
too small stays too small. -/
structure RefusalsSpread (format : Format) (mode : Mode) (near far : Fraction) : Prop where
  tooLarge : ∀ exponent greatest,
    ofFraction format mode near = reject (.exponentTooLarge exponent greatest) →
    ∃ exponent', exponent ≤ exponent' ∧
      ofFraction format mode far = reject (.exponentTooLarge exponent' greatest)
  tooSmall : ∀ exponent least,
    ofFraction format mode far = reject (.exponentTooSmall exponent least) →
    ∃ exponent', exponent' ≤ exponent ∧
      ofFraction format mode near = reject (.exponentTooSmall exponent' least)

theorem refusalsSpread_of_abs_le {near far : Fraction} {negative : Bool}
    (valid : format.validate = .ok ()) (moderate : format.precision < 2 ^ 60)
    (nearSign : decide (near.value < 0) = negative) (farSign : decide (far.value < 0) = negative)
    (nearNonzero : near.value ≠ 0) (farNonzero : far.value ≠ 0)
    (nearShort : near.ShorterThan (2 ^ 60)) (farShort : far.ShorterThan (2 ^ 60))
    (le : |near.value| ≤ |far.value|) : RefusalsSpread format mode near far := by
  obtain ⟨c, m, -, nearResult⟩ := ofFraction_eq mode nearSign valid nearNonzero moderate nearShort
  obtain ⟨d, n, -, farResult⟩ := ofFraction_eq mode farSign valid farNonzero moderate farShort
  have exponents := c.exponent_mono d le mode negative
  rw [Format.admitExponent_eq (Format.exponentRange_eq_ok valid)] at nearResult farResult
  constructor
  · intro exponent greatest refused
    rw [nearResult] at refused
    split_ifs at refused with above
    · cases refused
      refine ⟨_, exponents, ?_⟩
      rw [farResult, if_pos (lt_of_lt_of_le above exponents)]
      rfl
    all_goals cases refused
  · intro exponent least refused
    rw [farResult] at refused
    split_ifs at refused with above below
    · cases refused
    · cases refused
      refine ⟨_, exponents, ?_⟩
      rw [nearResult, if_neg (fun h => above (lt_of_lt_of_le h exponents)),
        if_pos (lt_of_le_of_lt exponents below)]
      rfl
    · cases refused

end

/-- The conversion keeps the order. Where two fractions become floats, the floats are in order, and
on either side of zero the refusals for an exponent are. -/
theorem ofFraction_mono {format : Format} (mode : Mode) {p q : Fraction}
    (valid : format.validate = .ok ()) (pWellFormed : p.WellFormed) (qWellFormed : q.WellFormed)
    (moderate : format.precision < 2 ^ 60) (pShort : p.ShorterThan (2 ^ 60))
    (qShort : q.ShorterThan (2 ^ 60)) (le : p.value ≤ q.value) :
    (∀ f g direction direction', ofFraction format mode p = .ok (f, direction) →
      ofFraction format mode q = .ok (g, direction') →
      f.compare? g = some .lt ∨ f.compare? g = some .eq) ∧
    (0 < p.value → RefusalsSpread format mode p q) ∧
    (q.value < 0 → RefusalsSpread format mode q p) := by
  refine ⟨?_, ?_, ?_⟩
  · intro f g direction direction' fRun gRun
    obtain ⟨x, fValue, fRounds⟩ := exists_roundsSigned pWellFormed moderate pShort fRun
    obtain ⟨y, gValue, gRounds⟩ := exists_roundsSigned qWellFormed moderate qShort gRun
    obtain ⟨fFormat, fWellFormed⟩ := wellFormed_of_ofFraction fRun
    obtain ⟨gFormat, gWellFormed⟩ := wellFormed_of_ofFraction gRun
    rw [compare?_of_values (fFormat ▸ valid) fWellFormed (gFormat ▸ valid) gWellFormed fValue gValue]
    rcases lt_or_eq_of_le (fRounds.mono gRounds le) with lt | eq
    · exact .inl (congrArg some (compare_lt_iff_lt.2 lt))
    · exact .inr (congrArg some (compare_eq_iff_eq.2 eq))
  · intro pPos
    have qPos := lt_of_lt_of_le pPos le
    apply refusalsSpread_of_abs_le valid moderate (decide_eq_false (lt_asymm pPos))
      (decide_eq_false (lt_asymm qPos)) (ne_of_gt pPos) (ne_of_gt qPos) pShort qShort
    rwa [abs_of_pos pPos, abs_of_pos qPos]
  · intro qNeg
    have pNeg := lt_of_le_of_lt le qNeg
    apply refusalsSpread_of_abs_le valid moderate (decide_eq_true qNeg) (decide_eq_true pNeg)
      (ne_of_lt qNeg) (ne_of_lt pNeg) qShort pShort
    rw [abs_of_neg pNeg, abs_of_neg qNeg]
    exact neg_le_neg le

/-- Thirteen eighths stays below two, which fifteen eighths is rounded to, and nine is too large
because seven halves is. -/
theorem ofFraction_mono_of_eighths :
    ofFraction ⟨2, 2, .towardZero⟩ .nearestEven ⟨false, .ofWord 13, .ofWord 8⟩ =
        .ok (⟨⟨2, 2, .towardZero⟩, false, 0, .ofWord 3, .normal⟩, .lt) ∧
      ofFraction ⟨2, 2, .towardZero⟩ .nearestEven ⟨false, .ofWord 15, .ofWord 8⟩ =
        .ok (⟨⟨2, 2, .towardZero⟩, false, 1, .ofWord 2, .normal⟩, .gt) ∧
      (compare? ⟨⟨2, 2, .towardZero⟩, false, 0, .ofWord 3, .normal⟩
          ⟨⟨2, 2, .towardZero⟩, false, 1, .ofWord 2, .normal⟩ = some .lt ∨
        compare? ⟨⟨2, 2, .towardZero⟩, false, 0, .ofWord 3, .normal⟩
          ⟨⟨2, 2, .towardZero⟩, false, 1, .ofWord 2, .normal⟩ = some .eq) ∧
      ofFraction ⟨2, 2, .towardZero⟩ .nearestEven ⟨false, .ofWord 7, .ofWord 2⟩ =
        reject (.exponentTooLarge 2 1) ∧
      ∃ exponent, 2 ≤ exponent ∧
        ofFraction ⟨2, 2, .towardZero⟩ .nearestEven ⟨false, .ofWord 9, .ofWord 1⟩ =
          reject (.exponentTooLarge exponent 1) := by
  have valid : Format.validate ⟨2, 2, .towardZero⟩ = .ok () := rfl
  have moderate : (⟨2, 2, .towardZero⟩ : Format).precision < 2 ^ 60 := by decide
  have thirteen : ofFraction ⟨2, 2, .towardZero⟩ .nearestEven ⟨false, .ofWord 13, .ofWord 8⟩ =
      .ok (⟨⟨2, 2, .towardZero⟩, false, 0, .ofWord 3, .normal⟩, .lt) := rfl
  have fifteen : ofFraction ⟨2, 2, .towardZero⟩ .nearestEven ⟨false, .ofWord 15, .ofWord 8⟩ =
      .ok (⟨⟨2, 2, .towardZero⟩, false, 1, .ofWord 2, .normal⟩, .gt) := rfl
  have refused : ofFraction ⟨2, 2, .towardZero⟩ .nearestEven ⟨false, .ofWord 7, .ofWord 2⟩ =
      reject (.exponentTooLarge 2 1) := rfl
  refine ⟨thirteen, fifteen, ?_, refused, ?_⟩
  · obtain ⟨order, -, -⟩ := ofFraction_mono .nearestEven valid (by decide) (by decide) moderate
      (by decide) (by decide)
      (show Fraction.value ⟨false, .ofWord 13, .ofWord 8⟩ ≤
        Fraction.value ⟨false, .ofWord 15, .ofWord 8⟩ by decide +kernel)
    exact order _ _ _ _ thirteen fifteen
  · obtain ⟨-, spread, -⟩ := ofFraction_mono .nearestEven valid (by decide) (by decide) moderate
      (by decide) (by decide)
      (show Fraction.value ⟨false, .ofWord 7, .ofWord 2⟩ ≤
        Fraction.value ⟨false, .ofWord 9, .ofWord 1⟩ by decide +kernel)
    exact (spread (by decide +kernel)).tooLarge 2 1 refused

end BinaryFloat

end ExactFloat
