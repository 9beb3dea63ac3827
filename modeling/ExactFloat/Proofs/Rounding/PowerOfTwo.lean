import ExactFloat.Proofs.Rounding.Invariance

/-!
# Multiplication by a power of two

A power of two changes which part of a fraction is shifted before the division, which factors lowest
terms cancel and what the remainder is compared with. The number is cut off at another unit all the
same, with the same significand and the same part of the unit, so that only the exponent moves.
-/

namespace ExactFloat

namespace Cut

variable {precision : Nat} {x : ℚ}

@[simps significand unit part]
def scale (c : Cut precision x) (k : Int) : Cut precision (x * 2 ^ k) where
  significand := c.significand
  unit := c.unit + k
  part := c.part
  lower := c.lower
  upper := c.upper
  part_nonneg := c.part_nonneg
  part_lt_one := c.part_lt_one
  value := by
    conv_lhs => rw [c.value]
    rw [mul_assoc, ← zpow_add₀ (by norm_num)]

theorem away_scale (c : Cut precision x) (k : Int) (mode : Mode) (negative : Bool) :
    (c.scale k).away mode negative = c.away mode negative := rfl

theorem result_scale (c : Cut precision x) (k : Int) (mode : Mode) (negative : Bool) :
    (c.scale k).result mode negative =
      ((c.result mode negative).1, (c.result mode negative).2 + k) := by
  have moved (places : Int) : c.unit + k + places = c.unit + places + k := add_right_comm _ _ _
  unfold result
  rw [away_scale, scale_significand, scale_unit, moved, moved]
  split_ifs <;> rfl

theorem direction_scale (c : Cut precision x) (k : Int) (mode : Mode) (negative : Bool) :
    (c.scale k).direction mode negative = c.direction mode negative := by
  rw [direction_eq, direction_eq, away_scale, scale_part]

end Cut

namespace BinaryFloat

/-- The exponent that a conversion came to, in the float or in the refusal. -/
def exponentOf? : Outcome (BinaryFloat × Ordering) → Option Int
  | .ok (f, _) => some f.exponent
  | .error (.rejected (.exponentTooLarge exponent _)) => some exponent
  | .error (.rejected (.exponentTooSmall exponent _)) => some exponent
  | .error _ => none

section

variable {format : Format} {p q : Fraction} {k : Int} {least greatest : Int}

theorem exponentOf_map_admitExponent (range : format.exponentRange = .ok (least, greatest))
    (negative : Bool) (exponent : Int) (significand : Magnitude) (direction : Ordering) :
    exponentOf? ((format.admitExponent exponent).map fun _ =>
      (⟨format, negative, exponent, significand, .normal⟩, direction)) = some exponent := by
  rw [Format.admitExponent_eq range]
  split_ifs <;> rfl

theorem exists_map_admitExponent_iff {α : Type} (range : format.exponentRange = .ok (least, greatest))
    (exponent : Int) (a : α) :
    (∃ result, (format.admitExponent exponent).map (fun _ => a) = .ok result) ↔
      least ≤ exponent ∧ exponent ≤ greatest := by
  rw [← Format.admitExponent_eq_ok_iff range]
  cases format.admitExponent exponent with
  | error failure => exact iff_of_false (fun ⟨_, run⟩ => by cases run) (fun run => by cases run)
  | ok _ => exact iff_of_true ⟨_, rfl⟩ rfl

theorem eq_of_map_eq_ok {α β : Type} {call : Outcome α} {b b' : β}
    (run : call.map (fun _ => b) = .ok b') : b = b' := by
  cases call with
  | error failure => cases run
  | ok _ => exact Except.ok.inj run

/-- Two numbers of which one is the other times a power of two have the same sign and the same
rounded significand, and their exponents are as far apart as the power says. -/
theorem exists_parts_of_scaled (mode : Mode) (valid : format.validate = .ok ())
    (scaled : q.value = p.value * 2 ^ k) (nonzero : p.value ≠ 0)
    (moderate : format.precision < 2 ^ 60) (pShort : p.ShorterThan (2 ^ 60))
    (qShort : q.ShorterThan (2 ^ 60)) :
    ∃ (negative : Bool) (exponent : Int) (m n : Magnitude) (direction : Ordering),
      m.toNat = n.toNat ∧
      ofFraction format mode p = (format.admitExponent exponent).map (fun _ =>
        (⟨format, negative, exponent, m, .normal⟩, direction)) ∧
      ofFraction format mode q = (format.admitExponent (exponent + k)).map fun _ =>
        (⟨format, negative, exponent + k, n, .normal⟩, direction) := by
  have power := two_zpow_pos k
  have sign : decide (q.value < 0) = decide (p.value < 0) := by
    rw [scaled, decide_eq_decide, ← not_le, ← not_le, mul_nonneg_iff_of_pos_right power]
  have magnitude : |q.value| = |p.value| * 2 ^ k := by
    rw [scaled, abs_mul, abs_of_pos power]
  have qNonzero : q.value ≠ 0 := by
    rw [scaled]
    exact mul_ne_zero nonzero (ne_of_gt power)
  obtain ⟨c, m, significand, pRun⟩ := ofFraction_eq mode rfl valid nonzero moderate pShort
  have spec := ofFraction_eq mode sign valid qNonzero moderate qShort
  rw [magnitude] at spec
  obtain ⟨d, n, significand', qRun⟩ := spec
  -- A number has one cut, so that of the product is the scaled one.
  obtain rfl : d = c.scale k := Subsingleton.elim d _
  rw [c.result_scale] at significand' qRun
  rw [c.direction_scale] at qRun
  exact ⟨_, _, m, n, _, significand.trans significand'.symm, pRun, qRun⟩

/-- A power of two moves the exponent and nothing else. Which of the numbers become floats is
decided by their exponents alone, and the floats have the sign, the significand and the direction
in common. -/
theorem ofFraction_mul_two_zpow (mode : Mode) (valid : format.validate = .ok ())
    (range : format.exponentRange = .ok (least, greatest)) (scaled : q.value = p.value * 2 ^ k)
    (nonzero : p.value ≠ 0) (moderate : format.precision < 2 ^ 60)
    (pShort : p.ShorterThan (2 ^ 60)) (qShort : q.ShorterThan (2 ^ 60)) :
    ∃ exponent, exponentOf? (ofFraction format mode p) = some exponent ∧
      exponentOf? (ofFraction format mode q) = some (exponent + k) ∧
      ((∃ result, ofFraction format mode q = .ok result) ↔
        least ≤ exponent + k ∧ exponent + k ≤ greatest) ∧
      ∀ f g direction direction', ofFraction format mode p = .ok (f, direction) →
        ofFraction format mode q = .ok (g, direction') →
        f.isNormal = true ∧ g.isNormal = true ∧ g.negative = f.negative ∧
          g.significand = f.significand ∧ direction' = direction := by
  obtain ⟨negative, exponent, m, n, direction, digits, pRun, qRun⟩ :=
    exists_parts_of_scaled mode valid scaled nonzero moderate pShort qShort
  refine ⟨exponent, ?_, ?_, ?_, ?_⟩
  · rw [pRun, exponentOf_map_admitExponent range]
  · rw [qRun, exponentOf_map_admitExponent range]
  · rw [qRun, exists_map_admitExponent_iff range]
  · intro f g direction direction' fRun gRun
    have fMinimal := minimal_ofFraction fRun
    have gMinimal := minimal_ofFraction gRun
    cases eq_of_map_eq_ok (pRun.symm.trans fRun)
    cases eq_of_map_eq_ok (qRun.symm.trans gRun)
    exact ⟨rfl, rfl, rfl, (fMinimal.eq_of_toNat_eq gMinimal digits).symm, rfl⟩

/-- Fourteen thirds becomes a float with the exponent two. Four times as much would have the
exponent four, which is too large for three bits. -/
theorem ofFraction_mul_two_zpow_of_fourteen_thirds :
    exponentOf? (ofFraction ⟨3, 2, .upward⟩ .nearestEven ⟨true, .ofWord 112, .ofWord 6⟩) = some 4 ∧
      ¬∃ result, ofFraction ⟨3, 2, .upward⟩ .nearestEven ⟨true, .ofWord 112, .ofWord 6⟩ =
        .ok result := by
  have value : (⟨true, .ofWord 14, .ofWord 3⟩ : Fraction).value = -(14 / 3) := by decide +kernel
  have value' : (⟨true, .ofWord 112, .ofWord 6⟩ : Fraction).value = -(112 / 6) := by decide +kernel
  have nonzero : (⟨true, .ofWord 14, .ofWord 3⟩ : Fraction).value ≠ 0 := by
    rw [value]
    norm_num
  have scaled : (⟨true, .ofWord 112, .ofWord 6⟩ : Fraction).value =
      (⟨true, .ofWord 14, .ofWord 3⟩ : Fraction).value * 2 ^ (2 : Int) := by
    rw [value, value']
    norm_num
  have range : Format.exponentRange ⟨3, 2, .upward⟩ = .ok (-2, 3) := rfl
  obtain ⟨exponent, there, moved, fits, -⟩ := ofFraction_mul_two_zpow .nearestEven rfl range scaled
    nonzero (by decide) (by decide) (by decide)
  have run : exponentOf? (ofFraction ⟨3, 2, .upward⟩ .nearestEven ⟨true, .ofWord 14, .ofWord 3⟩) =
      some 2 := rfl
  obtain rfl : (2 : Int) = exponent := Option.some.inj (run.symm.trans there)
  exact ⟨moved, mt fits.1 (by decide)⟩

end

end BinaryFloat

end ExactFloat
