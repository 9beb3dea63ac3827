import ExactFloat.Proofs.Dyadic
import ExactFloat.Proofs.Rounding.Invariance

/-!
# Exactness does not depend on the mode

A number needs no rounding exactly if in lowest terms its denominator is a power of two and the odd
part of its numerator fits the precision. Then nothing is cut off and all modes agree. Otherwise
some part of the last unit is left, no mode is exact, and the modes that keep the magnitude and that
leave it give consecutive floats.
-/

namespace ExactFloat

/-! ## Representable numbers -/

/-- In lowest terms the denominator is a power of two and the odd part of the numerator has at most
`precision` bits. -/
def Representable (precision : Nat) (x : ℚ) : Prop :=
  (∃ k, x.den = 2 ^ k) ∧ ordCompl[2] x.num.natAbs < 2 ^ precision

theorem mem_grid_of_lt {precision n : Nat} (nonzero : n ≠ 0) (short : n < 2 ^ precision) (e : Int) :
    (n * 2 ^ e : ℚ) ∈ Grid precision := by
  have le : n.log2 + 1 ≤ precision := (Nat.log2_lt nonzero).2 short
  refine ⟨n * 2 ^ (precision - (n.log2 + 1)), e + ((n.log2 + 1 : Nat) - 1) - (precision - 1),
    two_pow_le_widened (Nat.succ_ne_zero _) le (Nat.log2_self_le nonzero),
    widened_lt_two_pow le Nat.lt_log2_self, ?_⟩
  rw [widened_value le, add_sub_cancel_right]

theorem grid_subset {precision wider : Nat} (le : precision ≤ wider) :
    Grid precision ⊆ Grid wider := by
  rintro _ ⟨m, e, lower, upper, rfl⟩
  have nonzero : m ≠ 0 := Nat.ne_of_gt (Nat.lt_of_lt_of_le (Nat.two_pow_pos _) lower)
  exact mem_grid_of_lt nonzero (Nat.lt_of_lt_of_le upper (Nat.pow_le_pow_right Nat.two_pos le)) e

theorem representable_of_mem_grid {precision : Nat} {x : ℚ} (mem : x ∈ Grid precision) :
    Representable precision x := by
  obtain ⟨m, e, lower, upper, rfl⟩ := mem
  have nonzero : m ≠ 0 := Nat.ne_of_gt (Nat.lt_of_lt_of_le (Nat.two_pow_pos _) lower)
  refine ⟨⟨_, den_mul_two_zpow nonzero e⟩, ?_⟩
  rw [oddPart_num_mul_two_zpow nonzero]
  exact Nat.lt_of_le_of_lt (Nat.ordCompl_le m 2) upper

theorem mem_grid_of_representable {precision : Nat} {x : ℚ} (pos : 0 < x)
    (h : Representable precision x) : x ∈ Grid precision := by
  obtain ⟨⟨k, den⟩, short⟩ := h
  have numPos : 0 < x.num := Rat.num_pos.2 pos
  have value : x = x.num.natAbs * 2 ^ (-(k : Int)) := by
    conv_lhs => rw [← Rat.num_div_den x, den]
    rw [zpow_neg, zpow_natCast, ← div_eq_mul_inv, Nat.cast_natAbs, abs_of_pos numPos]
    push_cast
    rfl
  rw [value, mul_two_zpow]
  exact mem_grid_of_lt (Nat.ne_of_gt (Nat.ordCompl_pos 2 (by omega))) short _

theorem abs_mem_grid_iff {precision : Nat} {x : ℚ} (nonzero : x ≠ 0) :
    |x| ∈ Grid precision ↔ Representable precision x := by
  have unsigned : Representable precision |x| ↔ Representable precision x := by
    rw [Representable, Representable, Rat.den_abs_eq_den, Rat.num_abs_eq_abs_num, Int.natAbs_abs]
  rw [← unsigned]
  exact ⟨representable_of_mem_grid, mem_grid_of_representable (abs_pos.2 nonzero)⟩

/-! ## Cuts without a part -/

theorem Rounded.directionOf_ne_eq (negative away : Bool) : directionOf negative away ≠ .eq := by
  cases negative <;> cases away <;> decide

namespace Cut

variable {precision : Nat} {x : ℚ}

theorem part_eq_zero_iff (c : Cut precision x) : c.part = 0 ↔ x ∈ Grid precision := by
  refine ⟨fun exact => ?_, c.part_eq_zero⟩
  rw [c.eq_floor exact]
  exact c.floor_mem_grid

theorem away_of_exact (c : Cut precision x) (mode : Mode) (negative : Bool) (exact : c.part = 0) :
    c.away mode negative = false := by
  simp [away, exact, Mode.goesAway]

theorem away_towardZero (c : Cut precision x) (negative : Bool) :
    c.away .towardZero negative = false := by
  unfold away Mode.goesAway
  split <;> rfl

theorem away_awayFromZero (c : Cut precision x) (negative : Bool) (inexact : c.part ≠ 0) :
    c.away .awayFromZero negative = true := by
  have some := mt Tail.ofPart_eq_empty.1 inexact
  unfold away Mode.goesAway
  split
  · contradiction
  all_goals rfl

theorem result_of_exact (c : Cut precision x) (mode : Mode) (negative : Bool) (exact : c.part = 0) :
    c.result mode negative = (c.significand, c.unit + (precision - 1)) := by
  rw [result, c.away_of_exact mode negative exact, if_neg Bool.false_ne_true]

theorem direction_eq_eq_iff (c : Cut precision x) (mode : Mode) (negative : Bool) :
    c.direction mode negative = .eq ↔ c.part = 0 := by
  rw [c.direction_eq]
  split
  · next exact => exact iff_of_true rfl exact
  · next inexact => exact iff_of_false (Rounded.directionOf_ne_eq _ _) inexact

end Cut

/-! ## Floats -/

namespace BinaryFloat

/-- Normal floats of one format and sign, the second one with the next magnitude after the first. -/
structure Consecutive (f g : BinaryFloat) : Prop where
  lower_isNormal : f.isNormal = true
  upper_isNormal : g.isNormal = true
  format : g.format = f.format
  sign : g.negative = f.negative
  next : g.exponent = f.exponent ∧ g.significand.toNat = f.significand.toNat + 1 ∨
    g.exponent = f.exponent + 1 ∧ f.significand.toNat = 2 ^ f.format.precision - 1 ∧
      g.significand.toNat = 2 ^ (f.format.precision - 1)

section

variable {format : Format} {q : Fraction}

/-- Whatever the mode, a representable number has the outcome of the mode that only cuts off. -/
theorem ofFraction_of_representable (mode : Mode) (valid : format.validate = .ok ())
    (nonzero : q.value ≠ 0) (moderate : format.precision < 2 ^ 60) (short : q.ShorterThan (2 ^ 60))
    (representable : Representable format.precision q.value) :
    ofFraction format mode q = ofFraction format .towardZero q := by
  have mem := (abs_mem_grid_iff nonzero).2 representable
  apply ofFraction_congr valid moderate rfl rfl rfl rfl (abs_ne_zero.2 nonzero) short short
  · intro c
    have exact := c.part_eq_zero mem
    rw [c.result_of_exact mode _ exact, c.result_of_exact .towardZero _ exact]
  · intro c
    have exact := c.part_eq_zero mem
    rw [(c.direction_eq_eq_iff mode _).2 exact, (c.direction_eq_eq_iff .towardZero _).2 exact]

theorem direction_of_representable {mode : Mode} {f : BinaryFloat} {direction : Ordering}
    (nonzero : q.value ≠ 0) (moderate : format.precision < 2 ^ 60) (short : q.ShorterThan (2 ^ 60))
    (run : ofFraction format mode q = .ok (f, direction)) :
    direction = .eq ↔ Representable format.precision q.value := by
  obtain ⟨c, m, -, -, rfl⟩ := exists_cut rfl nonzero moderate short run
  rw [c.direction_eq_eq_iff, c.part_eq_zero_iff, abs_mem_grid_iff nonzero]

theorem consecutive_of_not_representable {f g : BinaryFloat} {direction direction' : Ordering}
    (nonzero : q.value ≠ 0) (moderate : format.precision < 2 ^ 60) (short : q.ShorterThan (2 ^ 60))
    (inexact : ¬Representable format.precision q.value)
    (kept : ofFraction format .towardZero q = .ok (f, direction))
    (left : ofFraction format .awayFromZero q = .ok (g, direction')) : Consecutive f g := by
  obtain ⟨c, m, significand, rfl, -⟩ := exists_cut rfl nonzero moderate short kept
  obtain ⟨c', m', significand', rfl, -⟩ := exists_cut rfl nonzero moderate short left
  -- Both modes cut the number off at the same place.
  obtain rfl : c = c' := Subsingleton.elim c c'
  rw [← abs_mem_grid_iff nonzero, ← c.part_eq_zero_iff] at inexact
  have stays := c.away_towardZero (decide (q.value < 0))
  have goes := c.away_awayFromZero (decide (q.value < 0)) inexact
  have lower : c.result .towardZero (decide (q.value < 0)) =
      (c.significand, c.unit + (format.precision - 1)) := by
    rw [Cut.result, stays, if_neg Bool.false_ne_true]
  have upper : c.result .awayFromZero (decide (q.value < 0)) =
      if c.significand + 1 = 2 ^ format.precision then
        (2 ^ (format.precision - 1), c.unit + format.precision)
      else (c.significand + 1, c.unit + (format.precision - 1)) := by
    rw [Cut.result, goes, if_pos rfl]
  rw [lower] at significand
  rw [upper] at significand'
  refine ⟨rfl, rfl, rfl, rfl, ?_⟩
  show (c.result .awayFromZero _).2 = (c.result .towardZero _).2 ∧ m'.toNat = m.toNat + 1 ∨
    (c.result .awayFromZero _).2 = (c.result .towardZero _).2 + 1 ∧
      m.toNat = 2 ^ format.precision - 1 ∧ m'.toNat = 2 ^ (format.precision - 1)
  rw [lower, upper, significand, significand']
  split_ifs with carry
  · right
    refine ⟨?_, ?_, rfl⟩
    · show c.unit + (format.precision : Int) = c.unit + (format.precision - 1) + 1
      ring
    · show c.significand = 2 ^ format.precision - 1
      omega
  · exact .inl ⟨rfl, rfl⟩

/-- A representable number has one outcome, whatever the mode: an exact float, or a refusal with one
exponent. A number that is not representable is exact in no mode, and the modes toward zero and
away from zero give consecutive floats. -/
theorem ofFraction_exactness (valid : format.validate = .ok ()) (nonzero : q.value ≠ 0)
    (moderate : format.precision < 2 ^ 60) (short : q.ShorterThan (2 ^ 60)) :
    (Representable format.precision q.value →
      (∃ f, ∀ mode, ofFraction format mode q = .ok (f, .eq)) ∨
      (∃ exponent greatest, ∀ mode,
        ofFraction format mode q = reject (.exponentTooLarge exponent greatest)) ∨
      ∃ exponent least, ∀ mode,
        ofFraction format mode q = reject (.exponentTooSmall exponent least)) ∧
    (¬Representable format.precision q.value →
      (∀ mode f direction, ofFraction format mode q = .ok (f, direction) → direction ≠ .eq) ∧
      ∀ f g direction direction', ofFraction format .towardZero q = .ok (f, direction) →
        ofFraction format .awayFromZero q = .ok (g, direction') → Consecutive f g) := by
  constructor
  · intro representable
    have agree := fun mode =>
      ofFraction_of_representable mode valid nonzero moderate short representable
    obtain ⟨exponent, f, direction, -, -, -, -, result⟩ := ofFraction_cases .towardZero rfl valid
      (Format.exponentRange_eq_ok valid) nonzero moderate short
    split_ifs at result
    · exact .inr (.inl ⟨_, _, fun mode => (agree mode).trans result⟩)
    · exact .inr (.inr ⟨_, _, fun mode => (agree mode).trans result⟩)
    · obtain rfl := (direction_of_representable nonzero moderate short result).2 representable
      exact .inl ⟨f, fun mode => (agree mode).trans result⟩
  · intro inexact
    constructor
    · intro mode f direction run
      exact mt (direction_of_representable nonzero moderate short run).1 inexact
    · intro f g direction direction' kept left
      exact consecutive_of_not_representable nonzero moderate short inexact kept left

/-- With two bits, seven halves lies between three and four, on both sides of a carry. -/
theorem ofFraction_exactness_of_seven_halves :
    ofFraction ⟨3, 2, .nearestEven⟩ .towardZero ⟨true, .ofWord 14, .ofWord 4⟩ =
        .ok (⟨⟨3, 2, .nearestEven⟩, true, 1, .ofWord 3, .normal⟩, .gt) ∧
      ofFraction ⟨3, 2, .nearestEven⟩ .awayFromZero ⟨true, .ofWord 14, .ofWord 4⟩ =
        .ok (⟨⟨3, 2, .nearestEven⟩, true, 2, .ofWord 2, .normal⟩, .lt) ∧
      Consecutive ⟨⟨3, 2, .nearestEven⟩, true, 1, .ofWord 3, .normal⟩
        ⟨⟨3, 2, .nearestEven⟩, true, 2, .ofWord 2, .normal⟩ := by
  have value : (⟨true, .ofWord 14, .ofWord 4⟩ : Fraction).value = -(7 / 2) := by decide +kernel
  have nonzero : (⟨true, .ofWord 14, .ofWord 4⟩ : Fraction).value ≠ 0 := by
    rw [value]
    norm_num
  have inexact : ¬Representable 2 (⟨true, .ofWord 14, .ofWord 4⟩ : Fraction).value := by
    rw [value]
    intro ⟨_, short⟩
    have numerator : (-(7 / 2) : ℚ).num.natAbs = 7 := by decide +kernel
    have odd : ordCompl[2] 7 = 7 :=
      (Nat.ordCompl_eq_self_iff_zero_or_not_dvd 7 Nat.prime_two).2 (.inr (by decide))
    rw [numerator, odd] at short
    omega
  have valid : Format.validate ⟨3, 2, .nearestEven⟩ = .ok () := rfl
  obtain ⟨-, spec⟩ := ofFraction_exactness valid nonzero (by decide) (by decide)
  exact ⟨rfl, rfl, (spec inexact).2 _ _ .gt .lt rfl rfl⟩

end

end BinaryFloat

end ExactFloat
