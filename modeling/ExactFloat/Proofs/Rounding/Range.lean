import ExactFloat.Proofs.Rounding.Cut

/-!
# Which magnitudes round into a range of exponents

Rounding takes a magnitude to a power of two from some bound below that power on. The bound is the
power itself, half a place or a whole place of the grid below it, as the mode has it. Two such
bounds enclose the magnitudes whose rounded leading bit is in a range.
-/

namespace ExactFloat

/-- Whether a magnitude is from the bound on where rounding takes it to `2 ^ k` or beyond. -/
def Mode.Reaches (mode : Mode) (negative : Bool) (precision : Nat) (k : Int) (x : ℚ) : Prop :=
  match mode, negative with
  | .towardZero, _ | .upward, true | .downward, false => 2 ^ k ≤ x
  | .awayFromZero, _ | .upward, false | .downward, true =>
      (2 ^ precision - 1) * 2 ^ (k - precision) < x
  | .nearestEven, _ | .nearestAway, _ => (2 ^ (precision + 1) - 1) * 2 ^ (k - precision - 1) ≤ x

theorem mem_interval_iff (mode : Mode) (negative : Bool) (precision : Nat) (least greatest : Int)
    (x : ℚ) :
    x ∈ mode.interval negative precision least greatest ↔
      mode.Reaches negative precision least x ∧
        ¬mode.Reaches negative precision (greatest + 1) x := by
  have place : greatest + 1 - precision = greatest - precision + 1 := by ring
  cases mode <;> cases negative <;>
    simp only [Mode.interval, Mode.Reaches, Set.mem_Ico, Set.mem_Ioc, place,
      add_sub_cancel_right, not_le, not_lt]

/-! ## Places below a power of two -/

theorem two_zpow_eq_mul (precision : Nat) (k : Int) :
    (2 : ℚ) ^ k = 2 ^ precision * 2 ^ (k - precision) := by
  rw [← zpow_natCast, ← zpow_add₀ (by norm_num)]
  congr 1
  ring

theorem half_place (precision : Nat) (k : Int) :
    ((2 : ℚ) ^ (precision + 1) - 1) * 2 ^ (k - precision - 1) =
      (2 ^ precision - 1) * 2 ^ (k - precision) + 2 ^ (k - precision) / 2 := by
  have double := two_zpow_add_one (k - precision - 1)
  rw [sub_add_cancel] at double
  rw [double, pow_succ]
  ring

namespace Mode

variable {mode : Mode} {negative : Bool} {precision : Nat} {k : Int} {x : ℚ}

theorem Reaches.last_place_le (h : mode.Reaches negative precision k x) :
    (2 ^ precision - 1) * 2 ^ (k - precision) ≤ x := by
  have pos := two_zpow_pos (k - precision)
  have power := two_zpow_eq_mul precision k
  have half := half_place precision k
  cases mode <;> cases negative <;> simp only [Reaches] at h <;> linarith

theorem reaches_of_two_zpow_le (h : 2 ^ k ≤ x) : mode.Reaches negative precision k x := by
  have pos := two_zpow_pos (k - precision)
  have power := two_zpow_eq_mul precision k
  have half := half_place precision k
  cases mode <;> cases negative <;> simp only [Reaches] <;> linarith

theorem Reaches.mono (h : mode.Reaches negative precision k x) {y : ℚ} (le : x ≤ y) :
    mode.Reaches negative precision k y := by
  cases mode <;> cases negative <;> simp only [Reaches] at h ⊢ <;> linarith

/-- Rounding moves a leading bit by one place at most. -/
theorem Reaches.two_zpow_le (pos : precision ≠ 0)
    (h : mode.Reaches negative precision (k + 1) x) : 2 ^ k ≤ x := by
  have power := two_zpow_eq_mul precision (k + 1)
  have double := two_zpow_add_one k
  have place : 2 * (2 : ℚ) ^ (k + 1 - precision) ≤ 2 * 2 ^ k := by
    apply mul_le_mul_of_nonneg_left _ (by norm_num)
    apply ExactFloat.two_zpow_le
    omega
  have last := h.last_place_le
  linarith

/-! ## The interval -/

variable {least greatest : Int}

theorem two_zpow_mem_interval (pos : precision ≠ 0) (h : least < greatest) :
    2 ^ least ∈ mode.interval negative precision least greatest := by
  rw [mem_interval_iff]
  constructor
  · exact reaches_of_two_zpow_le (le_refl _)
  · intro reaches
    have le := (zpow_le_zpow_iff_right₀ (by norm_num)).1 (reaches.two_zpow_le pos)
    omega

theorem lt_of_mem_interval (h : ¬mode.Reaches negative precision least x) {y : ℚ}
    (mem : y ∈ mode.interval negative precision least greatest) : x < y := by
  rw [mem_interval_iff] at mem
  apply not_le.1
  intro le
  exact h (mem.1.mono le)

theorem gt_of_mem_interval (h : mode.Reaches negative precision (greatest + 1) x) {y : ℚ}
    (mem : y ∈ mode.interval negative precision least greatest) : y < x := by
  rw [mem_interval_iff] at mem
  apply not_le.1
  intro le
  exact mem.2 (h.mono le)

end Mode

namespace Cut

variable {precision : Nat} {x : ℚ}

/-- At the last significand of its length the part decides about the next power of two. -/
theorem reaches_iff_away (c : Cut precision x) (mode : Mode) (negative : Bool)
    (last : c.significand + 1 = 2 ^ precision) :
    mode.Reaches negative precision (c.unit + precision) x ↔ c.away mode negative = true := by
  have pos := two_zpow_pos c.unit
  have power := two_zpow_eq_mul precision (c.unit + precision)
  have half := half_place precision (c.unit + precision)
  rw [add_sub_cancel_right] at power half
  have floor : c.floor = (2 ^ precision - 1) * 2 ^ c.unit := by
    have cast : (c.significand : ℚ) + 1 = 2 ^ precision := by exact_mod_cast last
    rw [Cut.floor, ← cast, add_sub_cancel_right]
  have value := c.eq_floor_add
  have never : ¬(2 : ℚ) ^ (c.unit + precision) ≤ x := by
    have below := c.lt_next
    have next := c.next_eq
    linarith
  have distance : x - c.floor = c.part * 2 ^ c.unit := by linarith
  have inexact : (2 ^ precision - 1) * 2 ^ c.unit < x ↔ 0 < c.part := by
    rw [← floor, ← sub_pos, distance, mul_pos_iff_of_pos_right pos]
  have atLeastHalf : (2 ^ precision - 1) * 2 ^ c.unit + 2 ^ c.unit / 2 ≤ x ↔ 1 / 2 ≤ c.part := by
    rw [← floor, ← le_sub_iff_add_le', distance, div_eq_inv_mul, mul_le_mul_iff_of_pos_right pos,
      one_div]
  have odd : (c.significand % 2 == 1) = true := by
    have double := c.two_pow_precision
    rw [beq_iff_eq]
    omega
  unfold away
  rw [odd]
  -- The bounds lie at the significand itself and half a unit above it, as those of the tails do.
  rcases eq_or_lt_of_le c.part_nonneg with exact | part
  · have onFloor := mt inexact.1 (not_lt.2 (le_of_eq exact.symm))
    have belowHalf := mt atLeastHalf.1 (by linarith)
    rw [← exact, Tail.ofPart_zero]
    cases mode <;> cases negative <;>
      simp [Mode.Reaches, Mode.goesAway, never, half, onFloor, belowHalf]
  have aboveFloor := inexact.2 part
  rcases lt_trichotomy c.part (1 / 2) with less | middle | more
  · have belowHalf := mt atLeastHalf.1 (not_le.2 less)
    rw [Tail.ofPart_of_lt part less]
    cases mode <;> cases negative <;>
      simp [Mode.Reaches, Mode.goesAway, never, half, aboveFloor, belowHalf]
  · have aboveHalf := atLeastHalf.2 (le_of_eq middle.symm)
    rw [middle, Tail.ofPart_half]
    cases mode <;> cases negative <;>
      simp [Mode.Reaches, Mode.goesAway, never, half, aboveFloor, aboveHalf]
  · have aboveHalf := atLeastHalf.2 (le_of_lt more)
    rw [Tail.ofPart_of_gt more]
    cases mode <;> cases negative <;>
      simp [Mode.Reaches, Mode.goesAway, never, half, aboveFloor, aboveHalf]

/-- The bounds of the mode say exactly where the rounded number has its leading bit. -/
theorem reaches_iff (c : Cut precision x) (mode : Mode) (negative : Bool) (k : Int) :
    mode.Reaches negative precision k x ↔ k ≤ (c.result mode negative).2 := by
  have pos := two_zpow_pos c.unit
  have precisionPos := c.precision_ne_zero
  have lowest := le_trans c.two_pow_le_floor c.floor_le
  have result := c.result_exponent mode negative
  have lt_next := c.lt_next
  -- the leading bit of the number is one place below this, and only a carry leads there
  rcases lt_trichotomy k (c.unit + precision) with less | rfl | more
  · have reaches : mode.Reaches negative precision k x := by
      apply Mode.reaches_of_two_zpow_le
      calc (2 : ℚ) ^ k ≤ 2 ^ ((precision - 1 : Nat) + c.unit) := two_zpow_le (by omega)
        _ = 2 ^ (precision - 1) * 2 ^ c.unit := by rw [zpow_add₀ (by norm_num), zpow_natCast]
        _ ≤ x := lowest
    apply iff_of_true reaches
    rw [result]
    split_ifs <;> omega
  · by_cases last : c.significand + 1 = 2 ^ precision
    · rw [c.reaches_iff_away mode negative last, result]
      by_cases away : c.away mode negative = true
      · simp [away, last]
      · simp [away]
    · have room : ((c.significand + 1 : Nat) : ℚ) ≤ 2 ^ precision - 1 := by
        rw [le_sub_iff_add_le]
        exact_mod_cast Nat.lt_of_le_of_ne c.upper last
      have next_le_last : c.next ≤ (2 ^ precision - 1) * 2 ^ c.unit :=
        mul_le_mul_of_nonneg_right room (le_of_lt pos)
      have misses : ¬mode.Reaches negative precision (c.unit + precision) x := by
        intro reaches
        have last_place := reaches.last_place_le
        rw [add_sub_cancel_right] at last_place
        linarith
      apply iff_of_false misses
      rw [result, if_neg (fun carry => last carry.2)]
      omega
  · have misses : ¬mode.Reaches negative precision k x := by
      intro reaches
      rw [← sub_add_cancel k 1] at reaches
      have power_le := reaches.two_zpow_le precisionPos
      have power := two_zpow_eq_mul precision (c.unit + precision)
      have grown : (2 : ℚ) ^ (c.unit + precision) ≤ 2 ^ (k - 1) := two_zpow_le (by omega)
      have next_le := c.next_le
      rw [add_sub_cancel_right] at power
      linarith
    apply iff_of_false misses
    rw [result]
    split_ifs <;> omega

theorem abs_exponent_le (c : Cut precision x) (mode : Mode) (negative : Bool) {bits : Nat}
    (lower : 2 ^ (-(bits : Int)) ≤ x) (upper : x < 2 ^ (bits : Int)) :
    |(c.result mode negative).2| ≤ bits := by
  have reaches := (c.reaches_iff mode negative _).2 (le_refl _)
  rw [← sub_add_cancel (c.result mode negative).2 1] at reaches
  have below := lt_of_le_of_lt (reaches.two_zpow_le c.precision_ne_zero) upper
  have exponent := (zpow_lt_zpow_iff_right₀ (by norm_num)).1 below
  rw [abs_le]
  constructor
  · exact (c.reaches_iff mode negative _).1 (Mode.reaches_of_two_zpow_le lower)
  · exact Int.le_of_sub_one_lt exponent

end Cut

end ExactFloat
