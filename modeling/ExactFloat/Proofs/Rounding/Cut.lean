import ExactFloat.Proofs.Rounding.Grid
import ExactFloat.Proofs.Tail

/-!
# Numbers cut off at a precision

A positive number is cut off at its precision into a significand and a part of its last unit. The
mode decides by the part whether to go to the next significand. The result is the correct rounding
of the number, and its leading bit says where the number lies.
-/

namespace ExactFloat

/-- The magnitude `x` as `significand + part` units of `2 ^ unit`. -/
structure Cut (precision : Nat) (x : ℚ) where
  significand : Nat
  unit : Int
  part : ℚ
  lower : 2 ^ (precision - 1) ≤ significand
  upper : significand < 2 ^ precision
  part_nonneg : 0 ≤ part
  part_lt_one : part < 1
  value : x = (significand + part) * 2 ^ unit

namespace Cut

variable {precision : Nat} {x : ℚ}

theorem precision_ne_zero (c : Cut precision x) : precision ≠ 0 := by
  have lower := c.lower
  have upper := c.upper
  rintro rfl
  simp only [Nat.zero_sub, pow_zero] at lower upper
  omega

theorem two_pow_precision (c : Cut precision x) : 2 ^ precision = 2 * 2 ^ (precision - 1) := by
  rw [← pow_sub_one_mul c.precision_ne_zero, mul_comm]

/-! ## The neighbours -/

def floor (c : Cut precision x) : ℚ :=
  c.significand * 2 ^ c.unit

def next (c : Cut precision x) : ℚ :=
  (c.significand + 1 : Nat) * 2 ^ c.unit

theorem eq_floor_add (c : Cut precision x) : x = c.floor + c.part * 2 ^ c.unit := by
  rw [floor, ← add_mul]
  exact c.value

theorem next_eq (c : Cut precision x) : c.next = c.floor + 2 ^ c.unit := by
  rw [next, floor]
  push_cast
  ring

theorem floor_le (c : Cut precision x) : c.floor ≤ x := by
  have part := mul_nonneg c.part_nonneg (le_of_lt (two_zpow_pos c.unit))
  have value := c.eq_floor_add
  linarith

theorem eq_floor (c : Cut precision x) (exact : c.part = 0) : x = c.floor := by
  have value := c.eq_floor_add
  rwa [exact, zero_mul, add_zero] at value

theorem floor_lt (c : Cut precision x) (inexact : c.part ≠ 0) : c.floor < x := by
  have pos : 0 < c.part := lt_of_le_of_ne c.part_nonneg (Ne.symm inexact)
  have part := mul_pos pos (two_zpow_pos c.unit)
  have value := c.eq_floor_add
  linarith

theorem lt_next (c : Cut precision x) : x < c.next := by
  have part := mul_lt_mul_of_pos_right c.part_lt_one (two_zpow_pos c.unit)
  have value := c.eq_floor_add
  have next := c.next_eq
  linarith

theorem next_le (c : Cut precision x) : c.next ≤ 2 ^ precision * 2 ^ c.unit := by
  have short : ((c.significand + 1 : Nat) : ℚ) ≤ 2 ^ precision := by exact_mod_cast c.upper
  exact mul_le_mul_of_nonneg_right short (le_of_lt (two_zpow_pos c.unit))

theorem two_pow_le_floor (c : Cut precision x) : 2 ^ (precision - 1) * 2 ^ c.unit ≤ c.floor := by
  have lower : (2 : ℚ) ^ (precision - 1) ≤ c.significand := by exact_mod_cast c.lower
  exact mul_le_mul_of_nonneg_right lower (le_of_lt (two_zpow_pos c.unit))

theorem floor_mem_grid (c : Cut precision x) : c.floor ∈ Grid precision :=
  ⟨c.significand, c.unit, c.lower, c.upper, rfl⟩

theorem next_mem_grid (c : Cut precision x) : c.next ∈ Grid precision := by
  have lower := c.lower
  have upper := c.upper
  have double := c.two_pow_precision
  rcases Nat.lt_or_eq_of_le (Nat.succ_le_of_lt upper) with lt | eq
  · exact ⟨c.significand + 1, c.unit, by omega, lt, rfl⟩
  · refine ⟨2 ^ (precision - 1), c.unit + 1, Nat.le_refl _, by omega, ?_⟩
    have carried : c.significand + 1 = 2 * 2 ^ (precision - 1) := eq.trans double
    rw [next, carried, two_zpow_add_one]
    push_cast
    ring

theorem le_floor (c : Cut precision x) {y : ℚ} (mem : y ∈ Grid precision) (lt : y < c.next) :
    y ≤ c.floor := by
  have pos := two_zpow_pos c.unit
  rcases mem_grid_cases mem c.unit with small | ⟨n, rfl⟩
  · exact le_of_lt (lt_of_lt_of_le small c.two_pow_le_floor)
  · have below := lt_of_mul_lt_mul_right lt (le_of_lt pos)
    have le : n ≤ c.significand := Nat.le_of_lt_succ (by exact_mod_cast below)
    exact mul_le_mul_of_nonneg_right (by exact_mod_cast le) (le_of_lt pos)

theorem isGreatest_floor (c : Cut precision x) :
    IsGreatest {y | y ∈ Grid precision ∧ y ≤ x} c.floor := by
  constructor
  · exact ⟨c.floor_mem_grid, c.floor_le⟩
  · intro y ⟨mem, le⟩
    exact c.le_floor mem (lt_of_le_of_lt le c.lt_next)

def ceil (c : Cut precision x) : ℚ :=
  if c.part = 0 then c.floor else c.next

theorem isLeast_ceil (c : Cut precision x) :
    IsLeast {y | y ∈ Grid precision ∧ x ≤ y} c.ceil := by
  unfold ceil
  split
  · next exact =>
    constructor
    · exact ⟨c.floor_mem_grid, le_of_eq (c.eq_floor exact)⟩
    · intro y ⟨_, le⟩
      exact le_trans c.floor_le le
  · next inexact =>
    constructor
    · exact ⟨c.next_mem_grid, le_of_lt c.lt_next⟩
    · intro y ⟨mem, le⟩
      apply not_lt.1
      intro lt
      exact not_lt.2 (le_trans le (c.le_floor mem lt)) (c.floor_lt inexact)

/-! ## Rounding -/

/-- Whether a mode goes to the next significand. -/
def away (c : Cut precision x) (mode : Mode) (negative : Bool) : Bool :=
  mode.goesAway negative (.ofPart c.part) (c.significand % 2 == 1)

def rounded (c : Cut precision x) (mode : Mode) (negative : Bool) : ℚ :=
  if c.away mode negative then c.next else c.floor

theorem choice_self (mode : Mode) (negative : Bool) (x y : ℚ) (m : Nat) :
    mode.choice negative x y y m = y := by
  cases mode <;> simp [Mode.choice]

theorem rounded_of_exact (c : Cut precision x) (mode : Mode) (negative : Bool)
    (exact : c.part = 0) : c.rounded mode negative = c.floor := by
  simp [rounded, away, exact, Mode.goesAway]

theorem rounded_eq_choice (c : Cut precision x) (mode : Mode) (negative : Bool) :
    c.rounded mode negative = mode.choice negative x c.floor c.ceil c.significand := by
  by_cases exact : c.part = 0
  · rw [rounded_of_exact c mode negative exact, ceil, if_pos exact, choice_self]
  have pos : 0 < c.part := lt_of_le_of_ne c.part_nonneg (Ne.symm exact)
  have unitPos := two_zpow_pos c.unit
  have toFloor : x - c.floor = c.part * 2 ^ c.unit := by
    have := c.eq_floor_add
    linarith
  have toNext : c.next - x = (1 - c.part) * 2 ^ c.unit := by
    have := c.eq_floor_add
    have := c.next_eq
    linarith
  rw [ceil, if_neg exact]
  unfold Mode.choice rounded away
  simp only [toFloor, toNext, mul_lt_mul_iff_of_pos_right unitPos]
  rcases lt_trichotomy c.part (1 / 2) with below | half | above
  · have closer : c.part < 1 - c.part := by linarith
    rw [Tail.ofPart_of_lt pos below]
    cases mode <;> cases negative <;> simp [Mode.goesAway, closer]
  -- Only here, halfway between both neighbours, does the parity count.
  · have even : 1 - c.part = c.part := by linarith
    rw [even, half, Tail.ofPart_half]
    rcases Nat.mod_two_eq_zero_or_one c.significand with parity | parity
    · cases mode <;> cases negative <;> simp [Mode.goesAway, Nat.even_iff, parity]
    · cases mode <;> cases negative <;> simp [Mode.goesAway, Nat.even_iff, parity]
  · have closer : 1 - c.part < c.part := by linarith
    rw [Tail.ofPart_of_gt above]
    cases mode <;> cases negative <;> simp [Mode.goesAway, closer, not_lt.2 (le_of_lt closer)]

theorem rounds (c : Cut precision x) (mode : Mode) (negative : Bool) :
    Rounds mode negative precision x (c.rounded mode negative) :=
  ⟨c.floor, c.ceil, c.significand, c.unit, c.isGreatest_floor, c.isLeast_ceil, c.lower, c.upper,
    rfl, c.rounded_eq_choice mode negative⟩

/-! ## The rounded number -/

/-- The significand and the exponent of the leading bit after rounding. -/
def result (c : Cut precision x) (mode : Mode) (negative : Bool) : Nat × Int :=
  if c.away mode negative then
    if c.significand + 1 = 2 ^ precision then (2 ^ (precision - 1), c.unit + precision)
    else (c.significand + 1, c.unit + (precision - 1))
  else (c.significand, c.unit + (precision - 1))

theorem two_pow_le_result (c : Cut precision x) (mode : Mode) (negative : Bool) :
    2 ^ (precision - 1) ≤ (c.result mode negative).1 := by
  have lower := c.lower
  unfold result
  split_ifs <;> dsimp only <;> omega

theorem result_lt_two_pow (c : Cut precision x) (mode : Mode) (negative : Bool) :
    (c.result mode negative).1 < 2 ^ precision := by
  have upper := c.upper
  have double := c.two_pow_precision
  have pos := Nat.two_pow_pos (precision - 1)
  unfold result
  split_ifs <;> dsimp only <;> omega

/-- Only the number behind the last significand of its length is in the next place. -/
theorem result_exponent (c : Cut precision x) (mode : Mode) (negative : Bool) :
    (c.result mode negative).2 =
      if c.away mode negative = true ∧ c.significand + 1 = 2 ^ precision then c.unit + precision
      else c.unit + (precision - 1) := by
  unfold result
  split_ifs <;> simp_all

theorem rounded_eq_result (c : Cut precision x) (mode : Mode) (negative : Bool) :
    c.rounded mode negative =
      (c.result mode negative).1 * 2 ^ ((c.result mode negative).2 - (precision - 1)) := by
  unfold rounded result
  split_ifs with away carry
  · have double := c.two_pow_precision
    have unit : c.unit + precision - ((precision : Int) - 1) = c.unit + 1 := by ring
    rw [next, carry, double, unit, two_zpow_add_one]
    push_cast
    ring
  · rw [next, add_sub_cancel_right]
  · rw [floor, add_sub_cancel_right]

end Cut

/-! ## Leading bits -/

section

variable {precision m : Nat}

theorem two_zpow_le_of_lower (pos : precision ≠ 0) (lower : 2 ^ (precision - 1) ≤ m) (e : Int) :
    (2 : ℚ) ^ e ≤ m * 2 ^ (e - (precision - 1)) := by
  have split : e = (precision - 1 : Nat) + (e - (precision - 1)) := by omega
  conv_lhs => rw [split, zpow_add₀ (by norm_num), zpow_natCast]
  exact mul_le_mul_of_nonneg_right (by exact_mod_cast lower) (le_of_lt (two_zpow_pos _))

theorem lt_two_zpow_of_upper (upper : m < 2 ^ precision) (e : Int) :
    m * 2 ^ (e - (precision - 1)) < (2 : ℚ) ^ (e + 1) := by
  have split : e + 1 = precision + (e - (precision - 1)) := by ring
  conv_rhs => rw [split, zpow_add₀ (by norm_num), zpow_natCast]
  exact mul_lt_mul_of_pos_right (by exact_mod_cast upper) (two_zpow_pos _)

end

theorem leading_unique {y : ℚ} {e e' : Int} (lower : 2 ^ e ≤ y) (upper : y < 2 ^ (e + 1))
    (lower' : 2 ^ e' ≤ y) (upper' : y < 2 ^ (e' + 1)) : e = e' := by
  have one : (1 : ℚ) < 2 := by norm_num
  have h := (zpow_lt_zpow_iff_right₀ one).1 (lt_of_le_of_lt lower upper')
  have h' := (zpow_lt_zpow_iff_right₀ one).1 (lt_of_le_of_lt lower' upper)
  omega

theorem parts_unique {precision n n' : Nat} {e e' : Int} (pos : precision ≠ 0)
    (lower : 2 ^ (precision - 1) ≤ n) (upper : n < 2 ^ precision)
    (lower' : 2 ^ (precision - 1) ≤ n') (upper' : n' < 2 ^ precision)
    (same : (n * 2 ^ (e - (precision - 1)) : ℚ) = n' * 2 ^ (e' - (precision - 1))) :
    n = n' ∧ e = e' := by
  have exponent : e = e' := by
    apply leading_unique (y := n * 2 ^ (e - ((precision : Int) - 1)))
    · exact two_zpow_le_of_lower pos lower e
    · exact lt_two_zpow_of_upper upper e
    · exact same ▸ two_zpow_le_of_lower pos lower' e'
    · exact same ▸ lt_two_zpow_of_upper upper' e'
  subst exponent
  have significand := mul_right_cancel₀ (ne_of_gt (two_zpow_pos _)) same
  exact ⟨Nat.cast_inj.1 significand, rfl⟩

namespace Cut

variable {precision : Nat} {x : ℚ}

/-! ## Exact numbers -/

theorem part_eq_zero (c : Cut precision x) (mem : x ∈ Grid precision) : c.part = 0 := by
  by_contra inexact
  exact not_le.2 (c.floor_lt inexact) (c.le_floor mem c.lt_next)

theorem result_eq (c : Cut precision x) (mode : Mode) (negative : Bool) {n : Nat} {e : Int}
    (lower : 2 ^ (precision - 1) ≤ n) (upper : n < 2 ^ precision)
    (value : x = n * 2 ^ (e - (precision - 1))) : c.result mode negative = (n, e) := by
  have exact := c.part_eq_zero ⟨n, _, lower, upper, value⟩
  have same := c.rounded_eq_result mode negative
  rw [c.rounded_of_exact mode negative exact, ← c.eq_floor exact] at same
  obtain ⟨significand, exponent⟩ := parts_unique c.precision_ne_zero lower upper
    (c.two_pow_le_result mode negative) (c.result_lt_two_pow mode negative)
    (value.symm.trans same)
  exact Prod.ext significand.symm exponent.symm

/-! ## Uniqueness -/

theorem floor_eq_shifted (c : Cut precision x) :
    c.floor = c.significand * 2 ^ (c.unit + (precision - 1) - ((precision : Int) - 1)) := by
  rw [add_sub_cancel_right, floor]

theorem parts_eq_of_floor_eq {y : ℚ} (c : Cut precision x) (d : Cut precision y)
    (same : c.floor = d.floor) : c.significand = d.significand ∧ c.unit = d.unit := by
  obtain ⟨significand, exponent⟩ := parts_unique c.precision_ne_zero c.lower c.upper d.lower
    d.upper (c.floor_eq_shifted.symm.trans (same.trans d.floor_eq_shifted))
  exact ⟨significand, add_right_cancel exponent⟩

/-- A number is cut off at a precision in one way only. -/
instance : Subsingleton (Cut precision x) := by
  refine ⟨fun c c' => ?_⟩
  have floor := c.isGreatest_floor.unique c'.isGreatest_floor
  obtain ⟨significand, unit⟩ := c.parts_eq_of_floor_eq c' floor
  have part : c.part = c'.part := by
    have value := c.eq_floor_add.symm.trans c'.eq_floor_add
    rw [floor, unit] at value
    exact mul_right_cancel₀ (ne_of_gt (two_zpow_pos _)) (add_left_cancel value)
  cases c
  cases c'
  cases significand
  cases unit
  cases part
  rfl

end Cut

end ExactFloat
