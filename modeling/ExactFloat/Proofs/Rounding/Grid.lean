import ExactFloat.Mode
import Mathlib.Tactic

/-!
# Correct rounding

What a correct rounding is, said without any arithmetic on bits. The numbers of a precision form a
grid. A positive number lies between two neighbours in the grid, which are the same number if the
number is in the grid itself, and a mode chooses one of the two.
-/

namespace ExactFloat

/-- The positive numbers with a significand of `precision` bits and any exponent. -/
def Grid (precision : Nat) : Set ℚ :=
  {y | ∃ (m : Nat) (e : Int), 2 ^ (precision - 1) ≤ m ∧ m < 2 ^ precision ∧ y = m * 2 ^ e}

/-- The neighbour that a mode chooses for the magnitude `x`. The lower neighbour has the
significand `m`. -/
def Mode.choice (mode : Mode) (negative : Bool) (x lower upper : ℚ) (m : Nat) : ℚ :=
  match mode with
  | .towardZero => lower
  | .awayFromZero => upper
  | .upward => if negative then lower else upper
  | .downward => if negative then upper else lower
  | .nearestEven =>
      if x - lower < upper - x then lower
      else if upper - x < x - lower then upper
      else if Even m then lower
      else upper
  | .nearestAway => if x - lower < upper - x then lower else upper

/-- `y` is the magnitude `x` correctly rounded to the grid of a precision. -/
def Rounds (mode : Mode) (negative : Bool) (precision : Nat) (x y : ℚ) : Prop :=
  ∃ (lower upper : ℚ) (m : Nat) (e : Int),
    IsGreatest {z | z ∈ Grid precision ∧ z ≤ x} lower ∧
    IsLeast {z | z ∈ Grid precision ∧ x ≤ z} upper ∧
    2 ^ (precision - 1) ≤ m ∧ m < 2 ^ precision ∧ lower = m * 2 ^ e ∧
    y = mode.choice negative x lower upper m

/-- The magnitude `x` is rounded to a number whose leading bit is the one of `2 ^ exponent`. -/
def RoundsInto (mode : Mode) (negative : Bool) (precision : Nat) (x : ℚ) (exponent : Int) : Prop :=
  ∃ y, Rounds mode negative precision x y ∧ 2 ^ exponent ≤ y ∧ y < 2 ^ (exponent + 1)

/-- The magnitudes that a mode rounds to a number with a leading bit between the two exponents. -/
def Mode.interval (mode : Mode) (negative : Bool) (precision : Nat) (least greatest : Int) :
    Set ℚ :=
  match mode, negative with
  | .towardZero, _ | .upward, true | .downward, false =>
      Set.Ico (2 ^ least) (2 ^ (greatest + 1))
  | .awayFromZero, _ | .upward, false | .downward, true =>
      Set.Ioc ((2 ^ precision - 1) * 2 ^ (least - precision))
        ((2 ^ precision - 1) * 2 ^ (greatest - precision + 1))
  | .nearestEven, _ | .nearestAway, _ =>
      Set.Ico ((2 ^ (precision + 1) - 1) * 2 ^ (least - precision - 1))
        ((2 ^ (precision + 1) - 1) * 2 ^ (greatest - precision))

theorem two_zpow_pos (e : Int) : (0 : ℚ) < 2 ^ e :=
  zpow_pos (by norm_num) e

theorem two_zpow_add_one (e : Int) : (2 : ℚ) ^ (e + 1) = 2 * 2 ^ e := by
  rw [zpow_add_one₀ (by norm_num), mul_comm]

theorem two_zpow_le {e e' : Int} (h : e ≤ e') : (2 : ℚ) ^ e ≤ 2 ^ e' :=
  zpow_le_zpow_right₀ (by norm_num) h

/-- A number of the grid is too small for a significand in a unit, or it is a multiple of it. -/
theorem mem_grid_cases {precision : Nat} {y : ℚ} (h : y ∈ Grid precision) (unit : Int) :
    y < 2 ^ (precision - 1) * 2 ^ unit ∨ ∃ n : Nat, y = n * 2 ^ unit := by
  obtain ⟨m, e, lower, upper, rfl⟩ := h
  rcases lt_or_ge e unit with lt | le
  · left
    have precisionPos : precision ≠ 0 := by
      rintro rfl
      simp at lower upper
      omega
    have short : (m : ℚ) < 2 ^ precision := by exact_mod_cast upper
    calc (m : ℚ) * 2 ^ e < 2 ^ precision * 2 ^ e :=
          mul_lt_mul_of_pos_right short (two_zpow_pos e)
      _ = 2 ^ (precision - 1) * 2 ^ (e + 1) := by
          rw [two_zpow_add_one, ← pow_sub_one_mul precisionPos, mul_assoc]
      _ ≤ 2 ^ (precision - 1) * 2 ^ unit :=
          mul_le_mul_of_nonneg_left (two_zpow_le lt) (by positivity)
  · right
    obtain ⟨i, rfl⟩ := Int.le.dest le
    refine ⟨m * 2 ^ i, ?_⟩
    rw [zpow_add₀ (by norm_num), zpow_natCast]
    push_cast
    ring

/-! ## Appended zero bits -/

section

variable {precision wider : Nat}

theorem two_pow_le_widened (pos : precision ≠ 0) (le : precision ≤ wider) {n : Nat}
    (lower : 2 ^ (precision - 1) ≤ n) : 2 ^ (wider - 1) ≤ n * 2 ^ (wider - precision) := by
  have split : wider - 1 = precision - 1 + (wider - precision) := by omega
  rw [split, pow_add]
  exact Nat.mul_le_mul_right _ lower

theorem widened_lt_two_pow (le : precision ≤ wider) {n : Nat} (upper : n < 2 ^ precision) :
    n * 2 ^ (wider - precision) < 2 ^ wider := by
  have split : wider = precision + (wider - precision) := by omega
  conv_rhs => rw [split, pow_add]
  exact Nat.mul_lt_mul_of_pos_right upper (Nat.two_pow_pos _)

theorem widened_value (le : precision ≤ wider) (n : Nat) (e : Int) :
    ((n * 2 ^ (wider - precision) : Nat) : ℚ) * 2 ^ (e - (wider - 1)) =
      n * 2 ^ (e - (precision - 1)) := by
  have split : e - ((precision : Int) - 1) = (wider - precision : Nat) + (e - (wider - 1)) := by
    omega
  rw [split, zpow_add₀ (by norm_num), zpow_natCast]
  push_cast
  ring

end

end ExactFloat
