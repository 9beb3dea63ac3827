import ExactFloat.Proofs.RoundTrip
import ExactFloat.Proofs.Rounding.Exactness
import ExactFloat.Proofs.Rounding.Monotone

/-!
# Directed rounding does not round twice

A directed mode takes the lower or the upper neighbour whatever the distances are. The neighbour in
a grid of lower precision is also the neighbour of the one in a finer grid, because the finer grid
has all the numbers of the other. So the way through a float of higher precision ends in the same
float, and a direction that the second step does not see is the one of the first.
-/

namespace ExactFloat

/-- Whether a mode chooses its neighbour by the sign alone. -/
def Mode.isDirected : Mode → Bool
  | .towardZero | .awayFromZero | .upward | .downward => true
  | .nearestEven | .nearestAway => false

/-- Of three numbers in a row the outer ones compare as the first two that differ. -/
theorem compare_of_between {x y z : ℚ} (between : z ≤ y ∧ y ≤ x ∨ x ≤ y ∧ y ≤ z) :
    compare z x = (compare z y).then (compare y x) := by
  rcases between with ⟨low, high⟩ | ⟨low, high⟩
  · rcases eq_or_lt_of_le low with rfl | lt
    · rw [compare_eq_iff_eq.2 rfl, Ordering.eq_then]
    · rw [compare_lt_iff_lt.2 lt, compare_lt_iff_lt.2 (lt_of_lt_of_le lt high), Ordering.lt_then]
  · rcases eq_or_lt_of_le high with rfl | lt
    · rw [compare_eq_iff_eq.2 rfl, Ordering.eq_then]
    · rw [compare_gt_iff_gt.2 lt, compare_gt_iff_gt.2 (lt_of_le_of_lt low lt), Ordering.gt_then]

namespace Cut

variable {precision wider : Nat} {x y : ℚ} {mode : Mode}

/-! ## Neighbours -/

/-- A directed mode takes the same side of every magnitude with a sign. -/
theorem rounded_of_directed (directed : mode.isDirected = true) (negative : Bool) :
    (∀ {precision x} (c : Cut precision x), c.rounded mode negative = c.floor) ∨
      ∀ {precision x} (c : Cut precision x), c.rounded mode negative = c.ceil := by
  simp only [rounded_eq_choice]
  cases mode
  case nearestEven | nearestAway => cases directed
  case towardZero => exact .inl fun _ => rfl
  case awayFromZero => exact .inr fun _ => rfl
  case upward =>
    cases negative with
    | false => exact .inr fun _ => rfl
    | true => exact .inl fun _ => rfl
  case downward =>
    cases negative with
    | false => exact .inl fun _ => rfl
    | true => exact .inr fun _ => rfl

theorem floor_eq_of_floor (c : Cut wider x) (d : Cut precision c.floor) (b : Cut precision x)
    (le : precision ≤ wider) : b.floor = d.floor := by
  apply b.isGreatest_floor.unique
  constructor
  · exact ⟨d.floor_mem_grid, le_trans d.floor_le c.floor_le⟩
  · intro z ⟨mem, below⟩
    exact d.isGreatest_floor.2 ⟨mem, c.isGreatest_floor.2 ⟨grid_subset le mem, below⟩⟩

theorem ceil_eq_of_ceil (c : Cut wider x) (d : Cut precision c.ceil) (b : Cut precision x)
    (le : precision ≤ wider) : b.ceil = d.ceil := by
  apply b.isLeast_ceil.unique
  constructor
  · exact ⟨d.isLeast_ceil.1.1, le_trans c.isLeast_ceil.1.2 d.isLeast_ceil.1.2⟩
  · intro z ⟨mem, above⟩
    exact d.isLeast_ceil.2 ⟨mem, c.isLeast_ceil.2 ⟨grid_subset le mem, above⟩⟩

/-! ## Both steps -/

section

variable (c : Cut wider x) (d : Cut precision y) (b : Cut precision x) {negative : Bool}

/-- The number of the second step is the one of the direct way, and that of the first step lies
between it and the number itself. -/
theorem rounded_and_between (directed : mode.isDirected = true) (le : precision ≤ wider)
    (step : y = c.rounded mode negative) :
    b.rounded mode negative = d.rounded mode negative ∧
      (d.rounded mode negative ≤ y ∧ y ≤ x ∨ x ≤ y ∧ y ≤ d.rounded mode negative) := by
  rcases rounded_of_directed directed negative with lower | upper
  · rw [lower] at step
    subst step
    rw [lower, lower]
    exact ⟨c.floor_eq_of_floor d b le, .inl ⟨d.floor_le, c.floor_le⟩⟩
  · rw [upper] at step
    subst step
    rw [upper, upper]
    exact ⟨c.ceil_eq_of_ceil d b le, .inr ⟨c.isLeast_ceil.1.2, d.isLeast_ceil.1.2⟩⟩

theorem result_eq_of_directed (directed : mode.isDirected = true) (le : precision ≤ wider)
    (step : y = c.rounded mode negative) : b.result mode negative = d.result mode negative := by
  obtain ⟨same, -⟩ := c.rounded_and_between d b directed le step
  rw [b.rounded_eq_result, d.rounded_eq_result] at same
  obtain ⟨significand, exponent⟩ := parts_unique b.precision_ne_zero
    (b.two_pow_le_result mode negative) (b.result_lt_two_pow mode negative)
    (d.two_pow_le_result mode negative) (d.result_lt_two_pow mode negative) same
  exact Prod.ext significand exponent

theorem direction_eq_then (directed : mode.isDirected = true) (le : precision ≤ wider)
    (step : y = c.rounded mode negative) :
    b.direction mode negative =
      (d.direction mode negative).then (c.direction mode negative) := by
  obtain ⟨same, between⟩ := c.rounded_and_between d b directed le step
  rw [← same] at between
  have order := compare_of_between between
  rw [direction, direction, direction, ← same, ← step]
  cases negative with
  | false => exact order
  | true =>
      -- below zero each direction compares the magnitudes the other way round
      have mirrored := congrArg Ordering.swap order
      rw [Ordering.swap_then, ← Std.OrientedCmp.eq_swap, ← Std.OrientedCmp.eq_swap,
        ← Std.OrientedCmp.eq_swap] at mirrored
      exact mirrored

end

end Cut

/-! ## Floats -/

namespace BinaryFloat

theorem exists_convertsTo_of_cut {format : Format} {mode : Mode} {q : Fraction} {negative : Bool}
    {m : Magnitude} (c : Cut format.precision |q.value|) (nonzero : q.value ≠ 0)
    (moderate : format.precision < 2 ^ 58) (short : q.ShorterThan (2 ^ 58))
    (significand : m.toNat = (c.result mode negative).1) :
    ∃ r, ConvertsTo ⟨format, negative, (c.result mode negative).2, m, .normal⟩ r ∧
      r.ShorterThan (2 ^ 60) := by
  obtain ⟨lower, upper⟩ := Fraction.abs_value_bounds nonzero short
  have near := c.abs_exponent_le mode negative lower upper
  exact exists_convertsTo_short rfl (c.bitLength_of_result significand)
    (Nat.lt_trans moderate (by norm_num)) (lt_of_le_of_lt near (by norm_num))

/-- The second step gives what the direct way gives, up to the direction of the first step. -/
theorem ofFraction_of_rounded_value {wide narrow : Format} {mode : Mode} {q r : Fraction}
    {negative : Bool} (c : Cut wide.precision |q.value|) (directed : mode.isDirected = true)
    (sign : decide (q.value < 0) = negative)
    (value : r.value = if negative then -c.rounded mode negative else c.rounded mode negative)
    (valid : narrow.validate = .ok ()) (nonzero : q.value ≠ 0)
    (precision_le : narrow.precision ≤ wide.precision) (moderate : wide.precision < 2 ^ 60)
    (qShort : q.ShorterThan (2 ^ 60)) (rShort : r.ShorterThan (2 ^ 60)) :
    ofFraction narrow mode q =
      (ofFraction narrow mode r).map (Prod.map id (·.then (c.direction mode negative))) := by
  obtain ⟨rSign, magnitude, rNonzero⟩ := parts_of_signed (c.rounded_pos mode negative) value
  apply ofFraction_eq_map valid (Nat.lt_of_le_of_lt precision_le moderate) sign rSign nonzero
    rNonzero qShort rShort
  · intro b d
    exact c.result_eq_of_directed d b directed precision_le magnitude
  · intro b d
    exact c.direction_eq_then d b directed precision_le magnitude

/-- In a directed mode the way through a float of at least the same precision ends in the same float
or the same refusal as the direct way. The direction is the one of the second step, or of the first
where the second step is exact. -/
theorem ofFraction_directed {wide narrow : Format} {mode : Mode} {q : Fraction} {g : BinaryFloat}
    {direction : Ordering} (context : Context) (directed : mode.isDirected = true)
    (wellFormed : q.WellFormed) (precision_le : narrow.precision ≤ wide.precision)
    (moderate : wide.precision < 2 ^ 58) (short : q.ShorterThan (2 ^ 58))
    (run : ofFraction wide mode q = .ok (g, direction)) :
    ∃ r, g.toFraction context = .ok (r, context) ∧
      ofFraction narrow mode q =
        (ofFraction narrow mode r).map (Prod.map id (·.then direction)) := by
  have wideModerate : wide.precision < 2 ^ 60 := Nat.lt_trans moderate (by norm_num)
  have longer : q.ShorterThan (2 ^ 60) :=
    ⟨Nat.lt_trans short.1 (by norm_num), Nat.lt_trans short.2 (by norm_num)⟩
  cases valid : narrow.validate with
  | error failure =>
      obtain ⟨r, converts, -⟩ := direction_eq_compare wellFormed wideModerate longer run
      refine ⟨r, converts.toFraction_eq context, ?_⟩
      rw [ofFraction_of_invalid mode q valid, ofFraction_of_invalid mode r valid]
      rfl
  | ok _ =>
      by_cases zero : q.value = 0
      · rw [ofFraction_of_value_eq_zero mode (validate_of_ofFraction run) wellFormed zero] at run
        cases run
        have converts := convertsTo_zero (f := BinaryFloat.zero wide false) rfl
        refine ⟨.zero, converts.toFraction_eq context, ?_⟩
        rw [ofFraction_of_value_eq_zero mode valid wellFormed zero,
          ofFraction_of_value_eq_zero mode valid converts.wellFormed Fraction.value_zero]
        rfl
      · obtain ⟨c, m, significand, rfl, rfl⟩ := exists_cut rfl zero wideModerate longer run
        obtain ⟨r, converts, rShort⟩ := exists_convertsTo_of_cut c zero moderate short significand
        have value := converts.value.symm.trans (value_of_result c mode _ significand)
        exact ⟨r, converts.toFraction_eq context,
          ofFraction_of_rounded_value c directed rfl (Option.some.inj value) valid zero precision_le
            wideModerate longer rShort⟩

/-- Minus thirty-one sixteenths is rounded down to minus two with a carry, which is exact at two
bits, so that the direct way has the direction of the carry. -/
theorem ofFraction_directed_of_carry :
    ofFraction ⟨5, 4, .upward⟩ .downward ⟨true, .ofWord 31, .ofWord 16⟩ =
        .ok (⟨⟨5, 4, .upward⟩, true, 1, .ofWord 8, .normal⟩, .lt) ∧
      ofFraction ⟨3, 2, .nearestEven⟩ .downward ⟨true, .ofWord 31, .ofWord 16⟩ =
        (ofFraction ⟨3, 2, .nearestEven⟩ .downward ⟨true, .ofWord 2, .ofWord 1⟩).map
          (Prod.map id (·.then .lt)) ∧
      ofFraction ⟨3, 2, .nearestEven⟩ .downward ⟨true, .ofWord 2, .ofWord 1⟩ =
        .ok (⟨⟨3, 2, .nearestEven⟩, true, 1, .ofWord 2, .normal⟩, .eq) := by
  have run : ofFraction ⟨5, 4, .upward⟩ .downward ⟨true, .ofWord 31, .ofWord 16⟩ =
      .ok (⟨⟨5, 4, .upward⟩, true, 1, .ofWord 8, .normal⟩, .lt) := rfl
  have back : toFraction ⟨⟨5, 4, .upward⟩, true, 1, .ofWord 8, .normal⟩ ⟨false⟩ =
      .ok (⟨true, .ofWord 2, .ofWord 1⟩, ⟨false⟩) := rfl
  have narrower : (⟨3, 2, .nearestEven⟩ : Format).precision ≤
      (⟨5, 4, .upward⟩ : Format).precision := by decide
  obtain ⟨r, there, same⟩ :=
    ofFraction_directed ⟨false⟩ rfl (by decide) narrower (by decide) (by decide) run
  rw [back] at there
  cases there
  exact ⟨run, same, rfl⟩

end BinaryFloat

end ExactFloat
