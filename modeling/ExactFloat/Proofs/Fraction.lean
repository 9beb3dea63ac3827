import ExactFloat.Proofs.Failure
import ExactFloat.Proofs.Magnitude.Division
import ExactFloat.Proofs.Magnitude.Gcd
import ExactFloat.Proofs.Value

/-!
# Fractions are compared and reduced as rational numbers

The sign, the test for zero and the order look at the stored parts of a fraction, but they depend
on its number only. Lowest terms keep the number, and neither part gets larger.
-/

namespace ExactFloat.Fraction

/-- The denominator is not zero. Every construction of a fraction makes sure of it. -/
def WellFormed (q : Fraction) : Prop :=
  q.denominator.toNat ≠ 0

instance (q : Fraction) : Decidable q.WellFormed :=
  inferInstanceAs (Decidable (_ ≠ _))

def ShorterThan (q : Fraction) (bits : Nat) : Prop :=
  q.numerator.bitLength < bits ∧ q.denominator.bitLength < bits

instance (q : Fraction) (bits : Nat) : Decidable (q.ShorterThan bits) :=
  inferInstanceAs (Decidable (_ ∧ _))

/-! ## Signs -/

/-- A zero has no sign, whatever is stored. -/
theorem value_eq (q : Fraction) :
    q.value =
      if q.isNegative then -(q.numerator.toNat / q.denominator.toNat : ℚ)
      else q.numerator.toNat / q.denominator.toNat := by
  unfold value isNegative isZero
  by_cases zero : q.numerator.isZero = true
  · have none := (Magnitude.isZero_iff _).1 zero
    simp [zero, none]
  · simp [zero]

theorem abs_value (q : Fraction) : |q.value| = q.numerator.toNat / q.denominator.toNat := by
  have nonneg : (0 : ℚ) ≤ q.numerator.toNat / q.denominator.toNat := by positivity
  rw [value_eq]
  split
  · rw [abs_neg, abs_of_nonneg nonneg]
  · exact abs_of_nonneg nonneg

theorem wellFormed_of_value_ne_zero {q : Fraction} (h : q.value ≠ 0) : q.WellFormed := by
  intro zero
  apply h
  rw [value_eq, zero]
  simp

theorem value_eq_zero_iff {q : Fraction} (h : q.WellFormed) :
    q.value = 0 ↔ q.numerator.toNat = 0 := by
  have denominator : (q.denominator.toNat : ℚ) ≠ 0 := Nat.cast_ne_zero.2 h
  rw [← abs_eq_zero, abs_value, div_eq_zero_iff, Nat.cast_eq_zero]
  exact or_iff_left denominator

theorem numerator_ne_zero {q : Fraction} (h : q.value ≠ 0) : q.numerator.toNat ≠ 0 :=
  mt (value_eq_zero_iff (wellFormed_of_value_ne_zero h)).2 h

theorem abs_value_bounds {q : Fraction} {bits : Nat} (nonzero : q.value ≠ 0)
    (short : q.ShorterThan bits) :
    (2 : ℚ) ^ (-(bits : Int)) ≤ |q.value| ∧ |q.value| < 2 ^ (bits : Int) := by
  have numerator : q.numerator.toNat < 2 ^ bits := Magnitude.bitLength_le_iff.1 (le_of_lt short.1)
  have denominator : q.denominator.toNat < 2 ^ bits :=
    Magnitude.bitLength_le_iff.1 (le_of_lt short.2)
  have one_le : 1 ≤ q.numerator.toNat := Nat.pos_of_ne_zero (numerator_ne_zero nonzero)
  have one_le' : 1 ≤ q.denominator.toNat :=
    Nat.pos_of_ne_zero (wellFormed_of_value_ne_zero nonzero)
  have pos : (0 : ℚ) < q.denominator.toNat := Nat.cast_pos.2 one_le'
  have power : (0 : ℚ) < 2 ^ bits := by positivity
  rw [abs_value, zpow_neg, zpow_natCast, le_div_iff₀ pos, div_lt_iff₀ pos, inv_mul_le_iff₀ power]
  constructor
  · calc (q.denominator.toNat : ℚ) ≤ 2 ^ bits := by exact_mod_cast le_of_lt denominator
      _ ≤ 2 ^ bits * q.numerator.toNat :=
          le_mul_of_one_le_right (le_of_lt power) (by exact_mod_cast one_le)
  · calc (q.numerator.toNat : ℚ) < 2 ^ bits := by exact_mod_cast numerator
      _ ≤ 2 ^ bits * q.denominator.toNat :=
          le_mul_of_one_le_right (le_of_lt power) (by exact_mod_cast one_le')

theorem isZero_iff {q : Fraction} (h : q.WellFormed) : q.isZero = true ↔ q.value = 0 := by
  rw [value_eq_zero_iff h]
  exact Magnitude.isZero_iff q.numerator

theorem isInteger_iff (q : Fraction) : q.isInteger = true ↔ q.denominator.toNat = 1 := by
  rw [isInteger, Magnitude.beq_iff, Magnitude.toNat_one]

theorem isNegative_eq {q : Fraction} (h : q.WellFormed) :
    q.isNegative = decide (q.value < 0) := by
  have nonneg : (0 : ℚ) ≤ q.numerator.toNat / q.denominator.toNat := by positivity
  rw [value_eq, eq_comm]
  cases sign : q.isNegative with
  | false =>
      rw [decide_eq_false_iff_not]
      exact not_lt.2 nonneg
  | true =>
      have nonzero : ¬q.isZero = true := by
        intro zero
        simp [isNegative, zero] at sign
      have pos : (0 : ℚ) < q.numerator.toNat / q.denominator.toNat := by
        apply lt_of_le_of_ne nonneg
        rw [← abs_value]
        exact fun e => nonzero ((isZero_iff h).2 (abs_eq_zero.1 e.symm))
      rw [decide_eq_true_iff]
      exact neg_lt_zero.2 pos

theorem value_zero : zero.value = 0 := by
  simp [value, zero]

theorem value_neg (q : Fraction) : q.neg.value = -q.value := by
  unfold value neg
  cases q.negative <;> simp

theorem WellFormed.neg {q : Fraction} (h : q.WellFormed) : q.neg.WellFormed :=
  h

/-! ## Order -/

theorem compare_div (a : Nat) {b : Nat} (hb : b ≠ 0) (c : Nat) {d : Nat} (hd : d ≠ 0) :
    compare (a * d) (c * b) = compare (a / b : ℚ) (c / d) := by
  have bPos : (0 : ℚ) < b := Nat.cast_pos.2 (Nat.pos_of_ne_zero hb)
  have dPos : (0 : ℚ) < d := Nat.cast_pos.2 (Nat.pos_of_ne_zero hd)
  rcases Nat.lt_trichotomy (a * d) (c * b) with lt | eq | gt
  · rw [Nat.compare_eq_lt.2 lt, eq_comm, compare_lt_iff_lt, div_lt_div_iff₀ bPos dPos]
    exact_mod_cast lt
  · rw [Nat.compare_eq_eq.2 eq, eq_comm, compare_eq_iff_eq,
      div_eq_div_iff (ne_of_gt bPos) (ne_of_gt dPos)]
    exact_mod_cast eq
  · rw [Nat.compare_eq_gt.2 gt, eq_comm, compare_gt_iff_gt,
      div_lt_div_iff₀ dPos bPos]
    exact_mod_cast gt

theorem compare_neg_neg (x y : ℚ) : compare (-x) (-y) = (compare x y).swap := by
  rcases lt_trichotomy x y with lt | rfl | gt
  · rw [compare_lt_iff_lt.2 lt, compare_gt_iff_gt.2 (neg_lt_neg lt), Ordering.swap_lt]
  · simp
  · rw [compare_gt_iff_gt.2 gt, compare_lt_iff_lt.2 (neg_lt_neg gt), Ordering.swap_gt]

theorem compare_eq {p q : Fraction} (hp : p.WellFormed) (hq : q.WellFormed) :
    compare p q = compare p.value q.value := by
  have magnitudes := compare_div p.numerator.toNat hp q.numerator.toNat hq
  rw [← Magnitude.toNat_mul, ← Magnitude.toNat_mul, ← Magnitude.compare_eq] at magnitudes
  have pSign := isNegative_eq hp
  have qSign := isNegative_eq hq
  have pValue := value_eq p
  have qValue := value_eq q
  cases pNegative : p.isNegative <;> cases qNegative : q.isNegative <;>
    rw [pNegative] at pSign pValue <;> rw [qNegative] at qSign qValue <;>
    simp only [Bool.false_eq_true, if_false, if_true] at pValue qValue
  · rw [pValue, qValue, ← magnitudes]
    simp only [compare, pNegative, qNegative]
    rfl
  · have above : q.value < p.value :=
      lt_of_lt_of_le (of_decide_eq_true qSign.symm) (not_lt.1 (of_decide_eq_false pSign.symm))
    rw [compare_gt_iff_gt.2 above]
    simp only [compare, pNegative, qNegative]
  · have below : p.value < q.value :=
      lt_of_lt_of_le (of_decide_eq_true pSign.symm) (not_lt.1 (of_decide_eq_false qSign.symm))
    rw [compare_lt_iff_lt.2 below]
    simp only [compare, pNegative, qNegative]
  · rw [pValue, qValue, compare_neg_neg, ← magnitudes]
    simp only [compare, pNegative, qNegative]
    rfl

theorem beq_iff {p q : Fraction} (hp : p.WellFormed) (hq : q.WellFormed) :
    (p == q) = true ↔ p.value = q.value := by
  change (compare p q == .eq) = true ↔ _
  rw [beq_iff_eq, compare_eq hp hq, compare_eq_iff_eq]

theorem le_iff {p q : Fraction} (hp : p.WellFormed) (hq : q.WellFormed) :
    p ≤ q ↔ p.value ≤ q.value := by
  change (compare p q).isLE = true ↔ _
  rw [compare_eq hp hq, ← Ordering.ne_gt_iff_isLE]
  exact compare_le_iff_le

/-- Fractions are ordered as their numbers are, in whatever form they are stored. So the order is
reflexive, antisymmetric and transitive, equality is its middle case, and negatives are in reversed
order. -/
theorem compare_lawful {p q r : Fraction} (hp : p.WellFormed) (hq : q.WellFormed)
    (hr : r.WellFormed) :
    compare p q = compare p.value q.value ∧
    ((p == q) = true ↔ compare p q = .eq) ∧
    compare p p = .eq ∧
    compare q p = (compare p q).swap ∧
    (p ≤ q → q ≤ p → compare p q = .eq) ∧
    (p ≤ q → q ≤ r → p ≤ r) ∧
    compare p.neg q.neg = (compare p q).swap := by
  have order := compare_eq hp hq
  refine ⟨order, ?_, ?_, ?_, ?_, ?_, ?_⟩
  · rw [beq_iff hp hq, order, compare_eq_iff_eq]
  · rw [compare_eq hp hp, compare_eq_iff_eq]
  · rw [compare_eq hq hp, order]
    exact Std.OrientedCmp.eq_swap
  · rw [le_iff hp hq, le_iff hq hp, order, compare_eq_iff_eq]
    exact le_antisymm
  · rw [le_iff hp hq, le_iff hq hr, le_iff hp hr]
    exact le_trans
  · rw [compare_eq hp.neg hq.neg, value_neg, value_neg, compare_neg_neg, order]

/-- Minus two quarters, a zero with a minus sign and one third with zero words on top. -/
theorem compare_lawful_of_signed_zero :
    let p : Fraction := ⟨true, .ofWord 2, .ofWord 4⟩
    let q : Fraction := ⟨true, ⟨[0, 0]⟩, .ofWord 3⟩
    let r : Fraction := ⟨false, ⟨[1, 0]⟩, ⟨[3, 0]⟩⟩
    p.WellFormed ∧ q.WellFormed ∧ r.WellFormed ∧ p ≤ q ∧ q ≤ r ∧ p ≤ r ∧
      compare q p = (compare p q).swap ∧ compare p.neg q.neg = (compare p q).swap := by
  intro p q r
  have hp : p.WellFormed := by decide
  have hq : q.WellFormed := by decide
  have hr : r.WellFormed := by decide
  have lower : p ≤ q := by decide +kernel
  have upper : q ≤ r := by decide +kernel
  obtain ⟨-, -, -, reversed, -, trans, negated⟩ := compare_lawful hp hq hr
  exact ⟨hp, hq, hr, lower, upper, trans lower upper, reversed, negated⟩

/-! ## Lowest terms -/

/-- `r` is the number `q` in lowest terms. -/
structure Reduced (q r : Fraction) : Prop where
  value : r.value = q.value
  sign : r.negative = decide (q.value < 0)
  coprime : r.numerator.toNat.Coprime r.denominator.toNat
  wellFormed : r.WellFormed
  numerator_le : r.numerator.toNat ≤ q.numerator.toNat
  denominator_le : r.denominator.toNat ≤ q.denominator.toNat

theorem Reduced.shorterThan {q r : Fraction} (h : Reduced q r) {bits : Nat}
    (short : q.ShorterThan bits) : r.ShorterThan bits :=
  ⟨Nat.lt_of_le_of_lt (Magnitude.bitLength_mono h.numerator_le) short.1,
    Nat.lt_of_le_of_lt (Magnitude.bitLength_mono h.denominator_le) short.2⟩

theorem Reduced.value_ne_zero {q r : Fraction} (h : Reduced q r) (nonzero : q.value ≠ 0) :
    r.value ≠ 0 := by
  rw [h.value]
  exact nonzero

theorem Reduced.not_isZero {q r : Fraction} (h : Reduced q r) (nonzero : q.value ≠ 0) :
    ¬r.isZero = true :=
  mt (isZero_iff h.wellFormed).1 (h.value_ne_zero nonzero)

theorem reduced_zero {q : Fraction} (h : q.WellFormed) (zero : q.numerator.toNat = 0) :
    Reduced q ⟨false, q.numerator, .one⟩ := by
  have value : q.value = 0 := (value_eq_zero_iff h).2 zero
  constructor
  · rw [value]
    simp [Fraction.value, zero]
  · simp [value]
  · simp
  · simp [WellFormed]
  · exact Nat.le_refl _
  · show Magnitude.one.toNat ≤ q.denominator.toNat
    rw [Magnitude.toNat_one]
    exact Nat.pos_of_ne_zero h

theorem negative_eq {q : Fraction} (h : q.WellFormed) (nonzero : q.numerator.toNat ≠ 0) :
    q.negative = decide (q.value < 0) := by
  have keep : ¬q.numerator.isZero = true := fun zero => nonzero ((Magnitude.isZero_iff _).1 zero)
  rw [← isNegative_eq h, isNegative, isZero]
  simp [keep]

theorem reduced_div {q : Fraction} (h : q.WellFormed) (nonzero : q.numerator.toNat ≠ 0)
    {numerator denominator : Magnitude}
    (numeratorEq : numerator.toNat =
      q.numerator.toNat / q.numerator.toNat.gcd q.denominator.toNat)
    (denominatorEq : denominator.toNat =
      q.denominator.toNat / q.numerator.toNat.gcd q.denominator.toNat) :
    Reduced q { q with numerator, denominator } := by
  have denominatorPos : 0 < q.denominator.toNat := Nat.pos_of_ne_zero h
  have numeratorDvd := Nat.gcd_dvd_left q.numerator.toNat q.denominator.toNat
  have denominatorDvd := Nat.gcd_dvd_right q.numerator.toNat q.denominator.toNat
  have gcdPos : 0 < q.numerator.toNat.gcd q.denominator.toNat :=
    Nat.gcd_pos_of_pos_right _ denominatorPos
  have gcdNonzero : (q.numerator.toNat.gcd q.denominator.toNat : ℚ) ≠ 0 :=
    Nat.cast_ne_zero.2 (Nat.ne_of_gt gcdPos)
  constructor
  · simp only [Fraction.value, numeratorEq, denominatorEq, Nat.cast_div numeratorDvd gcdNonzero,
      Nat.cast_div denominatorDvd gcdNonzero, div_div_div_cancel_right₀ gcdNonzero]
  · exact negative_eq h nonzero
  · show numerator.toNat.gcd denominator.toNat = 1
    rw [numeratorEq, denominatorEq]
    exact Nat.gcd_div_gcd_div_gcd_of_pos_right denominatorPos
  · show denominator.toNat ≠ 0
    rw [denominatorEq]
    exact Nat.ne_of_gt (Nat.div_pos (Nat.le_of_dvd denominatorPos denominatorDvd) gcdPos)
  · show numerator.toNat ≤ q.numerator.toNat
    rw [numeratorEq]
    exact Nat.div_le_self _ _
  · show denominator.toNat ≤ q.denominator.toNat
    rw [denominatorEq]
    exact Nat.div_le_self _ _

theorem exists_factor {q : Fraction} (nonzero : q.numerator.toNat ≠ 0) :
    ∃ g numerator denominator,
      q.numerator.gcd q.denominator = .ok g ∧
      q.numerator.exactQuotient g = .ok numerator ∧
      q.denominator.exactQuotient g = .ok denominator ∧
      g.toNat = q.numerator.toNat.gcd q.denominator.toNat ∧
      numerator.toNat = q.numerator.toNat / g.toNat ∧
      denominator.toNat = q.denominator.toNat / g.toNat := by
  obtain ⟨g, run, factor⟩ := Magnitude.gcd_eq_ok q.numerator q.denominator
  have positive : g.toNat ≠ 0 := by
    rw [factor]
    exact Nat.ne_of_gt (Nat.gcd_pos_of_pos_left _ (Nat.pos_of_ne_zero nonzero))
  obtain ⟨numerator, runNumerator, numeratorEq⟩ :=
    Magnitude.exactQuotient_eq_ok q.numerator g positive (factor ▸ Nat.gcd_dvd_left _ _)
  obtain ⟨denominator, runDenominator, denominatorEq⟩ :=
    Magnitude.exactQuotient_eq_ok q.denominator g positive (factor ▸ Nat.gcd_dvd_right _ _)
  exact ⟨g, numerator, denominator, run, runNumerator, runDenominator, factor, numeratorEq,
    denominatorEq⟩

theorem canonical_of_zero {q : Fraction} (zero : q.numerator.toNat = 0) :
    q.canonical = .ok ⟨false, q.numerator, .one⟩ :=
  if_pos ((Magnitude.isZero_iff _).2 zero)

theorem canonical_of_coprime {q : Fraction} (nonzero : q.numerator.toNat ≠ 0)
    (coprime : q.numerator.toNat.Coprime q.denominator.toNat) : q.canonical = .ok q := by
  have keep : ¬q.numerator.isZero = true := mt (Magnitude.isZero_iff _).1 nonzero
  obtain ⟨g, -, -, run, -, -, factor, -⟩ := exists_factor nonzero
  have one : (g == .one) = true := by
    rw [Magnitude.beq_iff, factor, Magnitude.toNat_one]
    exact coprime
  rw [canonical, if_neg keep, run, ok_bind, if_pos one]
  rfl

theorem canonical_of_ne_zero {q : Fraction} (nonzero : q.numerator.toNat ≠ 0) :
    ∃ numerator denominator, q.canonical = .ok { q with numerator, denominator } ∧
      numerator.toNat = q.numerator.toNat / q.numerator.toNat.gcd q.denominator.toNat ∧
      denominator.toNat = q.denominator.toNat / q.numerator.toNat.gcd q.denominator.toNat := by
  by_cases coprime : q.numerator.toNat.gcd q.denominator.toNat = 1
  · refine ⟨_, _, canonical_of_coprime nonzero coprime, ?_, ?_⟩ <;> rw [coprime, Nat.div_one]
  · have keep : ¬q.numerator.isZero = true := mt (Magnitude.isZero_iff _).1 nonzero
    obtain ⟨g, numerator, denominator, run, runNumerator, runDenominator, factor, numeratorEq,
      denominatorEq⟩ := exists_factor nonzero
    have more : ¬(g == .one) = true := by
      rw [Magnitude.beq_iff, factor, Magnitude.toNat_one]
      exact coprime
    rw [factor] at numeratorEq denominatorEq
    refine ⟨numerator, denominator, ?_, numeratorEq, denominatorEq⟩
    rw [canonical, if_neg keep, run]
    simp only [ok_bind, if_neg more, runNumerator, runDenominator]
    rfl

theorem canonical_eq_ok {q : Fraction} (h : q.WellFormed) :
    ∃ r, q.canonical = .ok r ∧ Reduced q r := by
  by_cases zero : q.numerator.toNat = 0
  · exact ⟨_, canonical_of_zero zero, reduced_zero h zero⟩
  · obtain ⟨numerator, denominator, run, numeratorEq, denominatorEq⟩ := canonical_of_ne_zero zero
    exact ⟨_, run, reduced_div h zero numeratorEq denominatorEq⟩

theorem reduced_of_canonical {q r : Fraction} (h : q.WellFormed) (run : q.canonical = .ok r) :
    Reduced q r := by
  obtain ⟨r', run', reduced⟩ := canonical_eq_ok h
  cases run'.symm.trans run
  exact reduced

/-- Lowest terms need no denominator other than zero to tell zeros from other fractions. -/
theorem isZero_of_canonical {q r : Fraction} (run : q.canonical = .ok r) :
    r.isZero = q.isZero := by
  by_cases zero : q.numerator.toNat = 0
  · obtain rfl := Except.ok.inj ((canonical_of_zero zero).symm.trans run)
    rfl
  · obtain ⟨numerator, denominator, run', numeratorEq, -⟩ := canonical_of_ne_zero zero
    obtain rfl := Except.ok.inj (run'.symm.trans run)
    have pos : 0 < q.numerator.toNat := Nat.pos_of_ne_zero zero
    rw [Bool.eq_iff_iff, isZero, isZero, Magnitude.isZero_iff, Magnitude.isZero_iff, numeratorEq]
    exact iff_of_false (Nat.ne_of_gt (Nat.div_gcd_pos_of_pos_left _ pos)) zero

theorem isCanonical_eq_ok {q : Fraction} (nonzero : q.numerator.toNat ≠ 0) :
    q.isCanonical = .ok (decide (q.numerator.toNat.Coprime q.denominator.toNat)) := by
  have keep : ¬q.numerator.isZero = true := mt (Magnitude.isZero_iff _).1 nonzero
  obtain ⟨g, run, factor⟩ := Magnitude.gcd_eq_ok q.numerator q.denominator
  have one : (g == .one) = decide (q.numerator.toNat.Coprime q.denominator.toNat) := by
    rw [Bool.eq_iff_iff, Magnitude.beq_iff, decide_eq_true_iff, factor, Magnitude.toNat_one]
  rw [isCanonical, if_neg keep, run, ok_bind, one]
  rfl

theorem den_value_of_coprime {q : Fraction} (h : q.WellFormed)
    (coprime : q.numerator.toNat.Coprime q.denominator.toNat) :
    q.value.den = q.denominator.toNat := by
  have pos : (0 : ℤ) < q.denominator.toNat := Int.natCast_pos.2 (Nat.pos_of_ne_zero h)
  have lowest := Rat.den_div_eq_of_coprime (a := q.numerator.toNat) pos coprime
  rw [Int.cast_natCast, Int.cast_natCast, ← abs_value, Rat.den_abs_eq_den] at lowest
  exact_mod_cast lowest

end ExactFloat.Fraction
