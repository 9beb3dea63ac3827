import Mathlib.Tactic

/-!
# Lowest terms of scaled integers

An integer times a power of two is a fraction with a power of two below the line. In lowest terms
the factors of two are on one side only, so that the odd part of the integer says what is left.
-/

namespace ExactFloat

theorem two_pow_div (e : Int) : (2 : ℚ) ^ e.toNat / 2 ^ (-e).toNat = 2 ^ e := by
  have two : (2 : ℚ) ≠ 0 := by norm_num
  rw [← zpow_natCast, ← zpow_natCast, ← zpow_sub₀ two]
  congr 1
  omega

/-- The factors of two of an integer can be moved into the power. -/
theorem mul_two_zpow (n : Nat) (e : Int) :
    (n * 2 ^ e : ℚ) = (ordCompl[2] n : Nat) * 2 ^ (e + n.factorization 2) := by
  have split : (n : ℚ) = 2 ^ n.factorization 2 * (ordCompl[2] n : Nat) := by
    exact_mod_cast (Nat.ordProj_mul_ordCompl_eq_self n 2).symm
  conv_lhs => rw [split]
  rw [zpow_add₀ (by norm_num), zpow_natCast]
  ring

theorem mul_two_zpow_eq_div (n : Nat) (e : Int) :
    (n * 2 ^ e : ℚ) = ((n * 2 ^ e.toNat : Nat) : ℤ) / ((2 ^ (-e).toNat : Nat) : ℤ) := by
  rw [← two_pow_div]
  push_cast
  ring

/-! ## Odd integers -/

section

variable {n : Nat} (odd : ¬2 ∣ n) (e : Int)

include odd

theorem coprime_two_pow_sides : (n * 2 ^ e.toNat).Coprime (2 ^ (-e).toNat) := by
  rcases Int.le_total 0 e with nonneg | nonpos
  · have none : (-e).toNat = 0 := by omega
    rw [none, pow_zero]
    exact Nat.coprime_one_right _
  · have none : e.toNat = 0 := by omega
    rw [none, pow_zero, Nat.mul_one]
    exact Nat.Coprime.pow_right _ ((Nat.Prime.coprime_iff_not_dvd Nat.prime_two).2 odd).symm

theorem num_odd_mul_two_zpow : (n * 2 ^ e : ℚ).num = (n * 2 ^ e.toNat : Nat) := by
  rw [mul_two_zpow_eq_div]
  exact Rat.num_div_eq_of_coprime (by positivity) (coprime_two_pow_sides odd e)

theorem den_odd_mul_two_zpow : (n * 2 ^ e : ℚ).den = 2 ^ (-e).toNat := by
  have side := Rat.den_div_eq_of_coprime (a := (n * 2 ^ e.toNat : Nat)) (b := (2 ^ (-e).toNat : Nat))
    (by positivity) (coprime_two_pow_sides odd e)
  rw [← mul_two_zpow_eq_div] at side
  exact_mod_cast side

end

/-! ## Integers with factors of two -/

section

variable {n : Nat} (nonzero : n ≠ 0) (e : Int)

include nonzero

theorem den_mul_two_zpow : (n * 2 ^ e : ℚ).den = 2 ^ (-(e + n.factorization 2)).toNat := by
  rw [mul_two_zpow]
  exact den_odd_mul_two_zpow (Nat.not_dvd_ordCompl Nat.prime_two nonzero) _

theorem oddPart_num_mul_two_zpow : ordCompl[2] (n * 2 ^ e : ℚ).num.natAbs = ordCompl[2] n := by
  have odd := Nat.not_dvd_ordCompl Nat.prime_two nonzero
  rw [mul_two_zpow, num_odd_mul_two_zpow odd, Int.natAbs_natCast, Nat.mul_comm,
    Nat.ordCompl_pow_mul_of_not_dvd _ Nat.prime_two odd]

end

end ExactFloat
