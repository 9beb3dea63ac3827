import ExactFloat.Magnitude.Program
import ExactFloat.Proofs.Failure
import ExactFloat.Proofs.Magnitude.Arithmetic
import ExactFloat.Proofs.Magnitude.Bits
import ExactFloat.Proofs.Magnitude.Shift

/-!
# Division gives quotient and remainder

The long division keeps the dividend as quotient times divisor plus remainder and never borrows, so
it agrees with the two short cuts for single words and for small dividends.
-/

namespace ExactFloat.Magnitude

/-- Flipping a bit below all set ones adds its power of two. -/
theorem xor_two_pow_of_dvd {n i : Nat} (h : 2 ^ (i + 1) ∣ n) : n ^^^ 2 ^ i = n + 2 ^ i := by
  obtain ⟨m, rfl⟩ := h
  have lt : 2 ^ i < 2 ^ (i + 1) := Nat.pow_lt_pow_right (by decide) (Nat.lt_succ_self i)
  refine Nat.eq_of_testBit_eq fun j => ?_
  rw [Nat.testBit_xor, Nat.testBit_two_pow_mul, Nat.testBit_two_pow_mul_add _ lt,
    Nat.testBit_two_pow]
  by_cases below : j < i + 1
  · simp [below, Nat.not_le.2 below]
  · have : i ≠ j := by omega
    simp [below, Nat.not_lt.1 below, this]

theorem subtractShifted_eq_ok (d count : Nat) (remainder divisor quotient : Magnitude)
    (aligned : divisor.toNat = d * 2 ^ count / 2) (bound : remainder.toNat < d * 2 ^ count)
    (room : 2 ^ count ∣ quotient.toNat) :
    ∃ q r, subtractShifted count remainder divisor quotient = .ok (q, r) ∧
      q.toNat * d + r.toNat = quotient.toNat * d + remainder.toNat ∧ r.toNat < d := by
  -- The remainder stays below twice the divisor, so that one subtraction a place is enough.
  induction count generalizing remainder divisor quotient with
  | zero => exact ⟨quotient, remainder, rfl, rfl, by simpa using bound⟩
  | succ i ih =>
      have double : d * 2 ^ (i + 1) = 2 * (d * 2 ^ i) := by
        rw [pow_succ]
        ring
      have value : divisor.toNat = d * 2 ^ i := by
        rw [aligned, double]
        omega
      have halved : (divisor >>> 1).toNat = d * 2 ^ i / 2 := by
        rw [toNat_shiftRight, value, pow_one]
      have coarser : 2 ^ i ∣ quotient.toNat := Dvd.dvd.trans (pow_dvd_pow 2 (Nat.le_succ i)) room
      rw [subtractShifted]
      by_cases fits : divisor ≤ remainder
      · obtain ⟨noBorrow, difference⟩ := subBorrow_of_le ((le_iff divisor remainder).1 fits)
        rw [value] at difference
        have flipped := toNat_flipBit quotient i
        rw [xor_two_pow_of_dvd room] at flipped
        obtain ⟨q, r, run, sum, small⟩ :=
          ih (remainder.subBorrow divisor).1 (divisor >>> 1) (quotient.flipBit i) halved
            (by omega) (by rw [flipped]; exact (Nat.dvd_add coarser (dvd_refl _)))
        refine ⟨q, r, ?_, ?_, small⟩
        · rw [if_pos fits]
          dsimp only
          rw [noBorrow]
          exact run
        · rw [sum, flipped, Nat.add_mul, Nat.mul_comm (2 ^ i) d]
          omega
      · rw [if_neg fits]
        have below : remainder.toNat < divisor.toNat :=
          Nat.not_le.1 fun le => fits ((le_iff divisor remainder).2 le)
        exact ih remainder (divisor >>> 1) quotient halved (by omega) coarser

/-- Each subtraction takes place only where the divisor fits, so none borrows, be the divisor
aligned or not. -/
theorem exists_subtractShifted (count : Nat) (remainder divisor quotient : Magnitude) :
    ∃ result, subtractShifted count remainder divisor quotient = .ok result := by
  induction count generalizing remainder divisor quotient with
  | zero => exact ⟨_, rfl⟩
  | succ i ih =>
      rw [subtractShifted]
      by_cases fits : divisor ≤ remainder
      · have noBorrow := (subBorrow_of_le ((le_iff divisor remainder).1 fits)).1
        rw [if_pos fits]
        dsimp only
        rw [noBorrow]
        exact ih _ _ _
      · rw [if_neg fits]
        exact ih _ _ _

/-- The long division alone gives the quotient and the remainder, for any numbers of words. -/
theorem longDivision_eq_ok (n : Magnitude) {d : Magnitude} (h : d.toNat ≠ 0) :
    ∃ q r, subtractShifted (n.bitLength - d.bitLength + 1) n (d <<< (n.bitLength - d.bitLength))
        zero = .ok (q, r) ∧
      q.toNat = n.toNat / d.toNat ∧ r.toNat = n.toNat % d.toNat := by
  have upper := toNat_lt_two_pow_bitLength n
  have lower := two_pow_le_toNat h
  set places := n.bitLength - d.bitLength with places_eq
  have bound : n.toNat < d.toNat * 2 ^ (places + 1) := by
    refine Nat.lt_of_lt_of_le upper (Nat.le_trans ?_ (Nat.mul_le_mul_right _ lower))
    rw [← pow_add]
    exact Nat.pow_le_pow_right (by decide) (by omega)
  have aligned : (d <<< places).toNat = d.toNat * 2 ^ (places + 1) / 2 := by
    rw [toNat_shiftLeft, pow_succ, ← Nat.mul_assoc, Nat.mul_div_cancel _ (by decide)]
  obtain ⟨q, r, run, sum, lt⟩ :=
    subtractShifted_eq_ok d.toNat (places + 1) n (d <<< places) zero aligned bound (by simp)
  rw [toNat_zero, Nat.zero_mul, Nat.zero_add, Nat.add_comm, Nat.mul_comm] at sum
  obtain ⟨quotient, remainder⟩ := (Nat.div_mod_unique (Nat.pos_of_ne_zero h)).2 ⟨sum, lt⟩
  exact ⟨q, r, run, quotient.symm, remainder.symm⟩

theorem divMod_eq_ok (n d : Magnitude) (h : d.toNat ≠ 0) :
    ∃ q r, n.divMod d = .ok (q, r) ∧ q.toNat = n.toNat / d.toNat ∧
      r.toNat = n.toNat % d.toNat := by
  have nonzero : ¬d.isZero = true := fun z => h ((isZero_iff d).1 z)
  rw [divMod, if_neg nonzero]
  split
  · next x y ex ey =>
    have en : n.toNat = x.toNat := by simp [toNat, ex]
    have ed : d.toNat = y.toNat := by simp [toNat, ey]
    exact ⟨_, _, rfl, by rw [toNat_ofWord, UInt64.toNat_div, en, ed],
      by rw [toNat_ofWord, UInt64.toNat_mod, en, ed]⟩
  · by_cases small : n < d
    · have lt := (lt_iff n d).1 small
      exact ⟨zero, n, by rw [if_pos small], by rw [toNat_zero, Nat.div_eq_of_lt lt],
        (Nat.mod_eq_of_lt lt).symm⟩
    · rw [if_neg small]
      exact longDivision_eq_ok n h

theorem divMod_of_zero (n : Magnitude) {d : Magnitude} (h : d.toNat = 0) :
    n.divMod d = breach .divisionByZero :=
  if_pos ((isZero_iff d).2 h)

theorem values_of_divMod {n d q r : Magnitude} (run : n.divMod d = .ok (q, r)) :
    d.toNat ≠ 0 ∧ q.toNat = n.toNat / d.toNat ∧ r.toNat = n.toNat % d.toNat := by
  by_cases zero : d.toNat = 0
  · rw [divMod_of_zero n zero] at run
    cases run
  · obtain ⟨_, _, division, quotient, remainder⟩ := divMod_eq_ok n d zero
    rw [division] at run
    cases run
    exact ⟨zero, quotient, remainder⟩

theorem exactQuotient_eq_ok (n d : Magnitude) (h : d.toNat ≠ 0) (even : d.toNat ∣ n.toNat) :
    ∃ q, n.exactQuotient d = .ok q ∧ q.toNat = n.toNat / d.toNat := by
  obtain ⟨q, r, run, quotient, remainder⟩ := divMod_eq_ok n d h
  rw [Nat.mod_eq_zero_of_dvd even] at remainder
  refine ⟨q, ?_, quotient⟩
  rw [exactQuotient, run]
  simp only [ok_bind, (isZero_iff r).2 remainder]
  rfl

/-! ## Division in place -/

/-- Division in place. For a divisor other than zero the quotient is rounded down and the remainder
is below the divisor; by itself the long division would give the same, whatever words are stored,
and none of its subtractions borrows. A zero of any number of words is refused and the dividend
left as it is. -/
theorem divMod_floor (n d : Magnitude) :
    (d.toNat ≠ 0 → ∃ q r, n.divMod d = .ok (q, r) ∧
      q.toNat * d.toNat + r.toNat = n.toNat ∧ r.toNat < d.toNat ∧
      ∀ (s : Program.Store) (x y target : Nat), s x = n → s y = d →
        Program.advance s (.div x y target) =
          ⟨.div x y target, .ok .silent, (s.set x q).set target r⟩) ∧
    (d.toNat ≠ 0 → ∃ q r, subtractShifted (n.bitLength - d.bitLength + 1) n
        (d <<< (n.bitLength - d.bitLength)) zero = .ok (q, r) ∧
      q.toNat = n.toNat / d.toNat ∧ r.toNat = n.toNat % d.toNat) ∧
    (∀ (count : Nat) (remainder divisor quotient : Magnitude),
      ∃ result, subtractShifted count remainder divisor quotient = .ok result) ∧
    (d.toNat = 0 → n.divMod d = breach .divisionByZero ∧
      ∀ (s : Program.Store) (x y target : Nat), s x = n → s y = d →
        Program.advance s (.div x y target) =
          ⟨.div x y target, breach .divisionByZero, s⟩) := by
  refine ⟨fun nonzero => ?_, longDivision_eq_ok n, exists_subtractShifted, fun zero => ?_⟩
  · obtain ⟨q, r, run, quotient, remainder⟩ := divMod_eq_ok n d nonzero
    refine ⟨q, r, run, ?_, ?_, ?_⟩
    · rw [quotient, remainder, Nat.div_add_mod']
    · rw [remainder]
      exact Nat.mod_lt _ (Nat.pos_of_ne_zero nonzero)
    · rintro s x y target rfl rfl
      rw [Program.advance, Program.runFrom_div, run]
  · refine ⟨divMod_of_zero n zero, ?_⟩
    rintro s x y target rfl rfl
    rw [Program.advance, Program.runFrom_div, divMod_of_zero _ zero]
    rfl

/-- Zero words on top of both operands, and of a zero. -/
theorem divMod_floor_of_grown :
    ((⟨[3, 0]⟩ : Magnitude).toNat ≠ 0 ∧
      ∃ q r, (⟨[5, 1, 0, 0]⟩ : Magnitude).divMod ⟨[3, 0]⟩ = .ok (q, r) ∧
        q.toNat * 3 + r.toNat = 2 ^ 64 + 5 ∧ r.toNat < 3) ∧
    (⟨[0, 0]⟩ : Magnitude).toNat = 0 ∧
      (⟨[5, 1]⟩ : Magnitude).divMod ⟨[0, 0]⟩ = breach .divisionByZero := by
  have nonzero : (⟨[3, 0]⟩ : Magnitude).toNat ≠ 0 := by decide
  have zero : (⟨[0, 0]⟩ : Magnitude).toNat = 0 := by decide
  obtain ⟨q, r, run, sum, lt, -⟩ := (divMod_floor ⟨[5, 1, 0, 0]⟩ ⟨[3, 0]⟩).1 nonzero
  have refused := ((divMod_floor ⟨[5, 1]⟩ ⟨[0, 0]⟩).2.2.2 zero).1
  exact ⟨⟨nonzero, q, r, run, sum, lt⟩, zero, refused⟩

/-! ## Lengths -/

theorem bitLength_shiftLeft {x : Magnitude} (h : x.toNat ≠ 0) (bits : Nat) :
    (x <<< bits).bitLength = x.bitLength + bits := by
  have lower := two_pow_le_toNat h
  have upper := toNat_lt_two_pow_bitLength x
  have pos : x.bitLength ≠ 0 := mt bitLength_eq_zero.1 h
  have split : x.bitLength + bits - 1 = x.bitLength - 1 + bits := by omega
  apply bitLength_eq_of_bounds <;> rw [toNat_shiftLeft]
  · rw [split, pow_add]
    exact Nat.mul_le_mul_right _ lower
  · rw [pow_add]
    exact Nat.mul_lt_mul_of_pos_right upper (Nat.two_pow_pos bits)

theorem bitLength_shiftRight (x : Magnitude) (bits : Nat) :
    (x >>> bits).bitLength = x.bitLength - bits := by
  have upper := toNat_lt_two_pow_bitLength x
  by_cases gone : x.bitLength ≤ bits
  · rw [Nat.sub_eq_zero_of_le gone, bitLength_eq_zero, toNat_shiftRight]
    exact Nat.div_eq_of_lt (bitLength_le_iff.1 gone)
  · have nonzero : x.toNat ≠ 0 := by
      rw [ne_eq, ← bitLength_eq_zero]
      omega
    have lower := two_pow_le_toNat nonzero
    have below : x.bitLength - bits - 1 + bits = x.bitLength - 1 := by omega
    have above : x.bitLength - bits + bits = x.bitLength := by omega
    apply bitLength_eq_of_bounds <;> rw [toNat_shiftRight]
    · rw [Nat.le_div_iff_mul_le (Nat.two_pow_pos bits), ← pow_add, below]
      exact lower
    · rw [Nat.div_lt_iff_lt_mul (Nat.two_pow_pos bits), ← pow_add, above]
      exact upper

theorem bitLength_add_one_le (x : Magnitude) : (x + one).bitLength ≤ x.bitLength + 1 := by
  have upper := toNat_lt_two_pow_bitLength x
  rw [bitLength_le_iff, toNat_add, toNat_one, pow_succ]
  omega

/-- The lengths of dividend and divisor give the length of the quotient up to one bit. -/
theorem bitLength_quotient {n d q : Magnitude} {bits : Nat} (h : d.toNat ≠ 0)
    (value : q.toNat = n.toNat / d.toNat) (longer : n.bitLength = d.bitLength + (bits + 1)) :
    q.bitLength = bits + 1 ∨ q.bitLength = bits + 2 := by
  have dividend : n.toNat ≠ 0 := by
    rw [ne_eq, ← bitLength_eq_zero, longer]
    exact Nat.succ_ne_zero _
  have divisor : d.bitLength ≠ 0 := mt bitLength_eq_zero.1 h
  have lower : 2 ^ bits ≤ q.toNat := by
    rw [value, Nat.le_div_iff_mul_le (Nat.pos_of_ne_zero h)]
    calc 2 ^ bits * d.toNat
        ≤ 2 ^ bits * 2 ^ d.bitLength :=
          Nat.mul_le_mul_left _ (Nat.le_of_lt (toNat_lt_two_pow_bitLength d))
      _ = 2 ^ (n.bitLength - 1) := by
          rw [← pow_add]
          congr 1
          omega
      _ ≤ n.toNat := two_pow_le_toNat dividend
  have upper : q.toNat < 2 ^ (bits + 2) := by
    rw [value, Nat.div_lt_iff_lt_mul (Nat.pos_of_ne_zero h)]
    calc n.toNat < 2 ^ n.bitLength := toNat_lt_two_pow_bitLength n
      _ = 2 ^ (bits + 2) * 2 ^ (d.bitLength - 1) := by
          rw [← pow_add]
          congr 1
          omega
      _ ≤ 2 ^ (bits + 2) * d.toNat := Nat.mul_le_mul_left _ (two_pow_le_toNat h)
  have long : ¬q.bitLength ≤ bits := fun le => Nat.not_lt.2 lower (bitLength_le_iff.1 le)
  have short := bitLength_le_iff.2 upper
  omega

end ExactFloat.Magnitude
