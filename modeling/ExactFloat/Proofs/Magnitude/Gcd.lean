import ExactFloat.Magnitude.Gcd
import ExactFloat.Proofs.Failure
import ExactFloat.Proofs.Magnitude.Arithmetic
import ExactFloat.Proofs.Magnitude.Bits
import ExactFloat.Proofs.Magnitude.Shift

/-!
# The binary method gives the greatest common divisor

Each round subtracts one odd number from another. It keeps the common divisors of the pair, for a
power of two has no odd divisor and a difference has the common divisors of its terms. It also
halves the sum of the pair, since the difference of two odd numbers is even, so the rounds never run
out.
-/

namespace ExactFloat.Magnitude

theorem gcd_two_pow_mul (half bit n : Nat) :
    (2 * half + 1).gcd (2 ^ bit * n) = (2 * half + 1).gcd n := by
  refine Nat.Coprime.gcd_mul_left_cancel_right n ?_
  refine Nat.Coprime.pow_left bit ?_
  simp

/-- Two numbers share the common divisors of their odd parts and the smaller power of two. -/
theorem gcd_of_odd_parts (i j half rest : Nat) :
    (2 ^ i * (2 * half + 1)).gcd (2 ^ j * (2 * rest + 1)) =
      (2 * half + 1).gcd (2 * rest + 1) * 2 ^ min i j := by
  -- The power of two that both have in common comes out; what is left on one side drops out.
  rcases Nat.le_total i j with le | le
  · obtain ⟨k, rfl⟩ := Nat.exists_eq_add_of_le le
    rw [Nat.min_eq_left le, pow_add, Nat.mul_assoc, Nat.gcd_mul_left, gcd_two_pow_mul, Nat.mul_comm]
  · obtain ⟨k, rfl⟩ := Nat.exists_eq_add_of_le le
    rw [Nat.min_eq_right le, pow_add, Nat.mul_assoc, Nat.gcd_mul_left, Nat.gcd_comm (2 ^ k * _),
      gcd_two_pow_mul, Nat.gcd_comm (2 * rest + 1), Nat.mul_comm]

/-! ## One round -/

/-- What a round subtracts, and what from: of the odd number and the odd part of the other one, the
smaller and the larger. -/
def operands (odd other : Magnitude) : Outcome (Magnitude × Magnitude) := do
  let reduced := other >>> (← other.trailingZeros)
  return if odd > reduced then (reduced, odd) else (odd, reduced)

theorem gcdOdd_succ (rounds : Nat) (odd other : Magnitude) :
    gcdOdd (rounds + 1) odd other = (do
      let (smaller, larger) ← operands odd other
      let difference := larger.subBorrow smaller
      ensure (!difference.2) .borrow
      if difference.1.isZero then return smaller
      gcdOdd rounds smaller difference.1) := by
  rw [gcdOdd, operands]
  cases other.trailingZeros <;> rfl

/-- A round on `odd` and `other` subtracts an odd number from another one that is not below it. Both
have the greatest common divisor `g`, and their sum is below `2 ^ rounds`. -/
structure Round (g rounds : Nat) (odd other smaller larger : Magnitude) : Prop where
  run : operands odd other = .ok (smaller, larger)
  smaller_odd : smaller.toNat % 2 = 1
  larger_odd : larger.toNat % 2 = 1
  le : smaller.toNat ≤ larger.toNat
  gcd : smaller.toNat.gcd larger.toNat = g
  bound : smaller.toNat + larger.toNat < 2 ^ rounds

theorem exists_round {odd other : Magnitude} {bit half rounds : Nat}
    (isOdd : odd.toNat % 2 = 1) (low : other.lowestBit? = some bit)
    (part : other.toNat = 2 ^ bit * (2 * half + 1))
    (bound : odd.toNat + (2 * half + 1) < 2 ^ rounds) :
    ∃ smaller larger, Round (odd.toNat.gcd other.toNat) rounds odd other smaller larger := by
  have reduced : (other >>> bit).toNat = 2 * half + 1 := by
    rw [toNat_shiftRight, part, Nat.mul_div_cancel_left _ (Nat.two_pow_pos bit)]
  have common : odd.toNat.gcd other.toNat = odd.toNat.gcd (2 * half + 1) := by
    have split : odd.toNat = 2 * (odd.toNat / 2) + 1 := by omega
    rw [part, split, gcd_two_pow_mul]
  have run : operands odd other =
      .ok (if odd > other >>> bit then (other >>> bit, odd) else (odd, other >>> bit)) := by
    rw [operands, trailingZeros_eq_ok low]
    rfl
  rw [common, ← reduced]
  by_cases greater : other >>> bit < odd
  · have lt := (lt_iff _ odd).1 greater
    exact ⟨other >>> bit, odd, run.trans (congrArg Except.ok (if_pos greater)), by omega, isOdd,
      Nat.le_of_lt lt, Nat.gcd_comm _ _, by omega⟩
  · have le := Nat.not_lt.1 (mt (lt_iff _ odd).2 greater)
    exact ⟨odd, other >>> bit, run.trans (congrArg Except.ok (if_neg greater)), isOdd, by omega, le,
      rfl, by omega⟩

namespace Round

variable {g rounds : Nat} {odd other smaller larger : Magnitude}

theorem rounds_pos (h : Round g rounds odd other smaller larger) : 0 < rounds := by
  have odds := h.smaller_odd
  have bound := h.bound
  apply Nat.pos_of_ne_zero
  rintro rfl
  omega

theorem noBorrow (h : Round g rounds odd other smaller larger) :
    (larger.subBorrow smaller).2 = false :=
  (subBorrow_of_le h.le).1

theorem last (h : Round g rounds odd other smaller larger)
    (done : (larger.subBorrow smaller).1.isZero = true) : smaller.toNat = g := by
  have difference := (subBorrow_of_le h.le).2
  rw [(isZero_iff _).1 done, Nat.zero_add] at difference
  rw [← h.gcd, ← difference, Nat.gcd_self]

theorem next (h : Round g (rounds + 1) odd other smaller larger)
    (more : (larger.subBorrow smaller).1.isZero = false) :
    ∃ smaller' larger', Round g rounds smaller (larger.subBorrow smaller).1 smaller' larger' := by
  have difference := (subBorrow_of_le h.le).2
  have nonzero : (larger.subBorrow smaller).1.toNat ≠ 0 :=
    mt (isZero_iff _).2 (Bool.eq_false_iff.1 more)
  obtain ⟨bit, half, low, part⟩ := exists_lowestBit nonzero
  have odds := h.smaller_odd
  have odds' := h.larger_odd
  -- The difference of two odd numbers is even, so its odd part is at most half of it.
  have halved : 2 * (2 * half + 1) ≤ (larger.subBorrow smaller).1.toNat := by
    cases bit with
    | zero => omega
    | succ bit =>
        rw [part, pow_succ, Nat.mul_comm (2 ^ bit), Nat.mul_assoc]
        exact Nat.mul_le_mul_left 2 (Nat.le_mul_of_pos_left _ (Nat.two_pow_pos bit))
  have bound := h.bound
  rw [pow_succ] at bound
  have kept : smaller.toNat.gcd (larger.subBorrow smaller).1.toNat = g := by
    rw [← h.gcd, ← difference, Nat.gcd_add_self_right]
  exact kept ▸ exists_round odds low part (by omega)

/-- The loop ends with the smaller number or goes on with it and the difference. -/
theorem gcdOdd_eq (h : Round g (rounds + 1) odd other smaller larger) :
    gcdOdd (rounds + 1) odd other =
      if (larger.subBorrow smaller).1.isZero then .ok smaller
      else gcdOdd rounds smaller (larger.subBorrow smaller).1 := by
  rw [gcdOdd_succ, h.run]
  simp only [ok_bind, h.noBorrow]
  rfl

end Round

/-! ## The loop -/

theorem Round.gcdOdd_eq_ok {g rounds : Nat} {odd other smaller larger : Magnitude}
    (h : Round g rounds odd other smaller larger) :
    ∃ r, gcdOdd rounds odd other = .ok r ∧ r.toNat = g := by
  induction rounds generalizing odd other smaller larger with
  | zero => exact absurd h.rounds_pos (Nat.lt_irrefl 0)
  | succ rounds ih =>
      rw [h.gcdOdd_eq]
      cases done : (larger.subBorrow smaller).1.isZero with
      | true => exact ⟨smaller, rfl, h.last done⟩
      | false =>
          obtain ⟨smaller', larger', next⟩ := h.next done
          exact ih next

/-- The loop on `odd` and `other` comes, after so many rounds, to a round on the last two numbers.
Neither a bound on the rounds nor a borrow stops it. -/
inductive Enters (odd other : Magnitude) : Nat → Magnitude → Magnitude → Prop where
  | start : Enters odd other 0 odd other
  | next {n : Nat} {odd' other' smaller larger : Magnitude} :
      Enters odd other n odd' other' → operands odd' other' = .ok (smaller, larger) →
      (larger.subBorrow smaller).1.isZero = false →
      Enters odd other (n + 1) smaller (larger.subBorrow smaller).1

/-- From a round as above the loop comes only to such rounds, each time with one round less left,
and what it returns is what it returns from there. -/
theorem Round.of_enters {g rounds n : Nat} {odd other smaller larger odd' other' : Magnitude}
    (h : Round g rounds odd other smaller larger) (enters : Enters odd other n odd' other') :
    ∃ left smaller' larger', rounds = n + left ∧ Round g left odd' other' smaller' larger' ∧
      gcdOdd rounds odd other = gcdOdd left odd' other' := by
  induction enters with
  | start => exact ⟨rounds, smaller, larger, (Nat.zero_add _).symm, h, rfl⟩
  | next _ run more ih =>
      obtain ⟨left, smaller', larger', count, round, same⟩ := ih
      obtain ⟨rfl, rfl⟩ := Prod.mk.inj (Except.ok.inj (round.run.symm.trans run))
      obtain ⟨left, rfl⟩ := Nat.exists_eq_succ_of_ne_zero (Nat.ne_of_gt round.rounds_pos)
      obtain ⟨smaller'', larger'', next⟩ := round.next more
      refine ⟨left, smaller'', larger'', by omega, next, same.trans ?_⟩
      rw [round.gcdOdd_eq, more]
      rfl

theorem exists_first_round {x y : Magnitude} (hx : x.toNat ≠ 0) (hy : y.toNat ≠ 0) :
    ∃ i j g smaller larger, x.trailingZeros = .ok i ∧ y.trailingZeros = .ok j ∧
      Round g (x.bitLength + y.bitLength) (x >>> i) y smaller larger ∧
      g * 2 ^ min i j = x.toNat.gcd y.toNat := by
  obtain ⟨i, half, xLow, xPart⟩ := exists_lowestBit hx
  obtain ⟨j, rest, yLow, yPart⟩ := exists_lowestBit hy
  have odd : (x >>> i).toNat = 2 * half + 1 := by
    rw [toNat_shiftRight, xPart, Nat.mul_div_cancel_left _ (Nat.two_pow_pos i)]
  have below {z : Magnitude} {bit part : Nat} (value : z.toNat = 2 ^ bit * part) :
      part < 2 ^ z.bitLength := by
    have short := toNat_lt_two_pow_bitLength z
    rw [value] at short
    exact Nat.lt_of_le_of_lt (Nat.le_mul_of_pos_left _ (Nat.two_pow_pos bit)) short
  have bound : (x >>> i).toNat + (2 * rest + 1) < 2 ^ (x.bitLength + y.bitLength) := by
    have xBound := below xPart
    have yBound := below yPart
    rw [odd, pow_add]
    nlinarith
  obtain ⟨smaller, larger, round⟩ := exists_round (by omega) yLow yPart bound
  refine ⟨i, j, _, smaller, larger, trailingZeros_eq_ok xLow, trailingZeros_eq_ok yLow, round, ?_⟩
  rw [odd, yPart, gcd_two_pow_mul, xPart, gcd_of_odd_parts]

/-! ## The greatest common divisor -/

theorem gcd_eq_ok (x y : Magnitude) : ∃ g, x.gcd y = .ok g ∧ g.toNat = x.toNat.gcd y.toNat := by
  rw [gcd]
  by_cases xZero : x.isZero = true
  · exact ⟨y, by rw [if_pos xZero], by rw [(isZero_iff x).1 xZero, Nat.gcd_zero_left]⟩
  by_cases yZero : y.isZero = true
  · exact ⟨x, by rw [if_neg xZero, if_pos yZero],
      by rw [(isZero_iff y).1 yZero, Nat.gcd_zero_right]⟩
  obtain ⟨i, j, g, smaller, larger, xZeros, yZeros, round, value⟩ :=
    exists_first_round (mt (isZero_iff x).2 xZero) (mt (isZero_iff y).2 yZero)
  obtain ⟨odd, run, oddValue⟩ := round.gcdOdd_eq_ok
  refine ⟨odd <<< min i j, ?_, ?_⟩
  · rw [if_neg xZero, if_neg yZero, xZeros, yZeros]
    simp only [ok_bind, run]
    rfl
  · rw [toNat_shiftLeft, oddValue, value]

/-- Any two numbers have a result, and it is their greatest common divisor. The loop, which runs
when neither is zero, has fewer rounds than both numbers have bits. Each round asks a number with a
set bit for its trailing zeros and subtracts one odd number from another without a borrow; what the
loop returns is what it returns from that round on. -/
theorem gcd_greatest (x y : Magnitude) :
    (∃ g, x.gcd y = .ok g ∧ g.toNat = x.toNat.gcd y.toNat) ∧
    (x.toNat ≠ 0 → y.toNat ≠ 0 → ∃ i j, x.trailingZeros = .ok i ∧ y.trailingZeros = .ok j ∧
      ∀ n odd other, Enters (x >>> i) y n odd other →
        n < x.bitLength + y.bitLength ∧
        gcdOdd (x.bitLength + y.bitLength) (x >>> i) y =
          gcdOdd (x.bitLength + y.bitLength - n) odd other ∧
        (∃ zeros, other.trailingZeros = .ok zeros) ∧
        ∃ smaller larger, operands odd other = .ok (smaller, larger) ∧
          smaller.toNat % 2 = 1 ∧ larger.toNat % 2 = 1 ∧
          (larger.subBorrow smaller).2 = false) := by
  refine ⟨gcd_eq_ok x y, fun hx hy => ?_⟩
  obtain ⟨i, j, g, _, _, xZeros, yZeros, first, -⟩ := exists_first_round hx hy
  refine ⟨i, j, xZeros, yZeros, fun n odd other enters => ?_⟩
  obtain ⟨left, smaller, larger, count, round, same⟩ := first.of_enters enters
  have more := round.rounds_pos
  obtain ⟨zeros, asked, -⟩ := bind_eq_ok_iff.1 round.run
  rw [same, count, Nat.add_sub_cancel_left]
  exact ⟨by omega, rfl, ⟨zeros, asked⟩, smaller, larger, round.run, round.smaller_odd,
    round.larger_odd, round.noBorrow⟩

/-- Three times `2 ^ 100` and `2 ^ 70`, the latter with zero words on top. The second of two rounds
subtracts one from one. -/
theorem gcd_greatest_of_shifted_three :
    let x : Magnitude := Magnitude.ofWord 3 <<< 100
    let y : Magnitude := (oneHot 70).extend 4
    (∃ g, x.gcd y = .ok g ∧ g.toNat = 2 ^ 70) ∧ x.toNat ≠ 0 ∧ y.toNat ≠ 0 ∧
      Enters (x >>> 100) y 1 .one (.ofWord 2) ∧
      ∃ smaller larger, operands .one (.ofWord 2) = .ok (smaller, larger) ∧
        smaller.toNat % 2 = 1 ∧ larger.toNat % 2 = 1 ∧ (larger.subBorrow smaller).2 = false := by
  intro x y
  have xNonzero : x.toNat ≠ 0 := by decide +kernel
  have yNonzero : y.toNat ≠ 0 := by decide +kernel
  have entered : Enters (x >>> 100) y 1 .one (.ofWord 2) :=
    .next .start (show operands (x >>> 100) y = .ok (.one, .ofWord 3) by decide +kernel) rfl
  have zeros : x.trailingZeros = .ok 100 := by decide +kernel
  obtain ⟨⟨g, run, value⟩, loop⟩ := gcd_greatest x y
  obtain ⟨i, j, asked, -, rounds⟩ := loop xNonzero yNonzero
  obtain rfl : 100 = i := Except.ok.inj (zeros.symm.trans asked)
  obtain ⟨-, -, -, round⟩ := rounds 1 _ _ entered
  exact ⟨⟨g, run, value.trans (by decide +kernel)⟩, xNonzero, yNonzero, entered, round⟩

end ExactFloat.Magnitude
