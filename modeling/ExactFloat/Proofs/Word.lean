import ExactFloat.Word
import Mathlib.Tactic

/-!
# Steps on words are exact

Each step on single words loses nothing: the word it writes and what it hands on make up what went
in. The bounds say that the two always fit in the words they are written to.
-/

namespace ExactFloat.Word

/-! ## Columns -/

@[simp] theorem radix_eq : radix = 2 ^ 64 := rfl

theorem toNat_toUInt64 (b : Bool) : b.toUInt64.toNat = b.toNat := by
  cases b <;> rfl

/-- The column is exact: what does not fit in the word leaves it as the carry. -/
theorem toNat_addCarry (x y : UInt64) (carry : Bool) :
    (addCarry x y carry).1.toNat + 2 ^ 64 * (addCarry x y carry).2.toNat =
      x.toNat + y.toNat + carry.toNat := by
  have hx := x.toNat_lt
  have hy := y.toNat_lt
  have hc := carry.toNat_le
  simp only [addCarry, UInt64.lt_iff_toNat_lt, UInt64.toNat_add, toNat_toUInt64]
  generalize carry.toNat = c at *
  by_cases bare : (x.toNat + y.toNat) % 2 ^ 64 < x.toNat
  · simp only [bare, decide_true, Bool.true_or, Bool.toNat_true]
    omega
  · by_cases sum : ((x.toNat + y.toNat) % 2 ^ 64 + c) % 2 ^ 64 < (x.toNat + y.toNat) % 2 ^ 64
    · simp only [sum, decide_true, Bool.or_true, Bool.toNat_true]
      omega
    · simp only [bare, sum, decide_false, Bool.or_false, Bool.toNat_false]
      omega

/-- The column is exact: what the word lacks is taken from above as the borrow. -/
theorem toNat_subBorrow (x y : UInt64) (borrow : Bool) :
    (subBorrow x y borrow).1.toNat + y.toNat + borrow.toNat =
      x.toNat + 2 ^ 64 * (subBorrow x y borrow).2.toNat := by
  have hx := x.toNat_lt
  have hy := y.toNat_lt
  have hb := borrow.toNat_le
  simp only [subBorrow, UInt64.lt_iff_toNat_lt, UInt64.toNat_sub, toNat_toUInt64]
  generalize borrow.toNat = b at *
  by_cases bare : x.toNat < y.toNat
  · simp only [bare, decide_true, Bool.true_or, Bool.toNat_true]
    omega
  · by_cases difference : (2 ^ 64 - y.toNat + x.toNat) % 2 ^ 64 < b
    · simp only [difference, decide_true, Bool.or_true, Bool.toNat_true]
      omega
    · simp only [bare, difference, decide_false, Bool.or_false, Bool.toNat_false]
      omega

theorem low_add_high (n : Nat) : (low n).toNat + 2 ^ 64 * high n = n := by
  simp only [low, high, UInt64.toNat_ofNat', Nat.shiftRight_eq_div_pow]
  omega

/-- A column fits in two words as long as the carry fits in one. -/
theorem column_lt (written x y : UInt64) {carry : Nat} (h : carry < 2 ^ 64) :
    column written x y carry < 2 ^ 128 := by
  have product :=
    Nat.mul_le_mul (Nat.le_sub_one_of_lt x.toNat_lt) (Nat.le_sub_one_of_lt y.toNat_lt)
  have := written.toNat_lt
  simp only [column]
  omega

theorem high_lt {n : Nat} (h : n < 2 ^ 128) : high n < 2 ^ 64 := by
  simp only [high, Nat.shiftRight_eq_div_pow]
  omega

/-! ## Single bits -/

theorem toNat_oneBit {i : Nat} (h : i < 64) : (1 <<< UInt64.ofNat i : UInt64).toNat = 2 ^ i := by
  have e : i % 2 ^ 64 % 64 = i := by omega
  have lt : 2 ^ i < 2 ^ 64 := Nat.pow_lt_pow_right (by decide) h
  rw [UInt64.toNat_shiftLeft, UInt64.toNat_ofNat', e, UInt64.toNat_one, Nat.one_shiftLeft,
    Nat.mod_eq_of_lt lt]

theorem odd_of_lowZeros {width n : Nat} (pos : 0 < n) (lt : n < 2 ^ width) :
    ∃ half, n = 2 ^ lowZeros width n * (2 * half + 1) := by
  induction width generalizing n with
  | zero => simp at lt; omega
  | succ width ih =>
      rw [lowZeros]
      by_cases odd : n % 2 = 1
      · exact ⟨n / 2, by rw [if_pos odd]; omega⟩
      · rw [Nat.pow_succ] at lt
        obtain ⟨half, e⟩ := ih (n := n / 2) (by omega) (by omega)
        refine ⟨half, ?_⟩
        rw [if_neg odd, Nat.pow_succ, Nat.mul_right_comm, ← e]
        omega

theorem odd_of_ne_zero {x : UInt64} (h : x ≠ 0) :
    ∃ half, x.toNat = 2 ^ trailingZeros x * (2 * half + 1) := by
  have ne : x.toNat ≠ 0 := fun e => h (UInt64.toNat_inj.1 e)
  exact odd_of_lowZeros (Nat.pos_of_ne_zero ne) x.toNat_lt

theorem lowZeros_le (width n : Nat) : lowZeros width n ≤ width := by
  induction width generalizing n with
  | zero => exact Nat.le_refl 0
  | succ width ih =>
      have := ih (n / 2)
      rw [lowZeros]
      split <;> omega

theorem trailingZeros_lt {x : UInt64} (h : x ≠ 0) : trailingZeros x < 64 := by
  obtain ⟨half, e⟩ := odd_of_ne_zero h
  rcases Nat.lt_or_eq_of_le (lowZeros_le 64 x.toNat) with lt | eq
  · exact lt
  · have := x.toNat_lt
    rw [trailingZeros, eq] at e
    omega

/-! ## Moves inside words -/

theorem two_pow_split {bits : Nat} (h : bits ≤ 64) : 2 ^ (64 - bits) * 2 ^ bits = 2 ^ 64 := by
  rw [← Nat.pow_add]
  congr 1
  omega

/-- The part of a word that a move up by `bits` pushes out, and the part that stays. -/
theorem toNat_moveUp {bits : Nat} (word incoming : UInt64) (pos : 0 < bits) (h : bits < 64)
    (fits : incoming.toNat < 2 ^ bits) :
    (word <<< UInt64.ofNat bits ||| incoming).toNat +
        2 ^ 64 * (word >>> UInt64.ofNat (64 - bits)).toNat =
      word.toNat * 2 ^ bits + incoming.toNat := by
  have e : bits % 2 ^ 64 % 64 = bits := by omega
  have e' : (64 - bits) % 2 ^ 64 % 64 = 64 - bits := by omega
  have whole := two_pow_split (Nat.le_of_lt h)
  have hw := Nat.div_add_mod word.toNat (2 ^ (64 - bits))
  rw [UInt64.toNat_or, UInt64.toNat_shiftLeft, UInt64.toNat_shiftRight, UInt64.toNat_ofNat',
    UInt64.toNat_ofNat', e, e', Nat.shiftLeft_eq, Nat.shiftRight_eq_div_pow, ← whole,
    Nat.mul_mod_mul_right, Nat.mul_comm (word.toNat % _), ← Nat.two_pow_add_eq_or_of_lt fits]
  generalize word.toNat / 2 ^ (64 - bits) = q at *
  generalize word.toNat % 2 ^ (64 - bits) = r at *
  rw [← hw, Nat.add_mul, Nat.mul_comm (2 ^ bits) r, Nat.mul_right_comm]
  omega

theorem toNat_moveUp_out_lt {bits : Nat} (word : UInt64) (pos : 0 < bits) (h : bits < 64) :
    (word >>> UInt64.ofNat (64 - bits)).toNat < 2 ^ bits := by
  have e' : (64 - bits) % 2 ^ 64 % 64 = 64 - bits := by omega
  have whole := two_pow_split (Nat.le_of_lt h)
  rw [UInt64.toNat_shiftRight, UInt64.toNat_ofNat', e', Nat.shiftRight_eq_div_pow,
    Nat.div_lt_iff_lt_mul (Nat.two_pow_pos _), Nat.mul_comm, whole]
  exact word.toNat_lt

theorem toNat_moveDown {bits : Nat} (word next : UInt64) (pos : 0 < bits) (h : bits < 64) :
    (word >>> UInt64.ofNat bits ||| next <<< UInt64.ofNat (64 - bits)).toNat =
      word.toNat / 2 ^ bits + 2 ^ (64 - bits) * (next.toNat % 2 ^ bits) := by
  have e : bits % 2 ^ 64 % 64 = bits := by omega
  have e' : (64 - bits) % 2 ^ 64 % 64 = 64 - bits := by omega
  have whole := two_pow_split (Nat.le_of_lt h)
  have fits : word.toNat / 2 ^ bits < 2 ^ (64 - bits) := by
    rw [Nat.div_lt_iff_lt_mul (Nat.two_pow_pos _), whole]
    exact word.toNat_lt
  rw [UInt64.toNat_or, UInt64.toNat_shiftLeft, UInt64.toNat_shiftRight, UInt64.toNat_ofNat',
    UInt64.toNat_ofNat', e, e', Nat.shiftLeft_eq, Nat.shiftRight_eq_div_pow, ← whole,
    Nat.mul_comm (2 ^ (64 - bits)) (2 ^ bits), Nat.mul_mod_mul_right, Nat.or_comm,
    Nat.mul_comm (next.toNat % _), ← Nat.two_pow_add_eq_or_of_lt fits, Nat.add_comm]

end ExactFloat.Word
