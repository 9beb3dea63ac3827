import ExactFloat.Proofs.Magnitude.Kept

/-!
# The places of the bits

A number has one bit at each place, be a word stored for it or not. Flipping a bit touches no other
place, and a shift moves all bits by equally many places. So the lowest and the highest set bit move
with a shift to the left, and no bit is lost by it.
-/

namespace ExactFloat.Magnitude

theorem Minimal.eq_ofWords {x y : Magnitude} (hx : x.Minimal) (h : x.toNat = y.toNat) :
    x = ofWords y.words :=
  hx.eq_of_toNat_eq (kept_minimal.ofWords y.words) (h.trans (toNat_ofWords y.words).symm)

/-! ## Single bits -/

theorem testBit_flipBit (x : Magnitude) (bit i : Nat) :
    (x.flipBit bit).testBit i = if i = bit then !x.testBit i else x.testBit i := by
  rw [testBit_eq, testBit_eq, toNat_flipBit, Nat.testBit_xor, Nat.testBit_two_pow]
  by_cases same : i = bit
  · simp [same]
  · simp [same, Ne.symm same]

theorem flipBit_flipBit (x : Magnitude) (bit : Nat) :
    (x.flipBit bit).flipBit bit = ofWords x.words := by
  apply (kept_minimal.flipBit _ bit).eq_ofWords
  rw [toNat_flipBit, toNat_flipBit, Nat.xor_assoc, Nat.xor_self, Nat.xor_zero]

/-! ## The lowest set bit -/

theorem isGreatest_lowestBit {x : Magnitude} {bit : Nat} (h : x.lowestBit? = some bit) :
    IsGreatest {i | 2 ^ i ∣ x.toNat} bit :=
  ⟨(two_pow_dvd_iff h bit).2 (Nat.le_refl bit), fun i => (two_pow_dvd_iff h i).1⟩

theorem lowestBit_shiftLeft {x : Magnitude} {bit : Nat} (h : x.lowestBit? = some bit)
    (bits : Nat) : (x <<< bits).lowestBit? = some (bit + bits) := by
  obtain ⟨half, value⟩ := odd_of_lowestBit h
  refine lowestBit_eq_some_iff.2 ⟨half, ?_⟩
  rw [toNat_shiftLeft, value, pow_add, Nat.mul_right_comm]

theorem isPowerOfTwo_iff (x : Magnitude) : x.isPowerOfTwo = true ↔ ∃ k, x.toNat = 2 ^ k := by
  unfold isPowerOfTwo
  constructor
  · intro single
    cases low : x.lowestBit? with
    | none => simp [low] at single
    | some bit =>
        obtain ⟨half, value⟩ := odd_of_lowestBit low
        have below := toNat_lt_two_pow_bitLength x
        have top : x.bitLength = bit + 1 := by simpa [low] using single
        rw [top, value, pow_succ, Nat.mul_lt_mul_left (Nat.two_pow_pos bit)] at below
        obtain rfl : half = 0 := by omega
        exact ⟨bit, by simpa using value⟩
  · rintro ⟨k, value⟩
    have low : x.lowestBit? = some k := lowestBit_eq_some_iff.2 ⟨0, by simpa using value⟩
    have top : x.bitLength = k + 1 := by
      rw [bitLength_congr (value.trans (toNat_oneHot k).symm), bitLength_oneHot]
    simp [low, top]

/-- The stored words are the bits of the number. Reading, flipping and masking bits, the lowest and
the highest set bit and the test for a power of two are those of the number, whatever zero words are
on top. -/
theorem bits_of_number (x : Magnitude) :
    (∀ i, x.testBit i = x.toNat.testBit i) ∧
    (∀ bit i, (x.flipBit bit).testBit i = if i = bit then !x.testBit i else x.testBit i) ∧
    (∀ bit, ((x.flipBit bit).flipBit bit == x) = true ∧
      (x.flipBit bit).flipBit bit = ofWords x.words) ∧
    (∀ bits, (x.mask bits).toNat = x.toNat % 2 ^ bits) ∧
    (x.toNat ≠ 0 →
      (2 ^ (x.bitLength - 1) ≤ x.toNat ∧ x.toNat < 2 ^ x.bitLength) ∧
      ∃ zeros, x.trailingZeros = .ok zeros ∧ IsGreatest {i | 2 ^ i ∣ x.toNat} zeros) ∧
    (x.toNat = 0 → x.bitLength = 0 ∧ x.trailingZeros = breach .noSetBit) ∧
    (x.isPowerOfTwo = true ↔ ∃ k, x.toNat = 2 ^ k) := by
  refine ⟨testBit_eq x, testBit_flipBit x, fun bit => ⟨?_, flipBit_flipBit x bit⟩, toNat_mask x,
    fun nonzero => ?_, fun zero => ?_, isPowerOfTwo_iff x⟩
  · rw [beq_iff, flipBit_flipBit, toNat_ofWords]
    rfl
  · obtain ⟨zeros, -, low, -⟩ := exists_lowestBit nonzero
    refine ⟨⟨two_pow_le_toNat nonzero, toNat_lt_two_pow_bitLength x⟩, zeros, ?_, ?_⟩
    · exact trailingZeros_eq_ok low
    · exact isGreatest_lowestBit low
  · refine ⟨bitLength_eq_zero.2 zero, ?_⟩
    rw [trailingZeros, lowestBit_eq_none.2 zero]

/-- The only set bit is in the second word, below a zero word. -/
theorem bits_of_number_of_second_word :
    let x : Magnitude := ⟨[0, 4, 0]⟩
    x.toNat ≠ 0 ∧ x.bitLength = 67 ∧ (2 ^ 66 ≤ x.toNat ∧ x.toNat < 2 ^ 67) ∧
      x.trailingZeros = .ok 66 ∧ IsGreatest {i | 2 ^ i ∣ x.toNat} 66 ∧
      (⟨[0, 0]⟩ : Magnitude).toNat = 0 ∧
      (⟨[0, 0]⟩ : Magnitude).trailingZeros = breach .noSetBit := by
  intro x
  have nonzero : x.toNat ≠ 0 := by decide
  have top : x.bitLength = 67 := by decide
  have low : x.trailingZeros = .ok 66 := by decide
  have zero : (⟨[0, 0]⟩ : Magnitude).toNat = 0 := by decide
  obtain ⟨bounds, zeros, found, greatest⟩ := (bits_of_number x).2.2.2.2.1 nonzero
  obtain rfl : 66 = zeros := Except.ok.inj (low.symm.trans found)
  rw [top] at bounds
  obtain ⟨-, refused⟩ := (bits_of_number ⟨[0, 0]⟩).2.2.2.2.2.1 zero
  exact ⟨nonzero, top, bounds, low, greatest, zero, refused⟩

/-! ## Shifts -/

theorem shiftRight_shiftLeft (x : Magnitude) (bits : Nat) :
    (x <<< bits) >>> bits = ofWords x.words := by
  apply (kept_minimal.shiftRight _ bits).eq_ofWords
  rw [toNat_shiftRight, toNat_shiftLeft, Nat.mul_div_cancel _ (Nat.two_pow_pos bits)]

/-- Shifts to the left multiply by a power of two, and shifts to the right divide and round down,
for any stored words and any number of places. So a shift to the left is undone by one to the right,
and takes the lowest and the highest set bit with it. -/
theorem shift_exact (x : Magnitude) (bits : Nat) :
    (x <<< bits).toNat = x.toNat * 2 ^ bits ∧ (x >>> bits).toNat = x.toNat / 2 ^ bits ∧
    ((x <<< bits) >>> bits == x) = true ∧ (x <<< bits) >>> bits = ofWords x.words ∧
    (x.toNat ≠ 0 → (x <<< bits).bitLength = x.bitLength + bits ∧
      ∃ zeros, x.trailingZeros = .ok zeros ∧
        (x <<< bits).trailingZeros = .ok (zeros + bits)) := by
  have restored := shiftRight_shiftLeft x bits
  refine ⟨toNat_shiftLeft x bits, toNat_shiftRight x bits, ?_, restored, fun nonzero => ?_⟩
  · rw [beq_iff, restored, toNat_ofWords]
    rfl
  · obtain ⟨zeros, -, low, -⟩ := exists_lowestBit nonzero
    refine ⟨bitLength_shiftLeft nonzero bits, zeros, trailingZeros_eq_ok low, ?_⟩
    exact trailingZeros_eq_ok (lowestBit_shiftLeft low bits)

/-- A shift by a word and a bit moves the highest bit of a word into a new one. -/
theorem shift_exact_of_word_and_bit :
    let x : Magnitude := ⟨[0x8000000000000004, 0]⟩
    x.toNat ≠ 0 ∧ x <<< 65 = ⟨[0, 8, 1]⟩ ∧ (x <<< 65).bitLength = x.bitLength + 65 ∧
      x.trailingZeros = .ok 2 ∧ (x <<< 65).trailingZeros = .ok (2 + 65) := by
  intro x
  have nonzero : x.toNat ≠ 0 := by decide
  have low : x.trailingZeros = .ok 2 := by decide
  have moved : x <<< 65 = ⟨[0, 8, 1]⟩ := by decide
  obtain ⟨-, -, -, -, ofNonzero⟩ := shift_exact x 65
  obtain ⟨length, zeros, found, found'⟩ := ofNonzero nonzero
  obtain rfl : 2 = zeros := Except.ok.inj (low.symm.trans found)
  exact ⟨nonzero, moved, length, low, found'⟩

end ExactFloat.Magnitude
