import ExactFloat.Magnitude.Bits
import ExactFloat.Proofs.Magnitude.Value

/-!
# Bits of words are bits of numbers

Reading, flipping and masking bits of the stored words does the same to the number, and the lowest
and the highest set bit bound the number by powers of two.
-/

namespace ExactFloat.Magnitude

theorem testBit_natOfWords (words : List UInt64) (i : Nat) :
    (natOfWords words).testBit i = (words[i / 64]?.getD 0).toNat.testBit (i % 64) := by
  induction words generalizing i with
  | nil => simp
  | cons word rest ih =>
      rw [natOfWords_cons, Nat.add_comm, Nat.testBit_two_pow_mul_add _ word.toNat_lt]
      by_cases h : i < 64
      · rw [if_pos h, Nat.div_eq_of_lt h, Nat.mod_eq_of_lt h]
        rfl
      · have e : i / 64 = (i - 64) / 64 + 1 := by omega
        have e' : i % 64 = (i - 64) % 64 := by omega
        rw [if_neg h, ih, e, e', List.getElem?_cons_succ]

theorem testBit_eq (x : Magnitude) (bit : Nat) : x.testBit bit = x.toNat.testBit bit := by
  rw [toNat, testBit_natOfWords, testBit]
  cases x.words[bit / 64]? <;> simp

@[simp] theorem toNat_flipBit (x : Magnitude) (bit : Nat) :
    (x.flipBit bit).toNat = x.toNat ^^^ 2 ^ bit := by
  have lt := Nat.mod_lt bit (by decide : 64 > 0)
  have room : bit / 64 < (x.extend (bit / 64 + 1)).words.length :=
    le_size_extend x (bit / 64 + 1)
  rw [flipBit, toNat_trim]
  refine Nat.eq_of_testBit_eq fun i => ?_
  rw [toNat, testBit_natOfWords, List.getElem?_modify, Nat.testBit_xor, Nat.testBit_two_pow,
    ← toNat_extend x (bit / 64 + 1), toNat, testBit_natOfWords]
  by_cases h : bit / 64 = i / 64
  · have room : i / 64 < (x.extend (bit / 64 + 1)).words.length := by omega
    simp only [if_pos h, List.getElem?_eq_getElem room, Option.map_eq_map, Option.map_some,
      Option.getD_some, UInt64.toNat_xor, Nat.testBit_xor, Word.toNat_oneBit lt,
      Nat.testBit_two_pow]
    congr 2
    exact propext ⟨by omega, by omega⟩
  · simp only [if_neg h, id_map', decide_eq_false (p := bit = i) (by omega), Bool.xor_false]

@[simp] theorem toNat_oneHot (bit : Nat) : (oneHot bit).toNat = 2 ^ bit := by
  simp [oneHot]

theorem natOfWords_maskWords (bits : Nat) (words : List UInt64) :
    natOfWords (maskWords bits words) = natOfWords words % 2 ^ bits := by
  induction words generalizing bits with
  | nil => simp [maskWords]
  | cons word rest ih =>
      have hw := word.toNat_lt
      -- The word is kept as a whole, or the mask ends in it.
      by_cases h : 64 ≤ bits
      · have e : 2 ^ bits = 2 ^ 64 * 2 ^ (bits - 64) := by
          rw [← Nat.pow_add]
          congr 1
          omega
        rw [maskWords, if_pos h, natOfWords_cons, ih, natOfWords_cons, e, Nat.mod_mul,
          Nat.add_mul_mod_self_left, Nat.mod_eq_of_lt hw, Nat.add_mul_div_left _ _ (by decide),
          Nat.div_eq_of_lt hw, Nat.zero_add]
      · have e : 2 ^ 64 = 2 ^ bits * 2 ^ (64 - bits) := by
          rw [← Nat.pow_add]
          congr 1
          omega
        have one : (1 <<< UInt64.ofNat bits - 1 : UInt64).toNat = 2 ^ bits - 1 := by
          have pos := Nat.two_pow_pos bits
          have le : (1 : UInt64) ≤ 1 <<< UInt64.ofNat bits := by
            rw [UInt64.le_iff_toNat_le, Word.toNat_oneBit (by omega)]
            exact pos
          rw [UInt64.toNat_sub_of_le _ _ le, Word.toNat_oneBit (by omega), UInt64.toNat_one]
        rw [maskWords, if_neg h, natOfWords_cons, ih, natOfWords_cons, UInt64.toNat_and, one,
          Nat.and_two_pow_sub_one_eq_mod, e, Nat.mul_assoc _ _ (natOfWords rest),
          Nat.add_mul_mod_self_left, Nat.pow_zero, Nat.mod_one, Nat.mul_zero, Nat.add_zero]

@[simp] theorem toNat_mask (x : Magnitude) (bits : Nat) :
    (x.mask bits).toNat = x.toNat % 2 ^ bits := by
  rw [mask, toNat_trim]
  exact natOfWords_maskWords bits x.words

theorem bitLengthOfWords_eq (words : List UInt64) :
    bitLengthOfWords words = if natOfWords words = 0 then 0 else (natOfWords words).log2 + 1 := by
  induction words with
  | nil => rfl
  | cons word rest ih =>
      have hw := word.toNat_lt
      rw [bitLengthOfWords, ih, natOfWords_cons]
      by_cases h : natOfWords rest = 0
      · simp only [h, if_true, Word.bitLength, ← UInt64.toNat_inj, UInt64.toNat_zero,
          Nat.mul_zero, Nat.add_zero]
      · have e : (word.toNat + 2 ^ 64 * natOfWords rest).log2 = 64 + (natOfWords rest).log2 := by
          have lower := Nat.log2_self_le h
          have upper := Nat.lt_log2_self (n := natOfWords rest)
          rw [Nat.log2_eq_iff (by omega), Nat.add_assoc, Nat.pow_add, Nat.pow_add]
          omega
        simp only [if_neg h]
        rw [if_neg (by omega), e]
        omega

theorem bitLength_eq (x : Magnitude) :
    x.bitLength = if x.toNat = 0 then 0 else x.toNat.log2 + 1 :=
  bitLengthOfWords_eq x.words

theorem bitLength_congr {x y : Magnitude} (h : x.toNat = y.toNat) : x.bitLength = y.bitLength := by
  rw [bitLength_eq, bitLength_eq, h]

theorem toNat_lt_two_pow_bitLength (x : Magnitude) : x.toNat < 2 ^ x.bitLength := by
  rw [bitLength_eq]
  by_cases h : x.toNat = 0
  · simp [h]
  · rw [if_neg h]
    exact Nat.lt_log2_self

theorem two_pow_le_toNat {x : Magnitude} (h : x.toNat ≠ 0) :
    2 ^ (x.bitLength - 1) ≤ x.toNat := by
  rw [bitLength_eq, if_neg h]
  exact Nat.log2_self_le h

theorem bitLength_le_iff {x : Magnitude} {bits : Nat} :
    x.bitLength ≤ bits ↔ x.toNat < 2 ^ bits := by
  rw [bitLength_eq]
  split
  · next zero => simp [zero]
  · next nonzero => rw [Nat.succ_le_iff, Nat.log2_lt nonzero]

theorem bitLength_eq_zero {x : Magnitude} : x.bitLength = 0 ↔ x.toNat = 0 := by
  rw [← Nat.le_zero, bitLength_le_iff, pow_zero, Nat.lt_one_iff]

theorem bitLength_mono {x y : Magnitude} (h : x.toNat ≤ y.toNat) : x.bitLength ≤ y.bitLength :=
  bitLength_le_iff.2 (Nat.lt_of_le_of_lt h (toNat_lt_two_pow_bitLength y))

theorem bitLength_eq_of_bounds {x : Magnitude} {bits : Nat} (lower : 2 ^ (bits - 1) ≤ x.toNat)
    (upper : x.toNat < 2 ^ bits) : x.bitLength = bits := by
  apply Nat.le_antisymm (bitLength_le_iff.2 upper)
  apply Nat.le_of_not_lt
  intro lt
  have below := bitLength_le_iff.1 (Nat.le_sub_one_of_lt lt)
  omega

theorem bitLength_oneHot (bit : Nat) : (oneHot bit).bitLength = bit + 1 := by
  apply bitLength_eq_of_bounds <;> rw [toNat_oneHot]
  · exact Nat.le_refl _
  · exact Nat.pow_lt_pow_right (by decide) (Nat.lt_succ_self bit)

theorem isEven_eq {x : Magnitude} (stored : x.words ≠ []) : x.isEven = .ok (x.toNat % 2 == 0) := by
  obtain ⟨_ | ⟨lowest, rest⟩⟩ := x
  · exact absurd rfl stored
  · have low : (natOfWords (lowest :: rest)) % 2 = lowest.toNat % 2 := by
      rw [natOfWords_cons]
      omega
    have bit : (lowest &&& 1 == 0) = (lowest.toNat % 2 == 0) := by
      rw [Bool.eq_iff_iff, beq_iff_eq, beq_iff_eq, ← UInt64.toNat_inj, UInt64.toNat_and,
        UInt64.toNat_one, Nat.and_one_is_mod, UInt64.toNat_zero]
    change Except.ok (lowest &&& 1 == 0) = .ok (natOfWords (lowest :: rest) % 2 == 0)
    rw [bit, low]

theorem isOdd_eq {x : Magnitude} (stored : x.words ≠ []) : x.isOdd = .ok (x.toNat % 2 == 1) := by
  rw [isOdd, isEven_eq stored]
  rcases Nat.mod_two_eq_zero_or_one x.toNat with e | e <;> rw [e] <;> rfl

theorem lowestBitOfWords_eq_none {words : List UInt64} :
    lowestBitOfWords words = none ↔ natOfWords words = 0 := by
  induction words with
  | nil => simp [lowestBitOfWords]
  | cons word rest ih =>
      rw [lowestBitOfWords, natOfWords_cons]
      by_cases h : word = 0
      · rw [if_pos h, Option.map_eq_none_iff, ih, h, UInt64.toNat_zero]
        omega
      · have : word.toNat ≠ 0 := fun e => h (UInt64.toNat_inj.1 e)
        simp [h]
        omega

theorem odd_of_lowestBitOfWords {words : List UInt64} {bit : Nat}
    (h : lowestBitOfWords words = some bit) :
    ∃ half, natOfWords words = 2 ^ bit * (2 * half + 1) := by
  induction words generalizing bit with
  | nil => simp [lowestBitOfWords] at h
  | cons word rest ih =>
      rw [lowestBitOfWords] at h
      by_cases z : word = 0
      · rw [if_pos z] at h
        obtain ⟨above, e, rfl⟩ := Option.map_eq_some_iff.1 h
        obtain ⟨half, e⟩ := ih e
        exact ⟨half, by rw [natOfWords_cons, z, e, Nat.pow_add, Nat.mul_assoc]; simp⟩
      · rw [if_neg z] at h
        obtain rfl := Option.some.inj h
        obtain ⟨half, e⟩ := Word.odd_of_ne_zero z
        have lt := Word.trailingZeros_lt z
        generalize Word.trailingZeros word = t at *
        -- The words above add an even number of these powers of two.
        have whole : 2 ^ 64 = 2 ^ t * (2 * 2 ^ (63 - t)) := by
          rw [← Nat.pow_add_one', ← Nat.pow_add]
          congr 1
          omega
        refine ⟨half + 2 ^ (63 - t) * natOfWords rest, ?_⟩
        rw [natOfWords_cons, e, whole, Nat.mul_assoc, ← Nat.mul_add]
        congr 1
        rw [Nat.mul_add, Nat.mul_assoc]
        omega

/-- The lowest set bit is where the number stops being divisible by powers of two. -/
theorem odd_of_lowestBit {x : Magnitude} {bit : Nat} (h : x.lowestBit? = some bit) :
    ∃ half, x.toNat = 2 ^ bit * (2 * half + 1) :=
  odd_of_lowestBitOfWords h

theorem lowestBit_eq_none {x : Magnitude} : x.lowestBit? = none ↔ x.toNat = 0 :=
  lowestBitOfWords_eq_none

theorem two_pow_dvd_mul_odd_iff (bit half i : Nat) :
    2 ^ i ∣ 2 ^ bit * (2 * half + 1) ↔ i ≤ bit := by
  constructor
  · intro dvd
    apply Nat.le_of_not_lt
    intro lt
    have next : 2 ^ bit * 2 ∣ 2 ^ bit * (2 * half + 1) :=
      Nat.dvd_trans (Nat.pow_dvd_pow 2 lt) dvd
    have even := Nat.dvd_of_mul_dvd_mul_left (Nat.two_pow_pos bit) next
    omega
  · intro le
    exact Nat.dvd_trans (Nat.pow_dvd_pow 2 le) (Nat.dvd_mul_right _ _)

theorem two_pow_dvd_iff {x : Magnitude} {bit : Nat} (h : x.lowestBit? = some bit) (i : Nat) :
    2 ^ i ∣ x.toNat ↔ i ≤ bit := by
  obtain ⟨half, value⟩ := odd_of_lowestBit h
  rw [value]
  exact two_pow_dvd_mul_odd_iff bit half i

theorem trailingZeros_eq_ok {x : Magnitude} {bit : Nat} (h : x.lowestBit? = some bit) :
    x.trailingZeros = .ok bit := by
  rw [trailingZeros, h]

theorem exists_lowestBit {x : Magnitude} (h : x.toNat ≠ 0) :
    ∃ bit half, x.lowestBit? = some bit ∧ x.toNat = 2 ^ bit * (2 * half + 1) := by
  cases low : x.lowestBit? with
  | none => exact absurd (lowestBit_eq_none.1 low) h
  | some bit =>
      obtain ⟨half, part⟩ := odd_of_lowestBit low
      exact ⟨bit, half, rfl, part⟩

/-- The lowest set bit is the place of the power of two that the number has beside an odd factor. -/
theorem lowestBit_eq_some_iff {x : Magnitude} {bit : Nat} :
    x.lowestBit? = some bit ↔ ∃ half, x.toNat = 2 ^ bit * (2 * half + 1) := by
  refine ⟨odd_of_lowestBit, fun ⟨half, value⟩ => ?_⟩
  have nonzero : x.toNat ≠ 0 := by
    rw [value]
    exact Nat.mul_ne_zero (Nat.ne_of_gt (Nat.two_pow_pos bit)) (Nat.succ_ne_zero _)
  obtain ⟨lowest, -, low, -⟩ := exists_lowestBit nonzero
  have same : lowest = bit := eq_of_forall_le_iff fun i => by
    rw [← two_pow_dvd_iff low, value, two_pow_dvd_mul_odd_iff]
  rw [low, same]

end ExactFloat.Magnitude
