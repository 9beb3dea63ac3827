import ExactFloat.Magnitude.Shift
import ExactFloat.Proofs.Magnitude.Value

/-!
# Shifts multiply and divide by powers of two

A shift by whole words moves the number by a power of the radix, and a shift inside the words hands
on exactly the bits that leave a word.
-/

namespace ExactFloat.Magnitude

theorem natOfWords_moveBitsUp {bits : Nat} (pos : 0 < bits) (h : bits < 64) (incoming : UInt64)
    (words : List UInt64) (fits : incoming.toNat < 2 ^ bits) :
    natOfWords (moveBitsUp bits incoming words) =
      natOfWords words * 2 ^ bits + incoming.toNat := by
  induction words generalizing incoming with
  | nil => simp [moveBitsUp]
  | cons word rest ih =>
      have step := Word.toNat_moveUp word incoming pos h fits
      rw [moveBitsUp, natOfWords_cons, ih _ (Word.toNat_moveUp_out_lt word pos h),
        natOfWords_cons, Nat.mul_add, Nat.add_mul, Nat.mul_assoc]
      omega

theorem natOfWords_moveBitsDown {bits : Nat} (pos : 0 < bits) (h : bits < 64)
    (words : List UInt64) :
    natOfWords (moveBitsDown bits words) = natOfWords words / 2 ^ bits := by
  induction words with
  | nil => simp [moveBitsDown]
  | cons word rest ih =>
      have whole := Word.two_pow_split (Nat.le_of_lt h)
      have low : (rest.headD 0).toNat % 2 ^ bits = natOfWords rest % 2 ^ bits := by
        rw [natOfWords_headD_tail rest, ← whole, Nat.mul_comm _ (2 ^ bits), Nat.mul_assoc,
          Nat.add_mul_mod_self_left]
      have parts := Nat.div_add_mod (natOfWords rest) (2 ^ bits)
      rw [moveBitsDown, natOfWords_cons, ih, Word.toNat_moveDown _ _ pos h, low, natOfWords_cons,
        ← whole, Nat.mul_comm _ (2 ^ bits), Nat.mul_assoc (2 ^ bits) _ (natOfWords rest),
        Nat.add_mul_div_left _ _ (Nat.two_pow_pos bits), Nat.mul_assoc, Nat.mul_left_comm,
        Nat.add_assoc, ← Nat.mul_add, Nat.add_comm (_ % _), parts]

@[simp] theorem toNat_shiftLeft (x : Magnitude) (bits : Nat) :
    (x <<< bits).toNat = x.toNat * 2 ^ bits := by
  change (shiftLeft x bits).toNat = _
  unfold shiftLeft
  by_cases z : x.isZero
  · rw [if_pos z, (isZero_iff x).1 z, Nat.zero_mul]
  · have e := Nat.div_add_mod bits 64
    rw [if_neg z, toNat_trim]
    change natOfWords _ = _
    rw [natOfWords_append, natOfWords_replicate_zero, List.length_replicate, Nat.zero_add]
    by_cases aligned : bits % 64 = 0
    · rw [if_pos aligned, Nat.mul_comm, ← toNat]
      congr 2
      omega
    · have pos := Nat.pos_of_ne_zero aligned
      rw [if_neg aligned, natOfWords_moveBitsUp pos (Nat.mod_lt bits (by decide)) _ _
        (Nat.two_pow_pos _), UInt64.toNat_zero, Nat.add_zero, Nat.mul_left_comm, ← Nat.pow_add, e]
      rfl

theorem natOfWords_drop (count : Nat) (words : List UInt64) :
    natOfWords (words.drop count) = natOfWords words / 2 ^ (64 * count) := by
  induction count generalizing words with
  | zero => simp
  | succ count ih =>
      cases words with
      | nil => simp
      | cons word rest =>
          have := word.toNat_lt
          rw [List.drop_succ_cons, ih, natOfWords_cons, Nat.mul_succ, Nat.pow_add,
            Nat.mul_comm (2 ^ (64 * count)), ← Nat.div_div_eq_div_mul]
          congr 1
          omega

@[simp] theorem toNat_shiftRight (x : Magnitude) (bits : Nat) :
    (x >>> bits).toNat = x.toNat / 2 ^ bits := by
  change (shiftRight x bits).toNat = _
  unfold shiftRight
  have e := Nat.div_add_mod bits 64
  by_cases gone : x.size ≤ bits / 64
  · have := toNat_lt x
    have le : 2 ^ (64 * x.size) ≤ 2 ^ bits := Nat.pow_le_pow_right (by decide) (by omega)
    rw [if_pos gone, toNat_zero, Nat.div_eq_of_lt (by omega)]
  · have dropped := natOfWords_drop (bits / 64) x.words
    rw [if_neg gone, toNat_trim]
    by_cases aligned : bits % 64 = 0
    · simp only [if_pos aligned]
      change natOfWords _ = _
      rw [dropped, ← toNat]
      congr 2
      omega
    · simp only [if_neg aligned]
      change natOfWords _ = _
      rw [natOfWords_moveBitsDown (Nat.pos_of_ne_zero aligned) (Nat.mod_lt bits (by decide)),
        dropped, Nat.div_div_eq_div_mul, ← Nat.pow_add, e]
      rfl

end ExactFloat.Magnitude
