import ExactFloat.Magnitude.Basic
import ExactFloat.Proofs.Word

/-!
# The numbers that stored words stand for

The view `toNat` ignores zero words on top, and the order, `==` and the test for zero are those of
the numbers.
-/

namespace ExactFloat.Magnitude

/-! ## Words -/

@[simp] theorem natOfWords_nil : natOfWords [] = 0 := rfl

@[simp] theorem natOfWords_cons (word : UInt64) (rest : List UInt64) :
    natOfWords (word :: rest) = word.toNat + 2 ^ 64 * natOfWords rest := rfl

theorem natOfWords_append (lower upper : List UInt64) :
    natOfWords (lower ++ upper) =
      natOfWords lower + 2 ^ (64 * lower.length) * natOfWords upper := by
  induction lower with
  | nil => simp
  | cons word rest ih =>
      rw [List.cons_append, natOfWords_cons, natOfWords_cons, ih, List.length_cons,
        Nat.mul_add 64, Nat.add_comm _ (64 * 1), Nat.pow_add, Nat.mul_add, Nat.add_assoc,
        Nat.mul_assoc]

@[simp] theorem natOfWords_replicate_zero (count : Nat) :
    natOfWords (List.replicate count 0) = 0 := by
  induction count with
  | zero => rfl
  | succ count ih => simp [List.replicate_succ, ih]

theorem natOfWords_lt (words : List UInt64) : natOfWords words < 2 ^ (64 * words.length) := by
  induction words with
  | nil => simp
  | cons word rest ih =>
      have := word.toNat_lt
      rw [natOfWords_cons, List.length_cons, Nat.mul_succ, Nat.pow_add]
      omega

theorem natOfWords_take (count : Nat) (words : List UInt64) :
    natOfWords (words.take count) = natOfWords words % 2 ^ (64 * count) := by
  rcases Nat.le_total count words.length with le | le
  · have below := natOfWords_lt (words.take count)
    have whole := natOfWords_append (words.take count) (words.drop count)
    rw [List.length_take, Nat.min_eq_left le] at below whole
    rw [List.take_append_drop] at whole
    rw [whole, Nat.add_mul_mod_self_left, Nat.mod_eq_of_lt below]
  · have grown : 2 ^ (64 * words.length) ≤ 2 ^ (64 * count) :=
      Nat.pow_le_pow_right (by decide) (Nat.mul_le_mul_left 64 le)
    have below := Nat.lt_of_lt_of_le (natOfWords_lt words) grown
    rw [List.take_of_length_le le, Nat.mod_eq_of_lt below]

theorem natOfWords_headD_tail (words : List UInt64) :
    natOfWords words = (words.headD 0).toNat + 2 ^ 64 * natOfWords words.tail := by
  cases words <;> simp

theorem all_zero_iff (words : List UInt64) :
    words.all (· == 0) = true ↔ natOfWords words = 0 := by
  induction words with
  | nil => simp
  | cons word rest ih =>
      rw [List.all_cons, Bool.and_eq_true, ih, beq_iff_eq, ← UInt64.toNat_inj, natOfWords_cons,
        UInt64.toNat_zero]
      omega

theorem natOfWords_dropHighZeros (words : List UInt64) :
    natOfWords (dropHighZeros words) = natOfWords words := by
  induction words with
  | nil => rfl
  | cons word rest ih =>
      rw [natOfWords_cons, ← ih, dropHighZeros]
      cases dropHighZeros rest with
      | nil => by_cases h : word = 0 <;> simp [h]
      | cons next above => rfl

theorem compare_toNat (x y : UInt64) : compare x y = compare x.toNat y.toNat := by
  simp [compare, compareOfLessAndEq, UInt64.lt_iff_toNat_lt, ← UInt64.toNat_inj]

theorem compareWords_eq (xs ys : List UInt64) :
    compareWords xs ys = compare (natOfWords xs) (natOfWords ys) := by
  induction xs generalizing ys with
  | nil =>
      rw [compareWords]
      by_cases h : natOfWords ys = 0
      · simp [(all_zero_iff ys).2 h, h]
      · have : ¬ys.all (· == 0) = true := fun all => h ((all_zero_iff ys).1 all)
        rw [if_neg this, natOfWords_nil, eq_comm, Nat.compare_eq_lt]
        omega
  | cons x xs ih =>
      have hx := x.toNat_lt
      have hy := (ys.headD 0).toNat_lt
      rw [compareWords, ih, natOfWords_headD_tail ys, natOfWords_cons, compare_toNat]
      generalize natOfWords xs = a, natOfWords ys.tail = b at *
      rcases Nat.lt_trichotomy a b with h | h | h
      · rw [Nat.compare_eq_lt.2 h, eq_comm]
        exact Nat.compare_eq_lt.2 (by omega)
      · subst h
        rw [Nat.compare_eq_eq.2 rfl, Ordering.eq_then]
        simp [Nat.compare_eq_ite_lt]
      · rw [Nat.compare_eq_gt.2 h, eq_comm]
        exact Nat.compare_eq_gt.2 (by omega)

theorem compare_eq (x y : Magnitude) : compare x y = compare x.toNat y.toNat :=
  compareWords_eq x.words y.words

theorem lt_iff (x y : Magnitude) : x < y ↔ x.toNat < y.toNat := by
  rw [← Nat.compare_eq_lt, ← compare_eq]
  rfl

theorem le_iff (x y : Magnitude) : x ≤ y ↔ x.toNat ≤ y.toNat := by
  rw [← Nat.isLE_compare, ← compare_eq]
  rfl

theorem beq_iff (x y : Magnitude) : (x == y) = true ↔ x.toNat = y.toNat := by
  rw [← Nat.compare_eq_eq, ← compare_eq]
  change (compare x y == .eq) = true ↔ _
  rw [beq_iff_eq]

theorem isZero_iff (x : Magnitude) : x.isZero = true ↔ x.toNat = 0 :=
  all_zero_iff x.words

theorem words_ne_nil {x : Magnitude} (h : x.toNat ≠ 0) : x.words ≠ [] := by
  intro none
  rw [toNat, none] at h
  exact h rfl

theorem toWord_eq {x : Magnitude} (stored : x.words ≠ []) :
    x.toWord = if x.toNat < 2 ^ 64 then .ok (UInt64.ofNat x.toNat) else breach .exceedsWord := by
  obtain ⟨_ | ⟨lowest, rest⟩⟩ := x
  · exact absurd rfl stored
  · have low := lowest.toNat_lt
    rw [toWord, toNat, natOfWords_cons]
    dsimp only
    by_cases single : natOfWords rest = 0
    · rw [(all_zero_iff _).2 single, single, Nat.mul_zero, Nat.add_zero, if_pos low,
        UInt64.ofNat_toNat]
      rfl
    · have more : rest.all (· == 0) = false := Bool.not_eq_true _ ▸ mt (all_zero_iff _).1 single
      rw [more, if_neg (by omega)]
      rfl

theorem toNat_lt (x : Magnitude) : x.toNat < 2 ^ (64 * x.size) :=
  natOfWords_lt x.words

@[simp] theorem toNat_trim (x : Magnitude) : x.trim.toNat = x.toNat := by
  obtain ⟨_ | ⟨lowest, rest⟩⟩ := x
  · rfl
  · exact congrArg (lowest.toNat + 2 ^ 64 * ·) (natOfWords_dropHighZeros rest)

@[simp] theorem toNat_extend (x : Magnitude) (size : Nat) : (x.extend size).toNat = x.toNat := by
  simp [extend, toNat, natOfWords_append]

theorem size_extend (x : Magnitude) (size : Nat) : (x.extend size).size = max x.size size := by
  rw [Magnitude.size, extend, List.length_append, List.length_replicate, Magnitude.size]
  omega

theorem le_size_extend (x : Magnitude) (size : Nat) : size ≤ (x.extend size).words.length := by
  have := size_extend x size
  rw [Magnitude.size] at this
  omega

@[simp] theorem toNat_ofWord (w : UInt64) : (ofWord w).toNat = w.toNat := by
  simp [ofWord, toNat]

theorem isZero_ofWord (w : UInt64) : (ofWord w).isZero = (w == 0) := by
  simp [ofWord, isZero]

theorem isZero_ofAbs (value : Int64) : (ofAbs value).isZero = (value == 0) := by
  have range := value.toInt_lt
  have range' := value.le_toInt
  have small : value.toInt.natAbs < 2 ^ 64 := by omega
  have zero : UInt64.ofNat value.toInt.natAbs = 0 ↔ value = 0 := by
    rw [← UInt64.toNat_inj, ← Int64.toInt_inj, UInt64.toNat_ofNat_of_lt' small]
    exact Int.natAbs_eq_zero
  rw [ofAbs, isZero_ofWord, Bool.eq_iff_iff, beq_iff_eq, beq_iff_eq, zero]

@[simp] theorem toNat_zero : zero.toNat = 0 := by
  simp [zero]

@[simp] theorem toNat_one : one.toNat = 1 := by
  simp [one]

@[simp] theorem toNat_ofWords (words : List UInt64) : (ofWords words).toNat = natOfWords words := by
  rw [ofWords, toNat_trim]
  cases words <;> simp [toNat]

end ExactFloat.Magnitude
