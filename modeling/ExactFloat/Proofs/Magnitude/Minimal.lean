import ExactFloat.Proofs.Magnitude.Arithmetic

/-!
# The number alone decides which words are stored

Where no zero word is on top, the highest word places the number between two powers of the radix.
So minimal magnitudes of the same number have equally many words, and then the same ones. What has
a word is minimal once trimmed, and so are sums of minimal magnitudes.
-/

namespace ExactFloat.Magnitude

/-! ## Uniqueness -/

theorem natOfWords_inj {xs ys : List UInt64} (length : xs.length = ys.length)
    (h : natOfWords xs = natOfWords ys) : xs = ys := by
  induction xs generalizing ys with
  | nil => exact (List.length_eq_zero_iff.1 length.symm).symm
  | cons x xs ih =>
      cases ys with
      | nil => simp at length
      | cons y ys =>
          have xLt := x.toNat_lt
          have yLt := y.toNat_lt
          rw [natOfWords_cons, natOfWords_cons] at h
          have word : x = y := UInt64.toNat_inj.1 (by omega)
          have rest : xs = ys := ih (Nat.succ_inj.1 length) (by omega)
          rw [word, rest]

theorem getLast_ne_zero_iff {words : List UInt64} (stored : words ≠ []) :
    words.getLast? ≠ some 0 ↔ 2 ^ (64 * (words.length - 1)) ≤ natOfWords words := by
  obtain ⟨lower, last, rfl⟩ := words.eq_nil_or_concat'.resolve_left stored
  have below := natOfWords_lt lower
  rw [List.getLast?_concat, ne_eq, Option.some_inj, natOfWords_append, natOfWords_cons,
    natOfWords_nil, List.length_append, List.length_singleton, Nat.add_sub_cancel,
    ← UInt64.toNat_inj, UInt64.toNat_zero, Nat.mul_zero, Nat.add_zero]
  constructor
  · intro nonzero
    exact Nat.le_add_left_of_le (Nat.le_mul_of_pos_right _ (Nat.pos_of_ne_zero nonzero))
  · intro le zero
    rw [zero, Nat.mul_zero, Nat.add_zero] at le
    exact Nat.not_lt.2 le below

/-- A minimal magnitude stores a single word, or no more words than the number needs. -/
theorem minimal_iff {x : Magnitude} :
    x.Minimal ↔ x.size = 1 ∨ x.size ≠ 0 ∧ 2 ^ (64 * (x.size - 1)) ≤ x.toNat := by
  unfold Minimal size toNat
  rw [ne_eq, ← List.length_eq_zero_iff]
  apply or_congr_right
  apply and_congr_right
  intro stored
  exact getLast_ne_zero_iff (mt List.length_eq_zero_iff.2 stored)

theorem Minimal.size_pos {x : Magnitude} (h : x.Minimal) : 0 < x.size := by
  rcases minimal_iff.1 h with single | ⟨stored, -⟩ <;> omega

theorem Minimal.size_le {x y : Magnitude} (hx : x.Minimal) (hy : y.Minimal)
    (h : x.toNat = y.toNat) : x.size ≤ y.size := by
  rcases minimal_iff.1 hx with single | ⟨-, needed⟩
  · rw [single]
    exact hy.size_pos
  · apply Nat.le_of_not_lt
    intro more
    have below := toNat_lt y
    have grown : 2 ^ (64 * y.size) ≤ 2 ^ (64 * (x.size - 1)) :=
      Nat.pow_le_pow_right (by decide) (by omega)
    omega

theorem Minimal.eq_of_toNat_eq {x y : Magnitude} (hx : x.Minimal) (hy : y.Minimal)
    (h : x.toNat = y.toNat) : x = y := by
  have size := Nat.le_antisymm (hx.size_le hy h) (hy.size_le hx h.symm)
  obtain ⟨xs⟩ := x
  obtain ⟨ys⟩ := y
  exact congrArg Magnitude.mk (natOfWords_inj size h)

/-! ## Results -/

theorem minimal_ofWord (w : UInt64) : (ofWord w).Minimal :=
  .inl rfl

theorem getLast_dropHighZeros (words : List UInt64) :
    (dropHighZeros words).getLast? ≠ some 0 := by
  induction words with
  | nil => simp [dropHighZeros]
  | cons word rest ih =>
      rw [dropHighZeros]
      cases kept : dropHighZeros rest with
      | nil => by_cases zero : word = 0 <;> simp [zero]
      | cons next above =>
          rw [kept] at ih
          rwa [List.getLast?_cons_cons]

theorem minimal_trim {x : Magnitude} (stored : x.words ≠ []) : x.trim.Minimal := by
  obtain ⟨_ | ⟨lowest, rest⟩⟩ := x
  · exact absurd rfl stored
  · have last := getLast_dropHighZeros rest
    change (⟨lowest :: dropHighZeros rest⟩ : Magnitude).Minimal
    cases kept : dropHighZeros rest with
    | nil => exact .inl rfl
    | cons word above =>
        rw [kept] at last
        refine .inr ⟨List.cons_ne_nil _ _, ?_⟩
        rwa [List.getLast?_cons_cons]

/-- A sum has as many words as columns, or a carry makes it need one more. -/
theorem length_addWords (xs ys : List UInt64) (carry : Bool) :
    (addWords xs ys carry).length = xs.length ∨
      (addWords xs ys carry).length = xs.length + 1 ∧
        2 ^ (64 * xs.length) ≤ natOfWords (addWords xs ys carry) := by
  induction xs generalizing ys carry with
  | nil => cases carry <;> simp [addWords]
  | cons x xs ih =>
      rw [addWords, List.length_cons, List.length_cons, natOfWords_cons, Nat.mul_succ, Nat.pow_add]
      rcases ih ys.tail (Word.addCarry x (ys.headD 0) carry).2 with same | ⟨longer, needed⟩
      · exact .inl (congrArg Nat.succ same)
      · exact .inr ⟨congrArg Nat.succ longer, by omega⟩

theorem Minimal.add {x y : Magnitude} (hx : x.Minimal) (hy : y.Minimal) : (x + y).Minimal := by
  have value := toNat_add x y
  have columns := size_extend x y.size
  have length := length_addWords (x.extend y.size).words y.words false
  change (x + y).size = (x.extend y.size).size ∨
    (x + y).size = (x.extend y.size).size + 1 ∧
      2 ^ (64 * (x.extend y.size).size) ≤ (x + y).toNat at length
  rw [columns] at length
  rw [minimal_iff] at hx hy ⊢
  rcases length with same | ⟨longer, needed⟩
  · rcases Nat.le_total x.size y.size with le | le
    · rw [same, Nat.max_eq_right le]
      omega
    · rw [same, Nat.max_eq_left le]
      omega
  · right
    rw [longer, Nat.add_sub_cancel]
    exact ⟨Nat.succ_ne_zero _, needed⟩

end ExactFloat.Magnitude
