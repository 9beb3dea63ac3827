import ExactFloat.Magnitude.Arithmetic
import ExactFloat.Proofs.Magnitude.Value

/-!
# Sums, differences and products are those of the numbers

Carries and borrows account for everything that a column cannot hold. A difference is exact up to
the borrow that leaves it, and that borrow says which operand is larger. In a product every column
fits in two words.
-/

namespace ExactFloat.Magnitude

/-! ## Sums -/

theorem natOfWords_addWords (xs ys : List UInt64) (carry : Bool) (h : ys.length ≤ xs.length) :
    natOfWords (addWords xs ys carry) = natOfWords xs + natOfWords ys + carry.toNat := by
  induction xs generalizing ys carry with
  | nil =>
      obtain rfl : ys = [] := List.length_eq_zero_iff.1 (Nat.le_zero.1 h)
      cases carry <;> rfl
  | cons x xs ih =>
      have column := Word.toNat_addCarry x (ys.headD 0) carry
      have shorter : ys.tail.length ≤ xs.length := by
        rw [List.length_tail]
        exact Nat.sub_le_of_le_add h
      rw [addWords, natOfWords_cons, ih _ _ shorter, natOfWords_cons, natOfWords_headD_tail ys]
      omega

@[simp] theorem toNat_add (x y : Magnitude) : (x + y).toNat = x.toNat + y.toNat := by
  change natOfWords (addWords (x.extend y.size).words y.words false) = _
  rw [natOfWords_addWords _ _ _ (le_size_extend x y.size)]
  exact congrArg (· + y.toNat) (toNat_extend x y.size)

/-! ## Differences -/

theorem natOfWords_subWords (xs ys : List UInt64) (borrow : Bool) (h : ys.length ≤ xs.length) :
    natOfWords (subWords xs ys borrow).1 + natOfWords ys + borrow.toNat =
      natOfWords xs + 2 ^ (64 * xs.length) * (subWords xs ys borrow).2.toNat := by
  induction xs generalizing ys borrow with
  | nil =>
      obtain rfl : ys = [] := List.length_eq_zero_iff.1 (Nat.le_zero.1 h)
      simp [subWords]
  | cons x xs ih =>
      have column := Word.toNat_subBorrow x (ys.headD 0) borrow
      have shorter : ys.tail.length ≤ xs.length := by
        rw [List.length_tail]
        exact Nat.sub_le_of_le_add h
      have rest := ih ys.tail (Word.subBorrow x (ys.headD 0) borrow).2 shorter
      rw [subWords, natOfWords_cons, natOfWords_cons, natOfWords_headD_tail ys, List.length_cons,
        Nat.mul_succ, Nat.pow_add, Nat.mul_comm (2 ^ (64 * xs.length)), Nat.mul_assoc]
      dsimp only
      omega

theorem length_subWords (xs ys : List UInt64) (borrow : Bool) :
    (subWords xs ys borrow).1.length = xs.length := by
  induction xs generalizing ys borrow with
  | nil => rfl
  | cons x xs ih => simp [subWords, ih]

/-- A wrapped difference is too large by the number that the stored words cannot hold. -/
theorem toNat_subBorrow (x y : Magnitude) :
    (x.subBorrow y).1.toNat + y.toNat =
      x.toNat + 2 ^ (64 * max x.size y.size) * (x.subBorrow y).2.toNat := by
  have difference :=
    natOfWords_subWords (x.extend y.size).words y.words false (le_size_extend x y.size)
  rw [← size_extend, subBorrow, toNat_trim, ← toNat_extend x y.size]
  exact difference

theorem subBorrow_snd (x y : Magnitude) : (x.subBorrow y).2 = decide (x.toNat < y.toNat) := by
  have difference := toNat_subBorrow x y
  have below : (x.subBorrow y).1.toNat < 2 ^ (64 * max x.size y.size) := by
    have words := natOfWords_lt (subWords (x.extend y.size).words y.words false).1
    rw [length_subWords] at words
    rw [← size_extend, subBorrow, toNat_trim]
    exact words
  have fits := toNat_lt x
  cases h : (x.subBorrow y).2 with
  | false =>
      rw [h, Bool.toNat_false, Nat.mul_zero] at difference
      rw [eq_comm, decide_eq_false_iff_not]
      omega
  | true =>
      rw [h, Bool.toNat_true, Nat.mul_one] at difference
      rw [eq_comm, decide_eq_true_iff]
      omega

theorem subBorrow_of_le {x y : Magnitude} (h : y.toNat ≤ x.toNat) :
    (x.subBorrow y).2 = false ∧ (x.subBorrow y).1.toNat + y.toNat = x.toNat := by
  have noBorrow : (x.subBorrow y).2 = false := by
    rw [subBorrow_snd, decide_eq_false_iff_not, Nat.not_lt]
    exact h
  have difference := toNat_subBorrow x y
  rw [noBorrow, Bool.toNat_false, Nat.mul_zero, Nat.add_zero] at difference
  exact ⟨noBorrow, difference⟩

/-- Sums are exact. A difference borrows from above the words of the longer operand exactly if it
would be negative, and is exact but for what it borrowed. So taking away what was added leaves no
borrow and gives the number back, and so does adding what was taken away from a number that is large
enough. -/
theorem add_subBorrow (x y : Magnitude) :
    (x + y).toNat = x.toNat + y.toNat ∧
    ((x.subBorrow y).2 = true ↔ x.toNat < y.toNat) ∧
    ((x.subBorrow y).1.toNat : Int) = x.toNat - y.toNat +
      (if (x.subBorrow y).2 then 2 ^ (64 * max x.size y.size) else 0) ∧
    ((x + y).subBorrow y).2 = false ∧ ((x + y).subBorrow y).1.toNat = x.toNat ∧
    (y.toNat ≤ x.toNat →
      (x.subBorrow y).2 = false ∧ ((x.subBorrow y).1 + y).toNat = x.toNat) := by
  have sum := toNat_add x y
  have larger : y.toNat ≤ (x + y).toNat := by
    rw [sum]
    exact Nat.le_add_left _ _
  obtain ⟨noBorrow, restored⟩ := subBorrow_of_le larger
  refine ⟨sum, ?_, ?_, noBorrow, ?_, fun le => ?_⟩
  · rw [subBorrow_snd, decide_eq_true_iff]
  · have difference := toNat_subBorrow x y
    cases borrow : (x.subBorrow y).2 with
    | false =>
        rw [borrow, Bool.toNat_false, Nat.mul_zero] at difference
        rw [if_neg Bool.false_ne_true]
        omega
    | true =>
        rw [borrow, Bool.toNat_true, Nat.mul_one] at difference
        rw [if_pos rfl]
        zify at difference
        linarith
  · rw [sum] at restored
    exact Nat.add_right_cancel restored
  · obtain ⟨noBorrow, difference⟩ := subBorrow_of_le le
    rw [toNat_add]
    exact ⟨noBorrow, difference⟩

/-- A borrow runs through two words of zeros, and the carry runs back through two words of ones. -/
theorem add_subBorrow_of_ripple :
    let x : Magnitude := ⟨[0, 0, 1]⟩
    let y : Magnitude := ⟨[1, 0, 0, 0]⟩
    y.toNat ≤ x.toNat ∧ (x.subBorrow y).1 = ⟨[0xffffffffffffffff, 0xffffffffffffffff]⟩ ∧
      (x.subBorrow y).2 = false ∧ ((x.subBorrow y).1 + y).toNat = x.toNat := by
  intro x y
  have le : y.toNat ≤ x.toNat := by decide
  have difference : (x.subBorrow y).1 = ⟨[0xffffffffffffffff, 0xffffffffffffffff]⟩ := by decide
  obtain ⟨-, -, -, -, -, restored⟩ := add_subBorrow x y
  exact ⟨le, difference, restored le⟩

/-! ## Products -/

theorem drop_addRow (x : UInt64) (ys written : List UInt64) (carry : Nat) :
    (addRow x ys written carry).drop (ys.length + 1) = written.drop (ys.length + 1) := by
  induction ys generalizing written carry with
  | nil => simp [addRow]
  | cons y ys ih => simp only [addRow, List.length_cons, List.drop_succ_cons, ih, List.drop_tail]

theorem natOfWords_addRow (x : UInt64) (ys written : List UInt64) (carry : Nat)
    (fresh : (written.drop ys.length).headD 0 = 0) (small : carry < 2 ^ 64) :
    natOfWords (addRow x ys written carry) =
      natOfWords written + x.toNat * natOfWords ys + carry := by
  induction ys generalizing written carry with
  | nil =>
      have above : written.headD 0 = 0 := fresh
      rw [addRow, natOfWords_cons, natOfWords_headD_tail written, above, Word.low,
        UInt64.toNat_ofNat', Nat.mod_eq_of_lt small, natOfWords_nil, UInt64.toNat_zero]
      omega
  | cons y ys ih =>
      have split := Word.low_add_high (Word.column (written.headD 0) x y carry)
      have carried := Word.high_lt (Word.column_lt (written.headD 0) x y small)
      rw [List.length_cons, ← List.drop_tail] at fresh
      rw [addRow, natOfWords_cons, ih _ _ fresh carried, natOfWords_cons,
        natOfWords_headD_tail written, Nat.mul_add x.toNat, Nat.mul_left_comm x.toNat]
      simp only [Word.column] at split ⊢
      omega

theorem natOfWords_addRows (xs ys written : List UInt64)
    (fresh : natOfWords (written.drop ys.length) = 0) :
    natOfWords (addRows xs ys written) =
      natOfWords written + natOfWords xs * natOfWords ys := by
  induction xs generalizing written with
  | nil => simp [addRows]
  | cons x xs ih =>
      have unwritten := natOfWords_headD_tail (written.drop ys.length)
      rw [fresh, List.tail_drop] at unwritten
      have here : (written.drop ys.length).headD 0 = 0 :=
        UInt64.toNat_inj.1 (by rw [UInt64.toNat_zero]; omega)
      have above : natOfWords ((addRow x ys written 0).tail.drop ys.length) = 0 := by
        rw [List.drop_tail, drop_addRow]
        omega
      have row := natOfWords_addRow x ys written 0 here (by decide)
      rw [natOfWords_headD_tail] at row
      rw [addRows, natOfWords_cons, ih _ above, natOfWords_cons, Nat.add_mul, Nat.mul_assoc]
      omega

@[simp] theorem toNat_mul (x y : Magnitude) : (x * y).toNat = x.toNat * y.toNat := by
  change (trim _).toNat = _
  rw [toNat_trim]
  change natOfWords (addRows _ _ _) = _
  rw [natOfWords_addRows _ _ _ (by simp)]
  simp [toNat]

/-! ## The accumulator of a product -/

/-- The carry that a row hands on behind the columns of `ys`. -/
def carryOut (x : UInt64) : (ys written : List UInt64) → (carry : Nat) → Nat
  | [], _, carry => carry
  | y :: ys, written, carry =>
      carryOut x ys written.tail (Word.high (Word.column (written.headD 0) x y carry))

theorem carryOut_lt (x : UInt64) (ys written : List UInt64) {carry : Nat} (small : carry < 2 ^ 64) :
    carryOut x ys written carry < 2 ^ 64 := by
  induction ys generalizing written carry with
  | nil => exact small
  | cons y ys ih =>
      exact ih written.tail (Word.high_lt (Word.column_lt (written.headD 0) x y small))

theorem addRow_append (x : UInt64) (lower upper written : List UInt64) (carry : Nat) :
    addRow x (lower ++ upper) written carry =
      (addRow x lower written carry).take lower.length ++
        addRow x upper (written.drop lower.length) (carryOut x lower written carry) := by
  induction lower generalizing written carry with
  | nil => rfl
  | cons y lower ih =>
      simp only [List.cons_append, addRow, List.length_cons, List.take_succ_cons, carryOut, ih,
        List.drop_tail]

theorem addRows_append (lower upper ys written : List UInt64) :
    addRows (lower ++ upper) ys written =
      (addRows lower ys written).take lower.length ++
        addRows upper ys ((addRows lower ys written).drop lower.length) := by
  induction lower generalizing written with
  | nil => rfl
  | cons x lower ih =>
      simp only [List.cons_append, addRows, List.length_cons, List.take_succ_cons,
        List.drop_succ_cons, ih]

theorem drop_addRows (xs ys written : List UInt64) :
    (addRows xs ys written).drop (xs.length + ys.length) =
      written.drop (xs.length + ys.length) := by
  induction xs generalizing written with
  | nil => rfl
  | cons x xs ih =>
      have above := congrArg (List.drop xs.length) (drop_addRow x ys written 0)
      have count : ys.length + 1 + xs.length = xs.length + ys.length + 1 := by omega
      have count' : xs.length + 1 + ys.length = xs.length + ys.length + 1 := by omega
      rw [List.drop_drop, List.drop_drop, count] at above
      rw [addRows, List.length_cons, count', List.drop_succ_cons, ih, List.drop_tail, above]

/-- One word of a number, with the words below and above it. -/
structure Position (x : Magnitude) where
  lower : List UInt64
  word : UInt64
  upper : List UInt64
  words : x.words = lower ++ word :: upper

namespace Position

variable {x y : Magnitude} (i : x.Position) (j : y.Position)

def rowsBelow (y : Magnitude) (initial : List UInt64) : List UInt64 :=
  addRows i.lower y.words initial

/-- The words that the row of this word finds, from its first column on, in the product with `y`. -/
def rowWords (y : Magnitude) : List UInt64 :=
  (i.rowsBelow y (List.replicate (x.size + y.size) 0)).drop i.lower.length

/-- The carry that leaves the row. -/
def rowCarry (y : Magnitude) : Nat :=
  carryOut i.word y.words (i.rowWords y) 0

def carry : Nat :=
  carryOut i.word j.lower (i.rowWords y) 0

def accumulator : Nat :=
  Word.column ((i.rowWords y).getD j.lower.length 0) i.word j.word (i.carry j)

theorem drop_rowsBelow (y : Magnitude) (initial : List UInt64) :
    (i.rowsBelow y initial).drop (i.lower.length + y.size) =
      initial.drop (i.lower.length + y.size) :=
  drop_addRows i.lower y.words initial

theorem drop_rowWords (y : Magnitude) :
    (i.rowWords y).drop y.size = List.replicate (i.upper.length + 1) 0 := by
  have rows : x.size = i.lower.length + (i.upper.length + 1) := by
    rw [size, i.words, List.length_append, List.length_cons]
  have rest : x.size + y.size - (i.lower.length + y.size) = i.upper.length + 1 := by omega
  rw [rowWords, List.drop_drop, drop_rowsBelow, List.drop_replicate, rest]

/-- What holds in the row of a word. Together with the columns that follow, `start` and `finish` say
that the words and carries above are those that the product runs through. -/
structure RowFits (y : Magnitude) : Prop where
  start : addRows x.words y.words (List.replicate (x.size + y.size) 0) =
    (i.rowsBelow y (List.replicate (x.size + y.size) 0)).take i.lower.length ++
      addRows (i.word :: i.upper) y.words (i.rowWords y)
  /-- No row below has written the word that takes the carry, or one above it. -/
  unwritten : ∀ initial, (i.rowsBelow y initial).drop (i.lower.length + y.size) =
    initial.drop (i.lower.length + y.size)
  fresh : (i.rowWords y).drop y.size = List.replicate (i.upper.length + 1) 0
  carry_lt : i.rowCarry y < 2 ^ 64
  finish : addRow i.word y.words (i.rowWords y) 0 =
    (addRow i.word y.words (i.rowWords y) 0).take y.size ++
      Word.low (i.rowCarry y) :: List.replicate i.upper.length 0

theorem rowFits (y : Magnitude) : i.RowFits y where
  start := by
    rw [rowWords, rowsBelow, ← addRows_append, ← i.words]
  unwritten := i.drop_rowsBelow y
  fresh := i.drop_rowWords y
  carry_lt := carryOut_lt i.word y.words (i.rowWords y) (by decide)
  finish := by
    have last := addRow_append i.word y.words [] (i.rowWords y) 0
    have above := i.drop_rowWords y
    rw [size] at above ⊢
    rw [List.append_nil, above, addRow] at last
    exact last

/-- What holds in a column of the row: the row runs through it, and it overflows nothing. -/
structure ColumnFits : Prop where
  run : addRow i.word y.words (i.rowWords y) 0 =
    (addRow i.word j.lower (i.rowWords y) 0).take j.lower.length ++
      Word.low (i.accumulator j) ::
        addRow i.word j.upper ((i.rowWords y).drop (j.lower.length + 1))
          (Word.high (i.accumulator j))
  carry_lt : i.carry j < 2 ^ 64
  accumulator_lt : i.accumulator j < 2 ^ 128

theorem columnFits : i.ColumnFits j where
  run := by
    have column : (i.rowWords y).getD j.lower.length 0 =
        ((i.rowWords y).drop j.lower.length).headD 0 := by
      rw [List.headD_eq_head?_getD, List.head?_drop, List.getD_eq_getElem?_getD]
    conv_lhs => rw [j.words]
    rw [addRow_append, addRow, List.tail_drop, accumulator, column]
    rfl
  carry_lt := carryOut_lt i.word j.lower (i.rowWords y) (by decide)
  accumulator_lt := Word.column_lt _ i.word j.word (carryOut_lt i.word j.lower _ (by decide))

end Position

/-- Products are exact, and no column of a product overflows: whatever the words are, it fits in two
words and hands on a carry that fits in one. The carry that leaves a row goes to a word that is zero
as at the start, for no row below has come so far. -/
theorem mul_exact (x y : Magnitude) :
    (x * y).toNat = x.toNat * y.toNat ∧
    (∀ (written a b : UInt64) (carry : Nat), carry < 2 ^ 64 →
      Word.column written a b carry < 2 ^ 128 ∧
        Word.high (Word.column written a b carry) < 2 ^ 64) ∧
    ∀ i : x.Position, i.RowFits y ∧ ∀ j : y.Position, i.ColumnFits j := by
  refine ⟨toNat_mul x y, fun written a b carry small => ?_, fun i => ⟨i.rowFits y, i.columnFits⟩⟩
  have fits := Word.column_lt written a b small
  exact ⟨fits, Word.high_lt fits⟩

/-- Where all bits are set, the second column of the second row leaves the accumulator no room. -/
theorem mul_exact_of_ones :
    let ones : UInt64 := 0xffffffffffffffff
    let x : Magnitude := ⟨[ones, ones, 0]⟩
    let y : Magnitude := ⟨[ones, ones, ones]⟩
    let i : x.Position := ⟨[ones], ones, [0], rfl⟩
    let j : y.Position := ⟨[ones], ones, [ones], rfl⟩
    (x * y).toNat = (2 ^ 128 - 1) * (2 ^ 192 - 1) ∧
      2 ^ 64 - 1 < 2 ^ 64 ∧ Word.column ones ones ones (2 ^ 64 - 1) < 2 ^ 128 ∧
      i.accumulator j = 2 ^ 128 - 1 ∧ i.ColumnFits j ∧ (i.rowWords y).drop y.size = [0, 0] := by
  intro ones x y i j
  obtain ⟨product, column, places⟩ := mul_exact x y
  obtain ⟨row, columns⟩ := places i
  have value : x.toNat * y.toNat = (2 ^ 128 - 1) * (2 ^ 192 - 1) := by decide
  have small : 2 ^ 64 - 1 < 2 ^ 64 := by decide
  have full : i.accumulator j = 2 ^ 128 - 1 := by decide
  exact ⟨product.trans value, small, (column ones ones ones _ small).1, full, columns j, row.fresh⟩

end ExactFloat.Magnitude
