import ExactFloat.Proofs.Magnitude.Arithmetic
import ExactFloat.Proofs.Magnitude.Bits
import ExactFloat.Proofs.Magnitude.Shift
import ExactFloat.Tail

/-!
# Tails are classified exactly

What is cut off is a part of one unit, a rational number from zero up to one. The tail of a
division remainder, of the lowest bits and of one behind the other is the class of that number.
-/

namespace ExactFloat.Tail

/-- The class of a part of a unit. -/
def ofPart (t : ℚ) : Tail :=
  if t = 0 then empty
  else if t < 1 / 2 then belowHalf
  else if t = 1 / 2 then half
  else aboveHalf

@[simp] theorem ofPart_zero : ofPart 0 = empty := rfl

theorem ofPart_eq_empty {t : ℚ} : ofPart t = empty ↔ t = 0 := by
  unfold ofPart
  split_ifs <;> simp_all

theorem ofPart_of_lt {t : ℚ} (pos : 0 < t) (h : t < 1 / 2) : ofPart t = belowHalf := by
  rw [ofPart, if_neg (ne_of_gt pos), if_pos h]

theorem ofPart_half : ofPart (1 / 2) = half := by
  norm_num [ofPart]

theorem ofPart_of_gt {t : ℚ} (h : 1 / 2 < t) : ofPart t = aboveHalf := by
  have pos : t ≠ 0 := by
    rintro rfl
    norm_num at h
  rw [ofPart, if_neg pos, if_neg (not_lt.2 (le_of_lt h)), if_neg (ne_of_gt h)]

/-! ## Division remainders -/

/-- A part given by whole numbers is compared with a half by doubling. -/
theorem ofPart_div (part : Nat) {whole : Nat} (pos : 0 < whole) :
    ofPart (part / whole) =
      if part = 0 then empty
      else if 2 * part < whole then belowHalf
      else if 2 * part = whole then half
      else aboveHalf := by
  have wholePos : (0 : ℚ) < whole := Nat.cast_pos.2 pos
  by_cases zero : part = 0
  · simp [zero]
  have partPos : (0 : ℚ) < part := Nat.cast_pos.2 (Nat.pos_of_ne_zero zero)
  rw [if_neg zero]
  rcases Nat.lt_trichotomy (2 * part) whole with lt | eq | gt
  · have double : (2 : ℚ) * part < whole := by exact_mod_cast lt
    rw [if_pos lt]
    apply ofPart_of_lt (div_pos partPos wholePos)
    rw [div_lt_iff₀ wholePos]
    linarith
  · have double : (2 : ℚ) * part = whole := by exact_mod_cast eq
    rw [if_neg (Nat.not_lt.2 (Nat.le_of_eq eq.symm)), if_pos eq, ← double,
      div_mul_cancel_right₀ (ne_of_gt partPos), ← one_div, ofPart_half]
  · have double : (whole : ℚ) < 2 * part := by exact_mod_cast gt
    rw [if_neg (Nat.lt_asymm gt), if_neg (Nat.ne_of_gt gt)]
    apply ofPart_of_gt
    rw [lt_div_iff₀ wholePos]
    linarith

theorem ofRemainder_eq (part : Magnitude) {whole : Magnitude} (h : whole.toNat ≠ 0) :
    ofRemainder part whole = ofPart (part.toNat / whole.toNat) := by
  rw [ofPart_div part.toNat (Nat.pos_of_ne_zero h), ofRemainder, Magnitude.compare_eq,
    Magnitude.toNat_shiftLeft, pow_one, Nat.mul_comm]
  simp only [Magnitude.isZero_iff]
  rcases Nat.lt_trichotomy (2 * part.toNat) whole.toNat with lt | eq | gt
  · simp [Nat.compare_eq_lt.2 lt, lt]
  · simp [eq]
  · simp [Nat.compare_eq_gt.2 gt, Nat.lt_asymm gt, Nat.ne_of_gt gt]

/-! ## Bits -/

theorem ofPart_clear {rest i : Nat} (below : rest < 2 ^ i) :
    ofPart (rest / (2 ^ (i + 1) : Nat)) = if rest = 0 then empty else belowHalf := by
  have small : 2 * rest < 2 ^ (i + 1) := by
    rw [pow_succ]
    omega
  rw [ofPart_div rest (Nat.two_pow_pos (i + 1)), if_pos small]

theorem ofPart_set (rest i : Nat) :
    ofPart ((rest + 2 ^ i : Nat) / (2 ^ (i + 1) : Nat)) =
      if rest = 0 then half else aboveHalf := by
  have pos := Nat.two_pow_pos i
  have reached : ¬2 * (rest + 2 ^ i) < 2 ^ (i + 1) := by
    rw [pow_succ]
    omega
  have exact_iff : 2 * (rest + 2 ^ i) = 2 ^ (i + 1) ↔ rest = 0 := by
    rw [pow_succ]
    omega
  rw [ofPart_div _ (Nat.two_pow_pos (i + 1)), if_neg (by omega), if_neg reached]
  simp only [exact_iff]

/-- The highest bit of the tail says whether it reaches a half, the lowest set bit of the number
whether there is anything below that bit. -/
theorem tailBelow_eq (x : Magnitude) (bits : Nat) :
    x.tailBelow bits = ofPart ((x.toNat % 2 ^ bits : Nat) / (2 ^ bits : Nat)) := by
  unfold Magnitude.tailBelow
  cases low : x.lowestBit? with
  | none => simp [Magnitude.lowestBit_eq_none.1 low]
  | some lowest =>
      cases bits with
      | zero => simp [Nat.mod_one]
      | succ i =>
          have empty_iff (bits : Nat) : x.toNat % 2 ^ bits = 0 ↔ bits ≤ lowest :=
            Nat.dvd_iff_mod_eq_zero.symm.trans (Magnitude.two_pow_dvd_iff low bits)
          have split : x.toNat % 2 ^ (i + 1) = x.toNat % 2 ^ i + 2 ^ i * (x.toNat / 2 ^ i % 2) :=
            Nat.mod_pow_succ
          have whole := empty_iff (i + 1)
          rw [split] at whole ⊢
          rw [Magnitude.testBit_eq, Nat.add_sub_cancel, Nat.testBit_eq_decide_div_mod_eq]
          -- The remainder falls into its highest bit and what is below that.
          rcases Nat.mod_two_eq_zero_or_one (x.toNat / 2 ^ i) with clear | set
          · simp only [clear, Nat.mul_zero, Nat.add_zero] at whole ⊢
            rw [ofPart_clear (Nat.mod_lt _ (Nat.two_pow_pos i))]
            simp [whole]
          · rw [set, Nat.mul_one] at whole ⊢
            have some : ¬i + 1 ≤ lowest := fun none => by
              have := whole.2 none
              have := Nat.two_pow_pos i
              omega
            rw [ofPart_set]
            by_cases exact : i ≤ lowest
            · simp [some, empty_iff, exact, Nat.not_lt.2 exact]
            · simp [some, empty_iff, exact, Nat.lt_of_not_le exact]

/-! ## Tails behind tails -/

theorem join_of_ne_empty (upper : Tail) {lower : Tail} (h : lower ≠ empty) :
    join upper lower =
      if upper = empty then belowHalf else if upper = half then aboveHalf else upper := by
  cases lower
  case empty => exact absurd rfl h
  all_goals cases upper <;> rfl

/-- What lies below the last bit of a tail counts only if that tail ends at zero or at a half. -/
theorem join_ofPart (upper bits : Nat) {t : ℚ} (nonneg : 0 ≤ t) (below : t < 1) :
    join (ofPart (upper / (2 ^ (bits + 1) : Nat))) (ofPart t) =
      ofPart ((upper + t) / (2 ^ (bits + 1) : Nat)) := by
  have unit : ((2 ^ (bits + 1) : Nat) : ℚ) = 2 * (2 ^ bits : Nat) := by
    push_cast
    ring
  have halfPos : (0 : ℚ) < (2 ^ bits : Nat) := Nat.cast_pos.2 (Nat.two_pow_pos bits)
  rw [unit]
  generalize 2 ^ bits = h at halfPos
  have unitPos : (0 : ℚ) < 2 * h := by linarith
  rcases eq_or_lt_of_le nonneg with rfl | pos
  · simp [join]
  have someLower : ofPart t ≠ empty := fun e => (ne_of_gt pos) (ofPart_eq_empty.1 e)
  rw [join_of_ne_empty _ someLower]
  -- Only where the upper bits make up exactly a half does `t` change their class.
  rcases Nat.lt_trichotomy upper h with less | rfl | more
  · have room : (upper : ℚ) + 1 ≤ h := by exact_mod_cast less
    have whole : ofPart ((upper + t) / (2 * h)) = belowHalf := by
      apply ofPart_of_lt
      · exact div_pos (by positivity) unitPos
      · rw [div_lt_iff₀ unitPos]
        linarith
    rw [whole]
    by_cases zero : upper = 0
    · simp [zero]
    · rw [ofPart_of_lt]
      · rfl
      · exact div_pos (Nat.cast_pos.2 (Nat.pos_of_ne_zero zero)) unitPos
      · rw [div_lt_iff₀ unitPos]
        linarith
  · have whole : ofPart ((upper + t) / (2 * upper)) = aboveHalf := by
      apply ofPart_of_gt
      rw [lt_div_iff₀ unitPos]
      linarith
    rw [whole, div_mul_cancel_right₀ (ne_of_gt halfPos), ← one_div, ofPart_half]
    rfl
  · have room : (h : ℚ) + 1 ≤ upper := by exact_mod_cast more
    rw [ofPart_of_gt, ofPart_of_gt]
    · rfl
    · rw [lt_div_iff₀ unitPos]
      linarith
    · rw [lt_div_iff₀ unitPos]
      linarith

/-- Where the lowest bits of a quotient are cut off as well, their tail and that of the remainder
below them make the tail of the dividend. -/
theorem join_mod (n bits : Nat) {unit : Nat} (pos : 0 < unit) :
    join (ofPart ((n / unit % 2 ^ (bits + 1) : Nat) / (2 ^ (bits + 1) : Nat)))
        (ofPart ((n % unit : Nat) / unit)) =
      ofPart ((n % (unit * 2 ^ (bits + 1)) : Nat) / (unit * 2 ^ (bits + 1) : Nat)) := by
  have unitPos : (0 : ℚ) < unit := Nat.cast_pos.2 pos
  have below : ((n % unit : Nat) / unit : ℚ) < 1 := by
    rw [div_lt_one unitPos]
    exact_mod_cast Nat.mod_lt n pos
  rw [join_ofPart _ bits (by positivity) below, Nat.mod_mul]
  congr 1
  push_cast
  field_simp
  ring

/-- The tail of the lowest bits is the class of their part of a unit. Behind at least one bit,
tails compose: the lowest bits of a quotient and its remainder make the tail of the dividend, and
the lowest bits of a shifted number and the bits that it lost make the tail of the number. -/
theorem tail_exact (n : Magnitude) (bits : Nat) :
    n.tailBelow bits = ofPart ((n.toNat % 2 ^ bits : Nat) / (2 ^ bits : Nat)) ∧
    ∀ upper, 0 < upper →
      (∀ d q r : Magnitude, d.toNat ≠ 0 → q.toNat = n.toNat / d.toNat →
        r.toNat = n.toNat % d.toNat →
        join (q.tailBelow upper) (ofRemainder r d) =
          ofPart ((n.toNat % (d.toNat * 2 ^ upper) : Nat) / (d.toNat * 2 ^ upper : Nat))) ∧
      n.tailBelow (upper + bits) = join ((n >>> bits).tailBelow upper) (n.tailBelow bits) := by
  refine ⟨tailBelow_eq n bits, fun upper pos => ?_⟩
  obtain ⟨upper, rfl⟩ := Nat.exists_eq_succ_of_ne_zero (Nat.ne_of_gt pos)
  constructor
  · intro d q r nonzero quotient remainder
    rw [tailBelow_eq, ofRemainder_eq r nonzero, quotient, remainder]
    exact join_mod n.toNat upper (Nat.pos_of_ne_zero nonzero)
  · rw [tailBelow_eq, tailBelow_eq, tailBelow_eq, Magnitude.toNat_shiftRight, Nat.add_comm, pow_add]
    exact (join_mod n.toNat upper (Nat.two_pow_pos bits)).symm

/-- Thirteen by four, which has a zero word on top, is three, the remainder one. A half and a
quarter of its last place are five eighths. -/
theorem tail_exact_of_thirteen_quarters :
    let n : Magnitude := .ofWord 13
    let d : Magnitude := ⟨[4, 0]⟩
    let q : Magnitude := .ofWord 3
    d.toNat ≠ 0 ∧ q.toNat = n.toNat / d.toNat ∧ Magnitude.one.toNat = n.toNat % d.toNat ∧
      join (q.tailBelow 1) (ofRemainder .one d) = ofPart ((5 : Nat) / (8 : Nat)) ∧
      n.tailBelow (1 + 2) = join ((n >>> 2).tailBelow 1) (n.tailBelow 2) := by
  intro n d q
  have nonzero : d.toNat ≠ 0 := by decide
  have quotient : q.toNat = n.toNat / d.toNat := by decide
  have remainder : Magnitude.one.toNat = n.toNat % d.toNat := by decide
  have part : n.toNat % (d.toNat * 2 ^ 1) = 5 := by decide
  have whole : d.toNat * 2 ^ 1 = 8 := by decide
  obtain ⟨ofQuotient, ofBits⟩ := (tail_exact n 2).2 1 Nat.one_pos
  have tail := ofQuotient d q .one nonzero quotient remainder
  rw [part, whole] at tail
  exact ⟨nonzero, quotient, remainder, tail, ofBits⟩

/-- Behind no bit at all a remainder of half the divisor would count for less. -/
example : join (Magnitude.one.tailBelow 0) (ofRemainder .one (.ofWord 2)) = belowHalf := by
  decide

end ExactFloat.Tail
