import ExactFloat.Proofs.Magnitude.Division
import ExactFloat.Proofs.Magnitude.Gcd
import ExactFloat.Proofs.Magnitude.Minimal

/-!
# Properties of stored words that the arithmetic keeps

Most results are trimmed before they are handed out. Sums are not, and a few short cuts return an
operand as it is stored: the remainder of a small dividend, the common divisor with a zero and zero
shifted to the left. Trimming only takes words away, so each operation has to see to it that there
is a word to keep. A property of the stored words is kept by the whole arithmetic if trimming
establishes it wherever a word is stored and sums inherit it. Such are to be minimal and to store a
word at all.
-/

namespace ExactFloat.Magnitude

/-- A property of stored words that implies a word, that trimming establishes where there is one and
that sums inherit. -/
structure Kept (P : Magnitude → Prop) : Prop where
  stored : ∀ {x : Magnitude}, P x → x.words ≠ []
  trim : ∀ {x : Magnitude}, x.words ≠ [] → P x.trim
  add : ∀ {x y : Magnitude}, P x → P y → P (x + y)

/-! ## A word is left -/

theorem stored_extend {x : Magnitude} (size : Nat) (h : x.words ≠ []) :
    (x.extend size).words ≠ [] :=
  List.append_ne_nil_of_left_ne_nil h _

theorem addRows_ne_nil {xs : List UInt64} (h : xs ≠ []) (ys written : List UInt64) :
    addRows xs ys written ≠ [] := by
  obtain ⟨x, rest, rfl⟩ := List.exists_cons_of_ne_nil h
  exact List.cons_ne_nil _ _

theorem length_maskWords (bits : Nat) (words : List UInt64) :
    (maskWords bits words).length = words.length := by
  induction words generalizing bits with
  | nil => rfl
  | cons word rest ih =>
      rw [maskWords]
      split <;> exact congrArg Nat.succ (ih _)

theorem length_moveBitsDown (bits : Nat) (words : List UInt64) :
    (moveBitsDown bits words).length = words.length := by
  induction words with
  | nil => rfl
  | cons word rest ih => exact congrArg Nat.succ ih

theorem moveBitsUp_ne_nil (bits : Nat) (incoming : UInt64) (words : List UInt64) :
    moveBitsUp bits incoming words ≠ [] := by
  cases words <;> exact List.cons_ne_nil _ _

namespace Kept

variable {P : Magnitude → Prop} (kept : Kept P)

include kept

/-! ## One operation at a time -/

theorem ofWord (w : UInt64) : P (.ofWord w) :=
  kept.trim (List.cons_ne_nil w [])

theorem ofWords (words : List UInt64) : P (.ofWords words) := by
  apply kept.trim
  cases words <;> exact List.cons_ne_nil _ _

theorem subBorrow {x : Magnitude} (h : P x) (y : Magnitude) : P (x.subBorrow y).1 := by
  apply kept.trim
  have columns := List.length_pos_of_ne_nil (stored_extend y.size (kept.stored h))
  apply List.ne_nil_of_length_pos
  rwa [length_subWords]

theorem mul {x : Magnitude} (h : P x) (y : Magnitude) : P (x * y) :=
  kept.trim (addRows_ne_nil (kept.stored h) y.words _)

theorem mask {x : Magnitude} (h : P x) (bits : Nat) : P (x.mask bits) := by
  apply kept.trim
  have words := List.length_pos_of_ne_nil (kept.stored h)
  apply List.ne_nil_of_length_pos
  rwa [length_maskWords]

theorem flipBit (x : Magnitude) (bit : Nat) : P (x.flipBit bit) := by
  apply kept.trim
  have room := le_size_extend x (bit / 64 + 1)
  apply List.ne_nil_of_length_pos
  rw [List.length_modify]
  omega

theorem shiftLeft {x : Magnitude} (h : P x) (bits : Nat) : P (x <<< bits) := by
  change P (x.shiftLeft bits)
  unfold Magnitude.shiftLeft
  split
  · exact h
  · refine kept.trim (List.append_ne_nil_of_right_ne_nil _ ?_)
    split
    · exact kept.stored h
    · exact moveBitsUp_ne_nil _ _ _

/-- Words are dropped only while there are more of them. -/
theorem shiftRight (x : Magnitude) (bits : Nat) : P (x >>> bits) := by
  change P (x.shiftRight bits)
  unfold Magnitude.shiftRight
  split
  · exact kept.ofWord 0
  · next more =>
    have left : 0 < (x.words.drop (bits / 64)).length := by
      rw [List.length_drop]
      exact Nat.sub_pos_of_lt (Nat.lt_of_not_le more)
    refine kept.trim (List.ne_nil_of_length_pos ?_)
    dsimp only
    split
    · exact left
    · rwa [length_moveBitsDown]

/-! ## Division -/

section

variable {count : Nat} {remainder divisor quotient n d q r : Magnitude}

/-- The bits of the quotient are set one by one, and a remainder that changes is a difference. -/
theorem subtractShifted (start : P quotient)
    (run : subtractShifted count remainder divisor quotient = .ok (q, r)) :
    P q ∧ (P remainder → P r) := by
  induction count generalizing remainder divisor quotient with
  | zero =>
      cases run
      exact ⟨start, id⟩
  | succ i ih =>
      rw [Magnitude.subtractShifted] at run
      split at run
      · obtain ⟨_, -, rest⟩ := bind_eq_ok_iff.1 run
        obtain ⟨quotientKept, remainderKept⟩ := ih (kept.flipBit quotient i) rest
        exact ⟨quotientKept, fun h => remainderKept (kept.subBorrow h divisor)⟩
      · exact ih start run

theorem divMod (run : n.divMod d = .ok (q, r)) : P q ∧ (P n → P r) := by
  unfold Magnitude.divMod at run
  split at run
  · cases run
  · split at run
    -- Two single words are divided as words.
    · cases run
      exact ⟨kept.ofWord _, fun _ => kept.ofWord _⟩
    · split at run
      · cases run
        exact ⟨kept.ofWord 0, id⟩
      · exact kept.subtractShifted (kept.ofWord 0) run

theorem exactQuotient (run : n.exactQuotient d = .ok q) : P q := by
  unfold Magnitude.exactQuotient at run
  obtain ⟨⟨quotient, remainder⟩, division, rest⟩ := bind_eq_ok_iff.1 run
  obtain ⟨_, -, result⟩ := bind_eq_ok_iff.1 rest
  cases result
  exact (kept.divMod division).1

end

/-! ## The greatest common divisor -/

/-- The smaller number of a round is a shifted one or the one that was there before. -/
theorem operands {odd other smaller larger : Magnitude} (h : P odd)
    (run : operands odd other = .ok (smaller, larger)) : P smaller := by
  unfold Magnitude.operands at run
  obtain ⟨bit, -, run⟩ := bind_eq_ok_iff.1 run
  have pair := Except.ok.inj run
  split at pair
  · cases pair
    exact kept.shiftRight other bit
  · cases pair
    exact h

theorem gcdOdd {rounds : Nat} {odd other g : Magnitude} (h : P odd)
    (run : gcdOdd rounds odd other = .ok g) : P g := by
  induction rounds generalizing odd other with
  | zero => cases run
  | succ rounds ih =>
      rw [gcdOdd_succ] at run
      obtain ⟨⟨smaller, larger⟩, pair, round⟩ := bind_eq_ok_iff.1 run
      obtain ⟨_, -, round⟩ := bind_eq_ok_iff.1 round
      split at round
      · cases round
        exact kept.operands h pair
      · exact ih (kept.operands h pair) round

theorem gcd {x y g : Magnitude} (hx : P x) (hy : P y) (run : x.gcd y = .ok g) : P g := by
  unfold Magnitude.gcd at run
  split at run
  · cases run
    exact hy
  · split at run
    · cases run
      exact hx
    · obtain ⟨i, -, run⟩ := bind_eq_ok_iff.1 run
      obtain ⟨j, -, run⟩ := bind_eq_ok_iff.1 run
      obtain ⟨odd, rounds, result⟩ := bind_eq_ok_iff.1 run
      cases result
      exact kept.shiftLeft (kept.gcdOdd (kept.shiftRight x i) rounds) _

end Kept

/-! ## All operations on two numbers -/

/-- Whatever is computed from two numbers without adding zero words on top has the property. -/
structure HoldsOfResults (P : Magnitude → Prop) (x y : Magnitude) : Prop where
  sum : P (x + y)
  difference : P (x.subBorrow y).1
  product : P (x * y)
  quotient : y.toNat ≠ 0 → ∃ q r, x.divMod y = .ok (q, r) ∧ P q ∧ P r
  exactQuotient : y.toNat ≠ 0 → y.toNat ∣ x.toNat → ∃ q, x.exactQuotient y = .ok q ∧ P q
  gcd : ∃ g, x.gcd y = .ok g ∧ P g
  shiftLeft : ∀ bits : Nat, P (x <<< bits)
  shiftRight : ∀ bits : Nat, P (x >>> bits)
  mask : ∀ bits, P (x.mask bits)
  flipBit : ∀ bit, P (x.flipBit bit)

theorem Kept.holdsOfResults {P : Magnitude → Prop} (kept : Kept P) {x y : Magnitude} (hx : P x)
    (hy : P y) : HoldsOfResults P x y where
  sum := kept.add hx hy
  difference := kept.subBorrow hx y
  product := kept.mul hx y
  quotient nonzero := by
    obtain ⟨q, r, division, -, -⟩ := divMod_eq_ok x y nonzero
    obtain ⟨quotientKept, remainderKept⟩ := kept.divMod division
    exact ⟨q, r, division, quotientKept, remainderKept hx⟩
  exactQuotient nonzero even := by
    obtain ⟨q, division, -⟩ := exactQuotient_eq_ok x y nonzero even
    exact ⟨q, division, kept.exactQuotient division⟩
  gcd := by
    obtain ⟨g, found, -⟩ := gcd_eq_ok x y
    exact ⟨g, found, kept.gcd hx hy found⟩
  shiftLeft := kept.shiftLeft hx
  shiftRight := kept.shiftRight x
  mask := kept.mask hx
  flipBit := kept.flipBit x

/-! ## The properties kept -/

theorem kept_minimal : Kept Minimal where
  stored h := List.ne_nil_of_length_pos h.size_pos
  trim := minimal_trim
  add := Minimal.add

/-- Each number stores a word, be there zero words on top or not. -/
theorem kept_stored : Kept fun x => x.words ≠ [] where
  stored := id
  trim {x} h := by
    obtain ⟨lowest, rest, words⟩ := List.exists_cons_of_ne_nil h
    rw [trim, words]
    exact List.cons_ne_nil _ _
  add {x y} hx _ := by
    have columns := List.length_pos_of_ne_nil (stored_extend y.size hx)
    have length := length_addWords (x.extend y.size).words y.words false
    exact List.ne_nil_of_length_pos (l := addWords _ _ _) (by omega)

end ExactFloat.Magnitude
