import ExactFloat.Proofs.Magnitude.Bits
import ExactFloat.Proofs.Magnitude.Kept
import ExactFloat.ShiftRegister

/-!
# Which bits of a seed have an effect

A step reads no bit of the register above the lowest 25, and it reads the highest of these. So two
registers agree in their lowest 25 bits after a step exactly if they did before it. What is fed back
is also the output, so 32 steps leave the same bits in both. Hence the first word tells the lowest
25 bits of the seed, and no word tells the other seven.
-/

namespace ExactFloat.ShiftRegister

/-! ## Bits in common -/

def Agree (bits : Nat) (s t : UInt32) : Prop :=
  ∀ i < bits, s.toNat.testBit i = t.toNat.testBit i

variable {bits count : Nat} {s t : UInt32}

theorem agree_refl (bits : Nat) (s : UInt32) : Agree bits s s :=
  fun _ _ => rfl

theorem agree_zero (s t : UInt32) : Agree 0 s t :=
  fun i lt => absurd lt (Nat.not_lt_zero i)

theorem agree_succ_iff :
    Agree (bits + 1) s t ↔ Agree bits s t ∧ s.toNat.testBit bits = t.toNat.testBit bits :=
  Nat.forall_lt_succ_right

theorem agree_iff_mod : Agree bits s t ↔ s.toNat % 2 ^ bits = t.toNat % 2 ^ bits := by
  constructor
  · intro same
    refine Nat.eq_of_testBit_eq fun i => ?_
    rw [Nat.testBit_mod_two_pow, Nat.testBit_mod_two_pow]
    by_cases lt : i < bits
    · rw [same i lt]
    · simp [lt]
  · intro same i lt
    have bit := congrArg (Nat.testBit · i) same
    simpa [Nat.testBit_mod_two_pow, lt] using bit

theorem agree_all_iff : Agree 32 s t ↔ s = t := by
  rw [agree_iff_mod, Nat.mod_eq_of_lt s.toNat_lt, Nat.mod_eq_of_lt t.toNat_lt, UInt32.toNat_inj]

theorem agree_xor_iff (r : UInt32) : Agree bits (r ^^^ s) (r ^^^ t) ↔ Agree bits s t := by
  simp only [Agree, UInt32.toNat_xor, Nat.testBit_xor, Bool.xor_right_inj]

/-! ## One step -/

/-- The register `after` is `before` moved up by one bit, with `bit` at the bottom. -/
structure TakesIn (bit : Bool) (before after : UInt32) : Prop where
  lowest : after.toNat.testBit 0 = bit
  moved : ∀ i < 31, after.toNat.testBit (i + 1) = before.toNat.testBit i

/-- Taking in the same bit, two registers agree in one bit more than before. -/
theorem agree_takesIn_iff {b c : Bool} {s' t' : UInt32} (room : bits < 32) (hs : TakesIn b s s')
    (ht : TakesIn c t t') : Agree (bits + 1) s' t' ↔ b = c ∧ Agree bits s t := by
  unfold Agree
  rw [Nat.forall_lt_succ_left, hs.lowest, ht.lowest]
  apply and_congr_right'
  refine forall₂_congr fun i lt => ?_
  rw [hs.moved i (by omega), ht.moved i (by omega)]

theorem testBit_moved_zero (x : UInt32) : (x <<< 1).toNat.testBit 0 = false := by
  simp [UInt32.toNat_shiftLeft, Nat.shiftLeft_eq]

theorem testBit_moved_succ (x : UInt32) {i : Nat} (lt : i < 31) :
    (x <<< 1).toNat.testBit (i + 1) = x.toNat.testBit i := by
  have room : i + 1 < 32 := by omega
  rw [UInt32.toNat_shiftLeft, Nat.testBit_mod_two_pow, decide_eq_true room, Bool.true_and]
  simp [Nat.testBit_shiftLeft]

theorem testBit_lowest_zero (x : UInt32) : (x &&& 1).toNat.testBit 0 = x.toNat.testBit 0 := by
  simp

theorem testBit_lowest_succ (x : UInt32) (i : Nat) : (x &&& 1).toNat.testBit (i + 1) = false := by
  have one : (1 : UInt32).toNat.testBit (i + 1) = false := by
    simp [Nat.testBit_succ]
  rw [UInt32.toNat_and, Nat.testBit_and, one, Bool.and_false]

def feedback (state : UInt32) : Bool :=
  state.toNat.testBit 24 ^^ state.toNat.testBit 23 ^^ state.toNat.testBit 22 ^^
    state.toNat.testBit 17 ^^ true

theorem takesIn_step (state : UInt32) : TakesIn (feedback state) state (step state) where
  lowest := by
    rw [step, UInt32.toNat_or, Nat.testBit_or, testBit_moved_zero, testBit_lowest_zero,
      Bool.false_or]
    simp only [UInt32.toNat_xor, Nat.testBit_xor, UInt32.toNat_shiftRight, Nat.testBit_shiftRight]
    rfl
  moved i lt := by
    rw [step, UInt32.toNat_or, Nat.testBit_or, testBit_moved_succ state lt, testBit_lowest_succ,
      Bool.or_false]

theorem takesIn_gathered (gathered next : UInt32) :
    TakesIn (next.toNat.testBit 0) gathered (gathered <<< 1 ^^^ (next &&& 1)) where
  lowest := by
    rw [UInt32.toNat_xor, Nat.testBit_xor, testBit_moved_zero, testBit_lowest_zero, Bool.false_xor]
  moved i lt := by
    rw [UInt32.toNat_xor, Nat.testBit_xor, testBit_moved_succ gathered lt, testBit_lowest_succ,
      Bool.xor_false]

theorem agree_step_iff (room : bits < 32) :
    Agree (bits + 1) (step s) (step t) ↔ feedback s = feedback t ∧ Agree bits s t :=
  agree_takesIn_iff room (takesIn_step s) (takesIn_step t)

theorem feedback_congr (h : Agree 25 s t) : feedback s = feedback t := by
  unfold feedback
  rw [h 24 (by decide), h 23 (by decide), h 22 (by decide), h 17 (by decide)]

/-- No step loses or brings in a difference among the lowest 25 bits. -/
theorem agree_window_step_iff : Agree 25 (step s) (step t) ↔ Agree 25 s t := by
  rw [agree_step_iff (by decide)]
  constructor
  · rintro ⟨same, lower⟩
    -- Bit 24 leaves the lowest 25, but a difference there would show in what is fed back.
    unfold feedback at same
    rw [lower 23 (by decide), lower 22 (by decide), lower 17 (by decide), Bool.xor_left_inj,
      Bool.xor_left_inj, Bool.xor_left_inj, Bool.xor_left_inj] at same
    exact agree_succ_iff.2 ⟨lower, same⟩
  · intro window
    exact ⟨feedback_congr window, (agree_succ_iff.1 window).1⟩

/-! ## Many steps -/

theorem agree_window_iterate_iff (count : Nat) :
    Agree 25 (step^[count] s) (step^[count] t) ↔ Agree 25 s t := by
  induction count generalizing s t with
  | zero => rfl
  | succ count ih =>
      rw [Function.iterate_succ_apply, Function.iterate_succ_apply, ih, agree_window_step_iff]

theorem agree_iterate (room : count ≤ 32) (h : Agree 25 s t) :
    Agree count (step^[count] s) (step^[count] t) := by
  induction count with
  | zero => exact agree_zero s t
  | succ count ih =>
      have fed := feedback_congr ((agree_window_iterate_iff count).2 h)
      rw [Function.iterate_succ_apply', Function.iterate_succ_apply']
      exact (agree_step_iff (by omega)).2 ⟨fed, ih (by omega)⟩

/-- After 32 steps nothing is left of the bits above the lowest 25. -/
theorem iterate_eq_iff : step^[32] s = step^[32] t ↔ Agree 25 s t := by
  constructor
  · intro same
    rw [← agree_window_iterate_iff 32, same]
    exact agree_refl 25 _
  · intro window
    exact agree_all_iff.1 (agree_iterate (Nat.le_refl 32) window)

/-! ## Words -/

theorem gather_snd (count : Nat) (state gathered : UInt32) :
    (gather count state gathered).2 = step^[count] state := by
  induction count generalizing state gathered with
  | zero => rfl
  | succ count ih => exact ih (step state) _

theorem agree_gather {state gathered : UInt32} (room : bits + count ≤ 32)
    (h : Agree bits gathered state) :
    Agree (bits + count) (gather count state gathered).1 (gather count state gathered).2 := by
  induction count generalizing bits state gathered with
  | zero => exact h
  | succ count ih =>
      have taken := takesIn_step state
      have next : Agree (bits + 1) (gathered <<< 1 ^^^ (step state &&& 1)) (step state) :=
        (agree_takesIn_iff (by omega) (takesIn_gathered gathered _) taken).2 ⟨taken.lowest, h⟩
      have rest := ih (by omega) next
      rwa [Nat.add_right_comm] at rest

theorem gather_eq (state gathered : UInt32) :
    gather 32 state gathered = (step^[32] state, step^[32] state) := by
  have whole : Agree (0 + 32) (gather 32 state gathered).1 (gather 32 state gathered).2 :=
    agree_gather (by decide) (agree_zero gathered state)
  have same := agree_all_iff.1 whole
  rw [gather_snd] at same
  exact Prod.ext same (gather_snd 32 state gathered)

theorem nextWord_eq (state : UInt32) :
    nextWord state =
      ((step^[32] state).toUInt64 <<< 32 ||| (step^[32] (step^[32] state)).toUInt64,
        step^[32] (step^[32] state)) := by
  simp only [nextWord, gather_eq]

theorem toNat_halves (upper lower : UInt32) :
    (upper.toUInt64 <<< 32 ||| lower.toUInt64).toNat = 2 ^ 32 * upper.toNat + lower.toNat := by
  have fits := upper.toNat_lt
  have moved : (upper.toUInt64 <<< 32).toNat = 2 ^ 32 * upper.toNat := by
    rw [UInt64.toNat_shiftLeft, UInt32.toNat_toUInt64, Nat.shiftLeft_eq, Nat.mul_comm]
    change 2 ^ 32 * upper.toNat % 2 ^ 64 = _
    omega
  rw [UInt64.toNat_or, moved, UInt32.toNat_toUInt64, Nat.two_pow_add_eq_or_of_lt lower.toNat_lt]

theorem nextWord_congr (h : Agree 25 s t) : nextWord s = nextWord t := by
  rw [nextWord_eq, nextWord_eq, iterate_eq_iff.2 h]

/-- A single word tells the lowest 25 bits of the register apart. -/
theorem nextWord_fst_eq_iff : (nextWord s).1 = (nextWord t).1 ↔ Agree 25 s t := by
  constructor
  · intro same
    have halves := congrArg UInt64.toNat same
    have below := (step^[32] (step^[32] s)).toNat_lt
    have below' := (step^[32] (step^[32] t)).toNat_lt
    rw [nextWord_eq, nextWord_eq, toNat_halves, toNat_halves] at halves
    have upper : step^[32] s = step^[32] t := UInt32.toNat_inj.1 (by omega)
    exact iterate_eq_iff.1 upper
  · intro window
    rw [nextWord_congr window]

theorem length_words (count : Nat) (state : UInt32) : (words count state).length = count := by
  induction count generalizing state with
  | zero => rfl
  | succ count ih => rw [words, List.length_cons, ih]

theorem words_congr (count : Nat) (h : Agree 25 s t) : words count s = words count t := by
  cases count with
  | zero => rfl
  | succ count => rw [words, words, nextWord_congr h]

theorem words_eq_iff (pos : 0 < count) : words count s = words count t ↔ Agree 25 s t := by
  obtain ⟨count, rfl⟩ := Nat.exists_eq_succ_of_ne_zero (Nat.ne_of_gt pos)
  constructor
  · intro same
    exact nextWord_fst_eq_iff.1 (List.cons.inj same).1
  · exact words_congr (count + 1)

/-- More words from the same state only go on where fewer words end. -/
theorem take_words {more : Nat} (le : count ≤ more) (state : UInt32) :
    (words more state).take count = words count state := by
  induction count generalizing more state with
  | zero => rfl
  | succ count ih =>
      obtain ⟨more, rfl⟩ := Nat.exists_eq_add_of_lt le
      rw [words, words, List.take_succ_cons, ih (Nat.le_add_right count more)]

end ExactFloat.ShiftRegister

namespace ExactFloat.Magnitude

open ShiftRegister

theorem pseudorandom_eq (count : Nat) (seed : UInt32) :
    pseudorandom count seed = ofWords (ShiftRegister.words count (origin ^^^ seed)) := by
  have all := List.take_of_length_le (Nat.le_of_eq (length_words count (origin ^^^ seed)))
  rw [pseudorandom, ofFirstWords, all]

theorem toNat_pseudorandom (count : Nat) (seed : UInt32) :
    (pseudorandom count seed).toNat = natOfWords (ShiftRegister.words count (origin ^^^ seed)) := by
  rw [pseudorandom_eq, toNat_ofWords]

theorem word_zero_ofWords (word : UInt64) (rest : List UInt64) :
    (ofWords (word :: rest)).word 0 = .ok word := rfl

theorem agree_origin_iff {seed seed' : UInt32} :
    Agree 25 (origin ^^^ seed) (origin ^^^ seed') ↔
      seed.toNat % 2 ^ 25 = seed'.toNat % 2 ^ 25 := by
  rw [agree_xor_iff, agree_iff_mod]

theorem pseudorandom_congr (count : Nat) {seed seed' : UInt32}
    (h : seed.toNat % 2 ^ 25 = seed'.toNat % 2 ^ 25) :
    pseudorandom count seed = pseudorandom count seed' := by
  rw [pseudorandom_eq, pseudorandom_eq, words_congr count (agree_origin_iff.2 h)]

theorem pseudorandom_beq_iff {count : Nat} (pos : 0 < count) (seed seed' : UInt32) :
    (pseudorandom count seed == pseudorandom count seed') = true ↔
      seed.toNat % 2 ^ 25 = seed'.toNat % 2 ^ 25 := by
  rw [← agree_origin_iff, ← words_eq_iff pos, beq_iff, toNat_pseudorandom, toNat_pseudorandom]
  have length := (length_words count (origin ^^^ seed)).trans
    (length_words count (origin ^^^ seed')).symm
  exact ⟨natOfWords_inj length, congrArg natOfWords⟩

theorem pseudorandom_word_zero_eq_iff {count : Nat} (pos : 0 < count) (seed seed' : UInt32) :
    (pseudorandom count seed).word 0 = (pseudorandom count seed').word 0 ↔
      seed.toNat % 2 ^ 25 = seed'.toNat % 2 ^ 25 := by
  obtain ⟨count, rfl⟩ := Nat.exists_eq_succ_of_ne_zero (Nat.ne_of_gt pos)
  rw [← agree_origin_iff, ← nextWord_fst_eq_iff, pseudorandom_eq, pseudorandom_eq,
    ShiftRegister.words, ShiftRegister.words, word_zero_ofWords, word_zero_ofWords]
  exact ⟨Except.ok.inj, congrArg Except.ok⟩

theorem minimal_pseudorandom (count : Nat) (seed : UInt32) : (pseudorandom count seed).Minimal :=
  kept_minimal.ofWords (List.take count _)

theorem mask_pseudorandom {count more : Nat} (le : count ≤ more) (seed : UInt32) :
    (pseudorandom more seed).mask (64 * count) = pseudorandom count seed := by
  apply (kept_minimal.mask (minimal_pseudorandom more seed) _).eq_of_toNat_eq
    (minimal_pseudorandom count seed)
  rw [toNat_mask, toNat_pseudorandom, toNat_pseudorandom, ← natOfWords_take, take_words le]

/-- Two seeds give the same number, and numbers with the same first word, exactly if they agree in
their lowest 25 bits; the other seven have no effect on any word. A longer number of a seed goes on
where a shorter one ends. -/
theorem pseudorandom_effective_seed (count : Nat) (seed seed' : UInt32) :
    (0 < count →
      ((pseudorandom count seed == pseudorandom count seed') = true ↔
        seed.toNat % 2 ^ 25 = seed'.toNat % 2 ^ 25) ∧
      ((pseudorandom count seed).word 0 = (pseudorandom count seed').word 0 ↔
        seed.toNat % 2 ^ 25 = seed'.toNat % 2 ^ 25)) ∧
    (seed.toNat % 2 ^ 25 = seed'.toNat % 2 ^ 25 →
      pseudorandom count seed = pseudorandom count seed') ∧
    ∀ more, count ≤ more →
      (pseudorandom more seed).mask (64 * count) = pseudorandom count seed := by
  refine ⟨fun pos => ⟨?_, ?_⟩, pseudorandom_congr count, fun more le => ?_⟩
  · exact pseudorandom_beq_iff pos seed seed'
  · exact pseudorandom_word_zero_eq_iff pos seed seed'
  · exact mask_pseudorandom le seed

/-- Bit 25 of a seed has no effect, and bit 24 changes the first word. -/
theorem pseudorandom_effective_seed_of_bits :
    let seed : UInt32 := 3
    let beyond : UInt32 := 0x2000003
    let within : UInt32 := 0x1000003
    0 < 2 ∧ 1 ≤ 2 ∧ seed.toNat % 2 ^ 25 = beyond.toNat % 2 ^ 25 ∧
      pseudorandom 2 seed = ⟨[0xf98e06ea2b4d3e44, 0xc1b320b13b223ae7]⟩ ∧
      pseudorandom 2 seed = pseudorandom 2 beyond ∧
      (pseudorandom 2 seed == pseudorandom 2 within) = false ∧
      (pseudorandom 2 seed).word 0 ≠ (pseudorandom 2 within).word 0 ∧
      (pseudorandom 2 seed).mask (64 * 1) = pseudorandom 1 seed := by
  intro seed beyond within
  have same : seed.toNat % 2 ^ 25 = beyond.toNat % 2 ^ 25 := by decide
  have words : pseudorandom 2 seed = ⟨[0xf98e06ea2b4d3e44, 0xc1b320b13b223ae7]⟩ := by
    decide +kernel
  have different : seed.toNat % 2 ^ 25 ≠ within.toNat % 2 ^ 25 := by decide
  obtain ⟨value, first⟩ := (pseudorandom_effective_seed 2 seed within).1 (by decide)
  have equal := (pseudorandom_effective_seed 2 seed beyond).2.1 same
  have lower := (pseudorandom_effective_seed 1 seed beyond).2.2 2 (by decide)
  exact ⟨by decide, by decide, same, words, equal, Bool.eq_false_iff.2 (mt value.1 different),
    mt first.1 different, lower⟩

end ExactFloat.Magnitude
