import ExactFloat.Proofs.Fraction

/-!
# Lowest terms are unique

The number alone decides the sign, the numerator and the denominator of its lowest terms. So a
fraction is in lowest terms exactly if reducing it changes none of the three, and two fractions are
equal exactly if their lowest terms agree.
-/

namespace ExactFloat.Fraction

variable {p p' q q' r : Fraction}

/-! ## Forms of a number -/

/-- The same sign and the same two numbers, whatever words are stored. -/
structure SameForm (p q : Fraction) : Prop where
  negative : p.negative = q.negative
  numerator : p.numerator.toNat = q.numerator.toNat
  denominator : p.denominator.toNat = q.denominator.toNat

theorem SameForm.value_eq (h : p.SameForm q) : p.value = q.value := by
  unfold value
  rw [h.negative, h.numerator, h.denominator]

theorem num_value_of_coprime (h : q.WellFormed)
    (coprime : q.numerator.toNat.Coprime q.denominator.toNat) :
    q.value.num.natAbs = q.numerator.toNat := by
  have pos : (0 : ℤ) < q.denominator.toNat := Int.natCast_pos.2 (Nat.pos_of_ne_zero h)
  have lowest := Rat.num_div_eq_of_coprime (a := q.numerator.toNat) pos coprime
  rw [Int.cast_natCast, Int.cast_natCast, ← abs_value, Rat.num_abs_eq_abs_num,
    ← Int.natCast_natAbs] at lowest
  exact_mod_cast lowest

/-! ## The form in lowest terms -/

theorem Reduced.form (h : Reduced q r) :
    r.negative = decide (q.value < 0) ∧ r.numerator.toNat = q.value.num.natAbs ∧
      r.denominator.toNat = q.value.den := by
  refine ⟨h.sign, ?_, ?_⟩
  · rw [← num_value_of_coprime h.wellFormed h.coprime, h.value]
  · rw [← den_value_of_coprime h.wellFormed h.coprime, h.value]

theorem Reduced.sameForm_iff (hp : Reduced p p') (hq : Reduced q q') :
    p'.SameForm q' ↔ p.value = q.value := by
  constructor
  · intro same
    rw [← hp.value, ← hq.value, same.value_eq]
  · intro same
    obtain ⟨sign, numerator, denominator⟩ := hp.form
    obtain ⟨sign', numerator', denominator'⟩ := hq.form
    rw [same] at sign numerator denominator
    exact ⟨sign.trans sign'.symm, numerator.trans numerator'.symm,
      denominator.trans denominator'.symm⟩

theorem Reduced.self (h : Reduced q r) : Reduced r r where
  value := rfl
  sign := h.value ▸ h.sign
  coprime := h.coprime
  wellFormed := h.wellFormed
  numerator_le := Nat.le_refl _
  denominator_le := Nat.le_refl _

theorem Reduced.self_iff (h : Reduced q r) (wellFormed : q.WellFormed) :
    Reduced q q ↔ r.SameForm q := by
  constructor
  · intro own
    exact (h.sameForm_iff own).2 rfl
  · intro same
    exact {
      value := rfl
      sign := same.negative ▸ h.sign
      coprime := same.numerator ▸ same.denominator ▸ h.coprime
      wellFormed
      numerator_le := Nat.le_refl _
      denominator_le := Nat.le_refl _ }

/-! ## Reducing and asking -/

/-- Reducing twice is reducing once, down to the stored words. -/
theorem canonical_idem (h : q.WellFormed) (run : q.canonical = .ok r) : r.canonical = .ok r := by
  by_cases zero : q.numerator.toNat = 0
  · obtain rfl := Except.ok.inj ((canonical_of_zero zero).symm.trans run)
    exact canonical_of_zero zero
  · have reduced := reduced_of_canonical h run
    have nonzero := numerator_ne_zero (reduced.value_ne_zero (mt (value_eq_zero_iff h).1 zero))
    exact canonical_of_coprime nonzero reduced.coprime

/-- The question for lowest terms is answered, and it is yes exactly if the fraction is its own. -/
theorem exists_isCanonical (h : q.WellFormed) :
    ∃ answer, q.isCanonical = .ok answer ∧ (answer = true ↔ Reduced q q) := by
  by_cases zero : q.numerator.toNat = 0
  · refine ⟨_, if_pos ((Magnitude.isZero_iff _).2 zero), ?_⟩
    have value : q.value = 0 := (value_eq_zero_iff h).2 zero
    rw [(reduced_zero h zero).self_iff h, Bool.and_eq_true, Bool.not_eq_true', Magnitude.beq_iff]
    constructor
    · rintro ⟨positive, one⟩
      exact ⟨positive.symm, rfl, one.symm⟩
    · rintro ⟨positive, -, one⟩
      exact ⟨positive.symm, one.symm⟩
  · refine ⟨_, isCanonical_eq_ok zero, ?_⟩
    rw [decide_eq_true_iff]
    constructor
    · intro coprime
      exact reduced_of_canonical h (canonical_of_coprime zero coprime)
    · intro own
      exact own.coprime

theorem Reduced.isCanonical (h : Reduced q r) : r.isCanonical = .ok true := by
  obtain ⟨answer, asked, lowest⟩ := exists_isCanonical h.wellFormed
  rw [asked, lowest.2 h.self]

theorem reduced_of_isCanonical (h : q.WellFormed) (lowest : q.isCanonical = .ok true) :
    Reduced q q := by
  obtain ⟨answer, asked, own⟩ := exists_isCanonical h
  exact own.1 (Except.ok.inj (asked.symm.trans lowest))

/-- Every fraction can be reduced, with no remainder in a division. That keeps its number and leaves
it in lowest terms, where reducing once more changes nothing. A fraction is in lowest terms exactly
if reducing it keeps its form, and two are equal exactly if they are reduced to the same form. -/
theorem canonical_unique (hp : p.WellFormed) (hq : q.WellFormed) :
    (∃ r, p.canonical = .ok r ∧ r.value = p.value ∧ r.isCanonical = .ok true ∧
      r.canonical = .ok r ∧
      ∃ answer, p.isCanonical = .ok answer ∧ (answer = true ↔ r.SameForm p)) ∧
    ∃ p' q', p.canonical = .ok p' ∧ q.canonical = .ok q' ∧
      ((p == q) = true ↔ p'.SameForm q') := by
  obtain ⟨p', pRun, pReduced⟩ := canonical_eq_ok hp
  obtain ⟨q', qRun, qReduced⟩ := canonical_eq_ok hq
  obtain ⟨answer, asked, lowest⟩ := exists_isCanonical hp
  refine ⟨⟨p', pRun, pReduced.value, pReduced.isCanonical, canonical_idem hp pRun, answer, asked,
    ?_⟩, p', q', pRun, qRun, ?_⟩
  · rw [lowest, pReduced.self_iff hp]
  · rw [beq_iff hp hq, pReduced.sameForm_iff qReduced]

/-- Minus six eighths and minus nine twelfths, both with a zero word on top. -/
theorem canonical_unique_of_three_quarters :
    let p : Fraction := ⟨true, .ofWord 6, ⟨[8, 0]⟩⟩
    let q : Fraction := ⟨true, ⟨[9, 0]⟩, .ofWord 12⟩
    p.WellFormed ∧ q.WellFormed ∧
      (∃ r, p.canonical = .ok r ∧ r.value = -(3 / 4) ∧ r.isCanonical = .ok true ∧
        ¬r.SameForm p) ∧
      ∃ p' q', p.canonical = .ok p' ∧ q.canonical = .ok q' ∧ p'.SameForm q' := by
  intro p q
  have hp : p.WellFormed := by decide
  have hq : q.WellFormed := by decide
  have equal : (p == q) = true := by decide +kernel
  have value : p.value = -(3 / 4) := by decide +kernel
  have refused : p.isCanonical = .ok false := by decide +kernel
  obtain ⟨⟨r, run, kept, lowest, -, answer, asked, form⟩, p', q', pRun, qRun, same⟩ :=
    canonical_unique hp hq
  obtain rfl : answer = false := Except.ok.inj (asked.symm.trans refused)
  exact ⟨hp, hq, ⟨r, run, kept.trans value, lowest, fun own => Bool.false_ne_true (form.2 own)⟩,
    p', q', pRun, qRun, same.1 equal⟩

end ExactFloat.Fraction
