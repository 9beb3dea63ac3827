import ExactFloat.Proofs.Order

/-!
# Equality of floats is equality of values at one precision

Floats that compare as equal stand for the same number. The relation `==` asks for more: significands
are not brought to one length, so that normal floats are equal only if they also have the same
number of significant bits.
-/

namespace ExactFloat.BinaryFloat

section

variable {f g : BinaryFloat}

theorem beq_def (f g : BinaryFloat) :
    (f == g) =
      match f.category with
      | .infinity | .normal => f.sameParts g
      | .zero => g.isZero
      | .nan => false := rfl

theorem sameParts_iff :
    f.sameParts g = true ↔ f.negative = g.negative ∧ f.exponent = g.exponent ∧
      f.significand.toNat = g.significand.toNat ∧ f.category = g.category := by
  rw [sameParts, Bool.and_eq_true, Bool.and_eq_true, Bool.and_eq_true, beq_iff_eq, beq_iff_eq,
    Magnitude.beq_iff, beq_iff_eq, and_assoc, and_assoc]

theorem beq_zero (fZero : f.category = .zero) (gZero : g.category = .zero) : (f == g) = true := by
  rw [beq_def, fZero, isZero, gZero]
  rfl

theorem beq_iff_sameParts_of_normal (normal : f.category = .normal) :
    (f == g) = true ↔ f.sameParts g = true := by
  rw [beq_def, normal]

/-! ## Floats that compare as equal -/

theorem orderOfSign_ne_eq (negative : Bool) : orderOfSign negative ≠ .eq := by
  cases negative <;> decide

theorem compare?_eq_eq_iff_of_normal (fNormal : f.category = .normal)
    (gNormal : g.category = .normal) :
    f.compare? g = some .eq ↔ f.negative = g.negative ∧
      compareMagnitudes f.format.precision g.format.precision f.exponent g.exponent f.significand
        g.significand = .eq := by
  rw [compare?, fNormal, gNormal]
  dsimp only
  split
  · next differ =>
    simp [orderOfSign_ne_eq, differ]
  · next same =>
    rw [ne_eq, not_not] at same
    simp only [same, true_and, Option.some.injEq]
    cases g.negative <;> simp

theorem compareMagnitudes_self_eq_iff {precision : Nat} {e e' : Int} {m m' : Magnitude} :
    compareMagnitudes precision precision e e' m m' = .eq ↔ e = e' ∧ m.toNat = m'.toNat := by
  unfold compareMagnitudes
  rw [if_neg (Nat.lt_irrefl _), Ordering.then_eq_eq, compare_eq_iff_eq, Magnitude.compare_eq,
    compare_eq_iff_eq, Magnitude.toNat_shiftLeft, Nat.sub_self, pow_zero, Nat.mul_one]

/-- Normal floats that are equal have significands of one length. -/
theorem beq_iff_of_normal (normal : f.category = .normal) (fWellFormed : f.WellFormed)
    (gWellFormed : g.WellFormed) :
    (f == g) = true ↔ f.compare? g = some .eq ∧ f.format.precision = g.format.precision := by
  obtain ⟨length, -⟩ := (wellFormed_iff_of_normal normal).1 fWellFormed
  rw [beq_iff_sameParts_of_normal normal, sameParts_iff, normal]
  cases gCategory : g.category with
  | normal =>
      obtain ⟨length', -⟩ := (wellFormed_iff_of_normal gCategory).1 gWellFormed
      rw [compare?_eq_eq_iff_of_normal normal gCategory]
      constructor
      · intro ⟨sign, exponent, significand, _⟩
        have precision : f.format.precision = g.format.precision := by
          rw [← length, ← length', Magnitude.bitLength_congr significand]
        refine ⟨⟨sign, ?_⟩, precision⟩
        rw [precision, compareMagnitudes_self_eq_iff]
        exact ⟨exponent, significand⟩
      · intro ⟨⟨sign, magnitudes⟩, precision⟩
        rw [precision, compareMagnitudes_self_eq_iff] at magnitudes
        exact ⟨sign, magnitudes.1, magnitudes.2, rfl⟩
  | _ => simp [compare?, normal, gCategory, orderOfSign_ne_eq]

theorem beq_iff_of_infinity (infinity : f.category = .infinity) (fWellFormed : f.WellFormed)
    (gWellFormed : g.WellFormed) : (f == g) = true ↔ f.compare? g = some .eq := by
  have special : f.category ≠ .normal := by simp [infinity]
  obtain ⟨exponent, significand⟩ := (wellFormed_iff_of_not_normal special).1 fWellFormed
  rw [beq_def, infinity]
  dsimp only
  rw [sameParts_iff, exponent, significand, infinity]
  cases gCategory : g.category with
  | infinity =>
      have special' : g.category ≠ .normal := by simp [gCategory]
      obtain ⟨exponent', significand'⟩ := (wellFormed_iff_of_not_normal special').1 gWellFormed
      rw [exponent', significand', compare?, infinity, gCategory]
      simp [orderOfSign_ne_eq]
  | _ => simp [compare?, infinity, gCategory, orderOfSign_ne_eq]

theorem beq_iff_of_not_normal (special : f.category ≠ .normal) (fWellFormed : f.WellFormed)
    (gWellFormed : g.WellFormed) : (f == g) = true ↔ f.compare? g = some .eq := by
  cases category : f.category with
  | normal => exact absurd category special
  | infinity => exact beq_iff_of_infinity category fWellFormed gWellFormed
  | _ =>
      rw [beq_def, category]
      cases gCategory : g.category <;>
        simp [isZero, compare?, category, gCategory, orderOfSign_ne_eq]

/-- Floats compare as equal if they stand for the same number. They are equal if, besides, normal
ones have the same precision. -/
theorem beq_iff_value_and_precision (fValid : f.format.validate = .ok ())
    (fWellFormed : f.WellFormed) (gValid : g.format.validate = .ok ()) (gWellFormed : g.WellFormed) :
    (f.compare? g = some .eq ↔ ∃ x, f.extended? = some x ∧ g.extended? = some x) ∧
      ((f == g) = true ↔ f.compare? g = some .eq ∧
        (f.isNormal = true → f.format.precision = g.format.precision)) := by
  constructor
  · rw [compare?_eq fValid fWellFormed gValid gWellFormed, Option.map₂_eq_some_iff]
    simp only [compare_eq_iff_eq]
    constructor
    · intro ⟨x, y, fValue, gValue, same⟩
      exact ⟨x, fValue, same ▸ gValue⟩
    · intro ⟨x, fValue, gValue⟩
      exact ⟨x, x, fValue, gValue, rfl⟩
  · by_cases normal : f.category = .normal
    · rw [beq_iff_of_normal normal fWellFormed gWellFormed, isNormal, normal]
      simp
    · rw [beq_iff_of_not_normal normal fWellFormed gWellFormed, isNormal, decide_eq_false normal]
      simp

/-- Three halves is equal to three halves with a wider exponent range. -/
theorem beq_iff_value_and_precision_of_three_halves :
    ((⟨⟨3, 2, .nearestEven⟩, true, 0, .ofWord 3, .normal⟩ : BinaryFloat) ==
      ⟨⟨5, 2, .upward⟩, true, 0, .ofWord 3, .normal⟩) = true := by
  obtain ⟨-, equal⟩ :=
    beq_iff_value_and_precision (f := ⟨⟨3, 2, .nearestEven⟩, true, 0, .ofWord 3, .normal⟩)
      (g := ⟨⟨5, 2, .upward⟩, true, 0, .ofWord 3, .normal⟩) rfl ⟨rfl, by decide⟩ rfl
      ⟨rfl, by decide⟩
  exact equal.2 ⟨rfl, fun _ => rfl⟩

/-- One in the narrowest interchange format compares as equal with one in the next one, but it is
not equal to it. -/
theorem not_forall_beq_iff_order_eq :
    ¬∀ f g : BinaryFloat, f.format.validate = .ok () → f.WellFormed →
      g.format.validate = .ok () → g.WellFormed → ((f == g) = true ↔ f.compare? g = some .eq) := by
  intro agree
  have equal := (agree ⟨.binary16, false, 0, .oneHot 10, .normal⟩
    ⟨.binary32, false, 0, .oneHot 23, .normal⟩ rfl ⟨rfl, by decide⟩ rfl ⟨rfl, by decide⟩).2 rfl
  cases equal

end

end ExactFloat.BinaryFloat
