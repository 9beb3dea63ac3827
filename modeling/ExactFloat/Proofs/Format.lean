import ExactFloat.Format
import ExactFloat.Proofs.Failure

/-!
# Valid formats have an exponent range

Whatever widths `validate` lets through, the bounds of the exponents are computed without leaving
the machine integers, and they lie around zero.
-/

namespace ExactFloat.Format

theorem validate_eq_ok_iff {format : Format} :
    format.validate = .ok () ↔
      format.precision ≠ 0 ∧ 2 ≤ format.exponentBits ∧ format.exponentBits ≤ 62 := by
  unfold validate minPrecision minExponentBits maxExponentBits
  split_ifs with short width
  · constructor
    · intro h
      cases h
    · intro ⟨pos, _⟩
      omega
  · constructor
    · intro h
      cases h
    · intro ⟨_, wide, narrow⟩
      omega
  · exact ⟨fun _ => by omega, fun _ => rfl⟩

theorem validate_cases (format : Format) :
    format.validate = .ok () ∨
      format.validate = reject (.precisionTooSmall format.precision 1) ∨
      format.validate = reject (.exponentWidth format.exponentBits) := by
  unfold validate
  split_ifs
  · exact .inr (.inl rfl)
  · exact .inr (.inr rfl)
  · exact .inl rfl

theorem exponentRange_eq_ok {format : Format} (valid : format.validate = .ok ()) :
    format.exponentRange =
      .ok (2 - 2 ^ (format.exponentBits - 1), 2 ^ (format.exponentBits - 1) - 1) := by
  obtain ⟨-, wide, narrow⟩ := validate_eq_ok_iff.1 valid
  have bound : (2 : Int) ^ (format.exponentBits - 1) < 2 ^ 62 :=
    pow_lt_pow_right₀ (by decide) (by omega)
  have pos : (0 : Int) < 2 ^ (format.exponentBits - 1) := by positivity
  have double : (2 : Int) ^ format.exponentBits = 2 * 2 ^ (format.exponentBits - 1) := by
    rw [← pow_succ']
    congr 1
    omega
  have nonzero : (format.exponentBits != 0) = true := by
    rw [bne_iff_ne]
    omega
  unfold exponentRange
  rw [ensure_eq_ok nonzero, powerInt64_eq_ok (show format.exponentBits - 1 < 63 by omega),
    powerInt64_eq_ok (show format.exponentBits < 63 by omega), double]
  simp only [ok_bind]
  rw [int64_eq_ok (by omega) (by omega), ok_bind]
  show Except.ok (_, _) = _
  congr 2 <;> ring

theorem range_around_zero {format : Format} (valid : format.validate = .ok ())
    {least greatest : Int} (range : format.exponentRange = .ok (least, greatest)) :
    least ≤ 0 ∧ 0 < greatest := by
  obtain ⟨-, wide, -⟩ := validate_eq_ok_iff.1 valid
  have half : (2 : Int) ^ 1 ≤ 2 ^ (format.exponentBits - 1) :=
    pow_le_pow_right₀ (by decide) (by omega)
  rw [exponentRange_eq_ok valid] at range
  cases range
  omega

theorem admitExponent_eq {format : Format} {least greatest : Int}
    (range : format.exponentRange = .ok (least, greatest)) (exponent : Int) :
    format.admitExponent exponent =
      if greatest < exponent then reject (.exponentTooLarge exponent greatest)
      else if exponent < least then reject (.exponentTooSmall exponent least)
      else .ok () := by
  unfold admitExponent
  rw [range]
  rfl

theorem admitExponent_eq_ok_iff {format : Format} {least greatest : Int}
    (range : format.exponentRange = .ok (least, greatest)) {exponent : Int} :
    format.admitExponent exponent = .ok () ↔ least ≤ exponent ∧ exponent ≤ greatest := by
  rw [admitExponent_eq range]
  split_ifs with above below
  · constructor
    · intro h
      cases h
    · omega
  · constructor
    · intro h
      cases h
    · omega
  · exact ⟨fun _ => by omega, fun _ => rfl⟩

/-- The exponents of all formats leave room for a precision in the machine integers. -/
theorem abs_exponent_lt {format : Format} (valid : format.validate = .ok ()) {exponent : Int}
    (admitted : format.admitExponent exponent = .ok ()) : |exponent| < 2 ^ 61 := by
  obtain ⟨-, -, narrow⟩ := validate_eq_ok_iff.1 valid
  have bound : (2 : Int) ^ (format.exponentBits - 1) ≤ 2 ^ 61 :=
    pow_le_pow_right₀ (by norm_num) (by omega)
  obtain ⟨lower, upper⟩ := (admitExponent_eq_ok_iff (exponentRange_eq_ok valid)).1 admitted
  rw [abs_lt]
  constructor <;> linarith

end ExactFloat.Format
