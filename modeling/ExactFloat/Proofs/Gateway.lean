import ExactFloat.Proofs.Construction
import ExactFloat.Proofs.RoundTrip
import ExactFloat.Proofs.Rounding.PowerOfTwo

/-!
# Floats made of integers agree with floats made of parts

The gateway takes the significand as an integer together with the exponent of its lowest bit, writes
the number as a fraction and rounds it. The direct construction wants a significand of the length of
the format and the exponent of the leading bit. They come to the same float or the same refusal
wherever exponent arithmetic has room, and the gateway makes no float elsewhere. An integer longer
than the precision is rounded as an integer first.
-/

namespace ExactFloat

/-! ## Words as magnitudes -/

namespace Magnitude

theorem toNat_ofWord_ne_zero {m : UInt64} (nonzero : m ≠ 0) : (ofWord m).toNat ≠ 0 := by
  rw [toNat_ofWord]
  exact fun zero => nonzero (UInt64.toNat_inj.1 zero)

theorem bitLength_ofWord (m : UInt64) : (ofWord m).bitLength = Word.bitLength m := rfl

theorem bitLength_ofWord_le (m : UInt64) : Word.bitLength m ≤ 64 := by
  rw [← bitLength_ofWord, bitLength_le_iff, toNat_ofWord]
  exact m.toNat_lt

theorem leading_bounds {m : Magnitude} (nonzero : m.toNat ≠ 0) (e : Int) :
    (2 : ℚ) ^ (e + (m.bitLength - 1)) ≤ m.toNat * 2 ^ e ∧
      (m.toNat * 2 ^ e : ℚ) < 2 ^ (e + (m.bitLength - 1) + 1) := by
  have pos : m.bitLength ≠ 0 := mt bitLength_eq_zero.1 nonzero
  have lower := two_zpow_le_of_lower pos (two_pow_le_toNat nonzero) (e + (m.bitLength - 1))
  have upper := lt_two_zpow_of_upper (toNat_lt_two_pow_bitLength m) (e + (m.bitLength - 1))
  rw [add_sub_cancel_right] at lower upper
  exact ⟨lower, upper⟩

end Magnitude

/-! ## Scaled integers as fractions -/

namespace Fraction

variable {q : Fraction} {m : UInt64} {e : Int}

theorem exists_ofScaled (negative : Bool) (e : Int) (nonzero : m ≠ 0) :
    ∃ q, ofScaled negative (.ofWord m) e = .ok q ∧ q.WellFormed ∧
      decide (q.value < 0) = negative ∧ |q.value| = m.toNat * 2 ^ e ∧ q.value ≠ 0 := by
  have pos := Nat.pos_of_ne_zero (Magnitude.toNat_ofWord_ne_zero nonzero)
  obtain ⟨q, scaled, -⟩ := ofScaled_eq_ok negative (.ofWord m) e
  obtain ⟨wellFormed, value⟩ := value_of_ofScaled scaled
  have parts := BinaryFloat.parts_of_signed (mul_pos (Nat.cast_pos.2 pos) (two_zpow_pos e)) value
  rw [Magnitude.toNat_ofWord] at parts
  exact ⟨q, scaled, wellFormed, parts⟩

/-- In lowest terms the lengths of the parts differ by the exponent of the leading bit, for the
denominator is a power of two. -/
theorem lengths_of_scaled (wellFormed : q.WellFormed)
    (coprime : q.numerator.toNat.Coprime q.denominator.toNat) (nonzero : m ≠ 0)
    (value : |q.value| = m.toNat * 2 ^ e) :
    (q.numerator.bitLength : Int) - q.denominator.bitLength = e + (Word.bitLength m - 1) := by
  have integer := Magnitude.toNat_ofWord_ne_zero nonzero
  rw [← Magnitude.toNat_ofWord] at value
  obtain ⟨k, power⟩ : ∃ k, q.denominator.toNat = 2 ^ k := by
    have denominator := den_mul_two_zpow integer e
    rw [← value, Rat.den_abs_eq_den, den_value_of_coprime wellFormed coprime] at denominator
    exact ⟨_, denominator⟩
  have length : q.denominator.bitLength = k + 1 := by
    apply Magnitude.bitLength_eq_of_bounds <;> rw [power]
    · exact Nat.le_refl _
    · exact Nat.pow_lt_pow_right (by decide) (Nat.lt_succ_self k)
  have quotient : (q.numerator.toNat * 2 ^ (-(k : Int)) : ℚ) =
      (Magnitude.ofWord m).toNat * 2 ^ e := by
    rw [← value, abs_value, power, zpow_neg, zpow_natCast, div_eq_mul_inv]
    push_cast
    rfl
  have numerator : q.numerator.toNat ≠ 0 := by
    intro zero
    rw [zero, Nat.cast_zero, zero_mul] at quotient
    exact mul_ne_zero (Nat.cast_ne_zero.2 integer) (ne_of_gt (two_zpow_pos e)) quotient.symm
  -- Both sides are the exponent of the leading bit of one number.
  obtain ⟨lower, upper⟩ := Magnitude.leading_bounds numerator (-(k : Int))
  obtain ⟨lower', upper'⟩ := Magnitude.leading_bounds integer e
  rw [quotient] at lower upper
  have leading := leading_unique lower upper lower' upper'
  rw [Magnitude.bitLength_ofWord] at leading
  omega

theorem hasRoom_of_scaled {precision : Nat} (wellFormed : q.WellFormed)
    (coprime : q.numerator.toNat.Coprime q.denominator.toNat) (nonzero : m ≠ 0)
    (value : |q.value| = m.toNat * 2 ^ e) (near : |e| < 2 ^ 60) (fits : FitsInt64 (precision + 2))
    (scale : FitsInt64 (precision + 2 - (e + (Word.bitLength m - 1)))) : q.HasRoom precision := by
  have word := Magnitude.bitLength_ofWord_le m
  have lengths := lengths_of_scaled wellFormed coprime nonzero value
  have bounds := abs_lt.1 near
  refine ⟨fits.2, ?_, ?_⟩
  · rw [Fraction.scale, lengths]
    exact scale.2
  · rw [lengths, abs_lt]
    omega

end Fraction

theorem fits_of_near {precision : Nat} {e : Int} (short : precision ≤ 64) (near : |e| < 2 ^ 60)
    (m : UInt64) :
    FitsInt64 (precision + 2) ∧ FitsInt64 (precision + 2 - (e + (Word.bitLength m - 1))) := by
  have word := Magnitude.bitLength_ofWord_le m
  have bounds := abs_lt.1 near
  constructor
  all_goals
    apply fitsInt64_of_abs_lt
    rw [abs_lt]
    omega

namespace Gateway

open BinaryFloat

/-! ## Arguments -/

theorem signed_eq_ok {e : Int} (near : |e| < 2 ^ 60) :
    ∃ exponent, signed e = .ok exponent ∧ exponent.toInt = e := by
  have bounds := abs_lt.1 near
  refine ⟨Int64.ofInt e, if_pos ⟨?_, ?_⟩, Int64.toInt_ofInt_of_le (by omega) (by omega)⟩
  all_goals
    unfold int64Limit
    omega

theorem unsigned_eq_ok (m : UInt64) : unsigned m.toNat = .ok m := by
  have lt := m.toNat_lt
  have word : (m.toNat : Int) < Word.radix := by
    unfold Word.radix
    omega
  rw [unsigned, if_pos ⟨Int.natCast_nonneg _, word⟩, Int.toNat_natCast, UInt64.ofNat_toNat]

theorem float_eq {e : Int} (near : |e| < 2 ^ 60) (format : Format) (negative : Bool) (m : UInt64) :
    float (some format) negative e m.toNat = ofOutcome (do
      let q ← Fraction.ofScaled negative (.ofWord m) e
      return (← ofFraction format format.mode q).1) := by
  obtain ⟨exponent, run, same⟩ := signed_eq_ok near
  rw [float, run, ok_bind, unsigned_eq_ok, ok_bind, same]
  rfl

/-! ## Outcomes -/

section

variable {format : Format} {negative : Bool} {e : Int} {m : UInt64}

theorem float_of_zero (valid : format.validate = .ok ()) (near : |e| < 2 ^ 60) (negative : Bool) :
    float (some format) negative e (0 : UInt64).toNat = .ok (.zero format false) := by
  obtain ⟨q, scaled, -⟩ := Fraction.ofScaled_eq_ok negative (.ofWord 0) e
  obtain ⟨wellFormed, value⟩ := Fraction.value_of_ofScaled scaled
  have zero : q.value = 0 := by
    rw [value]
    simp
  rw [float_eq near, scaled, ok_bind, ofFraction_of_value_eq_zero _ valid wellFormed zero]
  rfl

theorem float_eq_map (valid : format.validate = .ok ()) (near : |e| < 2 ^ 60) (negative : Bool)
    (nonzero : m ≠ 0) (fits : FitsInt64 (format.precision + 2))
    (scale : FitsInt64 (format.precision + 2 - (e + (Word.bitLength m - 1)))) :
    ∃ (c : Cut format.precision (m.toNat * 2 ^ e)) (r : Rounded),
      c.Gives format.mode negative r ∧ r.significand.Minimal ∧
      float (some format) negative e m.toNat =
        ofOutcome ((format.admitExponent r.exponent).map fun _ =>
          ⟨format, negative, r.exponent, r.significand, .normal⟩) := by
  obtain ⟨q, scaled, wellFormed, sign, magnitude, valueNonzero⟩ :=
    Fraction.exists_ofScaled negative e nonzero
  obtain ⟨lowest, canonical, reduced⟩ := Fraction.canonical_eq_ok wellFormed
  have room := Fraction.hasRoom_of_scaled reduced.wellFormed reduced.coprime nonzero
    (reduced.value ▸ magnitude) near fits scale
  have spec := exists_rounded format.mode sign valid valueNonzero canonical room
  rw [magnitude] at spec
  obtain ⟨c, r, run, gives, result⟩ := spec
  refine ⟨c, r, gives, Rounded.minimal_ofFraction run, ?_⟩
  rw [float_eq near, scaled, ok_bind, result]
  cases format.admitExponent r.exponent <;> rfl

/-- An integer that fits the precision makes the float with the integer, brought to the length of
the format, for its significand. -/
theorem float_eq_ofParts (valid : format.validate = .ok ()) (near : |e| < 2 ^ 60) (negative : Bool)
    (nonzero : m ≠ 0) (short : Word.bitLength m ≤ format.precision)
    (fits : FitsInt64 (format.precision + 2))
    (scale : FitsInt64 (format.precision + 2 - (e + (Word.bitLength m - 1)))) :
    float (some format) negative e m.toNat =
      ofOutcome (ofParts format negative (e + (Word.bitLength m - 1))
        (Magnitude.ofWord m <<< (format.precision - Word.bitLength m))) := by
  have pos := Magnitude.toNat_ofWord_ne_zero nonzero
  have length : (Magnitude.ofWord m <<< (format.precision - Word.bitLength m)).bitLength =
      format.precision := by
    rw [Magnitude.bitLength_shiftLeft pos, Magnitude.bitLength_ofWord]
    omega
  have lower := two_pow_le_widened (mt Magnitude.bitLength_eq_zero.1 pos) short
    (Magnitude.two_pow_le_toNat pos)
  have upper := widened_lt_two_pow short (Magnitude.toNat_lt_two_pow_bitLength (.ofWord m))
  have widened := widened_value short m.toNat (e + (Word.bitLength m - 1))
  rw [add_sub_cancel_right] at widened
  rw [Magnitude.toNat_ofWord] at lower upper
  obtain ⟨c, r, gives, minimal, result⟩ := float_eq_map valid near negative nonzero fits scale
  have exponent := gives.exponent
  have significand := gives.significand
  -- The widened integer has the length of a significand, so the cut gives it back.
  rw [c.result_eq format.mode negative lower upper widened.symm] at exponent significand
  have stored := Magnitude.kept_minimal.shiftLeft (Magnitude.minimal_ofWord m)
    (format.precision - Word.bitLength m)
  have same : r.significand = Magnitude.ofWord m <<< (format.precision - Word.bitLength m) := by
    apply minimal.eq_of_toNat_eq stored
    rw [Magnitude.toNat_shiftLeft, Magnitude.toNat_ofWord]
    exact significand
  rw [result, ofParts_eq_map valid length, exponent, same]

/-- An integer longer than the precision is rounded as an integer, and its exponent moved before it
is checked. -/
theorem float_of_long (valid : format.validate = .ok ()) (near : |e| < 2 ^ 60) (negative : Bool)
    (long : format.precision < Word.bitLength m) :
    ∃ r, Rounded.ofFraction format format.mode ⟨negative, .ofWord m, .one⟩ = .ok r ∧
      r.significand.bitLength = format.precision ∧
      Rounds format.mode negative format.precision m.toNat
        (r.significand.toNat * 2 ^ (r.exponent - (format.precision - 1))) ∧
      float (some format) negative e m.toNat =
        ofOutcome ((format.admitExponent (r.exponent + e)).map fun _ =>
          ⟨format, negative, r.exponent + e, r.significand, .normal⟩) := by
  have nonzero : m ≠ 0 := by
    rintro rfl
    exact absurd long (Nat.not_lt_zero _)
  have small : format.precision ≤ 64 :=
    Nat.le_of_lt (long.trans_le (Magnitude.bitLength_ofWord_le m))
  have pos := Nat.pos_of_ne_zero (Magnitude.toNat_ofWord_ne_zero nonzero)
  rw [Magnitude.toNat_ofWord] at pos
  have value : (⟨negative, .ofWord m, .one⟩ : Fraction).value = if negative then -(m.toNat : ℚ)
      else m.toNat := by
    simp [Fraction.value]
  obtain ⟨sign, magnitude, valueNonzero⟩ := parts_of_signed (Nat.cast_pos.2 pos) value
  have room : (⟨negative, .ofWord m, .one⟩ : Fraction).HasRoom format.precision := by
    obtain ⟨fits, scale⟩ := fits_of_near (e := 0) small (by norm_num) m
    refine Fraction.hasRoom_of_scaled (Fraction.wellFormed_of_value_ne_zero valueNonzero) ?_ nonzero
      ?_ (by norm_num) fits scale
    · rw [Magnitude.toNat_one]
      exact Nat.coprime_one_right _
    · rw [magnitude, zpow_zero, mul_one]
  have spec := Rounded.ofFraction_eq_ok format.mode sign valueNonzero
    (Format.validate_eq_ok_iff.1 valid).1 room
  rw [magnitude] at spec
  obtain ⟨d, r, run, given⟩ := spec
  obtain ⟨fits, scale⟩ := fits_of_near small near m
  obtain ⟨c, r', gives, minimal, result⟩ := float_eq_map valid near negative nonzero fits scale
  -- The float is cut like the integer, in units that are larger by the power of two.
  obtain rfl : c = d.scale e := Subsingleton.elim c _
  have exponent := gives.exponent
  have significand := gives.significand
  rw [d.result_scale] at exponent significand
  have same : r'.significand = r.significand :=
    minimal.eq_of_toNat_eq (Rounded.minimal_ofFraction run)
      (significand.trans given.significand.symm)
  have rounds := d.rounds_result format.mode negative
  rw [← given.exponent, ← given.significand] at rounds
  refine ⟨r, run, given.length, rounds, ?_⟩
  rw [result, exponent, same, given.exponent]

/-- Where the exponents have no room, no float is made, whatever the direct construction does. -/
theorem fits_of_float (near : |e| < 2 ^ 60) (nonzero : m ≠ 0) {f : BinaryFloat}
    (run : float (some format) negative e m.toNat = .ok f) :
    FitsInt64 (format.precision + 2) ∧
      FitsInt64 (format.precision + 2 - (e + (Word.bitLength m - 1))) := by
  obtain ⟨q, scaled, wellFormed, -, magnitude, valueNonzero⟩ :=
    Fraction.exists_ofScaled negative e nonzero
  rw [float_eq near, ofOutcome_eq_ok_iff, scaled, ok_bind] at run
  obtain ⟨⟨_, direction⟩, rounding, result⟩ := bind_eq_ok_iff.1 run
  cases result
  obtain ⟨-, r, canonical, ⟨zero, -⟩ | ⟨-, moderate, rounded, run, -⟩⟩ :=
    parts_of_ofFraction rounding
  · exact absurd zero ((Fraction.reduced_of_canonical wellFormed canonical).not_isZero valueNonzero)
  · have reduced := Fraction.reduced_of_canonical wellFormed canonical
    have lengths := Fraction.lengths_of_scaled reduced.wellFormed reduced.coprime nonzero
      (reduced.value ▸ magnitude)
    have fits := Rounded.fits_of_ofFraction moderate run
    rw [Fraction.scale, lengths] at fits
    exact fits

theorem float_of_scaled {f : BinaryFloat} {m : Magnitude} (near : |e| < 2 ^ 60)
    (valid : f.format.validate = .ok ()) (wellFormed : f.WellFormed)
    (word : f.format.precision ≤ 64) (scaled : f.scaled? = some (negative, m, e)) :
    ∃ g, float (some f.format) negative e m.toNat = .ok g ∧ g.format = f.format ∧
      g.negative = f.negative ∧ g.isNormal = true ∧ g.exponent = f.exponent ∧
      g.significand.toNat = f.significand.toNat ∧ (f.significand.Minimal → g = f) := by
  obtain ⟨normal, rfl, rfl, rfl⟩ := BinaryFloat.scaled?_eq_some_iff.1 scaled
  obtain ⟨length, admitted⟩ := (wellFormed_iff_of_normal normal).1 wellFormed
  obtain ⟨pos, -, -⟩ := Format.validate_eq_ok_iff.1 valid
  have small : f.significand.toNat < 2 ^ 64 := Magnitude.bitLength_le_iff.1 (length.trans_le word)
  obtain ⟨n, same⟩ : ∃ n : UInt64, n.toNat = f.significand.toNat :=
    ⟨_, UInt64.toNat_ofNat_of_lt' small⟩
  have width : Word.bitLength n = f.format.precision := by
    rw [← length, ← Magnitude.bitLength_ofWord]
    exact Magnitude.bitLength_congr ((Magnitude.toNat_ofWord _).trans same)
  have nonzero : n ≠ 0 := by
    rintro rfl
    exact pos width.symm
  obtain ⟨fits, scale⟩ := fits_of_near word near n
  have leading : f.lowestExponent + (f.format.precision - 1) = f.exponent := by
    rw [BinaryFloat.lowestExponent, sub_add_cancel]
  -- A significand is just short enough not to be rounded, and is not moved either.
  have run := float_eq_ofParts valid near f.negative nonzero (Nat.le_of_eq width) fits scale
  rw [same, width, Nat.sub_self, leading] at run
  have value : (Magnitude.ofWord n <<< 0).toNat = f.significand.toNat := by
    rw [Magnitude.toNat_shiftLeft, Magnitude.toNat_ofWord, same, pow_zero, Nat.mul_one]
  have stored := Magnitude.kept_minimal.shiftLeft (Magnitude.minimal_ofWord n) 0
  generalize Magnitude.ofWord n <<< 0 = significand at run value stored
  rw [ofParts_eq_map valid ((Magnitude.bitLength_congr value).trans length), admitted] at run
  refine ⟨_, run, rfl, rfl, rfl, rfl, value, fun minimal => ?_⟩
  rw [stored.eq_of_toNat_eq minimal value, ← normal]

/-- Zero makes the positive zero. An integer that fits the precision makes the float of its parts,
or is refused in the same words, where exponent arithmetic has room; where it has none, no float is
made. A longer integer is rounded as an integer. So a float comes back from its significand and the
exponent of its lowest bit. -/
theorem float_agrees (valid : format.validate = .ok ()) (near : |e| < 2 ^ 60) (negative : Bool) :
    float (some format) negative e (0 : UInt64).toNat = .ok (.zero format false) ∧
    (∀ m : UInt64, m ≠ 0 → Word.bitLength m ≤ format.precision →
      (FitsInt64 (format.precision + 2) →
        FitsInt64 (format.precision + 2 - (e + (Word.bitLength m - 1))) →
        float (some format) negative e m.toNat =
          ofOutcome (ofParts format negative (e + (Word.bitLength m - 1))
            (Magnitude.ofWord m <<< (format.precision - Word.bitLength m)))) ∧
      ((∃ f, float (some format) negative e m.toNat = .ok f) →
        FitsInt64 (format.precision + 2) ∧
          FitsInt64 (format.precision + 2 - (e + (Word.bitLength m - 1))))) ∧
    (∀ m : UInt64, format.precision < Word.bitLength m →
      ∃ r, Rounded.ofFraction format format.mode ⟨negative, .ofWord m, .one⟩ = .ok r ∧
        r.significand.bitLength = format.precision ∧
        Rounds format.mode negative format.precision m.toNat
          (r.significand.toNat * 2 ^ (r.exponent - (format.precision - 1))) ∧
        float (some format) negative e m.toNat =
          ofOutcome ((format.admitExponent (r.exponent + e)).map fun _ =>
            ⟨format, negative, r.exponent + e, r.significand, .normal⟩)) ∧
    (∀ (f : BinaryFloat) (m : Magnitude), f.format = format → f.WellFormed →
      format.precision ≤ 64 → f.scaled? = some (negative, m, e) →
      ∃ g, float (some format) negative e m.toNat = .ok g ∧ g.format = f.format ∧
        g.negative = f.negative ∧ g.isNormal = true ∧ g.exponent = f.exponent ∧
        g.significand.toNat = f.significand.toNat ∧ (f.significand.Minimal → g = f)) := by
  refine ⟨float_of_zero valid near negative, ?_, ?_, ?_⟩
  · intro m nonzero short
    exact ⟨float_eq_ofParts valid near negative nonzero short,
      fun ⟨_, run⟩ => fits_of_float near nonzero run⟩
  · exact fun m => float_of_long valid near negative
  · rintro f m rfl wellFormed word scaled
    exact float_of_scaled near valid wellFormed word scaled

/-- One quarter with two bits to spare, thirteen quarters with one bit too many, and six quarters.
-/
theorem float_agrees_of_single_digits :
    Format.validate ⟨3, 3, .awayFromZero⟩ = .ok () ∧
    float (some ⟨3, 3, .awayFromZero⟩) true (-2) 1 =
      .ok ⟨⟨3, 3, .awayFromZero⟩, true, -2, .ofWord 4, .normal⟩ ∧
    (∃ r, Rounded.ofFraction ⟨3, 3, .awayFromZero⟩ .awayFromZero ⟨true, .ofWord 13, .one⟩ = .ok r ∧
      float (some ⟨3, 3, .awayFromZero⟩) true (-2) 13 =
        ofOutcome ((Format.admitExponent ⟨3, 3, .awayFromZero⟩ (r.exponent - 2)).map fun _ =>
          ⟨⟨3, 3, .awayFromZero⟩, true, r.exponent - 2, r.significand, .normal⟩)) ∧
    ∃ g, float (some ⟨3, 3, .awayFromZero⟩) true (-2) 6 = .ok g ∧
      g = ⟨⟨3, 3, .awayFromZero⟩, true, 0, .ofWord 6, .normal⟩ := by
  have valid : Format.validate ⟨3, 3, .awayFromZero⟩ = .ok () := rfl
  have near : |(-2 : Int)| < 2 ^ 60 := by norm_num
  obtain ⟨-, short, long, scaled⟩ := float_agrees valid near true
  have one := (short 1 (by decide) (by decide)).1 (by decide) (by decide)
  obtain ⟨r, run, -, -, thirteen⟩ := long 13 (by decide)
  obtain ⟨g, six, -, -, -, -, -, same⟩ :=
    scaled ⟨⟨3, 3, .awayFromZero⟩, true, 0, .ofWord 6, .normal⟩ (.ofWord 6) rfl
      ⟨rfl, by decide⟩ (by decide) rfl
  exact ⟨valid, one.trans (by decide +kernel), ⟨r, run, thirteen⟩, g, six, same (.inl rfl)⟩

/-- A precision from `2 ^ 63` on wraps in exponent arithmetic. Rounding then cuts off every bit of
two to the tenth and carries, and the exponent refused is not the one of the leading bit. -/
theorem not_forall_float_eq_ofParts :
    ¬∀ (format : Format) (negative : Bool) (e : Int) (m : UInt64), format.precision < 2 ^ 64 →
      format.validate = .ok () → |e| < 2 ^ 60 → m ≠ 0 → Word.bitLength m ≤ format.precision →
      float (some format) negative e m.toNat =
        ofOutcome (ofParts format negative (e + (Word.bitLength m - 1))
          (Magnitude.ofWord m <<< (format.precision - Word.bitLength m))) := by
  intro agree
  let format : Format := ⟨2, 2 ^ 64 - 1, .awayFromZero⟩
  have valid : format.validate = .ok () := by decide
  have short : Word.bitLength 1 ≤ format.precision := by decide
  have same := agree format false 10 1 (by decide) valid (by norm_num) (by decide) short
  have rounded : float (some format) false 10 (1 : UInt64).toNat =
      .error (.failed (.rejected (.exponentTooLarge 11 1))) := by decide +kernel
  have length : (Magnitude.ofWord 1 <<< (format.precision - Word.bitLength 1)).bitLength =
      format.precision := by
    rw [Magnitude.bitLength_shiftLeft (by decide), Magnitude.bitLength_ofWord]
    exact Nat.add_sub_cancel' short
  have refused : format.admitExponent (10 + ((Word.bitLength 1 : Nat) - 1)) =
      reject (.exponentTooLarge 10 1) := by decide +kernel
  rw [rounded, ofParts_eq_map valid length, refused] at same
  cases same

end

end Gateway

end ExactFloat
