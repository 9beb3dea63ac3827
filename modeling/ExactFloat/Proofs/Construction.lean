import ExactFloat.Gateway
import ExactFloat.Proofs.Rounding.Correct

/-!
# Floats are well formed wherever they come from

A float is made of its parts, by a constructor of a special value, by rounding, by a change of sign,
or through the gateway. Some of these calls check the parts and some do not look at them. What they
return has a significand of the length of its format and an exponent in its range all the same, and
nothing but a normal float has parts.
-/

namespace ExactFloat

namespace BinaryFloat

structure Sound (f : BinaryFloat) : Prop where
  valid : f.format.validate = .ok ()
  wellFormed : f.WellFormed

/-! ## Single calls -/

section

variable {format : Format} {negative : Bool} {exponent : Int} {significand : Magnitude}
  {f : BinaryFloat}

theorem parts_of_ofParts (run : ofParts format negative exponent significand = .ok f) :
    format.validate = .ok () ∧
      (f = .zero format negative ∨ significand.bitLength = format.precision ∧
        format.admitExponent exponent = .ok () ∧
        f = ⟨format, negative, exponent, significand, .normal⟩) := by
  unfold ofParts at run
  obtain ⟨_, valid, run⟩ := bind_eq_ok_iff.1 run
  refine ⟨valid, ?_⟩
  split at run
  · cases run
    exact .inl rfl
  · split at run
    · obtain ⟨_, rejected, -⟩ := bind_eq_ok_iff.1 run
      cases rejected
    · next length =>
      obtain ⟨_, admitted, run⟩ := bind_eq_ok_iff.1 run
      cases run
      exact .inr ⟨not_not.1 length, admitted, rfl⟩

theorem sound_of_ofParts (run : ofParts format negative exponent significand = .ok f) :
    f.Sound := by
  obtain ⟨valid, rfl | ⟨length, admitted, rfl⟩⟩ := parts_of_ofParts run
  · exact ⟨valid, rfl, rfl⟩
  · exact ⟨valid, length, admitted⟩

/-- Nothing is checked, but the exponent zero is in every range. -/
theorem sound_of_one (valid : format.validate = .ok ()) (run : one format negative = .ok f) :
    f.Sound := by
  obtain ⟨pos, -, -⟩ := Format.validate_eq_ok_iff.1 valid
  have range := Format.exponentRange_eq_ok valid
  have around := Format.range_around_zero valid range
  have trailing : format.trailingBits = .ok (format.precision - 1) := if_neg pos
  unfold one at run
  rw [trailing] at run
  cases run
  refine ⟨valid, ?_, ?_⟩
  · show (Magnitude.oneHot (format.precision - 1)).bitLength = format.precision
    rw [Magnitude.bitLength_oneHot]
    omega
  · exact (Format.admitExponent_eq_ok_iff range).2 ⟨around.1, le_of_lt around.2⟩

theorem sound_of_ofFraction {mode : Mode} {q : Fraction} {direction : Ordering}
    (run : ofFraction format mode q = .ok (f, direction)) : f.Sound := by
  obtain ⟨rfl, wellFormed⟩ := wellFormed_of_ofFraction run
  exact ⟨validate_of_ofFraction run, wellFormed⟩

/-- An integer is brought to lowest terms twice, and is zero or not all the while. -/
theorem exists_ofFraction_of_ofMagnitude {value : Magnitude} {result : BinaryFloat × Ordering}
    (run : ofMagnitude format negative value = .ok result) :
    ∃ q, q.isZero = value.isZero ∧ ofFraction format format.mode q = .ok result := by
  rw [ofMagnitude, (Observed.ofMagnitude_gives_steps format negative value).outcome_eq] at run
  obtain ⟨q, canonical, rounding⟩ := bind_eq_ok_iff.1 run
  exact ⟨q, Fraction.isZero_of_canonical canonical, insist_eq_ok_iff.1 rounding⟩

theorem Sound.normal (sound : f.Sound) (normal : f.category = .normal) :
    f.significand.bitLength = f.format.precision ∧ f.format.admitExponent f.exponent = .ok () :=
  (wellFormed_iff_of_normal normal).1 sound.wellFormed

theorem ofParts_eq_map (valid : format.validate = .ok ())
    (length : significand.bitLength = format.precision) (negative : Bool) (exponent : Int) :
    ofParts format negative exponent significand =
      (format.admitExponent exponent).map fun _ =>
        ⟨format, negative, exponent, significand, .normal⟩ := by
  obtain ⟨pos, -, -⟩ := Format.validate_eq_ok_iff.1 valid
  have nonzero : ¬significand.isZero = true := by
    rw [Magnitude.isZero_iff, ← Magnitude.bitLength_eq_zero, length]
    exact pos
  unfold ofParts
  rw [valid, ok_bind, if_neg nonzero, if_neg (not_not.2 length)]
  cases format.admitExponent exponent <;> rfl

theorem Sound.ofParts_eq (sound : f.Sound) (normal : f.category = .normal) :
    ofParts f.format f.negative f.exponent f.significand = .ok f := by
  obtain ⟨length, admitted⟩ := sound.normal normal
  rw [ofParts_eq_map sound.valid length, admitted, ← normal]
  rfl

end

end BinaryFloat

/-! ## The gateway -/

namespace Gateway

theorem ofOutcome_eq_ok_iff {α : Type} {outcome : Outcome α} {a : α} :
    ofOutcome outcome = .ok a ↔ outcome = .ok a := by
  cases outcome with
  | error failure => exact iff_of_false (fun h => by cases h) (fun h => by cases h)
  | ok _ => exact ⟨fun h => by cases h; rfl, fun h => by cases h; rfl⟩

section

variable {given : Format} {f : BinaryFloat}

theorem exists_ofFraction_of_float {negative : Bool} {exponent significand : Int}
    (run : float (some given) negative exponent significand = .ok f) :
    ∃ q direction, BinaryFloat.ofFraction given given.mode q = .ok (f, direction) := by
  obtain ⟨_, -, run⟩ := bind_eq_ok_iff.1 run
  obtain ⟨_, -, run⟩ := bind_eq_ok_iff.1 run
  obtain ⟨_, same, run⟩ := bind_eq_ok_iff.1 run
  cases same
  obtain ⟨q, -, run⟩ := bind_eq_ok_iff.1 (ofOutcome_eq_ok_iff.1 run)
  obtain ⟨⟨_, direction⟩, rounding, result⟩ := bind_eq_ok_iff.1 run
  cases result
  exact ⟨q, direction, rounding⟩

theorem exists_ofFraction_of_integer {value : Int} (run : integer (some given) value = .ok f) :
    ∃ q direction, BinaryFloat.ofFraction given given.mode q = .ok (f, direction) := by
  obtain ⟨_, -, run⟩ := bind_eq_ok_iff.1 run
  obtain ⟨_, same, run⟩ := bind_eq_ok_iff.1 run
  cases same
  obtain ⟨q, -, run⟩ := bind_eq_ok_iff.1 (ofOutcome_eq_ok_iff.1 run)
  obtain ⟨⟨_, direction⟩, rounding, result⟩ := bind_eq_ok_iff.1 run
  cases result
  exact ⟨q, direction, rounding⟩

theorem exists_ofFraction_of_round {q : Fraction} {name : String} {direction : Ordering}
    (run : round q (some given) name = .ok (f, direction)) :
    ∃ mode, BinaryFloat.ofFraction given mode q = .ok (f, direction) := by
  obtain ⟨_, same, run⟩ := bind_eq_ok_iff.1 run
  cases same
  obtain ⟨mode, -, run⟩ := bind_eq_ok_iff.1 run
  exact ⟨mode, ofOutcome_eq_ok_iff.1 run⟩

end

end Gateway

/-! ## Sequences of calls -/

namespace BinaryFloat

/-- The floats that finitely many successful calls with valid formats lead to. The fractions that
are rounded may come from anywhere, floats among them. -/
inductive Constructed : BinaryFloat → Prop
  | parts {format : Format} {negative : Bool} {exponent : Int} {significand : Magnitude}
      {f : BinaryFloat} (valid : format.validate = .ok ())
      (run : ofParts format negative exponent significand = .ok f) : Constructed f
  | goodParts {format : Format} {negative : Bool} {exponent : Int} {significand : Magnitude}
      {f : BinaryFloat} (valid : format.validate = .ok ())
      (run : insist (ofParts format negative exponent significand) = .ok f) : Constructed f
  | zero {format : Format} (valid : format.validate = .ok ()) (negative : Bool) :
      Constructed (.zero format negative)
  | one {format : Format} {negative : Bool} {f : BinaryFloat} (valid : format.validate = .ok ())
      (run : BinaryFloat.one format negative = .ok f) : Constructed f
  | infinity {format : Format} (valid : format.validate = .ok ()) (negative : Bool) :
      Constructed (.infinity format negative)
  | nan {format : Format} (valid : format.validate = .ok ()) (negative : Bool) :
      Constructed (.nan format negative)
  | neg {f : BinaryFloat} (constructed : Constructed f) : Constructed f.neg
  | fraction {format : Format} {mode : Mode} {q : Fraction} {f : BinaryFloat}
      {direction : Ordering} (valid : format.validate = .ok ())
      (run : ofFraction format mode q = .ok (f, direction)) : Constructed f
  | goodFraction {format : Format} {mode : Mode} {q : Fraction} {f : BinaryFloat}
      {direction : Ordering} (valid : format.validate = .ok ())
      (run : insist (ofFraction format mode q) = .ok (f, direction)) : Constructed f
  | magnitude {format : Format} {negative : Bool} {value : Magnitude} {f : BinaryFloat}
      {direction : Ordering} (valid : format.validate = .ok ())
      (run : ofMagnitude format negative value = .ok (f, direction)) : Constructed f
  | unsigned {format : Format} {value : UInt64} {f : BinaryFloat} {direction : Ordering}
      (valid : format.validate = .ok ())
      (run : ofUInt64 format value = .ok (f, direction)) : Constructed f
  | signed {format : Format} {value : Int64} {f : BinaryFloat} {direction : Ordering}
      (valid : format.validate = .ok ())
      (run : ofInt64 format value = .ok (f, direction)) : Constructed f
  | gatewayFloat {format : Format} {negative : Bool} {exponent significand : Int}
      {f : BinaryFloat} (valid : format.validate = .ok ())
      (run : Gateway.float (some format) negative exponent significand = .ok f) : Constructed f
  | gatewayInteger {format : Format} {value : Int} {f : BinaryFloat}
      (valid : format.validate = .ok ())
      (run : Gateway.integer (some format) value = .ok f) : Constructed f
  | gatewayRound {format : Format} {q : Fraction} {name : String} {f : BinaryFloat}
      {direction : Ordering} (valid : format.validate = .ok ())
      (run : Gateway.round q (some format) name = .ok (f, direction)) : Constructed f
  | gatewayZero {format : Format} {f : BinaryFloat} (valid : format.validate = .ok ())
      (run : Gateway.zero (some format) = .ok f) : Constructed f
  | gatewayInfinity {format : Format} {negative : Bool} {f : BinaryFloat}
      (valid : format.validate = .ok ())
      (run : Gateway.infinity (some format) negative = .ok f) : Constructed f
  | gatewayNaN {format : Format} {f : BinaryFloat} (valid : format.validate = .ok ())
      (run : Gateway.nan (some format) = .ok f) : Constructed f

namespace Constructed

variable {f : BinaryFloat}

theorem sound (h : Constructed f) : f.Sound := by
  induction h with
  | parts _ run => exact sound_of_ofParts run
  | goodParts _ run => exact sound_of_ofParts (insist_eq_ok_iff.1 run)
  | zero valid _ | infinity valid _ | nan valid _ => exact ⟨valid, rfl, rfl⟩
  | one valid run => exact sound_of_one valid run
  | neg _ ih => exact ⟨ih.valid, ih.wellFormed⟩
  | fraction _ run => exact sound_of_ofFraction run
  | goodFraction _ run => exact sound_of_ofFraction (insist_eq_ok_iff.1 run)
  | magnitude _ run | unsigned _ run | signed _ run =>
      obtain ⟨q, -, rounding⟩ := exists_ofFraction_of_ofMagnitude run
      exact sound_of_ofFraction rounding
  | gatewayFloat _ run =>
      obtain ⟨q, direction, rounding⟩ := Gateway.exists_ofFraction_of_float run
      exact sound_of_ofFraction rounding
  | gatewayInteger _ run =>
      obtain ⟨q, direction, rounding⟩ := Gateway.exists_ofFraction_of_integer run
      exact sound_of_ofFraction rounding
  | gatewayRound _ run =>
      obtain ⟨mode, rounding⟩ := Gateway.exists_ofFraction_of_round run
      exact sound_of_ofFraction rounding
  | gatewayZero valid run | gatewayInfinity valid run | gatewayNaN valid run =>
      cases run
      exact ⟨valid, rfl, rfl⟩

/-- Every float that calls lead to has the parts of a float of its format, or no parts at all, and a
normal one is made again of its sign, its significand and the exponent of the lowest bit. -/
theorem representation (h : Constructed f) :
    ∃ least greatest, f.format.exponentRange = .ok (least, greatest) ∧
      (f.isNormal = true → f.significand.bitLength = f.format.precision ∧
        least ≤ f.exponent ∧ f.exponent ≤ greatest ∧
        ∃ negative m e, f.scaled? = some (negative, m, e) ∧
          ofParts f.format negative (e + f.format.precision - 1) m = .ok f) ∧
      (f.isNormal = false → f.exponent = 0 ∧ f.significand = .zero) := by
  have range := Format.exponentRange_eq_ok h.sound.valid
  refine ⟨_, _, range, fun normal => ?_, fun special => ?_⟩
  · have category : f.category = .normal := of_decide_eq_true normal
    obtain ⟨length, admitted⟩ := h.sound.normal category
    have bounds := (Format.admitExponent_eq_ok_iff range).1 admitted
    have leading : f.lowestExponent + f.format.precision - 1 = f.exponent := by
      rw [lowestExponent]
      ring
    refine ⟨length, bounds.1, bounds.2, _, _, _, if_pos normal, ?_⟩
    rw [leading]
    exact h.sound.ofParts_eq category
  · exact (wellFormed_iff_of_not_normal (of_decide_eq_false special)).1 h.sound.wellFormed

/-- Minus three eighths, the rounded third with the other sign, is made again of its significand
and the exponent of the lowest bit. -/
theorem representation_of_negated_third :
    let f : BinaryFloat := ⟨⟨3, 2, .nearestEven⟩, true, -2, .ofWord 3, .normal⟩
    Constructed f ∧ f.isNormal = true ∧ ∃ negative m e, f.scaled? = some (negative, m, e) ∧
      ofParts f.format negative (e + f.format.precision - 1) m = .ok f := by
  intro f
  have run : ofFraction ⟨3, 2, .nearestEven⟩ .upward ⟨false, .ofWord 1, .ofWord 3⟩ =
      .ok (⟨⟨3, 2, .nearestEven⟩, false, -2, .ofWord 3, .normal⟩, .gt) := by decide +kernel
  have constructed : Constructed f := neg (fraction rfl run)
  obtain ⟨_, _, -, normal, -⟩ := representation constructed
  exact ⟨constructed, rfl, (normal rfl).2.2.2⟩

end Constructed

end BinaryFloat

end ExactFloat
