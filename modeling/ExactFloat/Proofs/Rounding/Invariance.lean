import ExactFloat.Proofs.Magnitude.Kept
import ExactFloat.Proofs.Rounding.Direction

/-!
# Conversions depend on the number only

Common factors, a sign on a zero and zero words on top of the stored parts leave no trace in the
float that a fraction becomes. A number is cut off in one way only, and the significand that comes
out has no zero word on top, so that equal results are stored alike.
-/

namespace ExactFloat

/-! ## Stored significands -/

namespace Rounded

theorem minimal_align {precision exponent aligned : Int} {significand kept : Magnitude}
    {below tail : Tail} (minimal : significand.Minimal)
    (run : align precision exponent significand below = .ok (aligned, kept, tail)) :
    kept.Minimal := by
  unfold align at run
  dsimp only at run
  split at run
  · obtain ⟨_, -, run⟩ := bind_eq_ok_iff.1 run
    obtain ⟨_, -, run⟩ := bind_eq_ok_iff.1 run
    cases run
    exact Magnitude.kept_minimal.shiftRight _ _
  · split at run
    · obtain ⟨_, -, run⟩ := bind_eq_ok_iff.1 run
      obtain ⟨_, -, run⟩ := bind_eq_ok_iff.1 run
      obtain ⟨_, -, run⟩ := bind_eq_ok_iff.1 run
      cases run
      exact Magnitude.kept_minimal.shiftLeft minimal _
    · cases run
      exact minimal

theorem minimal_increment {precision exponent carried : Int} {significand next : Magnitude}
    (minimal : significand.Minimal)
    (run : increment precision exponent significand = .ok (carried, next)) : next.Minimal := by
  unfold increment at run
  dsimp only at run
  split at run
  · obtain ⟨_, -, shifted⟩ := bind_eq_ok_iff.1 run
    cases shifted
    exact Magnitude.kept_minimal.shiftRight _ _
  · cases run
    exact minimal.add (Magnitude.minimal_ofWord 1)

theorem minimal_ofTail {precision exponent : Int} {mode : Mode} {negative : Bool}
    {significand : Magnitude} {below : Tail} {r : Rounded} (minimal : significand.Minimal)
    (run : ofTail precision mode negative exponent significand below = .ok r) :
    r.significand.Minimal := by
  unfold ofTail at run
  obtain ⟨⟨aligned, kept, tail⟩, cut, rounding⟩ := bind_eq_ok_iff.1 run
  have keptMinimal := minimal_align minimal cut
  dsimp only at rounding
  split at rounding
  · cases rounding
    exact keptMinimal
  · obtain ⟨_, -, rounding⟩ := bind_eq_ok_iff.1 rounding
    split at rounding
    · obtain ⟨⟨carried, next⟩, step, result⟩ := bind_eq_ok_iff.1 rounding
      cases result
      exact minimal_increment keptMinimal step
    · cases rounding
      exact keptMinimal

theorem minimal_ofFraction {format : Format} {mode : Mode} {q : Fraction} {r : Rounded}
    (run : ofFraction format mode q = .ok r) : r.significand.Minimal := by
  unfold ofFraction at run
  obtain ⟨_, -, run⟩ := bind_eq_ok_iff.1 run
  obtain ⟨_, -, run⟩ := bind_eq_ok_iff.1 run
  obtain ⟨⟨dividend, divisor⟩, -, run⟩ := bind_eq_ok_iff.1 run
  obtain ⟨⟨quotient, remainder⟩, division, run⟩ := bind_eq_ok_iff.1 run
  obtain ⟨_, -, run⟩ := bind_eq_ok_iff.1 run
  obtain ⟨_, -, run⟩ := bind_eq_ok_iff.1 run
  exact minimal_ofTail (Magnitude.kept_minimal.divMod division).1 run

end Rounded

namespace BinaryFloat

theorem minimal_ofFraction {format : Format} {mode : Mode} {q : Fraction} {f : BinaryFloat}
    {direction : Ordering} (run : ofFraction format mode q = .ok (f, direction)) :
    f.significand.Minimal := by
  obtain ⟨-, r, -, ⟨-, rfl, -⟩ | ⟨-, -, rounded, rounding, -, rfl, -⟩⟩ := parts_of_ofFraction run
  · exact Magnitude.minimal_ofWord 0
  · exact Rounded.minimal_ofFraction rounding

/-! ## Equal numbers -/

section

variable {format : Format} {mode mode' : Mode} {negative : Bool} {p q : Fraction} {x : ℚ}

/-- The outcome of a conversion hangs on what a cut of the magnitude gives, and on nothing else.
Where only the directions differ, so do the outcomes. -/
theorem ofFraction_eq_map {change : Ordering → Ordering} (valid : format.validate = .ok ())
    (moderate : format.precision < 2 ^ 60) (pSign : decide (p.value < 0) = negative)
    (qSign : decide (q.value < 0) = negative) (pNonzero : p.value ≠ 0) (qNonzero : q.value ≠ 0)
    (pShort : p.ShorterThan (2 ^ 60)) (qShort : q.ShorterThan (2 ^ 60))
    (result : ∀ (c : Cut format.precision |p.value|) (d : Cut format.precision |q.value|),
      c.result mode negative = d.result mode' negative)
    (direction : ∀ (c : Cut format.precision |p.value|) (d : Cut format.precision |q.value|),
      c.direction mode negative = change (d.direction mode' negative)) :
    ofFraction format mode p = (ofFraction format mode' q).map (Prod.map id change) := by
  obtain ⟨c, m, significand, run⟩ := ofFraction_eq mode pSign valid pNonzero moderate pShort
  obtain ⟨d, m', significand', run'⟩ := ofFraction_eq mode' qSign valid qNonzero moderate qShort
  rw [result c d] at significand run
  rw [direction c d] at run
  cases admitted : format.admitExponent (d.result mode' negative).2 with
  | error failure =>
      rw [run, run', admitted]
      rfl
  | ok _ =>
      rw [admitted] at run run'
      have stored : m.Minimal := minimal_ofFraction run
      have stored' : m'.Minimal := minimal_ofFraction run'
      have same : m = m' := stored.eq_of_toNat_eq stored' (significand.trans significand'.symm)
      rw [run, run', same]
      rfl

/-- Equal magnitudes have one cut, so that the modes need to agree on that one only. -/
theorem ofFraction_congr (valid : format.validate = .ok ()) (moderate : format.precision < 2 ^ 60)
    (pSign : decide (p.value < 0) = negative) (qSign : decide (q.value < 0) = negative)
    (pMagnitude : |p.value| = x) (qMagnitude : |q.value| = x) (nonzero : x ≠ 0)
    (pShort : p.ShorterThan (2 ^ 60)) (qShort : q.ShorterThan (2 ^ 60))
    (result : ∀ c : Cut format.precision x, c.result mode negative = c.result mode' negative)
    (direction : ∀ c : Cut format.precision x,
      c.direction mode negative = c.direction mode' negative) :
    ofFraction format mode p = ofFraction format mode' q := by
  have same : ofFraction format mode p = (ofFraction format mode' q).map (Prod.map id id) := by
    apply ofFraction_eq_map valid moderate pSign qSign (abs_ne_zero.1 (pMagnitude ▸ nonzero))
      (abs_ne_zero.1 (qMagnitude ▸ nonzero)) pShort qShort
    · rw [pMagnitude, qMagnitude]
      intro c d
      obtain rfl : c = d := Subsingleton.elim c d
      exact result c
    · rw [pMagnitude, qMagnitude]
      intro c d
      obtain rfl : c = d := Subsingleton.elim c d
      exact direction c
  rw [same, Prod.map_id]
  exact id_map (f := Except Failure) _

end

/-- Fractions that are equal as numbers become the same float with the same stored words, rounded
in the same direction, or are refused with the same words. -/
theorem ofFraction_eq_of_beq {format : Format} (mode : Mode) {p q : Fraction}
    (pWellFormed : p.WellFormed) (qWellFormed : q.WellFormed)
    (moderate : format.precision < 2 ^ 60) (pShort : p.ShorterThan (2 ^ 60))
    (qShort : q.ShorterThan (2 ^ 60)) (equal : (p == q) = true) :
    ofFraction format mode p = ofFraction format mode q ∧
      ∀ f direction, ofFraction format mode p = .ok (f, direction) → f.significand.Minimal := by
  have same := (Fraction.beq_iff pWellFormed qWellFormed).1 equal
  refine ⟨?_, fun f direction => minimal_ofFraction⟩
  cases valid : format.validate with
  | error failure => rw [ofFraction_of_invalid mode p valid, ofFraction_of_invalid mode q valid]
  | ok _ =>
      by_cases zero : p.value = 0
      · rw [ofFraction_of_value_eq_zero mode valid pWellFormed zero,
          ofFraction_of_value_eq_zero mode valid qWellFormed (same ▸ zero)]
      · exact ofFraction_congr valid moderate (congrArg (fun x => decide (x < 0)) same) rfl
          (congrArg abs same) rfl (abs_ne_zero.2 (same ▸ zero)) pShort qShort (fun _ => rfl)
          fun _ => rfl

/-- Three halves with zero words on top and nine sixths both become two. -/
theorem ofFraction_eq_of_beq_of_grown :
    ofFraction ⟨3, 1, .towardZero⟩ .nearestEven ⟨false, ⟨[3, 0]⟩, ⟨[2, 0, 0]⟩⟩ =
        .ok (⟨⟨3, 1, .towardZero⟩, false, 1, .ofWord 1, .normal⟩, .gt) ∧
      ofFraction ⟨3, 1, .towardZero⟩ .nearestEven ⟨false, .ofWord 9, .ofWord 6⟩ =
        .ok (⟨⟨3, 1, .towardZero⟩, false, 1, .ofWord 1, .normal⟩, .gt) := by
  have run : ofFraction ⟨3, 1, .towardZero⟩ .nearestEven ⟨false, .ofWord 9, .ofWord 6⟩ =
      .ok (⟨⟨3, 1, .towardZero⟩, false, 1, .ofWord 1, .normal⟩, .gt) := rfl
  have equal : ((⟨false, ⟨[3, 0]⟩, ⟨[2, 0, 0]⟩⟩ : Fraction) == ⟨false, .ofWord 9, .ofWord 6⟩) =
      true := rfl
  have moderate : (⟨3, 1, .towardZero⟩ : Format).precision < 2 ^ 60 := by decide
  obtain ⟨same, -⟩ := ofFraction_eq_of_beq .nearestEven (by decide) (by decide) moderate
    (by decide) (by decide) equal
  exact ⟨same.trans run, run⟩

end BinaryFloat

end ExactFloat
