import ExactFloat.BinaryFloat.Order
import ExactFloat.Proofs.Rounding.Cut
import ExactFloat.Proofs.ToFraction

/-!
# The order of floats is the order of their values

The order of two floats looks at the signs, then at the exponents of the leading bits, and at the
significands only when these agree. A significand of full length makes this the order of the
numbers, whatever the precisions, and so the order that the fractions of the floats have. The
infinities are the two ends of the rational numbers.
-/

namespace ExactFloat

theorem compare_map {α β : Type} [LinearOrder α] [LinearOrder β] {f : α → β} (mono : StrictMono f)
    (x y : α) : compare (f x) (f y) = compare x y := by
  rw [← cmp_eq_compare, mono.cmp_map_eq, cmp_eq_compare]

namespace BinaryFloat

/-! ## Magnitudes -/

section

variable {p q : Nat}

/-- A greater leading exponent makes a greater number, however long the significands are. -/
theorem lt_of_exponent_lt {n n' : Nat} {e e' : Int} (qPos : q ≠ 0) (upper : n < 2 ^ p)
    (lower : 2 ^ (q - 1) ≤ n') (lt : e < e') :
    (n * 2 ^ (e - (p - 1)) : ℚ) < n' * 2 ^ (e' - (q - 1)) :=
  calc (n * 2 ^ (e - (p - 1)) : ℚ) < 2 ^ (e + 1) := lt_two_zpow_of_upper upper e
    _ ≤ 2 ^ e' := two_zpow_le lt
    _ ≤ n' * 2 ^ (e' - (q - 1)) := two_zpow_le_of_lower qPos lower e'

theorem compare_scaled (n n' : Nat) (e : Int) :
    compare (n * 2 ^ e : ℚ) (n' * 2 ^ e) = compare n n' :=
  compare_map (f := fun n : Nat => (n * 2 ^ e : ℚ))
    (fun _ _ lt => mul_lt_mul_of_pos_right (Nat.cast_lt.2 lt) (two_zpow_pos e)) n n'

theorem compareMagnitudes_eq {m m' : Magnitude} (pPos : p ≠ 0) (qPos : q ≠ 0) (e e' : Int)
    (length : m.bitLength = p) (length' : m'.bitLength = q) :
    compareMagnitudes p q e e' m m' =
      compare (m.toNat * 2 ^ (e - (p - 1)) : ℚ) (m'.toNat * 2 ^ (e' - (q - 1))) := by
  have lower := Magnitude.two_pow_le_toNat (mt Magnitude.bitLength_eq_zero.2 (length ▸ pPos))
  have lower' := Magnitude.two_pow_le_toNat (mt Magnitude.bitLength_eq_zero.2 (length' ▸ qPos))
  have upper := Magnitude.toNat_lt_two_pow_bitLength m
  have upper' := Magnitude.toNat_lt_two_pow_bitLength m'
  rw [length] at lower upper
  rw [length'] at lower' upper'
  unfold compareMagnitudes
  rcases lt_trichotomy e e' with lt | rfl | gt
  · rw [compare_lt_iff_lt.2 (lt_of_exponent_lt qPos upper lower' lt), compare_lt_iff_lt.2 lt]
    rfl
  · rw [compare_eq_iff_eq.2 rfl]
    -- the shorter significand is given the unit of the longer one
    split
    · next shorter =>
      rw [← widened_value (le_of_lt shorter), compare_scaled, Magnitude.compare_eq,
        Magnitude.toNat_shiftLeft]
      rfl
    · next longer =>
      rw [← widened_value (not_lt.1 longer), compare_scaled, Magnitude.compare_eq,
        Magnitude.toNat_shiftLeft]
      rfl
  · rw [compare_gt_iff_gt.2 (lt_of_exponent_lt pPos upper' lower gt), compare_gt_iff_gt.2 gt]
    rfl

end

/-! ## Signs -/

section

variable (negative negative' : Bool) {x y : ℚ}

theorem compare_signed_zero (pos : 0 < x) :
    compare (if negative then -x else x) 0 = orderOfSign negative := by
  cases negative with
  | false => exact compare_gt_iff_gt.2 pos
  | true => exact compare_lt_iff_lt.2 (neg_neg_of_pos pos)

theorem compare_zero_signed (pos : 0 < x) :
    compare 0 (if negative then -x else x) = orderOfSign !negative := by
  cases negative with
  | false => exact compare_lt_iff_lt.2 pos
  | true => exact compare_gt_iff_gt.2 (neg_neg_of_pos pos)

/-- Signs come before magnitudes, and below zero the greater magnitude is the lesser number. -/
theorem compare_signed_signed (xPos : 0 < x) (yPos : 0 < y) :
    compare (if negative then -x else x) (if negative' then -y else y) =
      if negative ≠ negative' then orderOfSign negative
      else if negative then (compare x y).swap else compare x y := by
  cases negative <;> cases negative'
  · rfl
  · exact compare_gt_iff_gt.2 (lt_trans (neg_neg_of_pos yPos) xPos)
  · exact compare_lt_iff_lt.2 (lt_trans (neg_neg_of_pos xPos) yPos)
  · exact Fraction.compare_neg_neg x y

end

/-! ## Finite floats -/

theorem magnitude_pos {precision : Nat} {m : Magnitude} (pos : precision ≠ 0)
    (length : m.bitLength = precision) (e : Int) : (0 : ℚ) < m.toNat * 2 ^ e := by
  have nonzero : m.toNat ≠ 0 := mt Magnitude.bitLength_eq_zero.2 (length ▸ pos)
  exact mul_pos (Nat.cast_pos.2 (Nat.pos_of_ne_zero nonzero)) (two_zpow_pos e)

theorem category_of_value {f : BinaryFloat} {x : ℚ} (h : f.value? = some x) :
    f.category = .zero ∧ x = 0 ∨ f.category = .normal ∧
      x = if f.negative then
        -(f.significand.toNat * 2 ^ (f.exponent - (f.format.precision - 1)) : ℚ)
        else f.significand.toNat * 2 ^ (f.exponent - (f.format.precision - 1)) := by
  cases category : f.category with
  | normal => exact .inr ⟨rfl, Option.some.inj (h.symm.trans (value_of_normal category))⟩
  | zero =>
      rw [(convertsTo_zero category).value, Fraction.value_zero] at h
      exact .inl ⟨rfl, (Option.some.inj h).symm⟩
  | _ => simp [value?, category] at h

section

variable {f g : BinaryFloat} (fValid : f.format.validate = .ok ()) (fWellFormed : f.WellFormed)
  (gValid : g.format.validate = .ok ()) (gWellFormed : g.WellFormed)

include fValid fWellFormed gValid gWellFormed

theorem compare?_of_values {x y : ℚ} (fValue : f.value? = some x) (gValue : g.value? = some y) :
    f.compare? g = some (compare x y) := by
  obtain ⟨fPos, -, -⟩ := Format.validate_eq_ok_iff.1 fValid
  obtain ⟨gPos, -, -⟩ := Format.validate_eq_ok_iff.1 gValid
  unfold compare?
  rcases category_of_value fValue with ⟨fZero, rfl⟩ | ⟨fNormal, rfl⟩
  · rcases category_of_value gValue with ⟨gZero, rfl⟩ | ⟨gNormal, rfl⟩
    · rw [fZero, gZero]
      rfl
    · obtain ⟨gLength, -⟩ := (wellFormed_iff_of_normal gNormal).1 gWellFormed
      rw [fZero, gNormal, compare_zero_signed _ (magnitude_pos gPos gLength _)]
  · obtain ⟨fLength, -⟩ := (wellFormed_iff_of_normal fNormal).1 fWellFormed
    rcases category_of_value gValue with ⟨gZero, rfl⟩ | ⟨gNormal, rfl⟩
    · rw [fNormal, gZero, compare_signed_zero _ (magnitude_pos fPos fLength _)]
    · obtain ⟨gLength, -⟩ := (wellFormed_iff_of_normal gNormal).1 gWellFormed
      rw [fNormal, gNormal, compare_signed_signed _ _ (magnitude_pos fPos fLength _)
        (magnitude_pos gPos gLength _), ← compareMagnitudes_eq fPos gPos _ _ fLength gLength]
      dsimp only
      split <;> rfl

end

/-! ## Infinities -/

/-- The end of the rational numbers on the side of a sign. -/
def endpoint (negative : Bool) : WithBot (WithTop ℚ) :=
  if negative then ⊥ else ⊤

/-- The number that a float stands for, where an infinity stands for an end of the rational
numbers. -/
def extended? (f : BinaryFloat) : Option (WithBot (WithTop ℚ)) :=
  match f.category with
  | .infinity => some (endpoint f.negative)
  | .nan => none
  | .normal | .zero => f.value?.map fun x => ((x : WithTop ℚ) : WithBot (WithTop ℚ))

theorem compare_coe_coe (x y : ℚ) :
    compare ((x : WithTop ℚ) : WithBot (WithTop ℚ)) ((y : WithTop ℚ) : WithBot (WithTop ℚ)) =
      compare x y := by
  rw [compare_map WithBot.coe_strictMono, compare_map WithTop.coe_strictMono]

theorem compare_endpoint_coe (negative : Bool) (x : ℚ) :
    compare (endpoint negative) ((x : WithTop ℚ) : WithBot (WithTop ℚ)) = orderOfSign negative := by
  cases negative with
  | false => exact compare_gt_iff_gt.2 (WithBot.coe_lt_coe.2 (WithTop.coe_lt_top x))
  | true => exact compare_lt_iff_lt.2 (WithBot.bot_lt_coe _)

theorem compare_coe_endpoint (x : ℚ) (negative : Bool) :
    compare ((x : WithTop ℚ) : WithBot (WithTop ℚ)) (endpoint negative) = orderOfSign !negative := by
  cases negative with
  | false => exact compare_lt_iff_lt.2 (WithBot.coe_lt_coe.2 (WithTop.coe_lt_top x))
  | true => exact compare_gt_iff_gt.2 (WithBot.bot_lt_coe _)

theorem compare_endpoint_endpoint (negative negative' : Bool) :
    compare (endpoint negative) (endpoint negative') =
      if negative = negative' then .eq else orderOfSign negative := by
  cases negative <;> cases negative'
  · exact compare_eq_iff_eq.2 rfl
  · exact compare_gt_iff_gt.2 (WithBot.bot_lt_coe _)
  · exact compare_lt_iff_lt.2 (WithBot.bot_lt_coe _)
  · exact compare_eq_iff_eq.2 rfl

/-! ## All floats -/

theorem category_cases (f : BinaryFloat) :
    f.category = .nan ∨ f.category = .infinity ∨ ∃ x, f.value? = some x := by
  cases category : f.category with
  | infinity => exact .inr (.inl rfl)
  | nan => exact .inl rfl
  | normal => exact .inr (.inr ⟨_, value_of_normal category⟩)
  | zero => exact .inr (.inr ⟨_, (convertsTo_zero category).value⟩)

section

variable {f g : BinaryFloat}

theorem extended_of_nan (nan : f.category = .nan) : f.extended? = none := by
  rw [extended?, nan]

theorem extended_of_infinity (infinity : f.category = .infinity) :
    f.extended? = some (endpoint f.negative) := by
  rw [extended?, infinity]

theorem extended_of_value {x : ℚ} (h : f.value? = some x) :
    f.extended? = some ((x : WithTop ℚ) : WithBot (WithTop ℚ)) := by
  unfold extended?
  rcases category_of_value h with ⟨category, -⟩ | ⟨category, -⟩ <;> rw [category, h] <;> rfl

theorem extended_eq_none_iff : f.extended? = none ↔ f.isNaN = true := by
  rcases category_cases f with category | category | ⟨x, value⟩
  · simp [extended_of_nan category, isNaN, category]
  · simp [extended_of_infinity category, isNaN, category]
  · rw [extended_of_value value]
    rcases category_of_value value with ⟨category, -⟩ | ⟨category, -⟩ <;> simp [isNaN, category]

theorem compare?_infinity_value {x : ℚ} (infinity : f.category = .infinity)
    (value : g.value? = some x) : f.compare? g = some (orderOfSign f.negative) := by
  rcases category_of_value value with ⟨category, -⟩ | ⟨category, -⟩ <;>
    rw [compare?, infinity, category]

theorem compare?_value_infinity {x : ℚ} (value : f.value? = some x)
    (infinity : g.category = .infinity) : f.compare? g = some (orderOfSign !g.negative) := by
  rcases category_of_value value with ⟨category, -⟩ | ⟨category, -⟩ <;>
    rw [compare?, category, infinity]

theorem compare?_nan_right (nan : g.category = .nan) : f.compare? g = none := by
  rw [compare?, nan]
  cases f.category <;> rfl

theorem compare?_eq (fValid : f.format.validate = .ok ()) (fWellFormed : f.WellFormed)
    (gValid : g.format.validate = .ok ()) (gWellFormed : g.WellFormed) :
    f.compare? g = Option.map₂ compare f.extended? g.extended? := by
  rcases category_cases f with fCategory | fCategory | ⟨x, fValue⟩
  · rw [extended_of_nan fCategory, compare?, fCategory]
    rfl
  · rw [extended_of_infinity fCategory]
    rcases category_cases g with gCategory | gCategory | ⟨y, gValue⟩
    · rw [extended_of_nan gCategory, compare?_nan_right gCategory]
      rfl
    · rw [extended_of_infinity gCategory, Option.map₂_coe_coe, compare_endpoint_endpoint, compare?,
        fCategory, gCategory]
    · rw [extended_of_value gValue, Option.map₂_coe_coe, compare_endpoint_coe,
        compare?_infinity_value fCategory gValue]
  · rw [extended_of_value fValue]
    rcases category_cases g with gCategory | gCategory | ⟨y, gValue⟩
    · rw [extended_of_nan gCategory, compare?_nan_right gCategory]
      rfl
    · rw [extended_of_infinity gCategory, Option.map₂_coe_coe, compare_coe_endpoint,
        compare?_value_infinity fValue gCategory]
    · rw [extended_of_value gValue, Option.map₂_coe_coe, compare_coe_coe,
        compare?_of_values fValid fWellFormed gValid gWellFormed fValue gValue]

/-! ## Comparison with fractions -/

theorem isFinite_of_value {x : ℚ} (h : f.value? = some x) : f.isFinite = true := by
  rcases category_of_value h with ⟨category, -⟩ | ⟨category, -⟩ <;>
    simp [isFinite, isNormal, isZero, category]

theorem compareFraction_eq {q : Fraction} (wellFormed : q.WellFormed) :
    f.compareFraction q =
      .ok (f.extended?.map (compare · ((q.value : WithTop ℚ) : WithBot (WithTop ℚ)))) := by
  rcases category_cases f with nan | infinity | ⟨x, value⟩
  · rw [extended_of_nan nan, compareFraction, nan]
    rfl
  · rw [extended_of_infinity infinity, Option.map_some, compare_endpoint_coe, compareFraction,
      infinity]
    rfl
  · obtain ⟨p, converts⟩ := exists_convertsTo (isFinite_of_value value)
    rw [converts.compareFraction_eq wellFormed, extended_of_value converts.value, Option.map_some,
      compare_coe_coe]

/-- Only what is not a number is out of the order. All other floats are ordered by their numbers,
and finite ones as the fractions that they are converted to. -/
theorem order_of_values (context : Context) (fValid : f.format.validate = .ok ())
    (fWellFormed : f.WellFormed) (gValid : g.format.validate = .ok ()) (gWellFormed : g.WellFormed) :
    (f.compare? g = none ↔ f.isNaN = true ∨ g.isNaN = true) ∧
      f.compare? g = Option.map₂ compare f.extended? g.extended? ∧
      (g.isFinite = true → ∃ q, g.toFraction context = .ok (q, context) ∧
        f.compareFraction q = .ok (f.compare? g)) ∧
      (f.isFinite = true → g.isFinite = true → ∃ p q, f.toFraction context = .ok (p, context) ∧
        g.toFraction context = .ok (q, context) ∧ f.compare? g = some (compare p q)) := by
  have order := compare?_eq fValid fWellFormed gValid gWellFormed
  refine ⟨?_, order, ?_, ?_⟩
  · rw [order, Option.map₂_eq_none_iff, extended_eq_none_iff, extended_eq_none_iff]
  · intro gFinite
    obtain ⟨q, converts⟩ := exists_convertsTo gFinite
    refine ⟨q, converts.toFraction_eq context, ?_⟩
    rw [compareFraction_eq converts.wellFormed, order, extended_of_value converts.value,
      Option.map₂_coe_right]
  · intro fFinite gFinite
    obtain ⟨p, fConverts⟩ := exists_convertsTo fFinite
    obtain ⟨q, gConverts⟩ := exists_convertsTo gFinite
    refine ⟨p, q, fConverts.toFraction_eq context, gConverts.toFraction_eq context, ?_⟩
    rw [compare?_of_values fValid fWellFormed gValid gWellFormed fConverts.value gConverts.value,
      Fraction.compare_eq fConverts.wellFormed gConverts.wellFormed]

/-- Minus seven quarters lies below minus three halves, which has a shorter significand. -/
theorem order_of_values_of_three_halves :
    compare? ⟨⟨3, 2, .nearestEven⟩, true, 0, .ofWord 3, .normal⟩
        ⟨⟨5, 3, .upward⟩, true, 0, .ofWord 7, .normal⟩ = some .gt ∧
      ∃ p q, toFraction ⟨⟨3, 2, .nearestEven⟩, true, 0, .ofWord 3, .normal⟩ ⟨true⟩ =
          .ok (p, ⟨true⟩) ∧
        toFraction ⟨⟨5, 3, .upward⟩, true, 0, .ofWord 7, .normal⟩ ⟨true⟩ = .ok (q, ⟨true⟩) ∧
        compare p q = .gt := by
  have order : compare? ⟨⟨3, 2, .nearestEven⟩, true, 0, .ofWord 3, .normal⟩
      ⟨⟨5, 3, .upward⟩, true, 0, .ofWord 7, .normal⟩ = some .gt := rfl
  obtain ⟨-, -, -, finite⟩ :=
    order_of_values (f := ⟨⟨3, 2, .nearestEven⟩, true, 0, .ofWord 3, .normal⟩)
      (g := ⟨⟨5, 3, .upward⟩, true, 0, .ofWord 7, .normal⟩) ⟨true⟩ rfl ⟨rfl, by decide⟩ rfl
      ⟨rfl, by decide⟩
  obtain ⟨p, q, fRun, gRun, same⟩ := finite rfl rfl
  exact ⟨order, p, q, fRun, gRun, Option.some.inj (same.symm.trans order)⟩

end

end BinaryFloat

end ExactFloat
