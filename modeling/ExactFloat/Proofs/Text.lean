import ExactFloat.Proofs.Construction
import ExactFloat.Proofs.LowestTerms
import ExactFloat.Proofs.Magnitude.Padding
import ExactFloat.Proofs.ToFraction
import Mathlib.Data.List.TakeWhile

/-!
# Fractions are read back from their text

A text has the sign of the number, the numeral of the numerator and, unless it is one, that of the
denominator. A reader that knows nothing about how it was written gets the number back. The gateway
puts the same text together from the texts of both parts.
-/

namespace ExactFloat

open Magnitude

namespace Fraction

/-! ## Reading -/

def readDigits? (digits : List Char) : Option ℕ :=
  if digits ≠ [] ∧ digits.all Char.isDigit then some (Nat.ofDigitChars 10 digits 0) else none

def readQuotient? (text : List Char) : Option ℚ := do
  let upper ← readDigits? (text.takeWhile (· != '/'))
  match text.dropWhile (· != '/') with
  | [] => return upper
  | _ :: rest =>
      let lower ← readDigits? rest
      if lower = 0 then none else return upper / lower

/-- The number that a text stands for. A minus sign in front negates it. -/
def read? (text : List Char) : Option ℚ :=
  match text with
  | '-' :: rest => (readQuotient? rest).map fun x => -x
  | unsigned => readQuotient? unsigned

section

variable {upper lower : List Char} {n d : ℕ}

theorem readDigits_numeral (h : Numeral upper n) : readDigits? upper = some n := by
  rw [readDigits?, if_pos ⟨h.nonempty, List.all_eq_true.2 h.digit⟩, h.value]

/-- A numeral is read whole, up to the slash behind it. -/
theorem bne_slash_of_mem (h : Numeral upper n) : ∀ c ∈ upper, (c != '/') = true :=
  fun _ mem => bne_iff_ne.2 (h.ne_of_mem (by decide) mem)

theorem readQuotient_integer (h : Numeral upper n) : readQuotient? upper = some (n : ℚ) := by
  rw [readQuotient?, List.takeWhile_eq_self_iff.2 (bne_slash_of_mem h),
    List.dropWhile_eq_nil_iff.2 (bne_slash_of_mem h), readDigits_numeral h]
  rfl

theorem readQuotient_slash (hn : Numeral upper n) (hd : Numeral lower d) (nonzero : d ≠ 0) :
    readQuotient? (upper ++ '/' :: lower) = some (n / d : ℚ) := by
  have before := bne_slash_of_mem hn
  have stop : ('/' :: lower).takeWhile (· != '/') = [] := rfl
  have rest : ('/' :: lower).dropWhile (· != '/') = '/' :: lower := rfl
  rw [readQuotient?, List.takeWhile_append_of_pos before, List.dropWhile_append_of_pos before, stop,
    rest, List.append_nil, readDigits_numeral hn]
  simp only [Option.bind_eq_bind, Option.bind_some, readDigits_numeral hd]
  exact if_neg nonzero

theorem read_minus (rest : List Char) : read? ('-' :: rest) = (readQuotient? rest).map fun x => -x :=
  rfl

/-- A text that starts with a numeral has no sign. -/
theorem read_numeral (h : Numeral upper n) (rest : List Char) :
    read? (upper ++ rest) = readQuotient? (upper ++ rest) := by
  obtain ⟨c, digits, rfl⟩ := List.exists_cons_of_ne_nil h.nonempty
  have digit : c ≠ '-' := h.ne_of_mem (by decide) List.mem_cons_self
  rw [List.cons_append, read?]
  intro _ same
  exact digit (List.cons.inj same).1

end

/-! ## Writing -/

variable {p q : Fraction} {upper lower : String}

/-- The texts of both parts, and how the text of the fraction is put together from them. -/
structure Spelling (q : Fraction) (upper lower : String) : Prop where
  numerator : q.numerator.decimal = .ok upper
  denominator : q.denominator.decimal = .ok lower
  text : q.text = .ok ((if q.isNegative then "-" else "") ++ upper ++
    if q.denominator.toNat = 1 then "" else "/" ++ lower)

theorem exists_spelling (q : Fraction) : ∃ upper lower, q.Spelling upper lower := by
  refine ⟨_, _, decimal_eq q.numerator, decimal_eq q.denominator, ?_⟩
  rw [text, decimal_eq, decimal_eq]
  simp only [ok_bind, isInteger_iff]
  split
  · rw [String.append_empty]
    rfl
  · rw [String.append_assoc]
    rfl

namespace Spelling

variable (h : q.Spelling upper lower)

include h

theorem upper_numeral : Numeral upper.toList q.numerator.toNat :=
  decimal_eq_ok_iff.1 h.numerator

theorem lower_numeral : Numeral lower.toList q.denominator.toNat :=
  decimal_eq_ok_iff.1 h.denominator

/-- What stands behind the sign is read as the number without it. -/
theorem readQuotient_unsigned (wellFormed : q.WellFormed) :
    readQuotient? (upper ++ if q.denominator.toNat = 1 then "" else "/" ++ lower).toList =
      some (q.numerator.toNat / q.denominator.toNat : ℚ) := by
  split
  · next one =>
    rw [String.append_empty, readQuotient_integer h.upper_numeral, one, Nat.cast_one, div_one]
  · rw [String.toList_append, String.toList_append]
    exact readQuotient_slash h.upper_numeral h.lower_numeral wellFormed

theorem read_text (wellFormed : q.WellFormed) :
    read? ((if q.isNegative then "-" else "") ++ upper ++
      if q.denominator.toNat = 1 then "" else "/" ++ lower).toList = some q.value := by
  have unsigned := h.readQuotient_unsigned wellFormed
  rw [value_eq, String.append_assoc, String.toList_append]
  cases q.isNegative with
  | false =>
      rw [String.toList_append] at unsigned ⊢
      exact (read_numeral h.upper_numeral _).trans unsigned
  | true =>
      exact (read_minus _).trans (congrArg (Option.map fun x => -x) unsigned)

theorem lower_eq_one_iff : lower = "1" ↔ q.denominator.toNat = 1 := by
  constructor
  · rintro rfl
    exact h.lower_numeral.value.symm
  · intro one
    have numeral := h.lower_numeral
    rw [numeral_iff, one] at numeral
    exact String.toList_inj.1 numeral

/-- The texts of the two parts, with the sign on the numerator, make up the text of the fraction. -/
theorem text_of_parts :
    q.numeratorText = .ok ((if q.isNegative then "-" else "") ++ upper) ∧
      q.denominatorText = .ok lower ∧
      q.text = .ok (if lower = "1" then (if q.isNegative then "-" else "") ++ upper
        else (if q.isNegative then "-" else "") ++ upper ++ "/" ++ lower) := by
  refine ⟨?_, h.denominator, ?_⟩
  · rw [numeratorText, h.numerator]
    cases q.isNegative with
    | false => exact congrArg Except.ok String.empty_append.symm
    | true => rfl
  · by_cases one : q.denominator.toNat = 1
    · rw [h.text, if_pos one, if_pos (h.lower_eq_one_iff.2 one), String.append_empty]
    · rw [h.text, if_neg one, if_neg (mt h.lower_eq_one_iff.1 one), ← String.append_assoc]

end Spelling

/-! ## Texts of lowest terms -/

theorem SameForm.text_eq (h : p.SameForm q) : p.text = q.text := by
  have sign : p.isNegative = q.isNegative := by
    rw [isNegative, isNegative, isZero, isZero, h.negative, isZero_congr h.numerator]
  have integer : p.isInteger = q.isInteger := by
    rw [Bool.eq_iff_iff, isInteger_iff, isInteger_iff, h.denominator]
  rw [text, text, sign, integer, decimal_congr h.numerator, decimal_congr h.denominator]

theorem value_eq_of_text_eq (hp : p.WellFormed) (hq : q.WellFormed) (same : p.text = q.text) :
    p.value = q.value := by
  obtain ⟨_, _, pSpelling⟩ := exists_spelling p
  obtain ⟨_, _, qSpelling⟩ := exists_spelling q
  have texts := Except.ok.inj (pSpelling.text.symm.trans (same.trans qSpelling.text))
  have read := pSpelling.read_text hp
  rw [texts, qSpelling.read_text hq] at read
  exact (Option.some.inj read).symm

theorem text_eq_iff (hp : p.WellFormed) (hq : q.WellFormed) (pLowest : p.isCanonical = .ok true)
    (qLowest : q.isCanonical = .ok true) : p.text = q.text ↔ (p == q) = true := by
  rw [beq_iff hp hq]
  constructor
  · exact value_eq_of_text_eq hp hq
  · intro equal
    have pOwn := reduced_of_isCanonical hp pLowest
    have qOwn := reduced_of_isCanonical hq qLowest
    exact ((pOwn.sameForm_iff qOwn).2 equal).text_eq

/-- A fraction is written as the numerals of its numerator and, unless it is one, of its
denominator, with a minus sign if the number is negative, and the number is read back from that.
Lowest terms have the same text exactly if they are equal. The texts of both parts make up that of
any fraction. -/
theorem text_faithful (hp : p.WellFormed) (hq : q.WellFormed) :
    (∃ (text upper lower : String), q.text = .ok text ∧
      Numeral upper.toList q.numerator.toNat ∧ Numeral lower.toList q.denominator.toNat ∧
      text = (if q.value < 0 then "-" else "") ++ upper ++
        (if q.denominator.toNat = 1 then "" else "/" ++ lower) ∧
      read? text.toList = some q.value) ∧
    (p.isCanonical = .ok true → q.isCanonical = .ok true →
      (p.text = q.text ↔ (p == q) = true)) ∧
    ∀ r : Fraction, ∃ upper lower, r.numeratorText = .ok upper ∧ r.denominatorText = .ok lower ∧
      r.text = .ok (if lower = "1" then upper else upper ++ "/" ++ lower) := by
  refine ⟨?_, text_eq_iff hp hq, fun r => ?_⟩
  · obtain ⟨upper, lower, spelling⟩ := exists_spelling q
    refine ⟨_, upper, lower, spelling.text, spelling.upper_numeral, spelling.lower_numeral, ?_,
      spelling.read_text hq⟩
    simp only [isNegative_eq hq, decide_eq_true_eq]
  · obtain ⟨_, lower, spelling⟩ := exists_spelling r
    exact ⟨_, lower, spelling.text_of_parts⟩

/-- Minus three quarters, with a zero word on top of one part or of the other. -/
theorem text_faithful_of_three_quarters :
    let p : Fraction := ⟨true, ⟨[3, 0]⟩, .ofWord 4⟩
    let q : Fraction := ⟨true, .ofWord 3, ⟨[4, 0]⟩⟩
    p.WellFormed ∧ q.WellFormed ∧ p.isCanonical = .ok true ∧ q.isCanonical = .ok true ∧
      p.text = q.text ∧
      ∃ text, q.text = .ok text ∧ text = "-3/4" ∧ read? text.toList = some (-(3 / 4)) := by
  intro p q
  have hp : p.WellFormed := by decide
  have hq : q.WellFormed := by decide
  have pLowest : p.isCanonical = .ok true := by decide +kernel
  have qLowest : q.isCanonical = .ok true := by decide +kernel
  have equal : (p == q) = true := by decide +kernel
  have value : q.value = -(3 / 4) := by decide +kernel
  obtain ⟨⟨text, upper, lower, run, numerator, denominator, form, read⟩, same, -⟩ :=
    text_faithful hp hq
  rw [numeral_iff] at numerator denominator
  have three : upper = "3" := String.toList_inj.1 (numerator.trans (by decide +kernel))
  have four : lower = "4" := String.toList_inj.1 (denominator.trans (by decide +kernel))
  rw [three, four, value] at form
  exact ⟨hp, hq, pLowest, qLowest, (same pLowest qLowest).2 equal, text, run,
    form.trans (by decide +kernel), value ▸ read⟩

end Fraction

end ExactFloat
