import ExactFloat.Magnitude.Decimal
import ExactFloat.Proofs.Magnitude.Kept

/-!
# The text of a number is its decimal numeral

Cutting off a group of digits makes a number smaller, so the groups come to an end, and the highest
one is not zero. Each other group is written with all its digits. So the digits of the groups are
those of the number, which has no other numeral.
-/

namespace ExactFloat.Magnitude

/-! ## Numerals -/

/-- The standard decimal numeral of a number. -/
structure Numeral (digits : List Char) (n : Nat) : Prop where
  digit : ∀ c ∈ digits, c.isDigit = true
  nonempty : digits ≠ []
  /-- A zero is in front of no other digit. -/
  leading : digits.head? = some '0' → digits = ['0']
  value : Nat.ofDigitChars 10 digits 0 = n

theorem Numeral.ne_of_mem {digits : List Char} {n : Nat} (h : Numeral digits n) {mark c : Char}
    (other : mark.isDigit = false) (mem : c ∈ digits) : c ≠ mark := by
  rintro rfl
  exact Bool.false_ne_true (other.symm.trans (h.digit c mem))

theorem digitChar_of_isDigit {c : Char} (h : c.isDigit = true) :
    c.toNat - '0'.toNat < 10 ∧ (c.toNat - '0'.toNat).digitChar = c := by
  have range : 48 ≤ c.toNat ∧ c.toNat ≤ 57 := by
    simpa [Char.isDigit, UInt32.le_iff_toNat_le] using h
  have small : c.toNat - '0'.toNat < 10 := by
    change c.toNat - 48 < 10
    omega
  refine ⟨small, Char.toNat_inj.1 ?_⟩
  rw [Nat.toNat_digitChar_of_lt_ten small]
  change 48 + (c.toNat - 48) = c.toNat
  omega

theorem toDigits_append {n : Nat} (pos : 0 < n) {digits : List Char}
    (h : ∀ c ∈ digits, c.isDigit = true) :
    Nat.toDigits 10 n ++ digits = Nat.toDigits 10 (Nat.ofDigitChars 10 digits n) := by
  induction digits generalizing n with
  | nil => simp
  | cons c rest ih =>
      rw [List.forall_mem_cons] at h
      obtain ⟨small, char⟩ := digitChar_of_isDigit h.1
      have next := Nat.toDigits_append_toDigits (by decide : 1 < 10) pos small
      rw [Nat.toDigits_of_lt_base small, char] at next
      rw [Nat.ofDigitChars_cons, ← ih (by omega) h.2, ← next, List.append_assoc]
      rfl

theorem eq_zero_of_leading {n : Nat} (h : (Nat.toDigits 10 n).head? = some '0') : n = 0 := by
  induction n using Nat.strongRecOn with
  | ind n ih =>
      rw [Nat.toDigits_eq_if (by decide)] at h
      split at h
      · exact Nat.digitChar_eq_zero.1 (Option.some.inj h)
      · rw [List.head?_append_of_ne_nil _ Nat.toDigits_ne_nil] at h
        have := ih (n / 10) (by omega) h
        omega

/-- Every number has a numeral, and only one. -/
theorem numeral_iff {digits : List Char} {n : Nat} :
    Numeral digits n ↔ digits = Nat.toDigits 10 n := by
  constructor
  · rintro ⟨digit, nonempty, leading, rfl⟩
    obtain ⟨c, rest, rfl⟩ := List.exists_cons_of_ne_nil nonempty
    rw [List.forall_mem_cons] at digit
    obtain ⟨small, char⟩ := digitChar_of_isDigit digit.1
    by_cases zero : c = '0'
    · rw [leading (by rw [zero]; rfl)]
      rfl
    · have pos : 0 < c.toNat - '0'.toNat := by
        apply Nat.pos_of_ne_zero
        intro none
        rw [none] at char
        exact zero char.symm
      rw [Nat.ofDigitChars_cons, Nat.mul_zero, Nat.zero_add, ← toDigits_append pos digit.2,
        Nat.toDigits_of_lt_base small, char]
      rfl
  · rintro rfl
    refine ⟨fun c => Nat.isDigit_of_mem_toDigits (by decide) (Nat.le_refl _), Nat.toDigits_ne_nil,
      fun zero => ?_, Nat.ofDigitChars_ten_toDigits⟩
    rw [eq_zero_of_leading zero]
    rfl

/-! ## Groups of digits -/

/-- The groups of a number, the lowest first. Whatever lies from a group on is not zero. -/
inductive Groups : List UInt64 → Nat → Prop
  | nil : Groups [] 0
  | cons {group : UInt64} {rest : List UInt64} {n : Nat} (small : group.toNat < 10 ^ groupDigits)
      (nonzero : 10 ^ groupDigits * n + group.toNat ≠ 0) :
      Groups rest n → Groups (group :: rest) (10 ^ groupDigits * n + group.toNat)

/-- A group written with all its digits. -/
theorem ofDigitChars_leftpad {group places : Nat} (pos : 0 < places) (small : group < 10 ^ places)
    (n : Nat) :
    Nat.ofDigitChars 10 ((Nat.toDigits 10 group).leftpad places '0') n = 10 ^ places * n + group := by
  have short := (Nat.length_toDigits_le_iff (by decide : 1 < 10) pos).2 small
  rw [Nat.ofDigitChars_eq_ofDigitChars_zero, List.length_leftpad, Nat.max_eq_left short,
    List.leftpad, Nat.ofDigitChars_append, Nat.ofDigitChars_replicate_zero, Nat.mul_zero,
    Nat.ofDigitChars_ten_toDigits]

theorem isDigit_of_mem_leftpad {group places : Nat} {c : Char}
    (h : c ∈ (Nat.toDigits 10 group).leftpad places '0') : c.isDigit = true := by
  rcases List.mem_append.1 h with zero | digit
  · rw [List.eq_of_mem_replicate zero]
    rfl
  · exact Nat.isDigit_of_mem_toDigits (by decide) (Nat.le_refl _) digit

theorem digitsOfGroups_concat {groups : List UInt64} (h : groups ≠ []) (group : UInt64) :
    digitsOfGroups (groups ++ [group]) =
      digitsOfGroups groups ++ (Nat.toDigits 10 group.toNat).leftpad groupDigits '0' := by
  obtain ⟨highest, rest, rfl⟩ := List.exists_cons_of_ne_nil h
  simp [digitsOfGroups]

theorem Groups.digits_eq {groups : List UInt64} {n : Nat} (h : Groups groups n) (nonzero : n ≠ 0) :
    digitsOfGroups groups.reverse = Nat.toDigits 10 n := by
  induction h with
  | nil => exact absurd rfl nonzero
  | @cons group rest n small _ upper ih =>
      rw [List.reverse_cons]
      by_cases none : n = 0
      · -- The highest group is written as it is.
        cases upper with
        | nil => simp [digitsOfGroups]
        | cons _ some _ => exact absurd none some
      · have more : rest.reverse ≠ [] := by
          rw [ne_eq, List.reverse_eq_nil_iff]
          rintro rfl
          cases upper
          exact none rfl
        rw [digitsOfGroups_concat more, ih none,
          toDigits_append (Nat.pos_of_ne_zero none) fun c => isDigit_of_mem_leftpad,
          ofDigitChars_leftpad (by decide) small]

/-! ## Cutting off groups -/

theorem divMod_groupLimit (x : Magnitude) :
    ∃ rest remainder, x.divMod (ofWord groupLimit) = .ok (rest, remainder) ∧
      remainder.toNat = x.toNat % 10 ^ groupDigits ∧ rest.toNat = x.toNat / 10 ^ groupDigits ∧
      (x.toNat ≠ 0 → rest.toNat < x.toNat) := by
  have limit : (ofWord groupLimit).toNat = 10 ^ groupDigits := by decide
  obtain ⟨rest, remainder, run, quotient, value⟩ :=
    divMod_eq_ok x (ofWord groupLimit) (by rw [limit]; decide)
  rw [limit] at quotient value
  refine ⟨rest, remainder, run, value, quotient, fun nonzero => ?_⟩
  rw [quotient]
  exact Nat.div_lt_self (Nat.pos_of_ne_zero nonzero) (by decide)

theorem toWord_remainder {x rest remainder : Magnitude} (stored : x.words ≠ [])
    (cut : x.divMod (ofWord groupLimit) = .ok (rest, remainder))
    (value : remainder.toNat = x.toNat % 10 ^ groupDigits) :
    ∃ group, remainder.toWord = .ok group ∧ group.toNat = x.toNat % 10 ^ groupDigits := by
  have below : x.toNat % 10 ^ groupDigits < 10 ^ groupDigits := Nat.mod_lt _ (by decide)
  have word : remainder.toNat < 2 ^ 64 := by
    rw [value]
    exact Nat.lt_trans below (by decide)
  refine ⟨UInt64.ofNat remainder.toNat, ?_, ?_⟩
  · rw [toWord_eq ((kept_stored.divMod cut).2 stored), if_pos word]
  · rw [UInt64.toNat_ofNat_of_lt' word, value]

theorem div_groupLimit_lt {n steps : Nat} (h : n < 2 ^ (steps + 1)) :
    n / 10 ^ groupDigits < 2 ^ steps := by
  rw [Nat.div_lt_iff_lt_mul (by decide)]
  calc n < 2 ^ steps * 2 := by rwa [← Nat.pow_succ]
    _ ≤ 2 ^ steps * 10 ^ groupDigits := Nat.mul_le_mul_left _ (by decide)

/-- A number has groups, and any bound on the steps that the number obeys leaves enough of them. -/
theorem exists_groups (x : Magnitude) :
    ∃ groups, Groups groups x.toNat ∧
      ∀ steps, x.toNat < 2 ^ steps → decimalGroups steps x = .ok groups := by
  -- By induction on the number, for the groups do not depend on the bound.
  induction n : x.toNat using Nat.strongRecOn generalizing x with
  | ind n ih =>
      subst n
      by_cases zero : x.isZero = true
      · refine ⟨[], (isZero_iff x).1 zero ▸ .nil, fun steps _ => ?_⟩
        unfold decimalGroups
        rw [if_pos zero]
      · have nonzero : x.toNat ≠ 0 := mt (isZero_iff x).2 zero
        obtain ⟨rest, remainder, cut, remainderEq, restEq, smaller⟩ := divMod_groupLimit x
        obtain ⟨group, word, groupEq⟩ := toWord_remainder (words_ne_nil nonzero) cut remainderEq
        obtain ⟨groups, upper, run⟩ := ih rest.toNat (smaller nonzero) rest rfl
        have value : 10 ^ groupDigits * rest.toNat + group.toNat = x.toNat := by
          rw [groupEq, restEq, Nat.div_add_mod]
        have small : group.toNat < 10 ^ groupDigits := by
          rw [groupEq]
          exact Nat.mod_lt _ (by decide)
        refine ⟨group :: groups, value ▸ .cons small (value ▸ nonzero) upper, ?_⟩
        intro steps bound
        cases steps with
        | zero =>
            rw [Nat.pow_zero] at bound
            omega
        | succ steps =>
            rw [decimalGroups, if_neg zero, cut]
            simp only [ok_bind, word, run steps (restEq ▸ div_groupLimit_lt bound)]
            rfl

theorem decimal_eq (x : Magnitude) : x.decimal = .ok x.toNat.repr := by
  rw [Nat.repr_eq_ofList_toDigits, decimal]
  by_cases zero : x.isZero = true
  · rw [if_pos zero, (isZero_iff x).1 zero]
    rfl
  · obtain ⟨groups, parts, run⟩ := exists_groups x
    rw [if_neg zero, run _ (toNat_lt_two_pow_bitLength x), ok_bind,
      parts.digits_eq (mt (isZero_iff x).2 zero)]
    rfl

theorem decimal_eq_ok_iff {x : Magnitude} {text : String} :
    x.decimal = .ok text ↔ Numeral text.toList x.toNat := by
  rw [numeral_iff, decimal_eq, Except.ok.injEq, Nat.repr_eq_ofList_toDigits]
  constructor
  · rintro rfl
    exact String.toList_ofList
  · intro digits
    rw [← digits, String.ofList_toList]

/-- Every number has a text, whatever words are stored, and that is its decimal numeral. So texts
agree exactly if the numbers do. The cutting of groups comes to its end within any bound that the
number obeys: what is left of a number other than zero is smaller, and each remainder is a word,
provided that there are any words. -/
theorem decimal_numeral (x y : Magnitude) :
    (∃ text, x.decimal = .ok text) ∧
    (∀ text, x.decimal = .ok text ↔ Numeral text.toList x.toNat) ∧
    (x.decimal = y.decimal ↔ (x == y) = true) ∧
    (∃ groups, ∀ steps, x.toNat < 2 ^ steps → decimalGroups steps x = .ok groups) ∧
    ∃ rest remainder, x.divMod (ofWord groupLimit) = .ok (rest, remainder) ∧
      (x.words ≠ [] → ∃ group, remainder.toWord = .ok group) ∧
      (x.toNat ≠ 0 → rest.toNat < x.toNat) := by
  have text := decimal_eq x
  refine ⟨⟨_, text⟩, fun _ => decimal_eq_ok_iff, ?_, ?_, ?_⟩
  · rw [beq_iff]
    constructor
    · intro same
      have numeral := decimal_eq_ok_iff.1 text
      have numeral' := decimal_eq_ok_iff.1 (same.symm.trans text)
      exact numeral.value.symm.trans numeral'.value
    · intro same
      rw [decimal_eq, decimal_eq, same]
  · obtain ⟨groups, -, run⟩ := exists_groups x
    exact ⟨groups, run⟩
  · obtain ⟨rest, remainder, cut, value, -, smaller⟩ := divMod_groupLimit x
    refine ⟨rest, remainder, cut, fun stored => ?_, smaller⟩
    obtain ⟨group, word, -⟩ := toWord_remainder stored cut value
    exact ⟨group, word⟩

/-- Three groups, of which the middle one is zero, and a zero word on top. -/
theorem decimal_numeral_of_inner_zeros :
    let x : Magnitude := ⟨[0x098a224000000005, 0x4b3b4ca85a86c47a, 0]⟩
    x.toNat = 10 ^ 38 + 5 ∧ x.decimal = .ok "100000000000000000000000000000000000005" ∧
      (x.toNat < 2 ^ 127 ∧ ∃ groups, decimalGroups 127 x = .ok groups) ∧
      x.words ≠ [] ∧ x.toNat ≠ 0 ∧
      ∃ rest remainder group, x.divMod (ofWord groupLimit) = .ok (rest, remainder) ∧
        remainder.toWord = .ok group ∧ rest.toNat < x.toNat := by
  intro x
  have value : x.toNat = 10 ^ 38 + 5 := by decide
  have bound : x.toNat < 2 ^ 127 := by decide
  have nonzero : x.toNat ≠ 0 := by decide
  have numeral : Numeral "100000000000000000000000000000000000005".toList x.toNat := by
    rw [numeral_iff, value]
    decide +kernel
  have stored : x.words ≠ [] := List.cons_ne_nil _ _
  obtain ⟨-, text, -, ⟨groups, run⟩, rest, remainder, cut, read, smaller⟩ := decimal_numeral x x
  obtain ⟨group, word⟩ := read stored
  exact ⟨value, (text _).2 numeral, ⟨bound, groups, run 127 bound⟩, stored, nonzero, rest, remainder,
    group, cut, word, smaller nonzero⟩

end ExactFloat.Magnitude
