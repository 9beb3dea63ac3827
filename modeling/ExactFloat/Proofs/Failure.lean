import ExactFloat.Failure
import Mathlib.Tactic

/-!
# Calls that may fail

A call in several steps succeeds exactly if its steps do, each on the results of those before it.
-/

namespace ExactFloat

section

variable {ε α β : Type}

@[simp] theorem ok_bind (a : α) (f : α → Except ε β) : (Except.ok a >>= f) = f a := rfl

@[simp] theorem pure_eq_ok (a : α) : (pure a : Except ε α) = .ok a := rfl

theorem map_bind_eq {γ : Type} (g : β → γ) (call : Except ε α) (f : α → Except ε β) :
    (call >>= f).map g = call >>= fun a => (f a).map g := by
  cases call <;> rfl

/-- Calls that look alike both fail in the same way or both succeed. -/
theorem cases_of_map_eq {γ : Type} {g : α → γ} {call call' : Except ε α}
    (same : call.map g = call'.map g) :
    (∃ failure, call = .error failure ∧ call' = .error failure) ∨
      ∃ a a', call = .ok a ∧ call' = .ok a' ∧ g a = g a' := by
  cases call with
  | error failure =>
      cases call' with
      | error _ =>
          cases same
          exact .inl ⟨failure, rfl, rfl⟩
      | ok _ => cases same
  | ok a =>
      cases call' with
      | error _ => cases same
      | ok a' => exact .inr ⟨a, a', rfl, rfl, Except.ok.inj same⟩

theorem bind_eq_ok_iff {call : Except ε α} {f : α → Except ε β} {b : β} :
    (call >>= f) = .ok b ↔ ∃ a, call = .ok a ∧ f a = .ok b := by
  cases call with
  | error failure =>
      constructor
      · intro h
        cases h
      · intro ⟨a, h, _⟩
        cases h
  | ok a =>
      constructor
      · intro h
        exact ⟨a, rfl, h⟩
      · intro ⟨a, h, run⟩
        cases h
        exact run

theorem insist_eq_ok_iff {call : Outcome α} {a : α} : insist call = .ok a ↔ call = .ok a := by
  cases call with
  | error failure =>
      apply iff_of_false
      · intro h
        cases failure <;> cases h
      · intro h
        cases h
  | ok _ => exact Iff.rfl

end

theorem ensure_eq_ok {check : Bool} (h : check = true) (cause : Breach) :
    ensure check cause = .ok () :=
  if_pos h

theorem ensure_eq_ok_iff {check : Bool} {cause : Breach} :
    ensure check cause = .ok () ↔ check = true := by
  cases check with
  | false => exact iff_of_false (fun h => by cases h) Bool.false_ne_true
  | true => exact iff_of_true rfl rfl

/-! ## Machine integers -/

theorem int64_eq_ok {n : Int} (lower : -2 ^ 63 ≤ n) (upper : n < 2 ^ 63) : int64 n = .ok n :=
  if_pos ⟨lower, upper⟩

theorem fitsInt64_of_abs_lt {n : Int} (h : |n| < 2 ^ 62) : FitsInt64 n := by
  have bounds := abs_lt.1 h
  unfold FitsInt64 int64Limit
  omega

theorem fits_of_int64 {n k : Int} (run : int64 n = .ok k) : FitsInt64 n ∧ n = k := by
  unfold int64 at run
  split at run
  · next fits => exact ⟨fits, Except.ok.inj run⟩
  · cases run

theorem asInt64_of_lt {word : Nat} (h : word < 2 ^ 63) : asInt64 word = word :=
  Int.bmod_eq_of_le (by omega) (by omega)

theorem asInt64_lt (word : Nat) : asInt64 word < 2 ^ 63 :=
  Int.bmod_lt (by decide)

theorem powerInt64_eq_ok {n : Nat} (h : n < 63) : powerInt64 n = .ok (2 ^ n) := by
  rw [powerInt64, if_pos h, Nat.one_shiftLeft]
  push_cast
  rfl

end ExactFloat
