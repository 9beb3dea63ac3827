import ExactFloat.Magnitude.Program
import ExactFloat.Proofs.Magnitude.Kept

/-!
# How numbers are stored throughout a program

Everything that is made has no zero word on top, and every call but `extend` leaves it so. Hence
programs without `extend` store numbers of equal value alike, however they came about. With `extend`
there is still a word in every slot.
-/

namespace ExactFloat.Magnitude

open Program

/-! ## Calls -/

namespace Program

variable {P : Magnitude → Prop} {s : Store}

@[simp] theorem set_self (s : Store) (slot : Nat) (x : Magnitude) : s.set slot x slot = x :=
  if_pos rfl

theorem set_of_ne {i slot : Nat} (h : i ≠ slot) (s : Store) (x : Magnitude) :
    s.set slot x i = s i :=
  if_neg h

theorem forall_set (h : ∀ i, P (s i)) {x : Magnitude} (hx : P x) (slot : Nat) :
    ∀ i, P (s.set slot x i) := by
  intro i
  by_cases same : i = slot
  · rw [same, set_self]
    exact hx
  · rw [set_of_ne same]
    exact h i

end Program

namespace Kept

variable {P : Magnitude → Prop} {s : Store} {call : Call} (kept : Kept P)

include kept

theorem origin (origin : Origin) : P origin.number := by
  cases origin with
  | zero | one | default | ofWord => exact kept.ofWord _
  | ofDoubleWord n => exact kept.ofWords [_, _]
  | ofWords words => exact kept.ofWords words
  | ofFirstWords count words | pseudorandom count seed => exact kept.ofWords (List.take count _)
  | oneHot bit => exact kept.flipBit _ bit

/-- Every call but `extend` keeps the property, be it successful or not. -/
theorem advance (h : ∀ i, P (s i))
    (grow : call.isExtend = true → ∀ x size, P x → P (x.extend size)) :
    ∀ i, P ((advance s call).after i) := by
  change ∀ i, P ((call.perform.runFrom s).2 i)
  cases call with
  | make target origin => exact forall_set h (kept.origin origin) target
  | copy target x => exact forall_set h (h x) target
  | add x y => exact forall_set h (kept.add (h x) (h y)) x
  | sub x y => exact forall_set h (kept.subBorrow (h x) (s y)) x
  | mul x y => exact forall_set h (kept.mul (h x) (s y)) x
  | div x y target =>
      rw [runFrom_div]
      cases division : (s x).divMod (s y) with
      -- A division that fails has not written anything yet.
      | error failure => exact h
      | ok result =>
          obtain ⟨quotientKept, remainderKept⟩ := kept.divMod division
          exact forall_set (forall_set h quotientKept x) (remainderKept (h x)) target
  | exactQuotient target x y =>
      rw [runFrom_exactQuotient]
      cases division : (s x).exactQuotient (s y) with
      | error failure => exact h
      | ok quotient => exact forall_set h (kept.exactQuotient division) target
  | gcd target x y =>
      rw [runFrom_gcd]
      cases found : (s x).gcd (s y) with
      | error failure => exact h
      | ok divisor => exact forall_set h (kept.gcd (h x) (h y) found) target
  | shiftLeft x bits => exact forall_set h (kept.shiftLeft (h x) bits) x
  | shiftRight x bits => exact forall_set h (kept.shiftRight (s x) bits) x
  | mask x bits => exact forall_set h (kept.mask (h x) bits) x
  | flipBit x bit => exact forall_set h (kept.flipBit (s x) bit) x
  | extend x size => exact forall_set h (grow rfl (s x) size (h x)) x
  | ask | compare => exact h

end Kept

/-! ## Runs -/

namespace Program

@[simp] theorem call_advance (s : Store) (call : Call) : (advance s call).call = call := rfl

def final (s : Store) (calls : List Call) : Store :=
  (run s calls).getLast?.elim s Entry.after

@[simp] theorem final_nil (s : Store) : final s [] = s := rfl

theorem run_cons (s : Store) (call : Call) (rest : List Call) :
    run s (call :: rest) =
      advance s call ::
        if (advance s call).answer.isOk then run (advance s call).after rest else [] := by
  rw [run]
  cases (advance s call).answer <;> rfl

theorem final_cons (s : Store) (call : Call) (rest : List Call) :
    final s (call :: rest) =
      if (advance s call).answer.isOk then final (advance s call).after rest
      else (advance s call).after := by
  rw [final, run_cons, List.getLast?_cons, final]
  cases (advance s call).answer.isOk with
  | false => rfl
  | true =>
      rw [if_pos rfl, if_pos rfl]
      cases (run (advance s call).after rest).getLast? <;> rfl

end Program

theorem Kept.final {P : Magnitude → Prop} (kept : Kept P) {s : Store} {calls : List Call}
    (h : ∀ i, P (s i))
    (grow : ∀ call ∈ calls, call.isExtend = true → ∀ x size, P x → P (x.extend size)) :
    ∀ i, P (final s calls i) := by
  induction calls generalizing s with
  | nil => exact h
  | cons call rest ih =>
      rw [List.forall_mem_cons] at grow
      have next := kept.advance h grow.1
      rw [final_cons]
      split
      · exact ih next grow.2
      · exact next

namespace Program

theorem minimal_final {calls : List Call} (plain : ∀ call ∈ calls, call.isExtend = false) (i : Nat) :
    (final .blank calls i).Minimal :=
  kept_minimal.final (fun _ => minimal_ofWord 0)
    (fun call mem grows => nomatch (plain call mem).symm.trans grows) i

theorem stored_final (calls : List Call) (i : Nat) : (final .blank calls i).words ≠ [] :=
  kept_stored.final (fun _ => List.cons_ne_nil 0 []) (fun _ _ _ _ size => stored_extend size) i

/-- Numbers are made without a zero word on top, and arithmetic on such numbers gives only such
numbers. So after programs without `extend` the words can be told from the value. Arithmetic on
numbers with any zero words on top never takes away the last word, and no program at all leaves a
slot without one. -/
theorem canonical_storage :
    (∀ origin : Origin, origin.number.Minimal) ∧
    (∀ x y : Magnitude, x.Minimal → y.Minimal → HoldsOfResults Minimal x y) ∧
    (∀ calls calls' : List Call, (∀ call ∈ calls, call.isExtend = false) →
      (∀ call ∈ calls', call.isExtend = false) →
      ∀ i j, (final .blank calls i).toNat = (final .blank calls' j).toNat →
        final .blank calls i = final .blank calls' j) ∧
    (∀ x y : Magnitude, x.words ≠ [] → y.words ≠ [] → HoldsOfResults (·.words ≠ []) x y) ∧
    (∀ (calls : List Call) (i : Nat), (final .blank calls i).words ≠ []) := by
  refine ⟨kept_minimal.origin, fun x y => kept_minimal.holdsOfResults, ?_,
    fun x y => kept_stored.holdsOfResults, stored_final⟩
  intro calls calls' plain plain' i j value
  exact (minimal_final plain i).eq_of_toNat_eq (minimal_final plain' j) value

/-- The wrapped difference of 1 and 3, and the word that it is. -/
theorem canonical_storage_of_wrapped :
    let wrapped : List Call := [.make 0 .one, .make 1 (.ofWord 3), .sub 0 1]
    let plain : List Call := [.make 0 (.ofWords [0xfffffffffffffffe, 0])]
    (final .blank wrapped 0).toNat = (final .blank plain 0).toNat ∧
      final .blank wrapped 0 = final .blank plain 0 := by
  intro wrapped plain
  have value : (final .blank wrapped 0).toNat = (final .blank plain 0).toNat := by decide +kernel
  exact ⟨value, canonical_storage.2.2.1 wrapped plain (by simp [wrapped, Call.isExtend])
    (by simp [plain, Call.isExtend]) 0 0 value⟩

end Program

end ExactFloat.Magnitude
