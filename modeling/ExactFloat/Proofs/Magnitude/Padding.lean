import ExactFloat.Proofs.Magnitude.Decimal
import ExactFloat.Proofs.Magnitude.Storage

/-!
# Zero words on top cannot be observed

What a call answers and the numbers that it leaves depend on the numbers in the store and not on
their words. The only exception is a difference that wraps, which depends on how many words there
are. So calls of `extend`, inserted anywhere, change no answer, no number and no failure of a
program without wrapped differences.
-/

namespace ExactFloat.Magnitude

/-! ## Questions -/

section

variable {x x' y y' : Magnitude} (hx : x.toNat = x'.toNat) (hy : y.toNat = y'.toNat)

include hx

theorem isZero_congr : x.isZero = x'.isZero := by
  rw [Bool.eq_iff_iff, isZero_iff, isZero_iff, hx]

theorem testBit_congr (bit : Nat) : x.testBit bit = x'.testBit bit := by
  rw [testBit_eq, testBit_eq, hx]

theorem lowestBit_congr : x.lowestBit? = x'.lowestBit? := by
  refine Option.ext fun bit => ?_
  rw [lowestBit_eq_some_iff, lowestBit_eq_some_iff, hx]

theorem trailingZeros_congr : x.trailingZeros = x'.trailingZeros := by
  rw [trailingZeros, trailingZeros, lowestBit_congr hx]

theorem isPowerOfTwo_congr : x.isPowerOfTwo = x'.isPowerOfTwo := by
  rw [isPowerOfTwo, isPowerOfTwo, lowestBit_congr hx, bitLength_congr hx]

theorem decimal_congr : x.decimal = x'.decimal := by
  rw [decimal_eq, decimal_eq, hx]

/-! ## Results that may fail -/

include hy

theorem divMod_congr :
    (x.divMod y).map (Prod.map toNat toNat) = (x'.divMod y').map (Prod.map toNat toNat) := by
  by_cases zero : y.toNat = 0
  · rw [divMod_of_zero x zero, divMod_of_zero x' (hy.symm.trans zero)]
  · obtain ⟨q, r, run, quotient, remainder⟩ := divMod_eq_ok x y zero
    obtain ⟨q', r', run', quotient', remainder'⟩ := divMod_eq_ok x' y' (hy ▸ zero)
    rw [← hx, ← hy] at quotient' remainder'
    rw [run, run']
    change Except.ok (q.toNat, r.toNat) = .ok (q'.toNat, r'.toNat)
    rw [quotient, quotient', remainder, remainder']

theorem exactQuotient_congr :
    (x.exactQuotient y).map toNat = (x'.exactQuotient y').map toNat := by
  rw [exactQuotient, exactQuotient]
  rcases cases_of_map_eq (divMod_congr hx hy) with
    ⟨failure, run, run'⟩ | ⟨⟨q, r⟩, ⟨q', r'⟩, run, run', values⟩
  · rw [run, run']
  · obtain ⟨quotient, remainder⟩ := Prod.mk.inj values
    rw [run, run']
    simp only [ok_bind, isZero_congr remainder]
    cases r'.isZero with
    | false => rfl
    | true => exact congrArg Except.ok quotient

theorem gcd_congr : (x.gcd y).map toNat = (x'.gcd y').map toNat := by
  obtain ⟨g, run, value⟩ := gcd_eq_ok x y
  obtain ⟨g', run', value'⟩ := gcd_eq_ok x' y'
  rw [run, run']
  change Except.ok g.toNat = .ok g'.toNat
  rw [value, value', hx, hy]

end

namespace Program

/-! ## Answers -/

theorem Question.answer_congr {x x' : Magnitude} (value : x.toNat = x'.toNat)
    (stored : x.words ≠ []) (stored' : x'.words ≠ []) (question : Question) :
    question.answer x = question.answer x' := by
  cases question with
  | isZero => rw [answer, answer, isZero_congr value]
  | isEmpty =>
      have empty : x.isEmpty = false := List.isEmpty_eq_false_iff.2 stored
      have empty' : x'.isEmpty = false := List.isEmpty_eq_false_iff.2 stored'
      rw [answer, answer, empty, empty']
  | isEven => rw [answer, answer, isEven_eq stored, isEven_eq stored', value]
  | isOdd => rw [answer, answer, isOdd_eq stored, isOdd_eq stored', value]
  | isPowerOfTwo => rw [answer, answer, isPowerOfTwo_congr value]
  | bitLength => rw [answer, answer, bitLength_congr value]
  | trailingZeros => rw [answer, answer, trailingZeros_congr value]
  | testBit bit => rw [answer, answer, testBit_congr value]
  | toWord => rw [answer, answer, toWord_eq stored, toWord_eq stored', value]
  | decimal => rw [answer, answer, decimal_congr value]

theorem Comparison.answer_congr {x x' y y' : Magnitude} (hx : x.toNat = x'.toNat)
    (hy : y.toNat = y'.toNat) (comparison : Comparison) :
    comparison.answer x y = comparison.answer x' y' := by
  have equal : (x == y) = (x' == y') := by rw [Bool.eq_iff_iff, beq_iff, beq_iff, hx, hy]
  cases comparison with
  | order => rw [answer, answer, compare_eq, compare_eq, hx, hy]
  | eq => rw [answer, answer, equal]
  | ne => rw [answer, answer, bne, bne, equal]
  | lt | le | gt | ge => simp only [answer, gt_iff_lt, ge_iff_le, lt_iff, le_iff, hx, hy]

/-! ## Stores -/

def Store.values (s : Store) : Nat → Nat :=
  fun i => (s i).toNat

/-- The same numbers, each stored in a word at least. -/
structure Store.Alike (s t : Store) : Prop where
  values : s.values = t.values
  stored : ∀ i, (s i).words ≠ []
  stored' : ∀ i, (t i).words ≠ []

theorem values_set_congr {s t : Store} (values : s.values = t.values) {x x' : Magnitude}
    (hx : x.toNat = x'.toNat) (slot : Nat) : (s.set slot x).values = (t.set slot x').values := by
  funext i
  unfold Store.values
  by_cases same : i = slot
  · rw [same, set_self, set_self, hx]
  · rw [set_of_ne same, set_of_ne same]
    exact congrFun values i

def Entry.borrows : Entry → Bool
  | ⟨.sub .., .ok (.flag true), _⟩ => true
  | _ => false

theorem borrows_sub (s : Store) (x y : Nat) :
    (advance s (.sub x y)).borrows = ((s x).subBorrow (s y)).2 := by
  change Entry.borrows ⟨.sub x y, .ok (.flag ((s x).subBorrow (s y)).2), _⟩ = _
  cases ((s x).subBorrow (s y)).2 <;> rfl

def Entry.view (entry : Entry) : Call × Outcome Answer × (Nat → Nat) :=
  (entry.call, entry.answer, entry.after.values)

/-- A call looks the same from stores of the same numbers. -/
theorem advance_congr {s t : Store} (alike : s.Alike t) {call : Call}
    (exact : (advance s call).borrows = false) :
    (advance s call).view = (advance t call).view := by
  have value (i : Nat) : (s i).toNat = (t i).toNat := congrFun alike.values i
  have same {answer : Outcome Answer} {s' t' : Store} (values : s'.values = t'.values) :
      Entry.view ⟨call, answer, s'⟩ = Entry.view ⟨call, answer, t'⟩ :=
    congrArg (fun numbers => (call, answer, numbers)) values
  cases call with
  | make target origin => exact same (values_set_congr alike.values rfl target)
  | copy target x => exact same (values_set_congr alike.values (value x) target)
  | add x y =>
      refine same (values_set_congr alike.values ?_ x)
      rw [toNat_add, toNat_add, value, value]
  | sub x y =>
      -- A difference that wraps would depend on the number of words.
      rw [borrows_sub, subBorrow_snd, decide_eq_false_iff_not, Nat.not_lt] at exact
      obtain ⟨noBorrow, difference⟩ := subBorrow_of_le exact
      obtain ⟨noBorrow', difference'⟩ := subBorrow_of_le (value x ▸ value y ▸ exact)
      have equal : ((s x).subBorrow (s y)).1.toNat = ((t x).subBorrow (t y)).1.toNat := by
        rw [value, value] at difference
        omega
      change Entry.view ⟨_, .ok (.flag ((s x).subBorrow (s y)).2), _⟩ =
        Entry.view ⟨_, .ok (.flag ((t x).subBorrow (t y)).2), _⟩
      rw [noBorrow, noBorrow']
      exact same (values_set_congr alike.values equal x)
  | mul x y =>
      refine same (values_set_congr alike.values ?_ x)
      rw [toNat_mul, toNat_mul, value, value]
  | div x y target =>
      rw [advance, advance, runFrom_div, runFrom_div]
      rcases cases_of_map_eq (divMod_congr (value x) (value y)) with
        ⟨failure, run, run'⟩ | ⟨⟨q, r⟩, ⟨q', r'⟩, run, run', equal⟩
      · rw [run, run']
        exact same alike.values
      · obtain ⟨quotient, remainder⟩ := Prod.mk.inj equal
        rw [run, run']
        exact same (values_set_congr (values_set_congr alike.values quotient x) remainder target)
  | exactQuotient target x y =>
      rw [advance, advance, runFrom_exactQuotient, runFrom_exactQuotient]
      rcases cases_of_map_eq (exactQuotient_congr (value x) (value y)) with
        ⟨failure, run, run'⟩ | ⟨q, q', run, run', equal⟩
      · rw [run, run']
        exact same alike.values
      · rw [run, run']
        exact same (values_set_congr alike.values equal target)
  | gcd target x y =>
      rw [advance, advance, runFrom_gcd, runFrom_gcd]
      rcases cases_of_map_eq (gcd_congr (value x) (value y)) with
        ⟨failure, run, run'⟩ | ⟨g, g', run, run', equal⟩
      · rw [run, run']
        exact same alike.values
      · rw [run, run']
        exact same (values_set_congr alike.values equal target)
  | shiftLeft x bits =>
      refine same (values_set_congr alike.values ?_ x)
      rw [toNat_shiftLeft, toNat_shiftLeft, value]
  | shiftRight x bits =>
      refine same (values_set_congr alike.values ?_ x)
      rw [toNat_shiftRight, toNat_shiftRight, value]
  | mask x bits =>
      refine same (values_set_congr alike.values ?_ x)
      rw [toNat_mask, toNat_mask, value]
  | flipBit x bit =>
      refine same (values_set_congr alike.values ?_ x)
      rw [toNat_flipBit, toNat_flipBit, value]
  | extend x size =>
      refine same (values_set_congr alike.values ?_ x)
      rw [toNat_extend, toNat_extend, value]
  | ask x question =>
      rw [advance, advance, runFrom_ask, runFrom_ask,
        Question.answer_congr (value x) (alike.stored x) (alike.stored' x)]
      exact same alike.values
  | compare x y comparison =>
      change Entry.view ⟨_, .ok (comparison.answer (s x) (s y)), s⟩ =
        Entry.view ⟨_, .ok (comparison.answer (t x) (t y)), t⟩
      rw [Comparison.answer_congr (value x) (value y)]
      exact same alike.values

theorem Store.Alike.advance {s t : Store} (alike : s.Alike t) {call : Call}
    (exact : (advance s call).borrows = false) :
    (Program.advance s call).after.Alike (Program.advance t call).after where
  values := congrArg (·.2.2) (advance_congr alike exact)
  stored := kept_stored.advance alike.stored fun _ _ size => stored_extend size
  stored' := kept_stored.advance alike.stored' fun _ _ size => stored_extend size

/-- Zero words put on top of one number leave all numbers as they are. -/
theorem Store.Alike.advance_extend {s t : Store} (alike : s.Alike t) (x size : Nat) :
    s.Alike (Program.advance t (.extend x size)).after where
  values := by
    rw [alike.values]
    funext i
    change (t i).toNat = ((t.set x ((t x).extend size)) i).toNat
    by_cases same : i = x
    · rw [same, set_self, toNat_extend]
    · rw [set_of_ne same]
  stored := alike.stored
  stored' := kept_stored.advance alike.stored' fun _ _ size => stored_extend size

/-! ## Runs -/

/-- The second program is the first one with calls of `extend` inserted. -/
inductive Padded : List Call → List Call → Prop where
  | nil : Padded [] []
  | keep (call : Call) {calls padded : List Call} :
      Padded calls padded → Padded (call :: calls) (call :: padded)
  | insert (x size : Nat) {calls padded : List Call} :
      Padded calls padded → Padded calls (.extend x size :: padded)

def observe (entries : List Entry) : List (Call × Outcome Answer × (Nat → Nat)) :=
  (entries.filter fun entry => !entry.call.isExtend).map Entry.view

theorem observe_cons (entry : Entry) (rest : List Entry) :
    observe (entry :: rest) =
      (if entry.call.isExtend then [] else [entry.view]) ++ observe rest := by
  unfold observe
  cases grows : entry.call.isExtend <;> simp [grows]

theorem observe_run_padded {calls padded : List Call} (h : Padded calls padded) {s t : Store}
    (alike : s.Alike t) (exact : ∀ entry ∈ run s calls, entry.borrows = false) :
    observe (run t padded) = observe (run s calls) ∧
      (final t padded).values = (final s calls).values := by
  -- Wherever a call is inserted, the stores of the two runs hold the same numbers.
  induction h generalizing s t with
  | nil => exact ⟨rfl, alike.values.symm⟩
  | keep call h ih =>
      rw [run_cons, List.forall_mem_cons] at exact
      have view := advance_congr alike exact.1
      have next := alike.advance exact.1
      have answer : (advance t call).answer = (advance s call).answer :=
        congrArg (·.2.1) view.symm
      rw [run_cons, run_cons, final_cons, final_cons, observe_cons, observe_cons, ← view, answer,
        call_advance, call_advance]
      cases ok : (advance s call).answer.isOk with
      | false => exact ⟨rfl, next.values.symm⟩
      | true =>
          rw [ok] at exact
          obtain ⟨seen, last⟩ := ih next exact.2
          exact ⟨congrArg _ seen, last⟩
  | insert x size h ih =>
      obtain ⟨seen, last⟩ := ih (alike.advance_extend x size) exact
      rw [run_cons, final_cons, observe_cons]
      exact ⟨seen, last⟩

/-- Calls of `extend` inserted anywhere, with any sizes, change nothing that can be seen of a
program in which no subtraction wraps: no answer, no number and no failure. -/
theorem padding_unobservable {calls padded : List Call} (h : Padded calls padded)
    (exact : ∀ entry ∈ run .blank calls, entry.borrows = false) :
    observe (run .blank padded) = observe (run .blank calls) ∧
      (final .blank padded).values = (final .blank calls).values :=
  observe_run_padded h ⟨rfl, fun _ => List.cons_ne_nil 0 [], fun _ => List.cons_ne_nil 0 []⟩ exact

/-- Seven divided by two: as words, and as a long division of three words by two. -/
theorem padding_unobservable_of_seven_halves :
    let calls : List Call := [.make 0 (.ofWord 7), .make 1 (.ofWord 2), .div 0 1 2, .ask 0 .decimal]
    let padded : List Call := [.make 0 (.ofWord 7), .extend 0 3, .make 1 (.ofWord 2), .extend 1 2,
      .div 0 1 2, .ask 0 .decimal]
    Padded calls padded ∧ (∀ entry ∈ run .blank calls, entry.borrows = false) ∧
      observe (run .blank padded) = observe (run .blank calls) ∧
      (final .blank padded).values = (final .blank calls).values := by
  intro calls padded
  have inserted : Padded calls padded :=
    .keep _ (.insert _ _ (.keep _ (.insert _ _ (.keep _ (.keep _ .nil)))))
  have exact : ∀ entry ∈ run .blank calls, entry.borrows = false := by decide +kernel
  exact ⟨inserted, exact, padding_unobservable inserted exact⟩

end Program

end ExactFloat.Magnitude
