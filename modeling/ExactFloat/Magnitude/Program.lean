import ExactFloat.Action
import ExactFloat.Magnitude.Decimal
import ExactFloat.Magnitude.Gcd
import ExactFloat.ShiftRegister

/-!
# Programs on magnitudes

A program works on a store with a number in each slot. A call makes a number, computes with the
numbers in some slots or asks about them. The first call that fails ends the program; the store is
then what the call made of it.
-/

namespace ExactFloat.Magnitude.Program

/-! ## Calls -/

inductive Origin where
  | zero
  | one
  | default
  | ofWord (w : UInt64)
  | ofDoubleWord (n : BitVec 128)
  | ofWords (words : List UInt64)
  | ofFirstWords (count : Nat) (words : List UInt64)
  | oneHot (bit : Nat)
  | pseudorandom (count : Nat) (seed : UInt32)

def Origin.number : Origin → Magnitude
  | zero => .zero
  | one => .one
  | default => Inhabited.default
  | ofWord w => .ofWord w
  | ofDoubleWord n => .ofDoubleWord n
  | ofWords words => .ofWords words
  | ofFirstWords count words => .ofFirstWords count words
  | oneHot bit => .oneHot bit
  | pseudorandom count seed => .pseudorandom count seed

inductive Question where
  | isZero
  | isEmpty
  | isEven
  | isOdd
  | isPowerOfTwo
  | bitLength
  | trailingZeros
  | testBit (bit : Nat)
  | toWord
  | decimal
  deriving DecidableEq

inductive Comparison where
  | order
  | eq
  | ne
  | lt
  | le
  | gt
  | ge
  deriving DecidableEq

inductive Answer where
  | silent
  | flag (set : Bool)
  | count (n : Nat)
  | word (w : UInt64)
  | order (order : Ordering)
  | text (numeral : String)
  deriving DecidableEq

def Question.answer (x : Magnitude) : Question → Outcome Answer
  | isZero => return .flag x.isZero
  | isEmpty => return .flag x.isEmpty
  | isEven => return .flag (← x.isEven)
  | isOdd => return .flag (← x.isOdd)
  | isPowerOfTwo => return .flag x.isPowerOfTwo
  | bitLength => return .count x.bitLength
  | trailingZeros => return .count (← x.trailingZeros)
  | testBit bit => return .flag (x.testBit bit)
  | toWord => return .word (← x.toWord)
  | decimal => return .text (← x.decimal)

def Comparison.answer (x y : Magnitude) : Comparison → Answer
  | order => .order (compare x y)
  | eq => .flag (x == y)
  | ne => .flag (x != y)
  | lt => .flag (x < y)
  | le => .flag (x ≤ y)
  | gt => .flag (x > y)
  | ge => .flag (x ≥ y)

/-- A call. `x` and `y` are the slots that it works on; a result that does not take the place of
the number in `x` goes into the slot `target`. -/
inductive Call where
  | make (target : Nat) (origin : Origin)
  | copy (target x : Nat)
  | add (x y : Nat)
  | sub (x y : Nat)
  | mul (x y : Nat)
  /-- The quotient takes the place of the dividend. -/
  | div (x y target : Nat)
  | exactQuotient (target x y : Nat)
  | gcd (target x y : Nat)
  | shiftLeft (x bits : Nat)
  | shiftRight (x bits : Nat)
  | mask (x bits : Nat)
  | flipBit (x bit : Nat)
  | extend (x size : Nat)
  | ask (x : Nat) (question : Question)
  | compare (x y : Nat) (comparison : Comparison)

def Call.isExtend : Call → Bool
  | extend .. => true
  | _ => false

/-! ## Runs -/

abbrev Store : Type :=
  Nat → Magnitude

def Store.blank : Store :=
  fun _ => .zero

def Store.set (s : Store) (slot : Nat) (x : Magnitude) : Store :=
  fun i => if i = slot then x else s i

def fetch (slot : Nat) : Action Store Magnitude := do
  return (← get) slot

def put (slot : Nat) (x : Magnitude) : Action Store Unit :=
  modify (·.set slot x)

open ExactFloat.Action (attempt)

/-- What a call answers, and what it does to the store on the way. -/
def Call.perform : Call → Action Store Answer
  | make target origin => do
      put target origin.number
      return .silent
  | copy target x => do
      put target (← fetch x)
      return .silent
  | add x y => do
      put x ((← fetch x) + (← fetch y))
      return .silent
  | sub x y => do
      let (difference, borrow) := (← fetch x).subBorrow (← fetch y)
      put x difference
      return .flag borrow
  | mul x y => do
      put x ((← fetch x) * (← fetch y))
      return .silent
  | div x y target => do
      let (quotient, remainder) ← attempt ((← fetch x).divMod (← fetch y))
      put x quotient
      put target remainder
      return .silent
  | exactQuotient target x y => do
      put target (← attempt ((← fetch x).exactQuotient (← fetch y)))
      return .silent
  | gcd target x y => do
      put target (← attempt ((← fetch x).gcd (← fetch y)))
      return .silent
  | shiftLeft x bits => do
      put x ((← fetch x) <<< bits)
      return .silent
  | shiftRight x bits => do
      put x ((← fetch x) >>> bits)
      return .silent
  | mask x bits => do
      put x ((← fetch x).mask bits)
      return .silent
  | flipBit x bit => do
      put x ((← fetch x).flipBit bit)
      return .silent
  | extend x size => do
      put x ((← fetch x).extend size)
      return .silent
  | ask x question => do attempt (question.answer (← fetch x))
  | compare x y comparison => do return comparison.answer (← fetch x) (← fetch y)

/-! ### Calls that may fail -/

section

variable (s : Store) (target x y : Nat)

@[simp] theorem runFrom_fetch : (fetch x).runFrom s = (.ok (s x), s) := rfl

theorem runFrom_div :
    (Call.div x y target).perform.runFrom s =
      match (s x).divMod (s y) with
      | .ok (quotient, remainder) => (.ok .silent, (s.set x quotient).set target remainder)
      | .error failure => (.error failure, s) := by
  simp only [Call.perform, Action.runFrom_bind, runFrom_fetch, Action.runFrom_attempt]
  cases (s x).divMod (s y) <;> rfl

theorem runFrom_exactQuotient :
    (Call.exactQuotient target x y).perform.runFrom s =
      match (s x).exactQuotient (s y) with
      | .ok quotient => (.ok .silent, s.set target quotient)
      | .error failure => (.error failure, s) := by
  simp only [Call.perform, Action.runFrom_bind, runFrom_fetch, Action.runFrom_attempt]
  cases (s x).exactQuotient (s y) <;> rfl

theorem runFrom_gcd :
    (Call.gcd target x y).perform.runFrom s =
      match (s x).gcd (s y) with
      | .ok divisor => (.ok .silent, s.set target divisor)
      | .error failure => (.error failure, s) := by
  simp only [Call.perform, Action.runFrom_bind, runFrom_fetch, Action.runFrom_attempt]
  cases (s x).gcd (s y) <;> rfl

theorem runFrom_ask (question : Question) :
    (Call.ask x question).perform.runFrom s = (question.answer (s x), s) := rfl

end

/-! ## Entries -/

structure Entry where
  call : Call
  answer : Outcome Answer
  after : Store

def advance (s : Store) (call : Call) : Entry :=
  let result := call.perform.runFrom s
  ⟨call, result.1, result.2⟩

/-- The entries of a program, up to the first failure. -/
def run (s : Store) : List Call → List Entry
  | [] => []
  | call :: rest =>
      let entry := advance s call
      match entry.answer with
      | .ok _ => entry :: run entry.after rest
      | .error _ => [entry]

end ExactFloat.Magnitude.Program
