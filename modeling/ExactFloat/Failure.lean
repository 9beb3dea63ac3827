/-!
# Failures

A call fails in one of two ways. A *rejection* says that the caller's data describe no value: the
format is unusable, the significand has the wrong length, the exponent is out of range or a
denominator is zero. A *breach* says that a precondition or an internal check of the arithmetic did
not hold. Statements about safety say which inputs lead to neither.
-/

namespace ExactFloat

/-- Why data handed in by a caller describe no value. -/
inductive Rejection where
  | precisionTooSmall (precision least : Nat)
  | exponentWidth (bits : Nat)
  /-- A significand of `bits` bits was given where `precision` bits are needed. -/
  | significandLength (bits precision : Nat)
  | exponentTooLarge (exponent greatest : Int)
  | exponentTooSmall (exponent least : Int)
  | zeroDenominator
  deriving DecidableEq

namespace Rejection

def message : Rejection → String
  | precisionTooSmall precision least =>
      s!"precision {precision} is below the minimum precision {least}"
  | exponentWidth bits => s!"invalid exponent width of {bits} bits"
  | significandLength bits precision =>
      s!"significand of {bits} bits does not match the precision {precision}"
  | exponentTooLarge exponent greatest =>
      s!"exponent {exponent} overflows the maximum exponent {greatest}"
  | exponentTooSmall exponent least =>
      s!"exponent {exponent} underflows the minimum exponent {least}"
  | zeroDenominator => "zero denominator"

end Rejection

/-- A precondition or an internal check that did not hold. -/
inductive Breach where
  | divisionByZero
  /-- A division that had to come out even left a remainder. -/
  | inexactDivision
  | exceedsWord
  | noSetBit
  /-- A subtraction inside a division or a reduction went below zero. -/
  | borrow
  /-- The bits to be rounded are fewer than the precision, though some were already dropped. -/
  | quotientTooShort
  /-- A rounded significand does not have the length of its format. -/
  | unnormalized
  | overflow
  | outOfRange
  /-- A loop did not end within its bound. -/
  | exhausted
  /-- A call that does not return rejections met this one. -/
  | insisted (cause : Rejection)
  deriving DecidableEq

namespace Breach

def message? : Breach → Option String
  | divisionByZero => some "division by zero"
  | inexactDivision => some "inexact division"
  | insisted cause => some cause.message
  | _ => none

end Breach

inductive Failure where
  | rejected (cause : Rejection)
  | breached (cause : Breach)
  deriving DecidableEq

/-- What a call that may fail returns. -/
abbrev Outcome (α : Type) := Except Failure α

def reject {α : Type} (cause : Rejection) : Outcome α :=
  .error (.rejected cause)

def breach {α : Type} (cause : Breach) : Outcome α :=
  .error (.breached cause)

def ensure (check : Bool) (cause : Breach) : Outcome Unit :=
  if check then .ok () else breach cause

/-- For callers that know their data to be good: a rejection becomes a breach. -/
def insist {α : Type} : Outcome α → Outcome α
  | .error (.rejected cause) => breach (.insisted cause)
  | outcome => outcome

/-! ## Machine integers

Exponents are signed integers of 64 bits. They are computed exactly and checked at each step.
-/

/-- One more than the greatest signed integer of 64 bits. -/
def int64Limit : Int := 0x8000000000000000

def FitsInt64 (n : Int) : Prop :=
  -int64Limit ≤ n ∧ n < int64Limit

instance (n : Int) : Decidable (FitsInt64 n) :=
  inferInstanceAs (Decidable (_ ∧ _))

/-- The signed integer with the bits of an unsigned word: from `2 ^ 63` on it wraps to a negative
one. -/
def asInt64 (word : Nat) : Int :=
  (word : Int).bmod 0x10000000000000000

/-- The result of a step of exponent arithmetic, if it fits. -/
def int64 (n : Int) : Outcome Int :=
  if FitsInt64 n then .ok n else breach .overflow

def powerInt64 (n : Nat) : Outcome Int :=
  if n < 63 then .ok ((1 <<< n : Nat) : Int) else breach .overflow

end ExactFloat
