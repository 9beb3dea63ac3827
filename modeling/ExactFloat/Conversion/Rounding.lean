import ExactFloat.Event
import ExactFloat.Fraction

/-!
# From fractions to floats

A fraction is brought to lowest terms and divided with at least two bits more than the precision.
The bits below the precision and the remainder of the division together form the tail that decides
the rounding. The exponent is checked only after rounding, when a carry may have raised it. With
the float comes the direction of the rounding: how the float compares with the fraction.

Exponents are reckoned in signed machine integers, and so is the precision. One from `2 ^ 63` on
wraps to a negative number; then every bit is cut off, and no float comes of it.
-/

namespace ExactFloat

/-- A rounded magnitude `significand * 2 ^ (exponent - (precision - 1))`. The direction tells how
the rounded number, sign included, compares with the exact one. -/
structure Rounded where
  exponent : Int
  significand : Magnitude
  direction : Ordering
  deriving DecidableEq

namespace Rounded

def directionOf (negative away : Bool) : Ordering :=
  if away != negative then .gt else .lt

/-- The next significand of a precision: a carry out of the leading bit moves to the exponent. -/
def increment (precision : Int) (exponent : Int) (significand : Magnitude) :
    Outcome (Int × Magnitude) := do
  let next := significand + .one
  if precision < next.bitLength then return (← int64 (exponent + 1), next >>> 1)
  return (exponent, next)

/-- Bring a significand to the length of the precision. Bits that are cut off go to the tail below
them; a short significand is widened, but not if anything was already cut off. -/
def align (precision : Int) (exponent : Int) (significand : Magnitude) (below : Tail) :
    Outcome (Int × Magnitude × Tail) := do
  let bits : Int := significand.bitLength
  if precision < bits then
    let excess ← int64 (bits - precision)
    return (← int64 (exponent + excess), significand >>> excess.toNat,
      (significand.tailBelow excess.toNat).join below)
  if bits < precision then
    ensure (below = .empty) .quotientTooShort
    let missing ← int64 (precision - bits)
    return (← int64 (exponent - missing), significand <<< missing.toNat, below)
  return (exponent, significand, below)

/-- Round `(significand + tail) * 2 ^ (exponent - (precision - 1))` to the precision. -/
def ofTail (precision : Int) (mode : Mode) (negative : Bool) (exponent : Int)
    (significand : Magnitude) (below : Tail) : Outcome Rounded := do
  let (exponent, kept, tail) ← align precision exponent significand below
  if tail = .empty then return ⟨exponent, kept, .eq⟩
  if mode.goesAway negative tail (← kept.isOdd) then
    let (exponent, next) ← increment precision exponent kept
    return ⟨exponent, next, directionOf negative true⟩
  return ⟨exponent, kept, directionOf negative false⟩

def operands (q : Fraction) (scale : Int) : Outcome (Magnitude × Magnitude) := do
  if 0 ≤ scale then return (q.numerator <<< scale.toNat, q.denominator)
  return (q.numerator, q.denominator <<< (← int64 (-scale)).toNat)

/-- Round a nonzero fraction in lowest terms. The quotient lies between `2 ^ (k - 1)` and
`2 ^ (k + 1)`, with `k` the difference of the bit lengths, so the scaled one has two or three bits
more than the precision. -/
def ofFraction (format : Format) (mode : Mode) (q : Fraction) : Outcome Rounded := do
  let precision := asInt64 format.precision
  let k := (q.numerator.bitLength : Int) - q.denominator.bitLength
  let scale ← int64 ((← int64 (precision + 2)) - k)
  let (dividend, divisor) ← operands q scale
  let (quotient, remainder) ← dividend.divMod divisor
  let exponent ← int64 (asInt64 (← format.trailingBits) - scale)
  ofTail precision mode q.isNegative exponent quotient (.ofRemainder remainder divisor)

end Rounded

namespace Observed

open ExactFloat.Action (attempt)

variable {σ : Type}

/-- The float of a format nearest to a fraction in the sense of a mode, and how it compares with
the fraction. Zero becomes the positive zero and is not reported. -/
def ofFraction (format : Format) (mode : Mode) (q : Fraction) :
    Observed σ (BinaryFloat × Ordering) := do
  attempt format.validate
  let q ← attempt q.canonical
  if q.isZero then return (.zero format false, .eq)
  let rounded ← attempt (Rounded.ofFraction format mode q)
  attempt (format.admitExponent rounded.exponent)
  attempt (ensure (rounded.significand.bitLength == format.precision) .unnormalized)
  report (.rounded format.precision rounded.exponent rounded.direction)
  return (⟨format, q.isNegative, rounded.exponent, rounded.significand, .normal⟩,
    rounded.direction)

def ofMagnitude (format : Format) (negative : Bool) (value : Magnitude) :
    Observed σ (BinaryFloat × Ordering) := do
  let q ← attempt (Fraction.ofMagnitude negative value)
  (ofFraction format format.mode q).insist

def ofUInt64 (format : Format) (value : UInt64) : Observed σ (BinaryFloat × Ordering) :=
  ofMagnitude format false (.ofWord value)

def ofInt64 (format : Format) (value : Int64) : Observed σ (BinaryFloat × Ordering) :=
  ofMagnitude format (value < 0) (.ofAbs value)

def outcome {α : Type} (action : Observed Unit α) : Outcome α :=
  (action.runFrom ((), [])).1

end Observed

namespace BinaryFloat

def ofFraction (format : Format) (mode : Mode) (q : Fraction) :
    Outcome (BinaryFloat × Ordering) :=
  (Observed.ofFraction format mode q).outcome

def ofMagnitude (format : Format) (negative : Bool) (value : Magnitude) :
    Outcome (BinaryFloat × Ordering) :=
  (Observed.ofMagnitude format negative value).outcome

def ofUInt64 (format : Format) (value : UInt64) : Outcome (BinaryFloat × Ordering) :=
  (Observed.ofUInt64 format value).outcome

def ofInt64 (format : Format) (value : Int64) : Outcome (BinaryFloat × Ordering) :=
  (Observed.ofInt64 format value).outcome

end BinaryFloat

end ExactFloat
