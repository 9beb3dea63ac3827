import ExactFloat.Event
import ExactFloat.Fraction

/-!
# From floats to fractions

Every finite float is a fraction whose denominator is a power of two. The conversion is exact and
ends in lowest terms. A float without a rational value converts to zero, and the context of the
conversion remembers it: its range flag stays up until it is taken down.
-/

namespace ExactFloat

/-- The flags that conversions raise and never take down. -/
structure Context where
  rangeError : Bool := false
  deriving DecidableEq

namespace Context

def raise (_ : Context) : Context :=
  ⟨true⟩

def clear (_ : Context) : Context :=
  ⟨false⟩

end Context

def BinaryFloat.normalFraction (f : BinaryFloat) : Outcome Fraction := do
  let q ← Fraction.ofScaled f.negative f.significand f.lowestExponent
  q.canonical

/-- The value of a float as a fraction. Where there is none, observers are told so and the flag of
the context goes up. -/
def Observed.toFraction (f : BinaryFloat) : Observed Context Fraction :=
  match f.category with
  | .nan | .infinity => do
      report (.noValue f.category f.negative)
      update (·.raise)
      return .zero
  | .zero => return .zero
  | .normal => .attempt f.normalFraction

namespace BinaryFloat

def toFraction (f : BinaryFloat) (context : Context) : Outcome (Fraction × Context) :=
  let result := (Observed.toFraction f).runFrom (context, [])
  result.1.map fun q => (q, result.2.1)

/-- How the value of a float compares with a fraction; infinities lie beyond every fraction. -/
def compareFraction (f : BinaryFloat) (q : Fraction) : Outcome (Option Ordering) :=
  match f.category with
  | .nan => return none
  | .infinity => return some (if f.negative then .lt else .gt)
  | .zero => return some (compare Fraction.zero q)
  | .normal => do return some (compare (← f.normalFraction) q)

end BinaryFloat

end ExactFloat
