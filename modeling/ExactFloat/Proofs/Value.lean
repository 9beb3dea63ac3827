import ExactFloat.BinaryFloat.Basic
import ExactFloat.Fraction
import Mathlib.Tactic

/-!
# The rational numbers behind fractions and floats

Statements about conversions compare these two views.
-/

namespace ExactFloat

def Fraction.value (q : Fraction) : Rat :=
  let quotient : Rat := q.numerator.toNat / q.denominator.toNat
  if q.negative then -quotient else quotient

/-- The number that a float stands for, if it stands for one. -/
def BinaryFloat.value? (f : BinaryFloat) : Option Rat :=
  match f.category with
  | .normal =>
      let magnitude : Rat := f.significand.toNat * 2 ^ f.lowestExponent
      some (if f.negative then -magnitude else magnitude)
  | .zero => some 0
  | .infinity | .nan => none

end ExactFloat
