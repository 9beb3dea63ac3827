import ExactFloat.Magnitude.Arithmetic
import ExactFloat.Magnitude.Bits
import ExactFloat.Magnitude.Shift

/-!
# Division of magnitudes

Two numbers of one word are divided as words. A dividend below the divisor is its own remainder and
keeps its stored words. Otherwise the divisor is aligned with the highest bit of the dividend and
subtracted wherever it fits, one bit of the quotient at a time.
-/

namespace ExactFloat.Magnitude

/-- Subtract the divisor wherever it fits, halving it after each of `count` places. The quotient
gains bit `i` at the place where `i` places follow. -/
def subtractShifted : (count : Nat) → (remainder divisor quotient : Magnitude) →
    Outcome (Magnitude × Magnitude)
  | 0, remainder, _, quotient => .ok (quotient, remainder)
  | i + 1, remainder, divisor, quotient =>
      if divisor ≤ remainder then do
        let difference := remainder.subBorrow divisor
        ensure (!difference.2) .borrow
        subtractShifted i difference.1 (divisor >>> 1) (quotient.flipBit i)
      else subtractShifted i remainder (divisor >>> 1) quotient

def divMod (dividend divisor : Magnitude) : Outcome (Magnitude × Magnitude) :=
  if divisor.isZero then breach .divisionByZero
  else
    match dividend.words, divisor.words with
    | [x], [y] => .ok (ofWord (x / y), ofWord (x % y))
    | _, _ =>
        if dividend < divisor then .ok (zero, dividend)
        else
          let places := dividend.bitLength - divisor.bitLength
          subtractShifted (places + 1) dividend (divisor <<< places) zero

/-- The quotient of a division that has to come out even. -/
def exactQuotient (dividend divisor : Magnitude) : Outcome Magnitude := do
  let (quotient, remainder) ← dividend.divMod divisor
  ensure remainder.isZero .inexactDivision
  return quotient

end ExactFloat.Magnitude
