import ExactFloat.Magnitude.Decimal
import ExactFloat.Magnitude.Gcd

/-!
# Fractions

An exact rational number as a sign, a numerator and a denominator. A fraction is kept as it is
given; `canonical` brings it to lowest terms and makes a zero positive. The order and `==` compare
the numbers by cross multiplication, so they do not depend on the form, and neither does the sign
of a zero count.
-/

namespace ExactFloat

structure Fraction where
  negative : Bool
  numerator : Magnitude
  denominator : Magnitude
  deriving DecidableEq

namespace Fraction

/-! ## Construction -/

def ofParts (negative : Bool) (numerator denominator : Magnitude) : Outcome Fraction :=
  if denominator.isZero then reject .zeroDenominator
  else .ok ⟨negative, numerator, denominator⟩

def neg (q : Fraction) : Fraction :=
  { q with negative := !q.negative }

/-! ## Lowest terms -/

/-- The same number in lowest terms. A numerator and a denominator without a common factor stay as
they are stored, and so does the numerator of a zero. -/
def canonical (q : Fraction) : Outcome Fraction :=
  if q.numerator.isZero then .ok ⟨false, q.numerator, .one⟩
  else do
    let factor ← q.numerator.gcd q.denominator
    if factor == .one then return q
    let numerator ← q.numerator.exactQuotient factor
    let denominator ← q.denominator.exactQuotient factor
    return { q with numerator, denominator }

def isCanonical (q : Fraction) : Outcome Bool :=
  if q.numerator.isZero then .ok (!q.negative && q.denominator == .one)
  else do
    let factor ← q.numerator.gcd q.denominator
    return factor == .one

/-! ## Integers and small fractions -/

def ofMagnitude (negative : Bool) (numerator : Magnitude) : Outcome Fraction :=
  canonical ⟨negative, numerator, .one⟩

def zero : Fraction :=
  ⟨false, .zero, .one⟩

def ofUInt64 (value : UInt64) : Outcome Fraction :=
  ofMagnitude false (.ofWord value)

def ofInt64 (value : Int64) : Outcome Fraction :=
  ofMagnitude (value < 0) (.ofAbs value)

/-- The quotient of two machine integers in lowest terms. The denominator must not be zero. -/
def ofRatio (numerator : Int64) (denominator : UInt64) : Outcome Fraction := do
  let q ← insist (ofParts (numerator < 0) (.ofAbs numerator) (.ofWord denominator))
  q.canonical

/-- The number `m * 2 ^ e`, negated on demand, with a power of two above or below the line. -/
def ofScaled (negative : Bool) (m : Magnitude) (e : Int) : Outcome Fraction :=
  insist <|
    if 0 ≤ e then ofParts negative (m <<< e.toNat) .one
    else ofParts negative m (Magnitude.one <<< (-e).toNat)

/-! ## Queries -/

def isZero (q : Fraction) : Bool :=
  q.numerator.isZero

/-- Whether the number is below zero. A zero with a sign is not. -/
def isNegative (q : Fraction) : Bool :=
  q.negative && !q.isZero

def isInteger (q : Fraction) : Bool :=
  q.denominator == .one

/-! ## Order -/

instance : Ord Fraction where
  compare p q :=
    match p.isNegative, q.isNegative with
    | true, false => .lt
    | false, true => .gt
    | negative, _ =>
        let magnitudes := compare (p.numerator * q.denominator) (q.numerator * p.denominator)
        if negative then magnitudes.swap else magnitudes

instance : LT Fraction := ltOfOrd

instance : LE Fraction := leOfOrd

instance : BEq Fraction := ⟨fun p q => compare p q == .eq⟩

instance : DecidableLT Fraction := fun p q => inferInstanceAs (Decidable (compare p q = .lt))

instance : DecidableLE Fraction :=
  fun p q => inferInstanceAs (Decidable ((compare p q).isLE = true))

/-! ## Text -/

def numeratorText (q : Fraction) : Outcome String := do
  let digits ← q.numerator.decimal
  return if q.isNegative then "-" ++ digits else digits

def denominatorText (q : Fraction) : Outcome String :=
  q.denominator.decimal

/-- A minus sign if the number is negative, the digits of the numerator, and behind a slash those of
the denominator unless it is one. -/
def text (q : Fraction) : Outcome String := do
  let sign := if q.isNegative then "-" else ""
  let upper ← q.numerator.decimal
  if q.isInteger then return sign ++ upper
  let lower ← q.denominator.decimal
  return sign ++ upper ++ "/" ++ lower

end Fraction

end ExactFloat
