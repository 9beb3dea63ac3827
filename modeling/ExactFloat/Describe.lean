import ExactFloat.BinaryFloat.Basic
import ExactFloat.Fraction

/-!
# Structural text

The text of a value that shows all its parts: the name of its type and, in braces, the name and the
text of each field in order. Stored words are shown as they are, so equal numbers may differ here.
-/

namespace ExactFloat

/-- A name, with the fields in braces behind it. -/
def describeRecord (name : String) (fields : List (String × String)) : String :=
  let entries := fields.map fun field => field.1 ++ ": " ++ field.2
  name ++ " \x7b " ++ ", ".intercalate entries ++ " \x7d"

def Magnitude.describe (x : Magnitude) : String :=
  let entries := x.words.map fun word => toString word.toNat
  describeRecord "BigInt" [("parts", "[" ++ ", ".intercalate entries ++ "]")]

def Fraction.describe (q : Fraction) : String :=
  describeRecord "Rational"
    [("sign", toString q.negative), ("num", q.numerator.describe), ("den", q.denominator.describe)]

def Format.describe (format : Format) : String :=
  describeRecord "Semantics"
    [("exponent", toString format.exponentBits), ("precision", toString format.precision),
      ("mode", format.mode.name)]

def BinaryFloat.describe (f : BinaryFloat) : String :=
  describeRecord "Float"
    [("sem", f.format.describe), ("sign", toString f.negative), ("exp", toString f.exponent),
      ("mantissa", f.significand.describe), ("category", f.category.name)]

def Rejection.describe : Rejection → String
  | precisionTooSmall precision least =>
      describeRecord "PrecisionTooSmall"
        [("precision", toString precision), ("min", toString least)]
  | exponentWidth bits => describeRecord "InvalidExponentWidth" [("bits", toString bits)]
  | significandLength bits precision =>
      describeRecord "InvalidSignificand"
        [("bits", toString bits), ("precision", toString precision)]
  | exponentTooLarge exponent greatest =>
      describeRecord "ExponentOverflow" [("exp", toString exponent), ("max", toString greatest)]
  | exponentTooSmall exponent least =>
      describeRecord "ExponentUnderflow" [("exp", toString exponent), ("min", toString least)]
  | zeroDenominator => "ZeroDenominator"

end ExactFloat
