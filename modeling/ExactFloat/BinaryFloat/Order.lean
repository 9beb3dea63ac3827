import ExactFloat.BinaryFloat.Basic

/-!
# The order of floats

Floats of any two formats are ordered by their values, with the infinities at the ends and the two
zeros as one; what is not a number has no place in the order. The relation `==` is narrower: normal
floats are equal only if exponent and significand are, so that the significand is not aligned
between formats of different precision.
-/

namespace ExactFloat.BinaryFloat

def orderOfSign (negative : Bool) : Ordering :=
  if negative then .lt else .gt

/-- The order of two normal magnitudes: the leading bits first, then the significands as fractions
of their leading bits. -/
def compareMagnitudes (p q : Nat) (e e' : Int) (m m' : Magnitude) : Ordering :=
  (compare e e').then <|
    if p < q then compare (m <<< (q - p)) m' else compare m (m' <<< (p - q))

def compare? (f g : BinaryFloat) : Option Ordering :=
  match f.category, g.category with
  | .nan, _ | _, .nan => none
  | .zero, .zero => some .eq
  | .infinity, .infinity =>
      some (if f.negative = g.negative then .eq else orderOfSign f.negative)
  | .infinity, _ | .normal, .zero => some (orderOfSign f.negative)
  | _, .infinity | .zero, .normal => some (orderOfSign !g.negative)
  | .normal, .normal =>
      if f.negative ≠ g.negative then some (orderOfSign f.negative)
      else
        let magnitudes := compareMagnitudes f.format.precision g.format.precision f.exponent
          g.exponent f.significand g.significand
        some (if f.negative then magnitudes.swap else magnitudes)

/-- Whether two floats agree in sign, exponent, significand and category, whatever their formats. -/
def sameParts (f g : BinaryFloat) : Bool :=
  f.negative == g.negative && f.exponent == g.exponent && f.significand == g.significand &&
    f.category == g.category

instance : BEq BinaryFloat where
  beq f g :=
    match f.category with
    | .infinity | .normal => f.sameParts g
    | .zero => g.isZero
    | .nan => false

instance : LT BinaryFloat := ⟨fun f g => f.compare? g = some .lt⟩

instance : LE BinaryFloat := ⟨fun f g => f.compare? g = some .lt ∨ f.compare? g = some .eq⟩

instance : DecidableLT BinaryFloat :=
  fun f g => inferInstanceAs (Decidable (f.compare? g = some .lt))

instance : DecidableLE BinaryFloat :=
  fun f g => inferInstanceAs (Decidable (f.compare? g = some .lt ∨ f.compare? g = some .eq))

end ExactFloat.BinaryFloat
