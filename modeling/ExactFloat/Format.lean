import ExactFloat.Mode

/-!
# Formats

A format says how wide the exponents of its floats are, how many significant bits they have and how
conversions round when nothing else is said. Any numbers form a format; `validate` says which
formats have floats.
-/

namespace ExactFloat

structure Format where
  exponentBits : Nat
  precision : Nat
  mode : Mode
  deriving DecidableEq

namespace Format

def minPrecision : Nat := 1

def minExponentBits : Nat := 2

def maxExponentBits : Nat := 62

/-! ## Interchange formats -/

def binary16 : Format := ⟨5, 11, .nearestEven⟩

def binary32 : Format := ⟨8, 24, .nearestEven⟩

def binary64 : Format := ⟨11, 53, .nearestEven⟩

def binary128 : Format := ⟨15, 113, .nearestEven⟩

def binary256 : Format := ⟨19, 237, .nearestEven⟩

/-- The interchange formats from the narrowest to the widest. -/
def interchange : List Format :=
  [binary16, binary32, binary64, binary128, binary256]

/-! ## Derived quantities -/

def withPrecision (format : Format) (precision : Nat) : Format :=
  { format with precision }

/-- The number of significant bits behind the leading one. -/
def trailingBits (format : Format) : Outcome Nat :=
  if format.precision = 0 then breach .overflow else .ok (format.precision - 1)

/-- The least and the greatest exponent of a leading bit. Of the codes of an exponent the lowest
and the highest one are set aside. -/
def exponentRange (format : Format) : Outcome (Int × Int) := do
  ensure (format.exponentBits != 0) .overflow
  let bias := (← powerInt64 (format.exponentBits - 1)) - 1
  let codes ← powerInt64 format.exponentBits
  return (1 - bias, ← int64 (codes - bias - 2))

/-- Refuse a format that has no floats: one without significant bits, or one whose exponents are
too narrow or too wide. -/
def validate (format : Format) : Outcome Unit :=
  if format.precision < minPrecision then
    reject (.precisionTooSmall format.precision minPrecision)
  else if format.exponentBits < minExponentBits ∨ maxExponentBits < format.exponentBits then
    reject (.exponentWidth format.exponentBits)
  else .ok ()

def admitExponent (format : Format) (exponent : Int) : Outcome Unit := do
  let (least, greatest) ← format.exponentRange
  if greatest < exponent then reject (.exponentTooLarge exponent greatest)
  else if exponent < least then reject (.exponentTooSmall exponent least)
  else return ()

end Format

end ExactFloat
