import ExactFloat.Format

/-!
# Binary floats

A float belongs to a format and has a sign, an exponent, a significand and a category. It is a zero,
an infinity, not a number, or normal: then the significand has exactly `precision` bits, and the
exponent is that of its leading bit and within the range of the format. There are no subnormal
numbers. Any parts make a float; `WellFormed` says which ones belong together.
-/

namespace ExactFloat

inductive Category where
  | infinity
  | nan
  | normal
  | zero
  deriving DecidableEq

def Category.name : Category → String
  | infinity => "Infinity"
  | nan => "NaN"
  | normal => "Normal"
  | zero => "Zero"

structure BinaryFloat where
  format : Format
  negative : Bool
  /-- The exponent of the leading bit. -/
  exponent : Int
  /-- The significand as an integer. -/
  significand : Magnitude
  category : Category
  deriving DecidableEq

namespace BinaryFloat

/-! ## Construction -/

def zero (format : Format) (negative : Bool) : BinaryFloat :=
  ⟨format, negative, 0, .zero, .zero⟩

def infinity (format : Format) (negative : Bool) : BinaryFloat :=
  ⟨format, negative, 0, .zero, .infinity⟩

def nan (format : Format) (negative : Bool) : BinaryFloat :=
  ⟨format, negative, 0, .zero, .nan⟩

/-- One or minus one: only the leading bit is set, and its exponent is zero. -/
def one (format : Format) (negative : Bool) : Outcome BinaryFloat := do
  return ⟨format, negative, 0, .oneHot (← format.trailingBits), .normal⟩

/-- The float with these parts. A zero significand makes a zero; any other one must have the length
of the format, and the exponent must be in its range. -/
def ofParts (format : Format) (negative : Bool) (exponent : Int) (significand : Magnitude) :
    Outcome BinaryFloat := do
  format.validate
  if significand.isZero then return zero format negative
  if significand.bitLength ≠ format.precision then
    reject (.significandLength significand.bitLength format.precision)
  format.admitExponent exponent
  return ⟨format, negative, exponent, significand, .normal⟩

def neg (f : BinaryFloat) : BinaryFloat :=
  { f with negative := !f.negative }

/-! ## Queries -/

def isZero (f : BinaryFloat) : Bool :=
  f.category = .zero

def isInfinite (f : BinaryFloat) : Bool :=
  f.category = .infinity

def isNaN (f : BinaryFloat) : Bool :=
  f.category = .nan

def isNormal (f : BinaryFloat) : Bool :=
  f.category = .normal

def isFinite (f : BinaryFloat) : Bool :=
  f.isNormal || f.isZero

/-- The exponent of the lowest bit of the significand. -/
def lowestExponent (f : BinaryFloat) : Int :=
  f.exponent - (f.format.precision - 1)

/-- The sign of a normal float, its significand as an integer and the exponent of its lowest bit. -/
def scaled? (f : BinaryFloat) : Option (Bool × Magnitude × Int) :=
  if f.isNormal then some (f.negative, f.significand, f.lowestExponent) else none

/-- A normal float has a significand of the length of its format and an exponent in its range. All
others have neither. -/
def WellFormed (f : BinaryFloat) : Prop :=
  match f.category with
  | .normal =>
      f.significand.bitLength = f.format.precision ∧ f.format.admitExponent f.exponent = .ok ()
  | _ => f.exponent = 0 ∧ f.significand = .zero

section

variable {f : BinaryFloat}

theorem scaled?_eq_some_iff {negative : Bool} {m : Magnitude} {e : Int} :
    f.scaled? = some (negative, m, e) ↔ f.category = .normal ∧ f.negative = negative ∧
      f.significand = m ∧ f.lowestExponent = e := by
  unfold scaled? isNormal
  by_cases normal : f.category = .normal <;> simp [normal]

theorem wellFormed_iff_of_normal (normal : f.category = .normal) :
    f.WellFormed ↔ f.significand.bitLength = f.format.precision ∧
      f.format.admitExponent f.exponent = .ok () := by
  rw [WellFormed, normal]

theorem wellFormed_iff_of_not_normal (special : f.category ≠ .normal) :
    f.WellFormed ↔ f.exponent = 0 ∧ f.significand = .zero := by
  rw [WellFormed]
  cases category : f.category with
  | normal => exact absurd category special
  | _ => rfl

end

end BinaryFloat

end ExactFloat
