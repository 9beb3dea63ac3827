import ExactFloat.Conversion.Rounding
import ExactFloat.Conversion.ToFraction

/-!
# Calls with unchecked arguments

Entry points for callers whose integers may have any size, whose rounding modes are names and whose
format may be missing. A call first checks its integers, then that there is a format, then the name
of the mode; only then does it convert. Formats that pass are valid, and fractions come in lowest
terms.
-/

namespace ExactFloat.Gateway

/-- Why a call was turned down. -/
inductive Refusal where
  | integerRange
  | missingFormat
  | unknownMode (name : String)
  | failed (cause : Failure)
  deriving DecidableEq

def Refusal.message? : Refusal → Option String
  | integerRange => none
  | missingFormat => none
  | unknownMode name => some ("Invalid rounding mode: " ++ name)
  | failed (.rejected cause) => some cause.message
  | failed (.breached cause) => cause.message?

abbrev Answer (α : Type) := Except Refusal α

/-! ## Arguments -/

def unsigned (n : Int) : Answer UInt64 :=
  if 0 ≤ n ∧ n < Word.radix then .ok (UInt64.ofNat n.toNat) else .error .integerRange

def signed (n : Int) : Answer Int64 :=
  if FitsInt64 n then .ok (Int64.ofInt n) else .error .integerRange

def present (format : Option Format) : Answer Format :=
  match format with
  | some format => .ok format
  | none => .error .missingFormat

def modeNamed (name : String) : Answer Mode :=
  match Mode.ofName? name with
  | some mode => .ok mode
  | none => .error (.unknownMode name)

def ofOutcome {α : Type} (outcome : Outcome α) : Answer α :=
  outcome.mapError .failed

/-! ## Formats and fractions -/

def format (exponentBits precision : Int) (mode : String) : Answer Format := do
  let exponentBits ← unsigned exponentBits
  let precision ← unsigned precision
  let format : Format := ⟨exponentBits.toNat, precision.toNat, ← modeNamed mode⟩
  ofOutcome format.validate
  return format

def fraction (numerator denominator : Int) : Answer Fraction := do
  let numerator ← signed numerator
  let denominator ← unsigned denominator
  ofOutcome do
    let q ← Fraction.ofParts (numerator < 0) (.ofAbs numerator) (.ofWord denominator)
    q.canonical

/-! ## Floats -/

/-- The float nearest to `significand * 2 ^ exponent`, negated on demand, in the mode of its
format. -/
def float (format : Option Format) (negative : Bool) (exponent significand : Int) :
    Answer BinaryFloat := do
  let exponent ← signed exponent
  let significand ← unsigned significand
  let format ← present format
  ofOutcome do
    let q ← Fraction.ofScaled negative (.ofWord significand) exponent.toInt
    return (← BinaryFloat.ofFraction format format.mode q).1

def integer (format : Option Format) (value : Int) : Answer BinaryFloat := do
  let value ← signed value
  let format ← present format
  ofOutcome do
    return (← BinaryFloat.ofFraction format format.mode (← Fraction.ofInt64 value)).1

def round (q : Fraction) (format : Option Format) (mode : String) :
    Answer (BinaryFloat × Ordering) := do
  let format ← present format
  ofOutcome (BinaryFloat.ofFraction format (← modeNamed mode) q)

def zero (format : Option Format) : Answer BinaryFloat := do
  return .zero (← present format) false

def infinity (format : Option Format) (negative : Bool) : Answer BinaryFloat := do
  return .infinity (← present format) negative

def nan (format : Option Format) : Answer BinaryFloat := do
  return .nan (← present format) false

/-! ## Runs over one context -/

inductive Step where
  | toFraction (f : BinaryFloat)
  | clear

def Step.perform (context : Context) : Step → Answer (Option Fraction) × Context
  | toFraction f =>
      let result := (Observed.toFraction f).runFrom (context, [])
      ((ofOutcome result.1).map some, result.2.1)
  | clear => (.ok none, context.clear)

/-- What each step returns, with the context after it. A step whose arguments are turned down is not
taken. -/
def run (context : Context) : List (Answer Step) → List (Answer (Option Fraction) × Context)
  | [] => []
  | step :: rest =>
      let result :=
        match step with
        | .ok step => step.perform context
        | .error refusal => (.error refusal, context)
      result :: run result.2 rest

end ExactFloat.Gateway
