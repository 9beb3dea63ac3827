import ExactFloat.BinaryFloat.Order
import ExactFloat.Conversion.Rounding
import ExactFloat.Conversion.ToFraction

/-!
# Sessions

A session holds a context, a current fraction and a current float, and steps convert between the
two. Conversions report to observers on the way. Each step is an action on the session: what it has
written when it fails stays written, and what it has reported stays reported.
-/

namespace ExactFloat

open ExactFloat.Action (attempt)

/-! ## Sources of floats -/

/-- A way to come by a float. -/
inductive Source where
  | parts (format : Format) (negative : Bool) (exponent : Int) (significand : Magnitude)
  | goodParts (format : Format) (negative : Bool) (exponent : Int) (significand : Magnitude)
  | zero (format : Format) (negative : Bool)
  | one (format : Format) (negative : Bool)
  | infinity (format : Format) (negative : Bool)
  | nan (format : Format) (negative : Bool)
  | unsigned (format : Format) (value : UInt64)
  | signed (format : Format) (value : Int64)
  | fraction (format : Format) (q : Fraction)
  | neg (source : Source)

def Source.float {σ : Type} : Source → Observed σ BinaryFloat
  | parts format negative exponent significand =>
      attempt (BinaryFloat.ofParts format negative exponent significand)
  | goodParts format negative exponent significand =>
      (attempt (BinaryFloat.ofParts format negative exponent significand)).insist
  | zero format negative => return .zero format negative
  | one format negative => attempt (BinaryFloat.one format negative)
  | infinity format negative => return .infinity format negative
  | nan format negative => return .nan format negative
  | unsigned format value => return (← Observed.ofUInt64 format value).1
  | signed format value => return (← Observed.ofInt64 format value).1
  | fraction format q => return (← (Observed.ofFraction format format.mode q).insist).1
  | neg source => return (← source.float).neg

/-! ## Steps -/

structure Session where
  context : Context
  fraction : Fraction
  float : BinaryFloat
  deriving DecidableEq

namespace Session

inductive Step where
  | setFraction (q : Fraction)
  | setFloat (source : Source)
  | negFraction
  | negFloat
  | reduce
  | toFraction
  /-- Make the current float the rounded current fraction. -/
  | round (format : Format) (mode : Mode) (insisting : Bool)
  | compare
  | raise
  | clear
  | renew

inductive Reply where
  | silent
  | direction (direction : Ordering)
  | order (order : Option Ordering)
  /-- Whether the context taken out equals a new one, and whether it equals itself. -/
  | contexts (likeNew likeItself : Bool)
  deriving DecidableEq

structure Entry where
  reply : Outcome Reply
  events : List Event
  after : Session

open Observed (read update)

/-- A conversion that works on the context of the session. -/
def onContext {α : Type} (action : Observed Context α) : Observed Session α :=
  ExceptT.mk fun (s, events) =>
    let (outcome, context, events) := action.runFrom (s.context, events)
    (outcome, { s with context }, events)

@[simp] theorem runFrom_onContext {α : Type} (action : Observed Context α) (s : Session)
    (events : List Event) :
    (onContext action).runFrom (s, events) =
      ((action.runFrom (s.context, events)).1,
        { s with context := (action.runFrom (s.context, events)).2.1 },
        (action.runFrom (s.context, events)).2.2) := rfl

def perform : Step → Observed Session Reply
  | .setFraction q => do
      update fun s => { s with fraction := q }
      return .silent
  | .setFloat source => do
      let f ← source.float
      update fun s => { s with float := f }
      return .silent
  | .negFraction => do
      update fun s => { s with fraction := s.fraction.neg }
      return .silent
  | .negFloat => do
      update fun s => { s with float := s.float.neg }
      return .silent
  | .reduce => do
      let q ← attempt (← read).fraction.canonical
      update fun s => { s with fraction := q }
      return .silent
  | .toFraction => do
      let q ← onContext (Observed.toFraction (← read).float)
      update fun s => { s with fraction := q }
      return .silent
  | .round format mode insisting => do
      let conversion := Observed.ofFraction format mode (← read).fraction
      let (f, direction) ← if insisting then conversion.insist else conversion
      update fun s => { s with float := f }
      return .direction direction
  | .compare => do
      let s ← read
      return .order (← attempt (s.float.compareFraction s.fraction))
  | .raise => do
      update fun s => { s with context := s.context.raise }
      return .silent
  | .clear => do
      update fun s => { s with context := s.context.clear }
      return .silent
  | .renew => do
      let fresh : Context := {}
      let s ← read
      update fun s => { s with context := fresh }
      return .contexts (s.context == fresh) (s.context == s.context)

def advance (s : Session) (step : Outcome Step) : Entry :=
  let result := (attempt step >>= perform).runFrom (s, [])
  ⟨result.1, result.2.2, result.2.1⟩

def run (s : Session) : List (Outcome Step) → List Entry
  | [] => []
  | step :: rest =>
      let entry := s.advance step
      entry :: run entry.after rest

end Session

end ExactFloat
