import ExactFloat.Action
import ExactFloat.BinaryFloat.Basic

/-!
# Events

Conversions report to observers: one event for each fraction other than zero that was rounded to a
float, and one for each float without a value that was asked for its fraction. A conversion is an
action on the state that it works on and on the events so far.
-/

namespace ExactFloat

inductive Event where
  /-- A fraction was rounded to a float of this precision and exponent. -/
  | rounded (precision : Nat) (exponent : Int) (direction : Ordering)
  /-- A float of this category and sign has no rational value. -/
  | noValue (category : Category) (negative : Bool)
  deriving DecidableEq

namespace Event

def level : Event → String
  | rounded .. => "TRACE"
  | noValue .. => "DEBUG"

def message : Event → String
  | rounded .. => "converted a rational to a float"
  | noValue .. => "no rational value, raising the range-error flag"

/-- The direction of a rounding as a number: -1, 0 or 1. -/
def ternary : Ordering → Int
  | .lt => -1
  | .eq => 0
  | .gt => 1

def fields : Event → List (String × String)
  | rounded precision exponent direction =>
      [("precision", toString precision), ("exp", toString exponent),
        ("ternary", toString (ternary direction))]
  | noValue category negative => [("category", category.name), ("negative", toString negative)]

end Event

/-- An action on a state that reports to observers on the way. -/
abbrev Observed (σ α : Type) : Type :=
  Action (σ × List Event) α

namespace Observed

variable {σ : Type}

def report (event : Event) : Observed σ Unit :=
  modify fun (state, events) => (state, events ++ [event])

def read : Observed σ σ := do
  return (← get).1

def update (change : σ → σ) : Observed σ Unit :=
  modify fun (state, events) => (change state, events)

@[simp] theorem runFrom_read (state : σ) (events : List Event) :
    (read : Observed σ σ).runFrom (state, events) = (.ok state, state, events) := rfl

end Observed

end ExactFloat
