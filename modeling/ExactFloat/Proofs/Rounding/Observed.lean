import ExactFloat.Conversion.Rounding
import ExactFloat.Proofs.Failure

/-!
# Conversions as plain calls

A rounding looks at no state and changes none. So it is a plain call, and what it reports belongs to
its outcome: one event for a normal float and none for a zero or a failure.
-/

namespace ExactFloat

open ExactFloat.Action

/-- What observers are told of a rounding with this outcome. -/
def Event.ofRounding : Outcome (BinaryFloat × Ordering) → List Event
  | .ok (f, direction) =>
      if f.isNormal then [.rounded f.format.precision f.exponent direction] else []
  | .error _ => []

theorem Event.ofRounding_insist (outcome : Outcome (BinaryFloat × Ordering)) :
    ofRounding (insist outcome) = ofRounding outcome := by
  rcases outcome with ⟨_ | _⟩ | _ <;> rfl

namespace Observed

section

variable {σ α β : Type}

/-- From every state the action ends with the outcome, tells the events and leaves the state
alone. -/
def Gives (action : Observed σ α) (outcome : Outcome α) (told : List Event) : Prop :=
  ∀ state events, action.runFrom (state, events) = (outcome, state, events ++ told)

theorem gives_attempt (call : Outcome α) : Gives (attempt call : Observed σ α) call [] :=
  fun state events => congrArg (fun events => (call, state, events)) (List.append_nil events).symm

theorem gives_report (event : Event) (a : α) :
    Gives (do report event; return a : Observed σ α) (.ok a) [event] :=
  fun _ _ => rfl

theorem Gives.outcome_eq {action : Observed Unit α} {outcome : Outcome α} {told : List Event}
    (gives : Gives action outcome told) : action.outcome = outcome := by
  rw [Observed.outcome, gives]

theorem Gives.insist {action : Observed σ α} {outcome : Outcome α} {told : List Event}
    (gives : Gives action outcome told) :
    Gives action.insist (ExactFloat.insist outcome) told := by
  intro state events
  rw [runFrom_insist, gives]

theorem Gives.map {action : Observed σ α} {outcome : Outcome α} {told : List Event}
    (gives : Gives action outcome told) (f : α → β) :
    Gives (do return f (← action)) (outcome.map f) told := by
  intro state events
  rw [runFrom_bind, gives]
  cases outcome <;> rfl

/-- A rounding that fails before its last step was not reported. -/
theorem gives_bind {call : Outcome α} {next : α → Observed σ (BinaryFloat × Ordering)}
    {f : α → Outcome (BinaryFloat × Ordering)}
    (gives : ∀ a, Gives (next a) (f a) (Event.ofRounding (f a))) :
    Gives (attempt call >>= next) (call >>= f) (Event.ofRounding (call >>= f)) := by
  intro state events
  rw [runFrom_bind, runFrom_attempt]
  cases call with
  | error failure => exact gives_attempt (.error failure) state events
  | ok a => exact gives a state events

end

section

variable {σ : Type} (format : Format)

theorem ofFraction_gives_steps (mode : Mode) (q : Fraction) :
    let steps : Outcome (BinaryFloat × Ordering) := do
      format.validate
      let q ← q.canonical
      if q.isZero then return (.zero format false, .eq)
      let rounded ← Rounded.ofFraction format mode q
      format.admitExponent rounded.exponent
      ensure (rounded.significand.bitLength == format.precision) .unnormalized
      return (⟨format, q.isNegative, rounded.exponent, rounded.significand, .normal⟩,
        rounded.direction)
    Gives (ofFraction format mode q : Observed σ _) steps (Event.ofRounding steps) := by
  refine gives_bind fun _ => gives_bind fun q => ?_
  split
  · exact gives_attempt _
  · exact gives_bind fun _ => gives_bind fun _ => gives_bind fun _ => gives_report _ _

theorem ofFraction_gives (mode : Mode) (q : Fraction) :
    Gives (ofFraction format mode q : Observed σ _) (BinaryFloat.ofFraction format mode q)
      (Event.ofRounding (BinaryFloat.ofFraction format mode q)) := by
  rw [BinaryFloat.ofFraction, (ofFraction_gives_steps format mode q).outcome_eq]
  exact ofFraction_gives_steps format mode q

theorem insist_ofFraction_gives (mode : Mode) (q : Fraction) :
    Gives (ofFraction format mode q : Observed σ _).insist
      (ExactFloat.insist (BinaryFloat.ofFraction format mode q))
      (Event.ofRounding (ExactFloat.insist (BinaryFloat.ofFraction format mode q))) := by
  rw [Event.ofRounding_insist]
  exact (ofFraction_gives format mode q).insist

theorem ofMagnitude_gives_steps (negative : Bool) (value : Magnitude) :
    let steps : Outcome (BinaryFloat × Ordering) := do
      let q ← Fraction.ofMagnitude negative value
      insist (BinaryFloat.ofFraction format format.mode q)
    Gives (ofMagnitude format negative value : Observed σ _) steps (Event.ofRounding steps) :=
  gives_bind fun q => insist_ofFraction_gives format format.mode q

theorem ofMagnitude_gives (negative : Bool) (value : Magnitude) :
    Gives (ofMagnitude format negative value : Observed σ _)
      (BinaryFloat.ofMagnitude format negative value)
      (Event.ofRounding (BinaryFloat.ofMagnitude format negative value)) := by
  rw [BinaryFloat.ofMagnitude, (ofMagnitude_gives_steps format negative value).outcome_eq]
  exact ofMagnitude_gives_steps format negative value

end

end Observed

end ExactFloat
