import ExactFloat.Failure

/-!
# Actions on a state

An action reads and writes a state and may fail. What it wrote before it failed stays written, so
what a failure leaves behind depends on the order of the steps of an action.
-/

namespace ExactFloat

abbrev Action (σ α : Type) : Type :=
  ExceptT Failure (StateM σ) α

namespace Action

variable {σ α β : Type}

/-- The outcome from a state, and the state that is left behind. -/
def runFrom (action : Action σ α) (state : σ) : Outcome α × σ :=
  action.run.run state

/-- Go on with the result of a call that does not touch the state. -/
def attempt (outcome : Outcome α) : Action σ α :=
  ExceptT.mk (pure outcome)

def insist (action : Action σ α) : Action σ α :=
  ExceptT.mk do return ExactFloat.insist (← action.run)

/-! ## What the steps of an action do -/

@[simp] theorem runFrom_attempt (outcome : Outcome α) (state : σ) :
    (attempt outcome : Action σ α).runFrom state = (outcome, state) := rfl

@[simp] theorem runFrom_insist (action : Action σ α) (state : σ) :
    action.insist.runFrom state =
      (ExactFloat.insist (action.runFrom state).1, (action.runFrom state).2) := rfl

theorem runFrom_bind (action : Action σ α) (next : α → Action σ β) (state : σ) :
    (action >>= next).runFrom state =
      match action.runFrom state with
      | (.ok a, state') => (next a).runFrom state'
      | (.error failure, state') => (.error failure, state') := by
  change (ExceptT.bindCont next (action.runFrom state).1).run (action.runFrom state).2 = _
  rcases action.runFrom state with ⟨_ | _, _⟩ <;> rfl

end Action

end ExactFloat
