import ExactFloat.Tail

/-!
# Rounding modes

The six directions in which a value between two neighbours can be rounded. A mode decides on the
magnitude cut off at the precision: it keeps the magnitude or goes to the next one away from zero.
-/

namespace ExactFloat

inductive Mode where
  | nearestEven
  | nearestAway
  | towardZero
  | upward
  | downward
  | awayFromZero
  deriving DecidableEq

namespace Mode

def all : List Mode :=
  [nearestEven, nearestAway, towardZero, upward, downward, awayFromZero]

def name : Mode → String
  | nearestEven => "NearestTiesToEven"
  | nearestAway => "NearestTiesToAway"
  | towardZero => "Zero"
  | upward => "Positive"
  | downward => "Negative"
  | awayFromZero => "Away"

def ofName? (text : String) : Option Mode :=
  all.find? (·.name == text)

/-- Whether a magnitude that lost a tail goes to the next one away from zero. -/
def goesAway (mode : Mode) (negative : Bool) (tail : Tail) (lastBitSet : Bool) : Bool :=
  match tail with
  | .empty => false
  | .belowHalf | .half | .aboveHalf =>
      match mode with
      | nearestEven => tail == .aboveHalf || (tail == .half && lastBitSet)
      | nearestAway => tail == .aboveHalf || tail == .half
      | towardZero => false
      | upward => !negative
      | downward => negative
      | awayFromZero => true

end Mode

end ExactFloat
