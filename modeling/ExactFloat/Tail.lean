import ExactFloat.Magnitude.Arithmetic
import ExactFloat.Magnitude.Bits
import ExactFloat.Magnitude.Shift

/-!
# Tails

Cutting a number off at some unit leaves a tail, a part of one unit. All that rounding needs to
know about the tail is whether it is empty and how it compares with half a unit. Tails of bits, of
division remainders and of one after the other are classified exactly.
-/

namespace ExactFloat

inductive Tail where
  | empty
  | belowHalf
  | half
  | aboveHalf
  deriving DecidableEq

namespace Tail

def ofRemainder (part whole : Magnitude) : Tail :=
  if part.isZero then empty
  else
    match compare (part <<< 1) whole with
    | .lt => belowHalf
    | .eq => half
    | .gt => aboveHalf

/-- The tail that has the tail `lower` below its own last digit. -/
def join (upper lower : Tail) : Tail :=
  match upper, lower with
  | upper, empty => upper
  | empty, _ => belowHalf
  | half, _ => aboveHalf
  | upper, _ => upper

end Tail

/-- The tail that the lowest `bits` bits form. -/
def Magnitude.tailBelow (x : Magnitude) (bits : Nat) : Tail :=
  match x.lowestBit? with
  | none => .empty
  | some lowest =>
      if bits = 0 ∨ bits ≤ lowest then .empty
      else if x.testBit (bits - 1) then
        if lowest < bits - 1 then .aboveHalf else .half
      else .belowHalf

end ExactFloat
