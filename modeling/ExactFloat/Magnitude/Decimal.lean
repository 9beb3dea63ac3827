import ExactFloat.Magnitude.Division

/-!
# Decimal numerals of magnitudes

A number is cut into groups of nineteen decimal digits, the most that always fit in a word. The
highest group is written plainly and the others with leading zeros. Reading a numeral gives the
number back.
-/

namespace ExactFloat.Magnitude

/-- The number of digits of a group. -/
def groupDigits : Nat := 19

def groupLimit : UInt64 := 10000000000000000000

/-- The groups from the lowest upwards. Each step shortens the number, so that its bits bound the
steps. -/
def decimalGroups : (steps : Nat) → Magnitude → Outcome (List UInt64)
  | steps, x =>
      if x.isZero then .ok []
      else
        match steps with
        | 0 => breach .exhausted
        | steps + 1 => do
            let (rest, group) ← x.divMod (ofWord groupLimit)
            let digits ← group.toWord
            return digits :: (← decimalGroups steps rest)

/-- The digits of groups given from the highest downwards. -/
def digitsOfGroups : List UInt64 → List Char
  | [] => []
  | highest :: rest =>
      Nat.toDigits 10 highest.toNat ++
        rest.flatMap fun group => (Nat.toDigits 10 group.toNat).leftpad groupDigits '0'

def decimal (x : Magnitude) : Outcome String :=
  if x.isZero then .ok "0"
  else do
    let groups ← decimalGroups x.bitLength x
    return String.ofList (digitsOfGroups groups.reverse)

end ExactFloat.Magnitude
