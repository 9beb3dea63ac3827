import ExactFloat.Magnitude.Arithmetic
import ExactFloat.Magnitude.Bits
import ExactFloat.Magnitude.Shift

/-!
# The greatest common divisor of magnitudes

The binary method: common factors of two are set aside, and of two odd numbers the smaller one is
subtracted from the larger one, whose factors of two are then dropped. Each round shortens one of
the two numbers by a bit, so the bits of both together bound the rounds.
-/

namespace ExactFloat.Magnitude

/-- The greatest common divisor of an odd number and a nonzero one, up to powers of two. -/
def gcdOdd : (rounds : Nat) → (odd other : Magnitude) → Outcome Magnitude
  | 0, _, _ => breach .exhausted
  | rounds + 1, odd, other => do
      let reduced := other >>> (← other.trailingZeros)
      let (smaller, larger) := if odd > reduced then (reduced, odd) else (odd, reduced)
      let difference := larger.subBorrow smaller
      ensure (!difference.2) .borrow
      if difference.1.isZero then return smaller
      gcdOdd rounds smaller difference.1

/-- The greatest common divisor; zero and a number have that number. -/
def gcd (x y : Magnitude) : Outcome Magnitude :=
  if x.isZero then .ok y
  else if y.isZero then .ok x
  else do
    let xZeros ← x.trailingZeros
    let yZeros ← y.trailingZeros
    let odd ← gcdOdd (x.bitLength + y.bitLength) (x >>> xZeros) y
    return odd <<< min xZeros yZeros

end ExactFloat.Magnitude
