import ExactFloat.Magnitude.Basic

/-!
# Pseudorandom magnitudes

A linear feedback shift register of 32 bits. Each step moves the register up by one bit and feeds
back the complement of the parity of bits 24, 23, 22 and 17 at the bottom, so nothing above bit 24
has any effect. The bits fed back are the output, the earliest one highest.
-/

namespace ExactFloat.ShiftRegister

/-- The state that the seed zero starts from. -/
def origin : UInt32 := 0x13371337

def step (state : UInt32) : UInt32 :=
  let feedback := state >>> 24 ^^^ state >>> 23 ^^^ state >>> 22 ^^^ state >>> 17 ^^^ 1
  state <<< 1 ||| (feedback &&& 1)

/-- Append the bits of `count` steps to `gathered`; the state after them comes second. -/
def gather : (count : Nat) → (state gathered : UInt32) → UInt32 × UInt32
  | 0, state, gathered => (gathered, state)
  | count + 1, state, gathered =>
      let next := step state
      gather count next (gathered <<< 1 ^^^ (next &&& 1))

/-- The word formed by the next 64 bits, and the state after them. -/
def nextWord (state : UInt32) : UInt64 × UInt32 :=
  let upper := gather 32 state 0
  let lower := gather 32 upper.2 0
  (upper.1.toUInt64 <<< 32 ||| lower.1.toUInt64, lower.2)

def words : (count : Nat) → (state : UInt32) → List UInt64
  | 0, _ => []
  | count + 1, state =>
      let next := nextWord state
      next.1 :: words count next.2

end ExactFloat.ShiftRegister

namespace ExactFloat.Magnitude

/-- The number with the first `count` words that a seed generates. -/
def pseudorandom (count : Nat) (seed : UInt32) : Magnitude :=
  ofFirstWords count (ShiftRegister.words count (ShiftRegister.origin ^^^ seed))

end ExactFloat.Magnitude
