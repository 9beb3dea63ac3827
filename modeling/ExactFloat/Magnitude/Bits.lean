import ExactFloat.Magnitude.Basic

/-!
# The bits of magnitudes

Bits are counted from the lowest one, which is bit 0. A bit above the stored words is zero, and
setting it first makes room for it. The lowest set bit, the length up to the highest one and the
powers of two are read off the words.
-/

namespace ExactFloat.Magnitude

/-! ## Single bits -/

def testBit (x : Magnitude) (bit : Nat) : Bool :=
  match x.words[bit / 64]? with
  | some w => w.toNat.testBit (bit % 64)
  | none => false

def flipBit (x : Magnitude) (bit : Nat) : Magnitude :=
  let roomy := x.extend (bit / 64 + 1)
  trim ⟨roomy.words.modify (bit / 64) (· ^^^ 1 <<< UInt64.ofNat (bit % 64))⟩

def oneHot (bit : Nat) : Magnitude :=
  zero.flipBit bit

/-! ## The lowest bits -/

/-- Clear every bit from position `bits` on. -/
def maskWords : (bits : Nat) → List UInt64 → List UInt64
  | _, [] => []
  | bits, word :: rest =>
      if 64 ≤ bits then word :: maskWords (bits - 64) rest
      else (word &&& (1 <<< UInt64.ofNat bits) - 1) :: maskWords 0 rest

def mask (x : Magnitude) (bits : Nat) : Magnitude :=
  trim ⟨maskWords bits x.words⟩

/-! ## Lowest and highest set bit -/

def bitLengthOfWords : List UInt64 → Nat
  | [] => 0
  | word :: rest =>
      match bitLengthOfWords rest with
      | 0 => Word.bitLength word
      | bits => 64 + bits

def bitLength (x : Magnitude) : Nat :=
  bitLengthOfWords x.words

def lowestBitOfWords : List UInt64 → Option Nat
  | [] => none
  | word :: rest =>
      if word = 0 then (lowestBitOfWords rest).map (64 + ·) else some (Word.trailingZeros word)

def lowestBit? (x : Magnitude) : Option Nat :=
  lowestBitOfWords x.words

/-- The number of zero bits below the lowest set one. Zero must not be asked. -/
def trailingZeros (x : Magnitude) : Outcome Nat :=
  match x.lowestBit? with
  | some bit => .ok bit
  | none => breach .noSetBit

/-- Whether exactly one bit is set, so that the lowest and the highest set bit are the same. -/
def isPowerOfTwo (x : Magnitude) : Bool :=
  match x.lowestBit? with
  | some bit => x.bitLength == bit + 1
  | none => false

end ExactFloat.Magnitude
