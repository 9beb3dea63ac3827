/-!
# Words

The steps on single 64-bit words from which the arithmetic on magnitudes is made. Each returns the
word it writes together with what it hands on to the next higher word.
-/

namespace ExactFloat.Word

def radix : Nat := 0x10000000000000000

/-- One column of a sum. A carry leaves it if either of its two additions wraps. -/
def addCarry (x y : UInt64) (carry : Bool) : UInt64 × Bool :=
  let bare := x + y
  let sum := bare + carry.toUInt64
  (sum, decide (bare < x) || decide (sum < bare))

/-- One column of a difference. A borrow leaves it if either of its two subtractions wraps. -/
def subBorrow (x y : UInt64) (borrow : Bool) : UInt64 × Bool :=
  let bare := x - y
  let difference := bare - borrow.toUInt64
  (difference, decide (x < y) || decide (bare < borrow.toUInt64))

/-- What one column of a product adds up to, before it is split into a word and a carry. -/
def column (written x y : UInt64) (carry : Nat) : Nat :=
  written.toNat + x.toNat * y.toNat + carry

def low (n : Nat) : UInt64 :=
  UInt64.ofNat n

def high (n : Nat) : Nat :=
  n >>> 64

def bitLength (x : UInt64) : Nat :=
  if x = 0 then 0 else x.toNat.log2 + 1

/-- The zero bits of `n` below its lowest set bit, at most `width` of them. -/
def lowZeros : (width n : Nat) → Nat
  | 0, _ => 0
  | width + 1, n => if n % 2 = 1 then 0 else lowZeros width (n / 2) + 1

/-- The position of the lowest set bit, 64 if there is none. -/
def trailingZeros (x : UInt64) : Nat :=
  lowZeros 64 x.toNat

end ExactFloat.Word
