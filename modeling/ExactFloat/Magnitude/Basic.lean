import ExactFloat.Failure
import ExactFloat.Word

/-!
# Magnitudes

A magnitude is a natural number of any size, held as words of 64 bits with the least significant
first. The view `toNat` is the number; statements about arithmetic are about this view. Zero words
on top do not change the number: `extend` puts them there, `trim` takes them away. So `==` and the
order compare numbers, while `=` compares the stored words.
-/

namespace ExactFloat

structure Magnitude where
  words : List UInt64
  deriving DecidableEq

namespace Magnitude

def natOfWords : List UInt64 → Nat
  | [] => 0
  | word :: rest => word.toNat + Word.radix * natOfWords rest

def toNat (x : Magnitude) : Nat :=
  natOfWords x.words

/-! ## Stored words -/

def dropHighZeros : List UInt64 → List UInt64
  | [] => []
  | word :: rest =>
      match dropHighZeros rest with
      | [] => if word = 0 then [] else [word]
      | kept => word :: kept

/-- Take away the zero words on top, down to the lowest word, which stays if there is one. -/
def trim (x : Magnitude) : Magnitude :=
  match x.words with
  | [] => x
  | lowest :: rest => ⟨lowest :: dropHighZeros rest⟩

def extend (x : Magnitude) (size : Nat) : Magnitude :=
  ⟨x.words ++ List.replicate (size - x.words.length) 0⟩

def size (x : Magnitude) : Nat :=
  x.words.length

/-- No zero word on top, except for zero itself, which is a single zero word. -/
def Minimal (x : Magnitude) : Prop :=
  x.words.length = 1 ∨ (x.words ≠ [] ∧ x.words.getLast? ≠ some 0)

instance (x : Magnitude) : Decidable x.Minimal :=
  inferInstanceAs (Decidable (_ ∨ _))

def word (x : Magnitude) (index : Nat) : Outcome UInt64 :=
  match x.words[index]? with
  | some w => .ok w
  | none => breach .outOfRange

/-! ## Construction -/

def ofWord (w : UInt64) : Magnitude :=
  ⟨[w]⟩

def ofAbs (value : Int64) : Magnitude :=
  ofWord (UInt64.ofNat value.toInt.natAbs)

def zero : Magnitude :=
  ofWord 0

def one : Magnitude :=
  ofWord 1

instance : Inhabited Magnitude := ⟨zero⟩

/-- The number with these words, without zero words on top. No words at all make a zero. -/
def ofWords (words : List UInt64) : Magnitude :=
  trim ⟨if words.isEmpty then [0] else words⟩

def ofFirstWords (count : Nat) (words : List UInt64) : Magnitude :=
  ofWords (words.take count)

def ofDoubleWord (n : BitVec 128) : Magnitude :=
  ofWords [Word.low n.toNat, Word.low (Word.high n.toNat)]

/-! ## Queries -/

def isZero (x : Magnitude) : Bool :=
  x.words.all (· == 0)

/-- No word is stored at all. No operation leaves such a number. -/
def isEmpty (x : Magnitude) : Bool :=
  x.words.isEmpty

def isEven (x : Magnitude) : Outcome Bool := do
  return (← x.word 0) &&& 1 == 0

def isOdd (x : Magnitude) : Outcome Bool := do
  return !(← x.isEven)

def toWord (x : Magnitude) : Outcome UInt64 :=
  match x.words with
  | [] => breach .outOfRange
  | lowest :: rest => do
      ensure (rest.all (· == 0)) .exceedsWord
      return lowest

/-! ## Order -/

/-- The order of the numbers that words stand for; missing words count as zero. -/
def compareWords : (xs ys : List UInt64) → Ordering
  | [], ys => if ys.all (· == 0) then .eq else .lt
  | x :: xs, ys => (compareWords xs ys.tail).then (compare x (ys.headD 0))

instance : Ord Magnitude := ⟨fun x y => compareWords x.words y.words⟩

instance : LT Magnitude := ltOfOrd

instance : LE Magnitude := leOfOrd

instance : BEq Magnitude := ⟨fun x y => compare x y == .eq⟩

instance : DecidableLT Magnitude := fun x y => inferInstanceAs (Decidable (compare x y = .lt))

instance : DecidableLE Magnitude :=
  fun x y => inferInstanceAs (Decidable ((compare x y).isLE = true))

end Magnitude

end ExactFloat
