import ExactFloat.Magnitude.Basic

/-!
# Sums, differences and products of magnitudes

Words are combined from the lowest upwards. A sum gains a word when a carry leaves the highest one.
A difference that would be negative wraps modulo `2 ^ 64` to the number of words of the longer
operand and says so. A product is made row by row, each row being one word of the first operand
times the whole second operand.
-/

namespace ExactFloat.Magnitude

/-! ## Sums -/

/-- The words of a sum that has as many columns as the first operand, and a carry above them. -/
def addWords : (xs ys : List UInt64) → (carry : Bool) → List UInt64
  | [], _, carry => if carry then [1] else []
  | x :: xs, ys, carry =>
      let column := Word.addCarry x (ys.headD 0) carry
      column.1 :: addWords xs ys.tail column.2

def add (x y : Magnitude) : Magnitude :=
  ⟨addWords (x.extend y.size).words y.words false⟩

instance : Add Magnitude := ⟨add⟩

/-! ## Differences -/

/-- The words of a difference that has as many columns as the first operand, and whether a borrow
leaves the highest one. -/
def subWords : (xs ys : List UInt64) → (borrow : Bool) → List UInt64 × Bool
  | [], _, borrow => ([], borrow)
  | x :: xs, ys, borrow =>
      let column := Word.subBorrow x (ys.headD 0) borrow
      let rest := subWords xs ys.tail column.2
      (column.1 :: rest.1, rest.2)

def subBorrow (x y : Magnitude) : Magnitude × Bool :=
  let difference := subWords (x.extend y.size).words y.words false
  (trim ⟨difference.1⟩, difference.2)

instance : Sub Magnitude := ⟨fun x y => (x.subBorrow y).1⟩

/-! ## Products -/

/-- Add `x` times `ys` to the words written so far. The carry that leaves the row is written over
the word above it, which no earlier row has reached. -/
def addRow (x : UInt64) : (ys written : List UInt64) → (carry : Nat) → List UInt64
  | [], written, carry => Word.low carry :: written.tail
  | y :: ys, written, carry =>
      let column := Word.column (written.headD 0) x y carry
      Word.low column :: addRow x ys written.tail (Word.high column)

/-- One row for each word of `xs`, each one word higher than the row before it. -/
def addRows : (xs ys written : List UInt64) → List UInt64
  | [], _, written => written
  | x :: xs, ys, written =>
      let row := addRow x ys written 0
      row.headD 0 :: addRows xs ys row.tail

def mul (x y : Magnitude) : Magnitude :=
  trim ⟨addRows x.words y.words (List.replicate (x.size + y.size) 0)⟩

instance : Mul Magnitude := ⟨mul⟩

end ExactFloat.Magnitude
