import ExactFloat.Magnitude.Basic

/-!
# Shifts of magnitudes

A shift moves whole words first and then the bits inside the words. To the left it multiplies by a
power of two, to the right it divides by one and drops the remainder. Zero shifted to the left is
returned as it is stored.
-/

namespace ExactFloat.Magnitude

/-- Move the bits up by `bits`, for `0 < bits < 64`; a word takes in what left the word below. -/
def moveBitsUp (bits : Nat) : (incoming : UInt64) → List UInt64 → List UInt64
  | incoming, [] => [incoming]
  | incoming, word :: rest =>
      (word <<< UInt64.ofNat bits ||| incoming) ::
        moveBitsUp bits (word >>> UInt64.ofNat (64 - bits)) rest

/-- Move the bits down by `bits`, for `0 < bits < 64`; a word takes in what left the word above. -/
def moveBitsDown (bits : Nat) : List UInt64 → List UInt64
  | [] => []
  | word :: rest =>
      (word >>> UInt64.ofNat bits ||| rest.headD 0 <<< UInt64.ofNat (64 - bits)) ::
        moveBitsDown bits rest

def shiftLeft (x : Magnitude) (bits : Nat) : Magnitude :=
  if x.isZero then x
  else
    let moved := if bits % 64 = 0 then x.words else moveBitsUp (bits % 64) 0 x.words
    trim ⟨List.replicate (bits / 64) 0 ++ moved⟩

def shiftRight (x : Magnitude) (bits : Nat) : Magnitude :=
  if x.size ≤ bits / 64 then zero
  else
    let kept := x.words.drop (bits / 64)
    trim ⟨if bits % 64 = 0 then kept else moveBitsDown (bits % 64) kept⟩

instance : HShiftLeft Magnitude Nat Magnitude := ⟨shiftLeft⟩

instance : HShiftRight Magnitude Nat Magnitude := ⟨shiftRight⟩

end ExactFloat.Magnitude
