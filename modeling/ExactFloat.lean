import ExactFloat.Describe
import ExactFloat.Gateway
import ExactFloat.Magnitude.Program
import ExactFloat.Proofs.Construction
import ExactFloat.Proofs.Equality
import ExactFloat.Proofs.Fraction
import ExactFloat.Proofs.Gateway
import ExactFloat.Proofs.LowestTerms
import ExactFloat.Proofs.Magnitude.Arithmetic
import ExactFloat.Proofs.Magnitude.Bits
import ExactFloat.Proofs.Magnitude.Decimal
import ExactFloat.Proofs.Magnitude.Division
import ExactFloat.Proofs.Magnitude.Gcd
import ExactFloat.Proofs.Magnitude.Kept
import ExactFloat.Proofs.Magnitude.Minimal
import ExactFloat.Proofs.Magnitude.Padding
import ExactFloat.Proofs.Magnitude.Places
import ExactFloat.Proofs.Magnitude.Shift
import ExactFloat.Proofs.Magnitude.Storage
import ExactFloat.Proofs.RoundTrip
import ExactFloat.Proofs.Rounding.Conversion
import ExactFloat.Proofs.Rounding.Correct
import ExactFloat.Proofs.Rounding.Cut
import ExactFloat.Proofs.Rounding.Directed
import ExactFloat.Proofs.Rounding.Direction
import ExactFloat.Proofs.Rounding.Exactness
import ExactFloat.Proofs.Rounding.Grid
import ExactFloat.Proofs.Rounding.Invariance
import ExactFloat.Proofs.Rounding.Length
import ExactFloat.Proofs.Rounding.Observed
import ExactFloat.Proofs.Rounding.PowerOfTwo
import ExactFloat.Proofs.Rounding.Range
import ExactFloat.Proofs.Rounding.Safety
import ExactFloat.Proofs.Rounding.Scaling
import ExactFloat.Proofs.Rounding.Symmetry
import ExactFloat.Proofs.Session
import ExactFloat.Proofs.ShiftRegister
import ExactFloat.Proofs.Tail
import ExactFloat.Proofs.Text
import ExactFloat.Proofs.ToFraction
import ExactFloat.Proofs.Value
import ExactFloat.Session
import ExactFloat.ShiftRegister
