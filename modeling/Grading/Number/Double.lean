import Grading.Number.Basic
import Grading.Decimal.Shortest

/-!
# Doubles as numbers of a model

The instance that runs.  Sums start from the negative zero, the only double that leaves every
other one unchanged when added to it.  Rounding goes through the binary form, so that zeros keep
their sign: nothing is rounded to a zero of the wrong sign.
-/

namespace Grading

namespace Double

/-! ## Rounding -/

/-- Doubles without a fraction, infinities and undefined values are their own floor. -/
def floor (x : Float) : Float :=
  match Binary.ofFloat? x with
  | none => x
  | some b => if b.whole?.isSome then x else Float.ofInt b.floor

/-- The floor seen from the other side, which turns `-0.5` into the negative zero. -/
def ceil (x : Float) : Float := -floor (-x)

/-! ## Text -/

/-- The shortest text that reads back, with a sign on negative zero. -/
def text (x : Float) : String :=
  match Binary.ofFloat? x with
  | none => if x.isNaN then "NaN" else if x < 0 then "-inf" else "inf"
  | some b =>
    let size := if b.mantissa = 0 then "0" else (Decimal.shortest b).text
    if b.negative then "-" ++ size else size

/-- Whole numbers of magnitude below `2 ^ 63` as integers, all others as `text`. -/
def gradeText (x : Float) : String :=
  match (Binary.ofFloat? x).bind Binary.whole? with
  | some n => if n.natAbs < powerOfTwo 63 then toString n else text x
  | none => text x

end Double

instance : Number Float where
  ofNat := Float.ofNat
  emptySum := Float.ofBits 0x8000000000000000
  lt a b := decide (a < b)
  le a b := decide (a ≤ b)
  isFinite := Float.isFinite
  floor := Double.floor
  ceil := Double.ceil
  text := Double.text
  gradeText := Double.gradeText

end Grading
