import Grading.Decimal.Digits

/-!
# Decimal literals as doubles

A literal is a sign, digits, perhaps a fraction and perhaps an exponent.  Its double is found in
one scaling step: the leading digits that fit 64 bits are read as a whole number, rounded to a
double, and multiplied or divided by a power of ten.  Digits beyond those only move the point.
A result above the largest double is no number at all; one below the least is zero.
-/

namespace Grading

/-- A number as written in a text. -/
structure Literal where
  negative : Bool
  whole : List Char
  fraction : List Char
  exponent : Int

namespace Literal

/-- Appends digits to a significand while it fits 64 bits; returns the digits left over. -/
def accumulate : Nat → List Char → Nat × List Char
  | n, [] => (n, [])
  | n, c :: cs =>
    if 10 * n + Digits.value c < UInt64.size then accumulate (10 * n + Digits.value c) cs
    else (n, c :: cs)

/-- The significand and the power of ten that goes with it. -/
def scientific (l : Literal) : Nat × Int :=
  let (n, dropped) := accumulate 0 l.whole
  let (n, ignored) := accumulate n l.fraction
  (n, l.exponent + dropped.length - (l.fraction.length - ignored.length : Nat))

/-- The double nearest to a power of ten. -/
def powerOfTen (n : Nat) : Float := Float.ofScientific 1 false n

/-- Divides by a power of ten, in steps that a double can hold. -/
def scaleDown : Nat → Float → Nat → Float
  | 0, x, _ => x
  | steps + 1, x, n =>
    if n ≤ 308 then x / powerOfTen n
    else scaleDown steps (x / powerOfTen 308) (n - 308)

/-- Multiplies by a power of ten; none when the result is too large. -/
def scaleUp? (x : Float) (n : Nat) : Option Float :=
  if n ≤ 308 then
    let y := x * powerOfTen n
    if y.isFinite then some y else none
  else if x == 0 then some x else none

/-- The double that the literal writes; none when it is too large for a double. -/
def toFloat? (l : Literal) : Option Float :=
  let (significand, exponent) := l.scientific
  let x := Float.ofNat significand
  let size := if 0 ≤ exponent then scaleUp? x exponent.toNat
    -- three steps take every significand to zero
    else some (scaleDown 3 x (-exponent).toNat)
  size.map fun x => if l.negative then -x else x

end Literal

end Grading
