/-!
# Numbers of a grading model

What the rules need of the numbers they work on.  Two kinds of number have an instance: `Float`,
which is what runs, and `Rat`, the exact arithmetic in which the rules for averages and orders
can be reasoned about.

Comparisons are Boolean and may fail both ways (`Float` has a value that is not a number), so `a
< b` and `b ≤ a` are separate tests and neither is derived from the other.
-/

namespace Grading

/-- The arithmetic, order and text that grading rules use. -/
class Number (α : Type) extends Add α, Sub α, Mul α, Div α, BEq α where
  /-- The number `n`. -/
  ofNat : Nat → α
  /-- The sum of no numbers, from which every sum starts. -/
  emptySum : α
  /-- Strict order. -/
  lt : α → α → Bool
  /-- Order. -/
  le : α → α → Bool
  /-- Neither infinite nor undefined. -/
  isFinite : α → Bool
  /-- The next whole number below. -/
  floor : α → α
  /-- The next whole number above. -/
  ceil : α → α
  /-- The text of a number in a message about a model. -/
  text : α → String
  /-- The text of a number as a grade: whole numbers without a fraction or a sign of zero. -/
  gradeText : α → String

namespace Number

variable {α : Type} [Number α]

def zero : α := ofNat 0

/-- The sum from left to right. -/
def sum (xs : List α) : α := xs.foldl (· + ·) emptySum

/-- The larger of two numbers; the second of two that compare alike, and the other one if one of
them is not a number. -/
def larger (a b : α) : α :=
  if lt b a then a else if b == b then b else a

/-- To the nearest whole number, halves upwards.  Adding a half first would itself round. -/
def roundHalfUp (x : α) : α :=
  let whole := floor x
  if le (ofNat 1 / ofNat 2) (x - whole) then whole + ofNat 1 else whole

end Number

end Grading
