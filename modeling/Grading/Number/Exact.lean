import Grading.Number.Basic

/-!
# Exact numbers of a model

Rational numbers, in which averages are true means and sums can be taken in any order.
-/

namespace Grading

/-- A fraction is written with its two parts, a whole number alone. -/
def ratText (x : Rat) : String :=
  if x.den = 1 then toString x.num else toString x.num ++ "/" ++ toString x.den

instance : Number Rat where
  ofNat n := (n : Rat)
  emptySum := 0
  lt a b := decide (a < b)
  le a b := decide (a ≤ b)
  isFinite _ := true
  floor x := (x.floor : Rat)
  ceil x := (x.ceil : Rat)
  text := ratText
  gradeText := ratText

end Grading
