/-!
# Decimal digits

Runs of ASCII digits as natural numbers.
-/

namespace Grading.Digits

/-- An ASCII digit. -/
def isDigit (c : Char) : Bool := decide ('0' ≤ c) && decide (c ≤ '9')

/-- The value of a digit. -/
def value (c : Char) : Nat := c.toNat - '0'.toNat

/-- The number that a run of digits writes, leading zeros included. -/
def toNat (ds : List Char) : Nat := ds.foldl (fun n c => 10 * n + value c) 0

/-- The run of digits at the front, and what follows it. -/
def split (cs : List Char) : List Char × List Char :=
  (cs.takeWhile isDigit, cs.dropWhile isDigit)

/-- A decimal numeral of a 32-bit number: digits, leading zeros allowed, after at most one plus
sign. -/
def readUInt32? (cs : List Char) : Option UInt32 :=
  let ds := match cs with
    | '+' :: ds => ds
    | ds => ds
  if ds.isEmpty || !ds.all isDigit then none
  else if toNat ds < UInt32.size then some (UInt32.ofNat (toNat ds)) else none

end Grading.Digits
