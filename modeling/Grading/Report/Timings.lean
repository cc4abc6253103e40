/-!
# Timings

How long the parts of a run took.  The clock is not part of this library: a report is made without
it, and what it says goes into the output at the end.
-/

namespace Grading

/-- A length of time in nanoseconds. -/
structure Duration where
  nanos : Nat
deriving DecidableEq

namespace Duration

/-- The digits of a number below `10 ^ places` behind a point, up to the last that is not zero. -/
def fraction : Nat → Nat → List Char
  | 0, _ => []
  | places + 1, rest =>
    let unit := Nat.pow 10 places
    if rest = 0 then [] else Nat.digitChar (rest / unit) :: fraction places (rest % unit)

/-- A duration in a unit of `10 ^ places` nanoseconds, exactly. -/
def inUnit (d : Duration) (places : Nat) (unit : String) : String :=
  let whole := Nat.repr (d.nanos / Nat.pow 10 places)
  match fraction places (d.nanos % Nat.pow 10 places) with
  | [] => whole ++ unit
  | digits => whole ++ String.ofList ('.' :: digits) ++ unit

/-- A duration in the largest unit that it fills. -/
def text (d : Duration) : String :=
  if Nat.pow 10 9 ≤ d.nanos then d.inUnit 9 "s"
  else if Nat.pow 10 6 ≤ d.nanos then d.inUnit 6 "ms"
  else if Nat.pow 10 3 ≤ d.nanos then d.inUnit 3 "µs"
  else d.inUnit 0 "ns"

end Duration

/-- What the clock says of a run with an evaluation. -/
structure Timings where
  validation : Duration
  evaluation : Duration
  total : Duration

end Grading
