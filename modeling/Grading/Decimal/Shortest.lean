import Grading.Number.Binary

/-!
# The shortest decimal of a double

A positive double is printed with the fewest decimal digits that read back as it.  The decimals
that read back are those in the interval half way to its two neighbours, ends included when the
mantissa is even (a reader rounds halves to even mantissas).

`shortest` goes from coarse powers of ten to fine ones.  On each grid only the two neighbours of
the value can lie in the interval, because the value does; the first grid with a hit wins, of
two hits the nearer one, and of two equally near ones the upper.
-/

namespace Grading

/-- The number `digits · 10 ^ exponent`. -/
structure Decimal where
  digits : Nat
  exponent : Int
deriving DecidableEq

namespace Decimal

/-! ## The interval of a double -/

/-- A positive number `value` with the ends of the interval that reads back as it, all three
over `scale`; `closed` tells whether the ends read back too. -/
structure Span where
  low : Nat
  value : Nat
  high : Nat
  scale : Nat
  closed : Bool

/-- The interval of `mantissa · 2 ^ exponent`.  Below a power of two the neighbour is only half
as far away, unless the exponent is already the least. -/
def Span.ofBinary (b : Binary) : Span :=
  let unit := powerOfTwo (b.exponent - 2).toNat
  let below := if b.mantissa = powerOfTwo 52 && decide (-1074 < b.exponent) then 1 else 2
  { low := (4 * b.mantissa - below) * unit
    value := 4 * b.mantissa * unit
    high := (4 * b.mantissa + 2) * unit
    scale := powerOfTwo (2 - b.exponent).toNat
    closed := b.mantissa % 2 == 0 }

/-- Does `n / scale` read back? -/
def Span.contains (s : Span) (n : Nat) : Bool :=
  if s.closed then s.low ≤ n && n ≤ s.high else s.low < n && n < s.high

/-- The same interval measured in units of `10 ^ exponent`. -/
def Span.inUnits (s : Span) (exponent : Int) : Span :=
  let up := Nat.pow 10 (-exponent).toNat
  { s with
    low := s.low * up
    value := s.value * up
    high := s.high * up
    scale := s.scale * Nat.pow 10 exponent.toNat }

/-! ## The search -/

/-- The whole number of units nearest to the value among those that read back. -/
def Span.nearest? (s : Span) : Option Nat :=
  let below := s.value / s.scale
  let rest := s.value % s.scale
  match s.contains (below * s.scale), s.contains ((below + 1) * s.scale) with
  | true, true => some (if 2 * rest < s.scale then below else below + 1)
  | true, false => some below
  | false, true => some (below + 1)
  | false, false => none

/-- Tries `10 ^ exponent` and then finer grids, `tries` of them. -/
def search (s : Span) : Nat → Int → Option Decimal
  | 0, _ => none
  | tries + 1, exponent =>
    match (s.inUnits exponent).nearest? with
    | some digits => some ⟨digits, exponent⟩
    | none => search s tries (exponent - 1)

/-- The number of decimal digits. -/
def width (n : Nat) : Nat := (Nat.repr n).length

/-- The number with all its digits. -/
def exact (b : Binary) : Decimal :=
  if b.exponent < 0 then ⟨b.mantissa * Nat.pow 5 (-b.exponent).toNat, b.exponent⟩
  else ⟨b.mantissa * powerOfTwo b.exponent.toNat, 0⟩

/-- The decimal of fewest digits that reads back as a positive number, the nearest of those. -/
def shortest (b : Binary) : Decimal :=
  let s := Span.ofBinary b
  -- the value lies below this power of ten
  let top : Int := width s.value - width s.scale + 1
  (search s 40 top).getD (exact b)

/-! ## Text -/

/-- Positional text: all digits, a point where a fraction begins, never an exponent. -/
def text (d : Decimal) : String :=
  let digits := (Nat.repr d.digits).toList
  let places := (-d.exponent).toNat
  let zeros := List.replicate d.exponent.toNat '0'
  if places = 0 then
    String.ofList (digits ++ zeros)
  else if places < digits.length then
    let whole := digits.length - places
    String.ofList (digits.take whole ++ '.' :: digits.drop whole)
  else
    String.ofList ('0' :: '.' :: List.replicate (places - digits.length) '0' ++ digits)

end Decimal

end Grading
