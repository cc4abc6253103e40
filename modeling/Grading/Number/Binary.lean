/-!
# Doubles as binary numbers

A finite double is `± mantissa · 2 ^ exponent`.  Everything that looks into a double (its whole
part, its text) starts from this form, which is read off its 64 bits.
-/

namespace Grading

/-- The number `± mantissa · 2 ^ exponent`. -/
structure Binary where
  negative : Bool
  mantissa : Nat
  exponent : Int
deriving DecidableEq

/-- The number `2 ^ n`. -/
abbrev powerOfTwo (n : Nat) : Nat := Nat.pow 2 n

namespace Binary

/-- The number a finite double stands for; none for an infinity or an undefined value. -/
def ofFloat? (x : Float) : Option Binary :=
  let bits := x.toBits.toNat
  let biased : Nat := bits / powerOfTwo 52 % powerOfTwo 11
  let fraction : Nat := bits % powerOfTwo 52
  let negative := decide (powerOfTwo 63 ≤ bits)
  if biased = powerOfTwo 11 - 1 then none
  else if biased = 0 then some ⟨negative, fraction, -1074⟩
  else some ⟨negative, powerOfTwo 52 + fraction, (biased : Int) - 1075⟩

/-- The mantissa with its sign. -/
def signed (b : Binary) : Int :=
  if b.negative then -(b.mantissa : Int) else b.mantissa

/-- Where the exponent is negative, the power of two below the mantissa; else one. -/
def denominator (b : Binary) : Nat := powerOfTwo (-b.exponent).toNat

/-- The largest whole number that is not above. -/
def floor (b : Binary) : Int :=
  b.signed * (powerOfTwo b.exponent.toNat : Int) / (b.denominator : Int)

/-- The number itself, when it is whole. -/
def whole? (b : Binary) : Option Int :=
  if b.mantissa % b.denominator = 0 then some b.floor else none

end Binary

end Grading
