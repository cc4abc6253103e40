import Grading.Json.Basic
import Grading.Decimal.Literal

/-!
# Reading JSON texts

The grammar of JSON and nothing else: no comments, no byte order mark, nothing after the value.
Nesting is not bounded here.

Strings are read character by character with the first half of a surrogate pair held back until
its second half follows.  Values are read with a fuel of two steps per character, which a text
cannot use up because every second step consumes one.
-/

namespace Grading.Json

/-- The four blank characters of JSON. -/
def isBlank (c : Char) : Bool := c = ' ' || c = '\t' || c = '\n' || c = '\r'

def skipBlanks (cs : List Char) : List Char := cs.dropWhile isBlank

/-! ## Strings -/

/-- A hexadecimal digit. -/
def hexDigit? (c : Char) : Option Nat :=
  if '0' ≤ c && c ≤ '9' then some (c.toNat - '0'.toNat)
  else if 'a' ≤ c && c ≤ 'f' then some (c.toNat - 'a'.toNat + 10)
  else if 'A' ≤ c && c ≤ 'F' then some (c.toNat - 'A'.toNat + 10)
  else none

/-- Four hexadecimal digits. -/
def hexUnit? (a b c d : Char) : Option Nat := do
  let a ← hexDigit? a
  let b ← hexDigit? b
  let c ← hexDigit? c
  return ((a * 16 + b) * 16 + c) * 16 + (← hexDigit? d)

/-- What one letter after a backslash stands for. -/
def escape? (c : Char) : Option Char :=
  match c with
  | '"' => some '"'
  | '\\' => some '\\'
  | '/' => some '/'
  | 'b' => some '\x08'
  | 'f' => some '\x0c'
  | 'n' => some '\n'
  | 'r' => some '\r'
  | 't' => some '\t'
  | _ => none

/-- A string read so far. -/
structure Scan where
  /-- The characters, last one first. -/
  chars : List Char := []
  /-- The first half of a surrogate pair, if it was the last thing read. -/
  half : Option Nat := none
  escaped : Bool := false
  /-- A half of a surrogate pair stood alone. -/
  broken : Bool := false

/-- Adds a character. -/
def Scan.push (s : Scan) (c : Char) : Scan :=
  { s with chars := c :: s.chars, half := none, broken := s.broken || s.half.isSome }

/-- Adds a 16-bit unit, which may be half of a character. -/
def Scan.pushUnit (s : Scan) (unit : Nat) : Scan :=
  if 0xD800 ≤ unit && unit < 0xDC00 then
    { s with half := some unit, broken := s.broken || s.half.isSome }
  else if 0xDC00 ≤ unit && unit < 0xE000 then
    match s.half with
    | some first =>
      let point := 0x10000 + (first - 0xD800) * 0x400 + (unit - 0xDC00)
      { s with chars := Char.ofNat point :: s.chars, half := none }
    | none => { s with broken := true }
  else s.push (Char.ofNat unit)

/-- The name that was read. -/
def Scan.name (s : Scan) : Name :=
  if s.broken || s.half.isSome then .broken
  else if s.escaped then .escaped (String.ofList s.chars.reverse)
  else .plain (String.ofList s.chars.reverse)

/-- Reads a string up to its closing quote. -/
def readString? : Scan → List Char → Option (Name × List Char)
  | s, '"' :: rest => some (s.name, rest)
  | s, '\\' :: 'u' :: a :: b :: c :: d :: rest =>
    match hexUnit? a b c d with
    | some unit => readString? { s.pushUnit unit with escaped := true } rest
    | none => none
  | s, '\\' :: c :: rest =>
    match escape? c with
    | some c => readString? { s.push c with escaped := true } rest
    | none => none
  | s, c :: rest => if c < ' ' || c = '\\' then none else readString? (s.push c) rest
  | _, [] => none

/-! ## Numbers -/

/-- At least one digit. -/
def readDigits? (cs : List Char) : Option (List Char × List Char) :=
  let (ds, rest) := Digits.split cs
  if ds.isEmpty then none else some (ds, rest)

/-- The digits after a point, or none without one. -/
def readFraction? : List Char → Option (List Char × List Char)
  | '.' :: cs => readDigits? cs
  | cs => some ([], cs)

/-- The number after the letter for an exponent, or nothing without one. -/
def readExponent? (cs : List Char) : Option (Option Int × List Char) :=
  match cs with
  | c :: cs' =>
    if c = 'e' || c = 'E' then do
      let (negative, ds) := match cs' with
        | '-' :: ds => (true, ds)
        | '+' :: ds => (false, ds)
        | ds => (false, ds)
      let (ds, rest) ← readDigits? ds
      let n : Int := Digits.toNat ds
      return (some (if negative then -n else n), rest)
    else some (none, cs)
  | [] => some (none, [])

/-- Whole numbers that fit 64 bits, signed or not, stay whole; all others are doubles.  Zero
with a minus sign is the negative zero. -/
def ofLiteral (l : Literal) (isWhole : Bool) : Json :=
  let n := Digits.toNat l.whole
  if isWhole && !l.negative && n < UInt64.size then .int n
  else if isWhole && l.negative && 0 < n && n ≤ UInt64.size / 2 then .int (-(n : Int))
  else match l.toFloat? with
    | some x => .real x
    | none => .void

/-- Reads a number; a leading zero stands alone. -/
def readNumber? (cs : List Char) : Option (Json × List Char) := do
  let (negative, cs) := match cs with
    | '-' :: cs => (true, cs)
    | cs => (false, cs)
  let (whole, rest) ← readDigits? cs
  if whole.length ≠ 1 && whole.head? = some '0' then none
  let (fraction, rest) ← readFraction? rest
  let (exponent, rest) ← readExponent? rest
  let isWhole := fraction.isEmpty && exponent.isNone
  return (ofLiteral ⟨negative, whole, fraction, exponent.getD 0⟩ isWhole, rest)

/-! ## Values -/

/-- A string that is not the name of a member. -/
def ofName (name : Name) : Json :=
  match name.text? with
  | some text => .str text
  | none => .void

mutual

/-- Reads a value and returns what follows it. -/
def readValue? : Nat → List Char → Option (Json × List Char)
  | 0, _ => none
  | fuel + 1, cs =>
    match skipBlanks cs with
    | 'n' :: 'u' :: 'l' :: 'l' :: rest => some (.null, rest)
    | 't' :: 'r' :: 'u' :: 'e' :: rest => some (.bool true, rest)
    | 'f' :: 'a' :: 'l' :: 's' :: 'e' :: rest => some (.bool false, rest)
    | '"' :: rest => (readString? {} rest).map fun r => (ofName r.1, r.2)
    | '[' :: rest =>
      match skipBlanks rest with
      | ']' :: rest => some (.arr [], rest)
      | rest => readItems? fuel [] rest
    | '{' :: rest =>
      match skipBlanks rest with
      | '}' :: rest => some (.obj [], rest)
      | rest => readMembers? fuel [] rest
    | rest => readNumber? rest

/-- Reads the items of an array that has at least one left. -/
def readItems? : Nat → List Json → List Char → Option (Json × List Char)
  | 0, _, _ => none
  | fuel + 1, done, cs =>
    match readValue? fuel cs with
    | none => none
    | some (item, rest) =>
      match skipBlanks rest with
      | ',' :: rest => readItems? fuel (item :: done) rest
      | ']' :: rest => some (.arr (item :: done).reverse, rest)
      | _ => none

/-- Reads the members of an object that has at least one left. -/
def readMembers? : Nat → List (Name × Json) → List Char → Option (Json × List Char)
  | 0, _, _ => none
  | fuel + 1, done, cs =>
    match skipBlanks cs with
    | '"' :: rest =>
      match readString? {} rest with
      | none => none
      | some (name, rest) =>
        match skipBlanks rest with
        | ':' :: rest =>
          match readValue? fuel rest with
          | none => none
          | some (value, rest) =>
            match skipBlanks rest with
            | ',' :: rest => readMembers? fuel ((name, value) :: done) rest
            | '}' :: rest => some (.obj ((name, value) :: done).reverse, rest)
            | _ => none
        | _ => none
    | _ => none

end

/-- The value that a whole text writes. -/
def read? (text : String) : Option Json :=
  let cs := text.toList
  match readValue? (2 * cs.length + 2) cs with
  | some (j, rest) => if (skipBlanks rest).isEmpty then some j else none
  | none => none

end Grading.Json
