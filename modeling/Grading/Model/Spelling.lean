import Grading.Model.Basic
import Grading.Number.Double

/-!
# The spelling of a model

Everything in a model as one list of numbers, in the order in which a hash of the model takes them
in: doubles by their bits, texts by their bytes with one behind them that no text holds, and every
variant after its number.  Lists come after their lengths, except that weights and middle points
come without.  What a hash makes of the numbers is left out.

Equality of models compares doubles as numbers.  Two models that differ in the sign of a zero
only are equal, and still spelled differently.
-/

namespace Grading

/-- The numbers that spell a value. -/
abbrev Spelling := List Nat

/-! ## Parts -/

namespace Spelling

def ofUInt32 (n : UInt32) : Spelling := [n.toNat]

def ofFloat (x : Float) : Spelling := [x.toBits.toNat]

def ofBool (b : Bool) : Spelling := [if b then 1 else 0]

/-- The bytes of a text, then one that no text holds. -/
def ofText (t : String) : Spelling := t.toUTF8.data.toList.map UInt8.toNat ++ [0xFF]

def ofList {β : Type} (f : β → Spelling) (xs : List β) : Spelling := xs.length :: xs.flatMap f

def ofOption {β : Type} (f : β → Spelling) : Option β → Spelling
  | none => [0]
  | some x => 1 :: f x

end Spelling

/-! ## Models -/

def FailPolicy.spelling : FailPolicy → Spelling
  | courseFail => [0]
  | ignore => [1]

def Rounding.spelling : Rounding → Spelling
  | up => [0]
  | closest => [1]
  | down => [2]

def StepOutput.spelling : StepOutput Float → Spelling
  | .value x => 0 :: Spelling.ofFloat x
  | .same => [1]

/-- A weight comes after its slot. -/
def weightSpelling (e : Slot × Float) : Spelling := Spelling.ofUInt32 e.1 ++ Spelling.ofFloat e.2

def Settings.spelling : Settings Float → Spelling
  | .source s => 0 :: Spelling.ofOption Spelling.ofFloat s.minPoints ++ s.onFail.spelling
  | .addition => [1]
  | .average s =>
    2 :: s.weights.entries.flatMap weightSpelling ++ Spelling.ofBool s.percentageMode
  | .stepper s =>
    3 :: Spelling.ofUInt32 s.steps ++ Spelling.ofList StepOutput.spelling s.outputs ++
      s.middlePoints.flatMap Spelling.ofFloat
  | .sink => [4]
  | .minPoints s => 5 :: Spelling.ofFloat s.minPoints ++ s.onFail.spelling
  | .max minValue => 6 :: Spelling.ofFloat minValue
  | .round mode => 7 :: mode.spelling

def Node.spelling (n : Node Float) : Spelling := Spelling.ofText n.id ++ n.settings.spelling

def Edge.spelling (e : Edge) : Spelling :=
  Spelling.ofText e.id ++ Spelling.ofText e.source ++ Spelling.ofUInt32 e.output ++
    Spelling.ofText e.target ++ Spelling.ofUInt32 e.slot

/-- The spelling of everything in a model. -/
def Model.spelling (m : Model Float) : Spelling :=
  Spelling.ofList Node.spelling m.nodes ++ Spelling.ofList Edge.spelling m.edges

end Grading
