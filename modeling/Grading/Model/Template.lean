import Grading.Model.Basic
import Grading.Number.Basic
import Grading.Json.Shape

/-!
# Starter models

A new model starts from a list of course parts.  They are left unwired, summed or averaged, and
in the last two cases a stepper turns the result into a grade from 0 to 5.  Every part counts
ten points, and the middle points of the stepper cut what can be reached into six equal ranges,
rounded to tenths.
-/

namespace Grading

/-- The layouts that a model can start from. -/
inductive Template where
  /-- Sources and a sink, with no edges. -/
  | unwired
  /-- The sum of the sources as a grade. -/
  | addition
  /-- The plain mean of the sources as a grade. -/
  | average
deriving DecidableEq

namespace Template

def ofName? : String → Option Template
  | "none" => some unwired
  | "addition" => some addition
  | "average" => some average
  | _ => none

def ofJson? (j : Json) : Option Template := do ofName? (← j.unitVariant?)

/-- The name of a layout in a message. -/
def title : Template → String
  | unwired => "None"
  | addition => "Addition"
  | average => "Average"

/-- The node for a part of a course. -/
def sourceId (part : UInt32) : String := "source-" ++ Nat.repr part.toNat

def sinkId : String := "final-grade"

def stepperId : String := "stepper"

/-- The number of grades. -/
def gradeSteps : Nat := 6

variable {α : Type} [Number α]

def roundToTenth (x : α) : α := Number.roundHalfUp (x * Number.ofNat 10) / Number.ofNat 10

/-- Weights that split one hundred percent among `count` slots, which are counted as slots are
numbered. -/
def equalWeights (count : Nat) : AverageSettings α :=
  let weight : α := roundToTenth (Number.ofNat 100 / Number.ofNat count)
  let slots := (List.range (UInt32.ofNat count).toNat).map UInt32.ofNat
  { weights := SlotMap.ofList (slots.map fun slot => (slot, weight))
    percentageMode := true }

/-- The middle points for the sum of `count` sources. -/
def additionBreakpoints (count : Nat) : List α :=
  (List.range (gradeSteps - 1)).map fun i =>
    roundToTenth
      (Number.ofNat (i + 1) * Number.ofNat 10 * Number.ofNat count / Number.ofNat gradeSteps)

/-- The middle points for a mean. -/
def averageBreakpoints : List α :=
  [17, 33, 50, 67, 83].map fun tenths => Number.ofNat tenths / Number.ofNat 10

/-- The sink and one source for every part. -/
def ends (parts : List UInt32) : List (Node α) :=
  { id := sinkId, settings := .sink } ::
    parts.map fun part => { id := sourceId part, settings := .source {} }

/-- The sources wired to a node, that to a stepper and that to the sink. -/
def wired (middleId : String) (middle : Settings α) (breakpoints : List α) (parts : List UInt32) :
    Model α where
  nodes := ends parts ++
    [{ id := middleId, settings := middle },
      { id := stepperId
        settings := .stepper
          { steps := UInt32.ofNat gradeSteps
            outputs := (List.range gradeSteps).map fun grade => .value (Number.ofNat grade)
            middlePoints := breakpoints } }]
  edges := (parts.zipIdx.map fun p => Edge.join (sourceId p.1) middleId (UInt32.ofNat p.2)) ++
    [Edge.join middleId stepperId 0, Edge.join stepperId sinkId 0]

/-- The model that a layout starts with; none if a wired layout has no parts to wire. -/
def model? (template : Template) (parts : List UInt32) : Option (Model α) :=
  match template with
  | unwired => some ⟨ends parts, []⟩
  | addition =>
    if parts.isEmpty then none
    else some (wired "addition" .addition (additionBreakpoints parts.length) parts)
  | average =>
    if parts.isEmpty then none
    else some (wired "average" (.average (equalWeights parts.length)) averageBreakpoints parts)

end Template

end Grading
