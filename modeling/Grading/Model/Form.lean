import Grading.Model.Basic
import Grading.Json.Shape

/-!
# The stored form of a model

How models are written as JSON values and read back.  Writing uses the first name of every field
and the object form of every record; reading also takes the other names and forms of
`Grading.Json.Shape`.  A model of finite doubles is read back as it was written; a double that
is not finite is written as null, which is not read as a number.
-/

namespace Grading

/-! ## Settings -/

namespace FailPolicy

def toJson : FailPolicy → Json
  | courseFail => .str "coursefail"
  | ignore => .str "ignore"

/-- The policy to fail has two older names. -/
def ofJson? (j : Json) : Option FailPolicy := do
  match ← j.unitVariant? with
  | "coursefail" => some courseFail
  | "fullfail" => some courseFail
  | "fail" => some courseFail
  | "ignore" => some ignore
  | _ => none

end FailPolicy

namespace Rounding

def toJson : Rounding → Json
  | up => .str "round-up"
  | closest => .str "round-closest"
  | down => .str "round-down"

def ofJson? (j : Json) : Option Rounding := do
  match ← j.unitVariant? with
  | "round-up" => some up
  | "round-closest" => some closest
  | "round-down" => some down
  | _ => none

end Rounding

namespace SourceSettings

def toJson (s : SourceSettings Float) : Json :=
  .record
    [("minPoints", (s.minPoints.map Json.ofFloat).getD .null), ("onFailSetting", s.onFail.toJson)]

def ofJson? (j : Json) : Option (SourceSettings Float) := do
  match ← j.fields? [["minPoints"], ["onFailSetting"]] with
  | [minPoints, some onFail] =>
    return { minPoints := ← Json.optional? Json.float? minPoints
             onFail := ← FailPolicy.ofJson? onFail }
  | _ => none

end SourceSettings

namespace AverageSettings

/-- The name of a slot in a table. -/
def slotName (slot : Slot) : String := Nat.repr slot.toNat

def toJson (s : AverageSettings Float) : Json :=
  .record
    [("weights", .record (s.weights.entries.map fun e => (slotName e.1, Json.ofFloat e.2))),
      ("percentageMode", .bool s.percentageMode)]

def ofJson? (j : Json) : Option (AverageSettings Float) := do
  match ← j.fields? [["weights"], ["percentageMode"]] with
  | [some weights, some percentageMode] =>
    return { weights := SlotMap.ofList (← weights.slotTable? Json.float?)
             percentageMode := ← percentageMode.bool? }
  | _ => none

end AverageSettings

namespace StepOutput

def toJson : StepOutput Float → Json
  | .value x => Json.ofFloat x
  | .same => .str "same"

def ofJson? (j : Json) : Option (StepOutput Float) :=
  match j.float? with
  | some x => some (.value x)
  | none => if j.unitVariant? = some "same" then some .same else none

end StepOutput

namespace StepperSettings

def toJson (s : StepperSettings Float) : Json :=
  .record
    [("numSteps", Json.ofUInt32 s.steps), ("outputValues", Json.ofList StepOutput.toJson s.outputs),
      ("middlePoints", Json.ofList Json.ofFloat s.middlePoints)]

def ofJson? (j : Json) : Option (StepperSettings Float) := do
  match ← j.fields? [["numSteps"], ["outputValues"], ["middlePoints"]] with
  | [some steps, some outputs, some middlePoints] =>
    return { steps := ← steps.uint32?
             outputs := ← outputs.list? StepOutput.ofJson?
             middlePoints := ← middlePoints.list? Json.float? }
  | _ => none

end StepperSettings

namespace GateSettings

def toJson (s : GateSettings Float) : Json :=
  .record [("minPoints", Json.ofFloat s.minPoints), ("onFailSetting", s.onFail.toJson)]

def ofJson? (j : Json) : Option (GateSettings Float) := do
  match ← j.fields? [["minPoints"], ["onFailSetting"]] with
  | [some minPoints, some onFail] =>
    return { minPoints := ← minPoints.float?, onFail := ← FailPolicy.ofJson? onFail }
  | _ => none

end GateSettings

namespace Settings

/-- The settings of a node that takes the larger of its inputs. -/
def maxOfJson? (j : Json) : Option (Settings Float) := do
  match ← j.fields? [["minValue"]] with
  | [some minValue] => return .max (← minValue.float?)
  | _ => none

/-- The settings of a node that rounds. -/
def roundOfJson? (j : Json) : Option (Settings Float) := do
  match ← j.fields? [["roundingSetting"]] with
  | [some mode] => return .round (← Rounding.ofJson? mode)
  | _ => none

def toJson : Settings Float → Json
  | .source s => .record [("source", s.toJson)]
  | .addition => .str "addition"
  | .average s => .record [("average", s.toJson)]
  | .stepper s => .record [("stepper", s.toJson)]
  | .sink => .str "sink"
  | .minPoints s => .record [("minpoints", s.toJson)]
  | .max minValue => .record [("max", .record [("minValue", Json.ofFloat minValue)])]
  | .round mode => .record [("round", .record [("roundingSetting", mode.toJson)])]

def ofJson? (j : Json) : Option (Settings Float) := do
  match ← j.variant? with
  | ("source", some s) => return .source (← SourceSettings.ofJson? s)
  | ("addition", content) => if Json.isNothing content then some .addition else none
  | ("average", some s) => return .average (← AverageSettings.ofJson? s)
  | ("stepper", some s) => return .stepper (← StepperSettings.ofJson? s)
  | ("sink", content) => if Json.isNothing content then some .sink else none
  | ("minpoints", some s) => return .minPoints (← GateSettings.ofJson? s)
  | ("max", some s) => maxOfJson? s
  | ("round", some s) => roundOfJson? s
  | _ => none

end Settings

/-! ## Models -/

namespace Node

def toJson (n : Node Float) : Json :=
  .record [("id", .str n.id), ("settings", n.settings.toJson)]

def ofJson? (j : Json) : Option (Node Float) := do
  match ← j.fields? [["id"], ["settings"]] with
  | [some id, some settings] =>
    return { id := ← id.text?, settings := ← Settings.ofJson? settings }
  | _ => none

end Node

namespace Edge

def toJson (e : Edge) : Json :=
  .record
    [("id", .str e.id), ("source", .str e.source), ("sourceOutput", Json.ofUInt32 e.output),
      ("target", .str e.target), ("targetSlot", Json.ofUInt32 e.slot)]

/-- The output may be left out of an object. -/
def ofJson? (j : Json) : Option Edge := do
  match ← j.fields? [["id"], ["source"], ["sourceOutput"], ["target"], ["targetSlot"]] with
  | [some id, some source, output, some target, some slot] =>
    return { id := ← id.text?
             source := ← source.text?
             output := ← Json.orElse? Json.uint32? 0 output
             target := ← target.text?
             slot := ← slot.uint32? }
  | _ => none

end Edge

namespace Model

def toJson (m : Model Float) : Json :=
  .record [("nodes", Json.ofList Node.toJson m.nodes), ("edges", Json.ofList Edge.toJson m.edges)]

def ofJson? (j : Json) : Option (Model Float) := do
  match ← j.fields? [["nodes"], ["edges"]] with
  | [some nodes, some edges] =>
    return { nodes := ← nodes.list? Node.ofJson?, edges := ← edges.list? Edge.ofJson? }
  | _ => none

end Model

end Grading
