import Grading.Json.Shape

/-!
# Findings

What is wrong with a model, as it is shown: a kind, the ids to point at and a message.
Everything but a dead part of the model keeps it from being used.
-/

namespace Grading

/-- The kinds of finding. -/
inductive FindingKind where
  | cycle
  | sinkCount
  | slotCollision
  | slotCompleteness
  | stepperShape
  | averageWeights
  | reachability
  | duplicateNode
  | danglingEdge
  | invalidSettings
deriving DecidableEq

inductive Severity where
  /-- The model cannot be used. -/
  | error
  /-- The model can be used, but parts of it do nothing. -/
  | warning
deriving DecidableEq

/-- A finding about a model. -/
structure Finding where
  kind : FindingKind
  severity : Severity
  nodes : List String
  edges : List String
  message : String
deriving DecidableEq

namespace FindingKind

def all : List FindingKind :=
  [cycle, sinkCount, slotCollision, slotCompleteness, stepperShape, averageWeights, reachability,
    duplicateNode, danglingEdge, invalidSettings]

/-- The kind in words. -/
def words : FindingKind → String
  | cycle => "cycle"
  | sinkCount => "sink count"
  | slotCollision => "slot collision"
  | slotCompleteness => "slot completeness"
  | stepperShape => "stepper shape"
  | averageWeights => "average weights"
  | reachability => "reachability"
  | duplicateNode => "duplicate node"
  | danglingEdge => "dangling edge"
  | invalidSettings => "invalid settings"

/-- The kind in a stored finding. -/
def name : FindingKind → String
  | cycle => "cycle"
  | sinkCount => "sinkCount"
  | slotCollision => "slotCollision"
  | slotCompleteness => "slotCompleteness"
  | stepperShape => "stepperShape"
  | averageWeights => "averageWeights"
  | reachability => "reachability"
  | duplicateNode => "duplicateNode"
  | danglingEdge => "danglingEdge"
  | invalidSettings => "invalidSettings"

/-- Only a part that does not reach the final grade is harmless. -/
def severity : FindingKind → Severity
  | reachability => .warning
  | _ => .error

end FindingKind

def Severity.name : Severity → String
  | error => "error"
  | warning => "warning"

namespace Finding

/-- A finding with the severity of its kind. -/
def ofKind (kind : FindingKind) (nodes edges : List String) (message : String) : Finding :=
  { kind, severity := kind.severity, nodes, edges, message }

def isWarning (f : Finding) : Bool := f.severity = .warning

def text (f : Finding) : String := f.kind.words ++ ": " ++ f.message

/-! ## Stored form -/

def toJson (f : Finding) : Json :=
  .record
    [("kind", .str f.kind.name), ("severity", .str f.severity.name),
      ("nodeIds", Json.ofList .str f.nodes), ("edgeIds", Json.ofList .str f.edges),
      ("message", .str f.message)]

def kindOfJson? (j : Json) : Option FindingKind := do
  let name ← j.unitVariant?
  FindingKind.all.find? fun kind => kind.name = name

def severityOfJson? (j : Json) : Option Severity := do
  let name ← j.unitVariant?
  [Severity.error, .warning].find? fun severity => severity.name = name

/-- The severity is stored beside the kind and need not be the one of the kind. -/
def ofJson? (j : Json) : Option Finding := do
  match ← j.fields? [["kind"], ["severity"], ["nodeIds"], ["edgeIds"], ["message"]] with
  | [some kind, some severity, some nodes, some edges, some message] =>
    return { kind := ← kindOfJson? kind, severity := ← severityOfJson? severity,
             nodes := ← nodes.list? Json.text?, edges := ← edges.list? Json.text?,
             message := ← message.text? }
  | _ => none

end Finding

end Grading
