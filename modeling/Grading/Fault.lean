import Grading.Finding
import Grading.Model.Settings
import Grading.Number.Basic

/-!
# Faults

Everything that can be wrong with a model, each with what is needed to name it. `Fault.finding`
is how it is shown: the kind, the ids and the words all follow from the fault.
-/

namespace Grading

/-- A number that a node sets a limit with. -/
inductive Limit where
  | minPoints
  | minValue
deriving DecidableEq

/-- What is wrong with the settings of a stepper. -/
inductive StepperFlaw (α : Type) where
  | noSteps
  | outputCount (expected found : Nat)
  | middleCount (expected found : Nat)
  | middleNotFinite
  /-- `second` comes right after `first` and is not above it. -/
  | notAscending (first second : α)
  | outputNotFinite
deriving DecidableEq

/-- What is wrong with a model. -/
inductive Fault (α : Type) where
  /-- More than one node has this id. -/
  | duplicateNode (id : String)
  /-- An edge has ends that are no nodes. -/
  | danglingEdge (edge : String) (missing : List String)
  | noSink
  /-- The only sink does not have one edge. -/
  | sinkInputs (sink : String) (edges : List String)
  | manySinks (sinks : List String)
  /-- An edge reads an output that its source does not have. -/
  | foreignOutput (edge : String) (output : UInt32) (source : String)
  /-- Several edges lead into one slot. -/
  | slotCollision (node : String) (slot : Slot) (edges : List String)
  /-- Edges lead into a source. -/
  | sourceInputs (node : String) (edges : List String)
  /-- A node that takes any number of inputs has none. -/
  | noInputs (kind : Kind) (node : String)
  | unwiredWeight (node : String) (slot : Slot)
  | unweightedSlot (node : String) (slot : Slot) (edges : List String)
  /-- Edges lead into a slot that a node with one input does not have. -/
  | foreignSlot (kind : Kind) (node : String) (slot : Slot) (edges : List String)
  /-- The one input of a node is not there. -/
  | noInput (kind : Kind) (node : String)
  | limitNotFinite (limit : Limit) (node : String) (value : α)
  | stepper (node : String) (flaw : StepperFlaw α)
  /-- A weight is negative or not finite. -/
  | badWeight (node : String) (slot : Slot) (weight : α)
  | noPositiveWeight (node : String)
  /-- Nodes that depend on each other in a circle, and all edges between them. -/
  | cycle (nodes edges : List String)
  /-- A node from which no edges lead to the final grade. -/
  | unreachable (node : String)
deriving DecidableEq

def Limit.name : Limit → String
  | minPoints => "minPoints"
  | minValue => "minValue"

/-- A slot or an output in a message. -/
def numberText (n : UInt32) : String := Nat.repr n.toNat

variable {α : Type}

def StepperFlaw.message [Number α] : StepperFlaw α → String
  | noSteps => "numSteps must be at least 1"
  | outputCount expected found => s!"expected {expected} output values, found {found}"
  | middleCount expected found => s!"expected {expected} middle points, found {found}"
  | middleNotFinite => "middle points must be finite"
  | notAscending first second =>
    "middle points must be strictly ascending (" ++ Number.text first ++ " is followed by " ++
      Number.text second ++ ")"
  | outputNotFinite => "output values must be finite"

namespace Fault

def kind : Fault α → FindingKind
  | duplicateNode _ => .duplicateNode
  | danglingEdge _ _ => .danglingEdge
  | noSink => .sinkCount
  | sinkInputs _ _ => .sinkCount
  | manySinks _ => .sinkCount
  | foreignOutput _ _ _ => .slotCompleteness
  | slotCollision _ _ _ => .slotCollision
  | sourceInputs _ _ => .slotCompleteness
  | noInputs _ _ => .slotCompleteness
  | unwiredWeight _ _ => .slotCompleteness
  | unweightedSlot _ _ _ => .slotCompleteness
  | foreignSlot _ _ _ _ => .slotCompleteness
  | noInput _ _ => .slotCompleteness
  | limitNotFinite _ _ _ => .invalidSettings
  | stepper _ _ => .stepperShape
  | badWeight _ _ _ => .averageWeights
  | noPositiveWeight _ => .averageWeights
  | cycle _ _ => .cycle
  | unreachable _ => .reachability

/-- The nodes to point at. -/
def nodes : Fault α → List String
  | duplicateNode id => [id]
  | danglingEdge _ _ => []
  | noSink => []
  | sinkInputs sink _ => [sink]
  | manySinks sinks => sinks
  | foreignOutput _ _ source => [source]
  | slotCollision node _ _ => [node]
  | sourceInputs node _ => [node]
  | noInputs _ node => [node]
  | unwiredWeight node _ => [node]
  | unweightedSlot node _ _ => [node]
  | foreignSlot _ node _ _ => [node]
  | noInput _ node => [node]
  | limitNotFinite _ node _ => [node]
  | stepper node _ => [node]
  | badWeight node _ _ => [node]
  | noPositiveWeight node => [node]
  | cycle nodes _ => nodes
  | unreachable node => [node]

/-- The edges to point at. -/
def edges : Fault α → List String
  | danglingEdge edge _ => [edge]
  | sinkInputs _ edges => edges
  | foreignOutput edge _ _ => [edge]
  | slotCollision _ _ edges => edges
  | sourceInputs _ edges => edges
  | unweightedSlot _ _ edges => edges
  | foreignSlot _ _ _ edges => edges
  | cycle _ edges => edges
  | _ => []

/-- The fault in words. -/
def message [Number α] : Fault α → String
  | duplicateNode id => s!"Node id '{id}' is used by more than one node"
  | danglingEdge edge missing =>
    s!"Edge '{edge}' references unknown node(s): " ++ String.intercalate ", " missing
  | noSink => "The graph has no final grade node"
  | sinkInputs _ edges =>
    s!"The final grade node must have exactly one input, but has {edges.length}"
  | manySinks sinks => s!"The graph has {sinks.length} final grade nodes, expected one"
  | foreignOutput edge output source =>
    s!"Edge '{edge}' reads output {numberText output} of '{source}', which only has output 0"
  | slotCollision node slot edges =>
    s!"{edges.length} edges claim input slot {numberText slot} of '{node}'"
  | sourceInputs node _ => s!"Source node '{node}' cannot have inputs"
  | noInputs kind node => s!"{kind.name} node '{node}' has no inputs"
  | unwiredWeight node slot =>
    s!"Weight for slot {numberText slot} of '{node}' has no incoming edge"
  | unweightedSlot node slot _ => s!"Input slot {numberText slot} of '{node}' has no weight"
  | foreignSlot kind node slot _ =>
    s!"{kind.name} node '{node}' has no input slot {numberText slot}"
  | noInput kind node => s!"{kind.name} node '{node}' has no input"
  | limitNotFinite limit node value =>
    s!"Setting '{limit.name}' of '{node}' must be a finite number, got {Number.text value}"
  | stepper node flaw => s!"Stepper '{node}': {flaw.message}"
  | badWeight node slot weight =>
    s!"Weight {Number.text weight} for slot {numberText slot} of '{node}' " ++
      "must be finite and non-negative"
  | noPositiveWeight node => s!"Average '{node}' needs at least one positive weight"
  | cycle nodes _ => "Cycle through " ++ String.intercalate " -> " (nodes ++ nodes.take 1)
  | unreachable node => s!"Node '{node}' does not contribute to the final grade"

/-- The fault as it is shown. -/
def finding [Number α] (f : Fault α) : Finding :=
  Finding.ofKind f.kind f.nodes f.edges f.message

/-- Does the fault leave the model usable? -/
def isWarning (f : Fault α) : Bool := f.kind.severity = .warning

end Fault

end Grading
