import Grading.Editor.Graph
import Grading.Editor.Handle
import Grading.Json.Reader
import Grading.Model.Form
import Grading.Model.Template
import Grading.Table

/-!
# Import from the editor

A graph of the editor becomes a model node by node and edge by edge, in order.  An importer
knows which type of node a name means: at first the eight names of the types themselves, then
any names mapped onto them.

The settings of an id are handed out once.  A second node of that id finds none left.
-/

namespace Grading

/-- Why no model could be made. -/
inductive ImportError where
  /-- The text is no graph. -/
  | unreadable
  | unknownType (node type : String)
  | missingSettings (node : String)
  /-- The settings do not have the shape that the type needs. -/
  | unreadableSettings (node : String)
  /-- A weight is kept under a name that is no handle of the node. -/
  | foreignWeight (node key : String)
  /-- Two weights are kept under names of one slot. -/
  | repeatedWeight (node first second : String) (slot : Slot)
  | invalidHandle (edge node handle : String)
  /-- A wired layout without parts to wire. -/
  | noSources (template : Template)
deriving DecidableEq

namespace ImportError

def message : ImportError → String
  | unreadable => "Failed to parse graph JSON"
  | unknownType node type =>
    s!"Node '{node}' has an unregistered or invalid node type: '{type}'"
  | missingSettings node => s!"Node '{node}' has no settings, but its node type requires them"
  | unreadableSettings node => s!"Node '{node}' has invalid settings"
  | foreignWeight node key =>
    s!"Node '{node}' has invalid settings: weight key '{key}' is not a handle of this node"
  | repeatedWeight node first second slot =>
    s!"Node '{node}' has invalid settings: weight keys '{first}' and '{second}' both name slot " ++
      Nat.repr slot.toNat
  | invalidHandle edge node handle =>
    s!"Edge '{edge}' uses handle '{handle}', which does not belong to node '{node}'"
  | noSources template =>
    s!"Invalid graph: the {template.title} template needs at least one source"

end ImportError

/-- The model that a layout starts with. -/
def Template.build {α : Type} [Number α] (template : Template) (parts : List UInt32) :
    Except ImportError (Model α) :=
  match template.model? parts with
  | some m => .ok m
  | none => .error (.noSources template)

namespace Editor

/-- The types of node that names stand for. -/
structure Importer where
  kind? : String → Option Kind

namespace Importer

/-- Knows the types by their own names. -/
def standard : Importer := ⟨Kind.ofName?⟩

/-- Another name for a type; nothing changes if there is no type of that name. -/
def withMapping (importer : Importer) (name type : String) : Importer :=
  match Kind.ofName? type with
  | some kind => ⟨fun n => if n = name then some kind else importer.kind? n⟩
  | none => importer

/-- Adds names one after the other. -/
def withMappings (importer : Importer) (mappings : List (String × String)) : Importer :=
  mappings.foldl (fun i m => i.withMapping m.1 m.2) importer

end Importer

/-! ## Settings -/

/-- Reads settings, which have to be there and to have the right shape. -/
def readSettings {β : Type} (node : String) (settings : Option Json) (f : Json → Option β) :
    Except ImportError β :=
  match settings with
  | none => .error (.missingSettings node)
  | some j =>
    match f j with
    | some s => .ok s
    | none => .error (.unreadableSettings node)

/-- The weights of an average as the editor keeps them, by handle. -/
structure HandleWeights where
  weights : List (String × Float)
  percentageMode : Bool

/-- The mode may be left out. -/
def HandleWeights.ofJson? (j : Json) : Option HandleWeights := do
  match ← j.fields? [["weights"], ["percentage_mode", "percentageMode"]] with
  | [some weights, percentageMode] =>
    return { weights := ← weights.table? Json.float?
             percentageMode := ← Json.orElse? Json.bool? false percentageMode }
  | _ => none

/-- One weight after the other goes to the slot that its handle names; `done` holds the handles
and slots so far. -/
def assignSlots (node : String) (done : List (String × Slot)) (weights : SlotMap Float) :
    List (String × Float) → Except ImportError (SlotMap Float)
  | [] => .ok weights
  | (handle, weight) :: rest =>
    match targetSlot? node handle with
    | none => .error (.foreignWeight node handle)
    | some slot =>
      match done.find? fun d => d.2 = slot with
      | some (earlier, _) => .error (.repeatedWeight node earlier handle slot)
      | none => assignSlots node ((handle, slot) :: done) (weights.insert slot weight) rest

/-- The weights by slot, looked at in ascending order of their handles. -/
def averageSettings (node : String) (w : HandleWeights) :
    Except ImportError (AverageSettings Float) := do
  let sorted := sortBy (fun a b => decide (a.1 ≤ b.1)) w.weights
  let weights ← assignSlots node [] SlotMap.empty sorted
  return { weights, percentageMode := w.percentageMode }

/-- The settings of a node of a given type. -/
def nodeSettings (kind : Kind) (node : String) (settings : Option Json) :
    Except ImportError (Settings Float) :=
  match kind with
  | .addition => .ok .addition
  | .sink => .ok .sink
  | .source => .source <$> readSettings node settings SourceSettings.ofJson?
  | .stepper => .stepper <$> readSettings node settings StepperSettings.ofJson?
  | .minPoints => .minPoints <$> readSettings node settings GateSettings.ofJson?
  | .max => readSettings node settings Settings.maxOfJson?
  | .round => readSettings node settings Settings.roundOfJson?
  | .average => do
    let weights ← readSettings node settings HandleWeights.ofJson?
    return .average (← averageSettings node weights)

/-! ## Nodes and edges -/

/-- A node with its settings. -/
def importNode (importer : Importer) (n : Node) (settings : Option Json) :
    Except ImportError (Grading.Node Float) :=
  match n.type.bind importer.kind? with
  | none => .error (.unknownType n.id (n.type.getD ""))
  | some kind => do return { id := n.id, settings := ← nodeSettings kind n.id settings }

/-- Goes through the nodes; the data of an id is gone after its first node. -/
def importNodes (importer : Importer) :
    List Node → List (String × NodeData) → Except ImportError (List (Grading.Node Float))
  | [], _ => .ok []
  | n :: rest, data => do
    let node ← importNode importer n ((lastOf? data n.id).bind (·.settings))
    let nodes ← importNodes importer rest (data.filter fun d => d.1 ≠ n.id)
    return node :: nodes

/-- The id of an edge in an error, made of its ends if it has none. -/
def Edge.shownId (e : Edge) : String := e.id.getD (e.source ++ "-" ++ e.target)

/-- The number that a handle of an end of an edge names, `0` without a handle. -/
def readHandle (e : Edge) (node : String) (handle : Option String)
    (read? : String → String → Option UInt32) : Except ImportError UInt32 :=
  match handle with
  | none => .ok 0
  | some h =>
    match read? node h with
    | some n => .ok n
    | none => .error (.invalidHandle e.shownId node h)

/-- An edge between slots; without an id of its own it gets one made of its ends. -/
def importEdge (e : Edge) : Except ImportError Grading.Edge := do
  let slot ← readHandle e e.target e.targetHandle targetSlot?
  let output ← readHandle e e.source e.sourceHandle sourceOutput?
  let joined := Grading.Edge.join e.source e.target slot
  return { joined with output, id := e.id.getD joined.id }

/-- The model that a graph of the editor describes. -/
def Importer.importGraph (importer : Importer) (g : Graph) : Except ImportError (Model Float) := do
  let nodes ← importNodes importer g.nodes g.nodeData
  let edges ← g.edges.mapM importEdge
  return { nodes, edges }

/-- The model that a text of the editor describes. -/
def Importer.importText (importer : Importer) (text : String) : Except ImportError (Model Float) :=
  match (Json.read? text).bind Graph.ofJson? with
  | some g => importer.importGraph g
  | none => .error .unreadable

end Editor

end Grading
