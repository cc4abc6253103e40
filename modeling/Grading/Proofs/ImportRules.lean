import Grading.Editor.Import
import Grading.Proofs.Traversals

/-!
# What a graph of the editor means

Rules for the import from the editor that do not go through the graph in any order:

* `Means`: which type of node a name stands for;
* `Configured`: which settings a node has, given what the editor keeps for its id;
* `Converts`, `Editor.Edge.Converts`: what becomes of a node and of an edge;
* `Convertible`, `Editor.Edge.Convertible`: that something becomes of them;
* `Fails`, `Editor.Edge.Fails`: why nothing does.

A weight belongs to the slot that its key names as a handle (`Weighs`), so keys have to be handles
of pairwise different slots (`KeysAreSlots`).
-/

namespace Grading.Editor

/-! ## Names of types -/

/-- No name of a type stands on the right of a mapping of the name. -/
def Unmapped (mappings : List (String × String)) (name : String) : Prop :=
  ∀ m ∈ mappings, m.1 = name → ∀ kind : Kind, kind.name ≠ m.2

/-- The type that a name means: that of the last mapping of the name onto the name of a type, or
else the type of that name. -/
inductive Means (mappings : List (String × String)) (name : String) (kind : Kind) : Prop
  | mapped (before after : List (String × String))
      (split : mappings = before ++ (name, kind.name) :: after) (last : Unmapped after name)
  | own (unmapped : Unmapped mappings name) (eq : kind.name = name)

/-! ## Settings -/

/-- What the editor keeps for an id. -/
def Graph.recorded (g : Graph) (id : String) : Option Json :=
  (lastOf? g.nodeData id).bind (·.settings)

/-- Settings are there, are no null and read as `s`. -/
def ReadAs {β : Type} (read? : Json → Option β) (settings : Option Json) (s : β) : Prop :=
  ∃ j, settings = some j ∧ j ≠ .null ∧ read? j = some s

/-- The keys are handles of a node for pairwise different slots. -/
def KeysAreSlots (id : String) (weights : List (String × Float)) : Prop :=
  (∀ e ∈ weights, ∃ slot, targetSlot? id e.1 = some slot) ∧
    (weights.map fun e => targetSlot? id e.1).Nodup

/-- The settings of an average hold the weights by handle, each under the slot of its handle, and
nothing else. -/
structure Weighs (id : String) (w : HandleWeights) (s : AverageSettings Float) : Prop where
  percentageMode : s.percentageMode = w.percentageMode
  keys : KeysAreSlots id w.weights
  weights : ∀ slot x, (slot, x) ∈ s.weights.entries ↔
    ∃ key, (key, x) ∈ w.weights ∧ targetSlot? id key = some slot

/-- The settings of a node, given what is kept for its id. -/
def Configured (id : String) (settings : Option Json) : Settings Float → Prop
  | .addition => True
  | .sink => True
  | .source s => ReadAs SourceSettings.ofJson? settings s
  | .stepper s => ReadAs StepperSettings.ofJson? settings s
  | .minPoints s => ReadAs GateSettings.ofJson? settings s
  | .max minValue => ReadAs Settings.maxOfJson? settings (.max minValue)
  | .round mode => ReadAs Settings.roundOfJson? settings (.round mode)
  | .average s => ∃ w, ReadAs HandleWeights.ofJson? settings w ∧ Weighs id w s

/-- A type of node that takes settings. -/
def TakesSettings (kind : Kind) : Prop := kind ≠ .addition ∧ kind ≠ .sink

/-- The value has the shape of the settings of a type. -/
def Readable (kind : Kind) (j : Json) : Prop :=
  match kind with
  | .addition => True
  | .sink => True
  | .source => ∃ s, SourceSettings.ofJson? j = some s
  | .stepper => ∃ s, StepperSettings.ofJson? j = some s
  | .minPoints => ∃ s, GateSettings.ofJson? j = some s
  | .max => ∃ s, Settings.maxOfJson? j = some s
  | .round => ∃ s, Settings.roundOfJson? j = some s
  | .average => ∃ w, HandleWeights.ofJson? j = some w

/-- Why a key is no handle for a slot of its own, after the weights before it. -/
inductive KeyFails (id : String) (before : List (String × Float)) (key : String) :
    ImportError → Prop
  | foreign (no_slot : targetSlot? id key = none) : KeyFails id before key (.foreignWeight id key)
  | repeated {first : String} {x : Float} {slot : Slot} (earlier : (first, x) ∈ before)
      (eq_first : targetSlot? id first = some slot) (eq_key : targetSlot? id key = some slot) :
      KeyFails id before key (.repeatedWeight id first key slot)

/-- Of the weights after some others, some key fails, and all before it are handles of pairwise
different slots. -/
def KeyFailsAfter (id : String) (before rest : List (String × Float)) (err : ImportError) : Prop :=
  ∃ mid key x after, rest = mid ++ (key, x) :: after ∧ KeysAreSlots id (before ++ mid) ∧
    KeyFails id (before ++ mid) key err

/-- Why weights by handle are no weights by slot; keys are looked at in ascending order. -/
def WeightsFail (id : String) (w : HandleWeights) (err : ImportError) : Prop :=
  KeyFailsAfter id [] (sortBy (fun a b => decide (a.1 ≤ b.1)) w.weights) err

/-! ## Nodes -/

section

variable (mappings : List (String × String)) (g : Graph)

/-- The name of the type of a node means the type. -/
def Typed (n : Node) (kind : Kind) : Prop := ∃ name, n.type = some name ∧ Means mappings name kind

/-- What becomes of a node. -/
structure Converts (n : Node) (n' : Grading.Node Float) : Prop where
  id : n'.id = n.id
  typed : Typed mappings n n'.kind
  configured : Configured n.id (g.recorded n.id) n'.settings

/-- The name of the type is known, and unless the type takes no settings they are kept for the
id and have its shape. -/
def Convertible (n : Node) : Prop :=
  ∃ kind, Typed mappings n kind ∧ (TakesSettings kind →
    ∃ j, g.recorded n.id = some j ∧ j ≠ .null ∧ Readable kind j ∧
      (kind = .average → ∀ w, HandleWeights.ofJson? j = some w → KeysAreSlots n.id w.weights))

/-- Why nothing becomes of a node. -/
inductive Fails (n : Node) : ImportError → Prop
  | unknownType (unknown : ∀ kind, ¬ Typed mappings n kind) :
      Fails n (.unknownType n.id (n.type.getD ""))
  | missingSettings {kind : Kind} (typed : Typed mappings n kind) (takes : TakesSettings kind)
      (missing : g.recorded n.id = none) : Fails n (.missingSettings n.id)
  | unreadableSettings {kind : Kind} {j : Json} (typed : Typed mappings n kind)
      (recorded : g.recorded n.id = some j) (unreadable : ¬ Readable kind j) :
      Fails n (.unreadableSettings n.id)
  | weights {j : Json} {w : HandleWeights} {err : ImportError}
      (typed : Typed mappings n .average) (recorded : g.recorded n.id = some j)
      (readable : HandleWeights.ofJson? j = some w) (fails : WeightsFail n.id w err) : Fails n err

end

/-! ## Edges -/

namespace Edge

/-- A handle of a node, if there is one, names the number; no handle names `0`. -/
def Denotes (read? : String → String → Option UInt32) (node : String) (handle : Option String)
    (number : UInt32) : Prop :=
  match handle with
  | none => number = 0
  | some h => read? node h = some number

/-- What becomes of an edge. -/
structure Converts (e : Edge) (e' : Grading.Edge) : Prop where
  source : e'.source = e.source
  target : e'.target = e.target
  slot : Denotes targetSlot? e.target e.targetHandle e'.slot
  output : Denotes sourceOutput? e.source e.sourceHandle e'.output
  /-- Its own id, or one made of its ends. -/
  id : e'.id = e.id.getD (e.source ++ "-" ++ e.target ++ ":" ++ toString e'.slot.toNat)

/-- The handles of an edge are handles of its ends. -/
def Convertible (e : Edge) : Prop :=
  (∀ h, e.targetHandle = some h → ∃ slot, targetSlot? e.target h = some slot) ∧
    ∀ h, e.sourceHandle = some h → ∃ output, sourceOutput? e.source h = some output

/-- Why nothing becomes of an edge; the handle of the target is looked at first. -/
inductive Fails (e : Edge) : ImportError → Prop
  | target {h : String} (handle : e.targetHandle = some h)
      (foreign : targetSlot? e.target h = none) : Fails e (.invalidHandle e.shownId e.target h)
  | source {h : String} {slot : Slot} (slot_ok : Denotes targetSlot? e.target e.targetHandle slot)
      (handle : e.sourceHandle = some h) (foreign : sourceOutput? e.source h = none) :
      Fails e (.invalidHandle e.shownId e.source h)

end Edge

end Grading.Editor
