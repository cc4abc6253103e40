import Grading.Check.Limits
import Grading.Proofs.Links

/-!
# Well-formed models

What a model has to be for its grades to mean something, said of its nodes and edges as they are
written: by ids, without positions, links or faults.

* `Settings.Takes`: which slots of a node may be wired, by its type.
* `Settings.Sound`: what the numbers in the settings of a node have to satisfy.
* `Model.WellWired`: ids, edges and slots fit together, and no path leads back to its start.
* `Model.WellFormed`: a well-wired model with sound settings.
* `Model.Contributes`: a path leads from an id to the sink; `Model.AllContribute` says so of
  every node.
-/

namespace Grading

variable {α : Type}

/-! ## Wiring -/

/-- An edge leads into that slot of the node. -/
def Model.Wired (m : Model α) (id : String) (slot : Slot) : Prop :=
  ∃ e ∈ m.edges, e.target = id ∧ e.slot = slot

/-- The slots that a type of node has wired: none, some, those with a weight, or slot `0`.  That
the slot of a sink is wired is said with the sink. -/
def Settings.Takes (s : Settings α) (wired : Slot → Prop) : Prop :=
  match s with
  | .source _ => ∀ slot, ¬ wired slot
  | .addition => ∃ slot, wired slot
  | .max _ => ∃ slot, wired slot
  | .average s => ∀ slot, wired slot ↔ slot ∈ s.weights.slots
  | .stepper _ => ∀ slot, wired slot ↔ slot = 0
  | .minPoints _ => ∀ slot, wired slot ↔ slot = 0
  | .round _ => ∀ slot, wired slot ↔ slot = 0
  | .sink => ∀ slot, wired slot → slot = 0

theorem Node.kind_eq_source_iff {n : Node α} :
    n.kind = .source ↔ ∃ s, n.settings = .source s := by
  unfold Node.kind Settings.kind
  cases n.settings <;> simp

/-- Ids, edges and slots fit together. -/
structure Model.WellWired (m : Model α) : Prop where
  distinctIds : m.ids.Nodup
  edgesJoinNodes : m.EdgesJoinNodes
  outputs : ∀ e ∈ m.edges, e.output = 0
  /-- No two edges lead into the same slot of the same node. -/
  distinctSlots : (m.edges.map fun e => (e.target, e.slot)).Nodup
  /-- There is one sink, with one edge into it, which leads into slot `0`. -/
  oneSink : ∃ s, m.sink? = some s ∧ ∃ e, m.incoming s.id = [e] ∧ e.slot = 0
  takes : ∀ n ∈ m.nodes, n.settings.Takes (m.Wired n.id)
  acyclic : ∀ id, ¬ Relation.TransGen (Joined m.edges) id id

/-- A path of edges leads from the id to the sink; it may be empty. -/
def Model.Contributes (m : Model α) (id : String) : Prop :=
  ∃ s, m.sink? = some s ∧ Leads m.edges id s.id

/-- From every node a path of edges leads to the sink. -/
def Model.AllContribute (m : Model α) : Prop := ∀ n ∈ m.nodes, m.Contributes n.id

/-! ## Settings -/

variable [Number α]

/-- Weights are finite and not negative, and one of them is positive. -/
structure AverageSettings.Sound (s : AverageSettings α) : Prop where
  weights : ∀ w ∈ s.weights.values,
    Number.isFinite w = true ∧ Number.le Number.zero w = true
  positive : ∃ w ∈ s.weights.values, Number.lt Number.zero w = true

/-- At least one step, an output for each of them and a middle point between two, all finite and
the middle points strictly ascending. -/
structure StepperSettings.Sound (s : StepperSettings α) : Prop where
  steps : 1 ≤ s.steps.toNat
  outputs : s.outputs.length = s.steps.toNat
  middlePoints : s.middlePoints.length = s.steps.toNat - 1
  middleFinite : ∀ p ∈ s.middlePoints, Number.isFinite p = true
  ascending : s.middlePoints.Pairwise fun p q => Number.lt p q = true
  outputsFinite : ∀ x, .value x ∈ s.outputs → Number.isFinite x = true

/-- What the numbers in the settings of a node have to satisfy. -/
def Settings.Sound : Settings α → Prop
  | .source s => ∀ x ∈ s.minPoints, Number.isFinite x = true
  | .addition => True
  | .average s => s.Sound
  | .stepper s => s.Sound
  | .sink => True
  | .minPoints s => Number.isFinite s.minPoints = true
  | .max minValue => Number.isFinite minValue = true
  | .round _ => True

/-- A well-wired model with sound settings. -/
structure Model.WellFormed (m : Model α) : Prop extends m.WellWired where
  settings : ∀ n ∈ m.nodes, n.settings.Sound

end Grading
