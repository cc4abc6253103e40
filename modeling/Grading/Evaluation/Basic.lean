import Grading.Schedule
import Grading.Evaluation.Node
import Grading.Cause

/-!
# Evaluation

An evaluator is a checked model with its order.  It computes one value per node, going through
the order once: a source from its points, every other node from its inputs.

A full evaluation needs the points of all sources that contribute to the final grade.  A preview
takes what there is and says of the rest that it is unknown.  Points that are not finite are
refused by both, whether they contribute or not.

The entries of a batch do not depend on one another and may be evaluated at once; the results come
in the order of the batch.  Log lines are left out.
-/

namespace Grading

variable {α : Type}

/-- A checked model that is ready to evaluate points. -/
structure Evaluator (α : Type) where
  checked : Checked α
  order : List Nat

def Evaluator.ofChecked (c : Checked α) : Evaluator α := ⟨c, c.order⟩

/-- Why points could not be evaluated. -/
inductive EvaluationError (α : Type) where
  /-- No points for sources that contribute. -/
  | missingInputs (sources : List String)
  /-- Points that are not a finite number. -/
  | invalidInput (source : String) (value : α)
deriving DecidableEq

def EvaluationError.message [Number α] : EvaluationError α → String
  | missingInputs sources =>
    "Missing input values for source nodes: " ++ String.intercalate ", " sources
  | invalidInput source value =>
    s!"Input value for source '{source}' is not a finite number: " ++ Number.text value

/-- The outcome of a full evaluation. -/
structure Evaluation (α : Type) where
  grade : Value α
  /-- The known values by node id, in the order of the nodes. -/
  nodes : List (String × Value α)
  /-- The grade in words, with the causes of a failure. -/
  reason : String

/-- The outcome of a preview. -/
structure Preview (α : Type) where
  grade : Outcome α
  /-- The outcome of every node, in the order of the nodes. -/
  nodes : List (String × Outcome α)

def Evaluation.isFail (e : Evaluation α) : Bool := e.grade.isFail

/-- The outcome of the node of that id. -/
def Preview.node? (p : Preview α) (id : String) : Option (Outcome α) :=
  (p.nodes.find? fun n => n.1 = id).map (·.2)

variable [Number α]

namespace Evaluator

/-- The outcome of a source. -/
def sourceOutcome (points : Points α) (id : String) (s : Settings α) :
    Except (EvaluationError α) (Outcome α) :=
  match points id with
  | none => .ok .unknown
  | some x =>
    if Number.isFinite x then .ok (s.evaluate [.number x]).outcome
    else .error (.invalidInput id x)

/-- The outcome of a node, given the outcomes of the nodes before it. -/
def nodeOutcome (c : Checked α) (points : Points α) (values : List (Outcome α)) (i : Nat) :
    Except (EvaluationError α) (Outcome α) :=
  match c.model.nodes[i]? with
  | none => .ok .unknown
  | some n =>
    match n.settings with
    | .source _ => sourceOutcome points n.id n.settings
    | _ => .ok (n.settings.combine ((c.inputsOf i).map fun input => valueAt values input.2))

/-- Evaluates the nodes of an order, one after the other. -/
def fill (c : Checked α) (points : Points α) :
    List Nat → List (Outcome α) → Except (EvaluationError α) (List (Outcome α))
  | [], values => .ok values
  | i :: rest, values => do
    let value ← nodeOutcome c points values i
    fill c points rest (values.set i value)

/-- The outcome of every node by position. -/
def run (e : Evaluator α) (points : Points α) :
    Except (EvaluationError α) (List (Outcome α)) :=
  fill e.checked points e.order (List.replicate e.checked.size .unknown)

/-- Outcomes with the ids of their nodes. -/
def named (e : Evaluator α) (values : List (Outcome α)) : List (String × Outcome α) :=
  (e.checked.model.nodes.map (·.id)).zip values

/-- The grade in words. -/
def reason (e : Evaluator α) (points : Points α) (values : List (Outcome α)) : Value α → String
  | .fail => "Failed: " ++ explain (e.checked.causes values points)
  | .number x => "Final grade " ++ (Value.number x).text

/-- Computes the final grade from the points of all sources that contribute to it. -/
def evaluate (e : Evaluator α) (points : Points α) :
    Except (EvaluationError α) (Evaluation α) :=
  let missing := e.checked.requiredSources.filter fun id => (points id).isNone
  if !missing.isEmpty then .error (.missingInputs missing)
  else do
    let values ← e.run points
    match (valueAt values e.checked.sink).known? with
    | none => .error (.missingInputs [])
    | some grade =>
      let known := (e.named values).filterMap fun n => n.2.known?.map fun value => (n.1, value)
      return { grade, nodes := known, reason := e.reason points values grade }

/-- Computes as much as the points allow. -/
def preview (e : Evaluator α) (points : Points α) : Except (EvaluationError α) (Preview α) := do
  let values ← e.run points
  return { grade := valueAt values e.checked.sink, nodes := e.named values }

/-- Evaluates many sets of points, each on its own, with the results in their order. -/
def evaluateBatch {κ : Type} (e : Evaluator α) (batch : List (κ × Points α)) :
    List (κ × Except (EvaluationError α) (Evaluation α)) :=
  batch.map fun entry => (entry.1, e.evaluate entry.2)

/-- Previews many sets of points, each on its own, with the results in their order. -/
def previewBatch {κ : Type} (e : Evaluator α) (batch : List (κ × Points α)) :
    List (κ × Except (EvaluationError α) (Preview α)) :=
  batch.map fun entry => (entry.1, e.preview entry.2)

end Evaluator

/-! ## Stored form -/

def Evaluation.toJson (e : Evaluation Float) : Json :=
  .record
    [("final_grade", e.grade.toJson),
      ("node_values", .record (e.nodes.map fun n => (n.1, n.2.toJson))), ("reason", .str e.reason)]

def Preview.toJson (p : Preview Float) : Json :=
  .record
    [("final_grade", p.grade.toJson),
      ("node_values", .record (p.nodes.map fun n => (n.1, n.2.toJson)))]

end Grading
