import Grading.Model.Basic
import Grading.Fault

/-!
# Checks of node settings

Limits and weights are finite, no weight is negative and each average has a positive one, and
the parts of a stepper fit together: one output per step, one middle point between two steps,
all of them finite and the middle points strictly ascending.
-/

namespace Grading

variable {α : Type} [Number α]

/-- The first two neighbours that are not in strictly ascending order. -/
def firstDescent? : List α → Option (α × α)
  | a :: b :: rest => if Number.le b a then some (a, b) else firstDescent? (b :: rest)
  | _ => none

/-- What is wrong with a stepper, from its number of steps to its outputs. -/
def StepperSettings.flaws (s : StepperSettings α) : List (StepperFlaw α) :=
  let steps := s.steps.toNat
  (if steps = 0 then [.noSteps] else []) ++
  (if s.outputs.length ≠ steps then [.outputCount steps s.outputs.length] else []) ++
  (if s.middlePoints.length + 1 ≠ steps then
    [.middleCount (steps - 1) s.middlePoints.length] else []) ++
  (if s.middlePoints.all Number.isFinite then [] else [.middleNotFinite]) ++
  (match firstDescent? s.middlePoints with
    | some (a, b) => [.notAscending a b]
    | none => []) ++
  (if s.outputs.all fun
      | .value x => Number.isFinite x
      | .same => true
    then [] else [.outputNotFinite])

/-- A finite weight that is not negative. -/
def isWeight (w : α) : Bool := Number.isFinite w && !Number.lt w Number.zero

def isPositiveWeight (w : α) : Bool := Number.isFinite w && Number.lt Number.zero w

/-- What is wrong with the weights of an average. -/
def AverageSettings.weightFaults (node : String) (s : AverageSettings α) : List (Fault α) :=
  ((s.weights.entries.filter fun e => !isWeight e.2).map fun e => .badWeight node e.1 e.2) ++
    if s.weights.values.any isPositiveWeight then [] else [.noPositiveWeight node]

/-- A limit has to be finite. -/
def limitFaults (limit : Limit) (node : String) (value : α) : List (Fault α) :=
  if Number.isFinite value then [] else [.limitNotFinite limit node value]

/-- What is wrong with the settings of a node. -/
def Node.settingsFaults (n : Node α) : List (Fault α) :=
  match n.settings with
  | .stepper s => s.flaws.map (.stepper n.id)
  | .average s => s.weightFaults n.id
  | .source s => s.minPoints.toList.flatMap (limitFaults .minPoints n.id)
  | .minPoints s => limitFaults .minPoints n.id s.minPoints
  | .max minValue => limitFaults .minValue n.id minValue
  | _ => []

/-- What is wrong with the settings of the nodes, one after the other. -/
def Model.settingsFaults (m : Model α) : List (Fault α) := m.nodes.flatMap Node.settingsFaults

end Grading
