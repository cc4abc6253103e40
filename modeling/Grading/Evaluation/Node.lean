import Grading.Model.Settings
import Grading.Value

/-!
# The rules of the node types

One rule per node type, from the numbers at the inputs in slot order to the number that the node
gives out.  A failed input fails every node, so numbers elsewhere cannot make up for a
requirement that was not met.  A source has no inputs in the model; its rule is given the points
of its part of the course.
-/

namespace Grading

variable {α : Type} [Number α]

/-- The only input of a node with one input, zero if there is none. -/
def firstInput (xs : List α) : α := xs.head?.getD Number.zero

/-- Fails a value below the minimum, if the policy says so. -/
def requirePoints (x : α) (minPoints : Option α) (onFail : FailPolicy) : Value α :=
  match minPoints with
  | some least => if Number.lt x least && onFail = .courseFail then .fail else .number x
  | none => .number x

/-- The mean of the inputs, each with the weight of its slot.  The weights are divided by the
largest one first, so that their sum cannot overflow. -/
def weightedAverage (s : AverageSettings α) (xs : List α) : α :=
  let weights := s.weights.values
  let largest := weights.foldl Number.larger Number.zero
  if Number.le largest Number.zero then Number.zero
  else
    let total := Number.sum (weights.map fun w => w / largest)
    Number.sum ((weights.zip xs).map fun p => p.1 / largest / total * p.2)

/-- The range that a number falls into: a middle point belongs to the range above it. -/
def StepperSettings.range (s : StepperSettings α) (x : α) : Nat :=
  (s.middlePoints.findIdx? fun p => Number.lt x p).getD s.middlePoints.length

/-- What a stepper gives out for a number. -/
def StepperSettings.output (s : StepperSettings α) (x : α) : α :=
  match s.outputs[s.range x]? with
  | some (.value y) => y
  | some .same => x
  | none => x

/-- A number rounded to a whole one. -/
def Rounding.apply : Rounding → α → α
  | up, x => Number.ceil x
  | closest, x => Number.roundHalfUp x
  | down, x => Number.floor x

/-- What a node gives out for numbers at its inputs. -/
def Settings.applyTo (s : Settings α) (xs : List α) : Value α :=
  match s with
  | .source s => requirePoints (firstInput xs) s.minPoints s.onFail
  | .addition => .number (Number.sum xs)
  | .average s => .number (weightedAverage s xs)
  | .stepper s => .number (s.output (firstInput xs))
  | .sink => .number (firstInput xs)
  | .minPoints s => requirePoints (firstInput xs) (some s.minPoints) s.onFail
  | .max minValue => .number (xs.foldl Number.larger minValue)
  | .round mode => .number (mode.apply (firstInput xs))

/-- What a node gives out for the values at its inputs. -/
def Settings.evaluate (s : Settings α) (inputs : List (Value α)) : Value α :=
  match inputs.mapM Value.number? with
  | some xs => s.applyTo xs
  | none => .fail

/-- What can be said about a node: a failed input counts before an unknown one. -/
def Settings.combine (s : Settings α) (inputs : List (Outcome α)) : Outcome α :=
  if inputs.any Outcome.isFail then .fail
  else
    match inputs.mapM Outcome.known? with
    | some values => (s.evaluate values).outcome
    | none => .unknown

end Grading
