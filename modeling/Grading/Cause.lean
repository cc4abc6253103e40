import Grading.Checked
import Grading.Table
import Grading.Value

/-!
# Why a grade failed

A failed grade is explained by the nodes where a failure began: sources with too few points and
gates whose input has too few.  They are met walking back from the sink through failed values,
lower slots first, each node at most once.  The walk stops at a source and at a gate without
failed inputs, where a failure can only have begun.

The walk keeps a stack.  Every link is put on it at most once, after the sink, so that many
steps empty it.
-/

namespace Grading

variable {α : Type}

/-- The points that were given, by the id of the source. -/
abbrev Points (α : Type) := String → Option α

/-- A list of points; of two entries for one id the later counts. -/
def Points.ofList (entries : List (String × α)) : Points α := lastOf? entries

/-- A node where a failure began. -/
structure Cause (α : Type) where
  node : String
  kind : Kind
  /-- The value that was compared. -/
  value : α
  minPoints : α
deriving DecidableEq

/-- The state of the walk. -/
structure Trail (α : Type) where
  /-- The nodes still to look at, next one first. -/
  stack : List Nat
  visited : List Nat
  /-- The causes met so far, first one first. -/
  causes : List (Cause α)

section

variable (c : Checked α) (values : List (Outcome α)) (points : Points α)

/-- What a node gave out; nothing is known of nodes beyond the list. -/
def valueAt (i : Nat) : Outcome α := values.getD i .unknown

/-- The failed inputs of a node in slot order. -/
def failedInputs (i : Nat) : List Nat :=
  ((c.inputsOf i).map (·.2)).filter fun j => (valueAt values j).isFail

/-- The cause at a failed source: it has a minimum and was given points. -/
def sourceCause? (n : Node α) (s : SourceSettings α) : Option (Cause α) := do
  let value ← points n.id
  let least ← s.minPoints
  return { node := n.id, kind := .source, value, minPoints := least }

/-- The cause at a failed gate without failed inputs: its input is a number. -/
def gateCause? (n : Node α) (s : GateSettings α) (i : Nat) : Option (Cause α) := do
  let (_, source) ← (c.inputsOf i).head?
  match valueAt values source with
  | .number value => return { node := n.id, kind := .minPoints, value, minPoints := s.minPoints }
  | _ => none

/-- What a failed node adds to the walk: a cause, or its failed inputs. -/
def Trail.enter (t : Trail α) (n : Node α) (i : Nat) : Trail α :=
  match n.settings with
  | .source s => { t with causes := t.causes ++ (sourceCause? points n s).toList }
  | .minPoints s =>
    let failed := failedInputs c values i
    if failed.isEmpty then { t with causes := t.causes ++ (gateCause? c values n s i).toList }
    else { t with stack := failed ++ t.stack }
  | _ => { t with stack := failedInputs c values i ++ t.stack }

/-- Looks at the next node; passes over those that were visited and those that did not fail. -/
def Trail.step (t : Trail α) : Trail α :=
  match t.stack with
  | [] => t
  | i :: stack =>
    if t.visited.contains i then { t with stack }
    else
      let t := { t with stack, visited := i :: t.visited }
      match c.model.nodes[i]?, valueAt values i with
      | some n, .fail => t.enter c values points n i
      | _, _ => t

/-- Looks at up to `count` nodes. -/
def Trail.run : Nat → Trail α → Trail α
  | 0, t => t
  | count + 1, t => Trail.run count (t.step c values points)

/-- The causes of a failed grade, in the order in which the walk meets them. -/
def Checked.causes : List (Cause α) :=
  let steps := c.inputs.flatten.length + 1
  (Trail.run c values points steps ⟨[c.sink], [], []⟩).causes

end

/-! ## Text and stored form -/

/-- One comparison that failed. -/
def Cause.text [Number α] (c : Cause α) : String :=
  c.node ++ " (was " ++ Number.gradeText c.value ++ ") < " ++ Number.gradeText c.minPoints

/-- The causes in words. -/
def explain [Number α] (causes : List (Cause α)) : String :=
  if causes.isEmpty then "unknown cause" else String.intercalate ", " (causes.map Cause.text)

def Cause.toJson (c : Cause Float) : Json :=
  .record
    [("nodeId", .str c.node), ("kind", .str c.kind.name), ("value", Json.ofFloat c.value),
      ("minPoints", Json.ofFloat c.minPoints)]

end Grading
