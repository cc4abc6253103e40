import Grading.Model.Settings
import Grading.Order

/-!
# Grading models

A model is a list of nodes and a list of edges.  An edge carries the value of one node into a
numbered slot of another.  A model is any such pair of lists: ids may repeat, edges may lead
nowhere, and it is for the checks to say so.
-/

namespace Grading

/-- A node of a model. -/
structure Node (α : Type) where
  id : String
  settings : Settings α
deriving BEq

def Node.kind {α : Type} (n : Node α) : Kind := n.settings.kind

/-- A connection from an output of one node to a slot of another. -/
structure Edge where
  id : String
  source : String
  /-- The output that is read; nodes have the output `0` only. -/
  output : UInt32 := 0
  target : String
  slot : Slot
deriving DecidableEq

/-- The edge from the output `0` of `source`, with an id made of its ends. -/
def Edge.join (source target : String) (slot : Slot) : Edge where
  id := source ++ "-" ++ target ++ ":" ++ toString slot.toNat
  source := source
  target := target
  slot := slot

/-- The description of how a course grade is computed. -/
structure Model (α : Type) where
  nodes : List (Node α)
  edges : List Edge
deriving BEq

namespace Model

variable {α : Type}

/-- The first node of that id. -/
def node? (m : Model α) (id : String) : Option (Node α) := m.nodes.find? fun n => n.id = id

/-- The position of the first node of that id. -/
def position? (m : Model α) (id : String) : Option Nat := m.nodes.findIdx? fun n => n.id = id

/-- The edges into a node by slot, and by id where they share one. -/
def incoming (m : Model α) (id : String) : List Edge :=
  sortBy (fun a b => decide (a.slot < b.slot) || (a.slot = b.slot && decide (a.id ≤ b.id)))
    (m.edges.filter fun e => e.target = id)

/-- The ids of the sources in the order of the nodes. -/
def sourceIds (m : Model α) : List String :=
  (m.nodes.filter fun n => n.kind = .source).map (·.id)

/-- The sink, if there is exactly one. -/
def sink? (m : Model α) : Option (Node α) :=
  match m.nodes.filter fun n => n.kind = .sink with
  | [sink] => some sink
  | _ => none

end Model

end Grading
