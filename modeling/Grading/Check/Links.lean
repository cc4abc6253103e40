import Grading.Model.Basic

/-!
# Links between positions

Edges name their ends by id.  A link is an edge whose ends both exist, with the positions of the
nodes that it joins; an id that several nodes share means the first of them.  All checks but the
one for dangling edges see links only.
-/

namespace Grading

/-- An edge between two nodes that exist. -/
structure Link where
  source : Nat
  target : Nat
  edge : Edge
deriving DecidableEq

variable {α : Type}

namespace Model

/-- The link of an edge, if both of its ends exist. -/
def link? (m : Model α) (e : Edge) : Option Link := do
  let source ← m.position? e.source
  let target ← m.position? e.target
  return { source, target, edge := e }

/-- The links in the order of the edges. -/
def links (m : Model α) : List Link := m.edges.filterMap m.link?

/-- The nodes that are the first of their id, with their positions. -/
def firstNodes (m : Model α) : List (Node α × Nat) :=
  m.nodes.zipIdx.filter fun p => m.position? p.1.id = some p.2

/-- The positions of the sinks in ascending order. -/
def sinks (m : Model α) : List Nat :=
  (m.firstNodes.filter fun p => p.1.kind = .sink).map (·.2)

/-- The id of the node at a position. -/
def idAt (m : Model α) (i : Nat) : String := (m.nodes[i]?.map (·.id)).getD ""

end Model

namespace Link

/-- The links into a node. -/
def into (links : List Link) (i : Nat) : List Link := links.filter fun l => l.target = i

/-- The links out of a node. -/
def outOf (links : List Link) (i : Nat) : List Link := links.filter fun l => l.source = i

/-- The wired slots of a node in ascending order, each with its edges in the order of the model.
-/
def wiring (links : List Link) (i : Nat) : List (Slot × List Edge) :=
  let edges := (into links i).map (·.edge)
  let slots := (sortBy (fun a b => decide (a ≤ b)) (edges.map (·.slot))).eraseDups
  slots.map fun slot => (slot, edges.filter fun e => e.slot = slot)

end Link

end Grading
