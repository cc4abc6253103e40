import Grading.Check.Links
import Grading.Fault

/-!
# Circles of nodes

A depth-first search in which a node is white before it is entered, grey while it is on the path
and black once it is left.  A link from the end of the path to a grey node closes a circle: the
part of the path from that node on.

`visit` takes the colours and the path as they are and gives them back changed, so the search
can be started from any state.  Its fuel is the number of nodes that it may enter one inside the
other, for which the number of all nodes is enough.
-/

namespace Grading

variable {α : Type}

/-! ## The search -/

inductive Colour where
  | white
  | grey
  | black
deriving DecidableEq

/-- The state of a depth-first search. -/
structure Search where
  /-- The colour of each node; nodes beyond the list count as black. -/
  colours : List Colour
  /-- The nodes entered and not yet left, outermost first. -/
  path : List Nat
  /-- The circles met so far, first one first. -/
  circles : List (List Nat)
deriving DecidableEq

namespace Search

def colour (s : Search) (i : Nat) : Colour := s.colours.getD i .black

/-- Goes into a node. -/
def enter (s : Search) (i : Nat) : Search :=
  { s with colours := s.colours.set i .grey, path := s.path ++ [i] }

/-- Goes back out of a node, the last one entered. -/
def leave (s : Search) (i : Nat) : Search :=
  { s with colours := s.colours.set i .black, path := s.path.dropLast }

/-- Notes the circle that a link back to a grey node closes. -/
def close (s : Search) (i : Nat) : Search :=
  { s with circles := s.circles ++ [s.path.dropWhile (· ≠ i)] }

/-- Enters a white node, goes through its successors and leaves it again. -/
def visit (next : Nat → List Nat) : Nat → Nat → Search → Search
  | 0, _, s => s
  | fuel + 1, i, s =>
    ((next i).foldl (fun s j =>
      match s.colour j with
      | .white => visit next fuel j s
      | .grey => s.close j
      | .black => s) (s.enter i)).leave i

/-- No node of `count` has been entered. -/
def start (count : Nat) : Search := ⟨List.replicate count .white, [], []⟩

/-- Visits the roots that are still white, one after the other. -/
def run (next : Nat → List Nat) (count : Nat) (roots : List Nat) : Search :=
  roots.foldl (fun s root =>
    match s.colour root with
    | .white => visit next count root s
    | _ => s) (start count)

end Search

/-! ## Circles of a model -/

/-- The nodes that the links out of a node lead to, in the order of their ids. -/
def Link.successors (links : List Link) (i : Nat) : List Nat :=
  ((sortBy (fun a b => decide (a.edge.target ≤ b.edge.target)) (outOf links i)).map
    (·.target)).eraseDups

/-- Of circles with the same nodes the first one stays. -/
def distinctCircles (circles : List (List Nat)) : List (List Nat) :=
  let keyed := circles.map fun circle => (sortBy (fun a b => decide (a ≤ b)) circle, circle)
  (keyed.foldl (fun kept entry =>
    if kept.any fun other => other.1 = entry.1 then kept else kept ++ [entry]) []).map (·.2)

/-- The positions of the nodes in the order of their ids. -/
def Model.positionsById (m : Model α) : List Nat :=
  (sortBy (fun a b => decide (a.1.id ≤ b.1.id)) m.nodes.zipIdx).map (·.2)

/-- The circles of a model as the search meets them. -/
def Model.circles (m : Model α) (links : List Link) : List (List Nat) :=
  let table := (List.range m.nodes.length).map (Link.successors links)
  distinctCircles
    (Search.run (fun i => table.getD i []) m.nodes.length m.positionsById).circles

/-- The same circle, started at its least entry. -/
def startAtLeast (ids : List String) : List String :=
  match sortTexts ids with
  | [] => []
  | least :: _ => ids.dropWhile (· ≠ least) ++ ids.takeWhile (· ≠ least)

/-- One fault for every set of nodes that a circle runs through. -/
def Model.cycleFaults (m : Model α) (links : List Link) : List (Fault α) :=
  (m.circles links).map fun circle =>
    let inside := links.filter fun l => circle.contains l.source && circle.contains l.target
    .cycle (startAtLeast (circle.map m.idAt)) (inside.map (·.edge.id))

end Grading
