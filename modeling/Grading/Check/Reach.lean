import Grading.Check.Links
import Grading.Fault

/-!
# Which nodes matter

A node contributes to the final grade if links lead from it to a sink.  The search runs
backwards from the sinks, breadth first; a node is queued when it is found, and found once, so
as many rounds as there are nodes empty the queue.
-/

namespace Grading

variable {α : Type}

/-- Goes on from the first node of the queue; `found` holds every node that was ever queued. -/
def spread (previous : Nat → List Nat) : Nat → List Nat → List Nat → List Nat
  | 0, _, found => found
  | _, [], found => found
  | fuel + 1, i :: queue, found =>
    let new := (previous i).eraseDups.filter fun j => !found.contains j
    spread previous fuel (queue ++ new) (found ++ new)

/-- The nodes from which links lead to a sink, in the order in which they are found. -/
def Model.contributors (m : Model α) (links : List Link) : List Nat :=
  let table := (List.range m.nodes.length).map fun i => (Link.into links i).map (·.source)
  spread (fun i => table.getD i []) m.nodes.length m.sinks m.sinks

/-- One fault for every id whose node does not contribute, in ascending order; without a sink
there is nothing to contribute to. -/
def Model.reachFaults (m : Model α) (contributors : List Nat) : List (Fault α) :=
  if m.sinks.isEmpty then []
  else
    (sortTexts ((m.firstNodes.filter fun p => !contributors.contains p.2).map (·.1.id))).map
      .unreachable

end Grading
