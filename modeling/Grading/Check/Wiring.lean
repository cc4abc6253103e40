import Grading.Check.Links
import Grading.Fault

/-!
# Checks of ids, edges and slots

Ids are used once, edges join nodes that exist, there is one sink with one input, and the wired
slots of every node are those that it has: none for a source, at least one for a sum or a
maximum, those with a weight for an average, slot `0` alone for all others.
-/

namespace Grading

variable {α : Type}

namespace Model

/-! ## Ids and ends -/

/-- One fault for every id that is used more than once, in ascending order. -/
def duplicateFaults (m : Model α) : List (Fault α) :=
  let ids := m.nodes.map (·.id)
  (sortTexts (ids.filter fun id => 1 < ids.count id).eraseDups).map .duplicateNode

/-- The ends of an edge that are no nodes, one that is both ends named once. -/
def missingEnds (m : Model α) (e : Edge) : List String :=
  let ends := if e.source = e.target then [e.source] else [e.source, e.target]
  ends.filter fun id => (m.position? id).isNone

/-- One fault for every edge that is no link, in the order of the edges. -/
def danglingFaults (m : Model α) : List (Fault α) :=
  (m.edges.filter fun e => (m.link? e).isNone).map fun e => .danglingEdge e.id (m.missingEnds e)

/-- There is one sink and one link into it. -/
def sinkFaults (m : Model α) (links : List Link) : List (Fault α) :=
  match m.sinks with
  | [] => [.noSink]
  | [sink] =>
    let edges := (Link.into links sink).map (·.edge.id)
    if edges.length = 1 then [] else [.sinkInputs (m.idAt sink) edges]
  | sinks => [.manySinks (sinks.map m.idAt)]

end Model

/-! ## Slots -/

/-- The links read the output that nodes have. -/
def outputFaults (links : List Link) : List (Fault α) :=
  (links.filter fun l => l.edge.output ≠ 0).map fun l =>
    .foreignOutput l.edge.id l.edge.output l.edge.source

/-- The slots of a node that several edges lead into. -/
def collisionFaults (node : String) (wiring : List (Slot × List Edge)) : List (Fault α) :=
  (wiring.filter fun w => 1 < w.2.length).map fun w => .slotCollision node w.1 (w.2.map (·.id))

/-- The wired slots of a node with one input that it does not have, and the one it lacks.  A
sink without an input is a matter of the sink check. -/
def singleInputFaults (kind : Kind) (node : String) (wiring : List (Slot × List Edge)) :
    List (Fault α) :=
  ((wiring.filter fun w => w.1 ≠ 0).map fun w => .foreignSlot kind node w.1 (w.2.map (·.id))) ++
    if kind ≠ .sink && !wiring.any (fun w => w.1 = 0) then [.noInput kind node] else []

/-- The slots with a weight but no edge, then those with an edge but no weight. -/
def weightFaults (node : String) (weights : SlotMap α) (wiring : List (Slot × List Edge)) :
    List (Fault α) :=
  ((weights.slots.filter fun slot => !wiring.any fun w => w.1 = slot).map fun slot =>
      .unwiredWeight node slot) ++
    (wiring.filter fun w => !weights.contains w.1).map fun w =>
      .unweightedSlot node w.1 (w.2.map (·.id))

/-- Does the wiring of a node fit its type? -/
def arityFaults (n : Node α) (wiring : List (Slot × List Edge)) : List (Fault α) :=
  match n.settings with
  | .source _ =>
    if wiring.isEmpty then []
    else [.sourceInputs n.id (wiring.flatMap fun w => w.2.map (·.id))]
  | .addition => if wiring.isEmpty then [.noInputs n.kind n.id] else []
  | .max _ => if wiring.isEmpty then [.noInputs n.kind n.id] else []
  | .average s => weightFaults n.id s.weights wiring
  | .stepper _ => singleInputFaults n.kind n.id wiring
  | .minPoints _ => singleInputFaults n.kind n.id wiring
  | .round _ => singleInputFaults n.kind n.id wiring
  | .sink => singleInputFaults n.kind n.id wiring

/-- The outputs of all links, then for every node that is the first of its id its collisions and
its arity. -/
def Model.slotFaults (m : Model α) (links : List Link) : List (Fault α) :=
  outputFaults links ++
    m.firstNodes.flatMap fun p =>
      let wiring := Link.wiring links p.2
      collisionFaults p.1.id wiring ++ arityFaults p.1 wiring

end Grading
