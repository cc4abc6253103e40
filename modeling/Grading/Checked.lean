import Grading.Check.Wiring
import Grading.Check.Limits
import Grading.Check.Cycles
import Grading.Check.Reach

/-!
# Checked models

`Model.faults` lists everything that is wrong with a model, `validate` accepts it if that is
nothing, or nothing but warnings.  What is accepted comes with tables of its links, so that
evaluation works on positions and never looks up an id.
-/

namespace Grading

variable {α : Type}

/-- A model that was accepted. -/
structure Checked (α : Type) where
  model : Model α
  /-- For each node the slots that are wired and the nodes wired to them, in ascending order. -/
  inputs : List (List (Slot × Nat))
  /-- For each node the nodes that read from it in ascending order, once for every link. -/
  dependents : List (List Nat)
  /-- The position of the sink. -/
  sink : Nat
  /-- The positions of the nodes that contribute to the final grade. -/
  contributors : List Nat
  warnings : List (Fault α)

namespace Checked

def size (c : Checked α) : Nat := c.model.nodes.length

def inputsOf (c : Checked α) (i : Nat) : List (Slot × Nat) := c.inputs.getD i []

def dependentsOf (c : Checked α) (i : Nat) : List Nat := c.dependents.getD i []

def idAt (c : Checked α) (i : Nat) : String := c.model.idAt i

/-- The position of the node of that id. -/
def position? (c : Checked α) (id : String) : Option Nat := c.model.position? id

/-- The sources that contribute to the final grade, in ascending order of their ids. -/
def requiredSources (c : Checked α) : List String :=
  sortTexts ((c.model.nodes.zipIdx.filter fun p =>
    p.1.kind = .source && c.contributors.contains p.2).map (·.1.id))

end Checked

/-- The wired slots of a node with their sources. -/
def Link.inputs (links : List Link) (i : Nat) : List (Slot × Nat) :=
  sortBy (fun a b => decide (a.1 < b.1) || (a.1 = b.1 && decide (a.2 ≤ b.2)))
    ((into links i).map fun l => (l.edge.slot, l.source))

/-- The nodes that read from a node. -/
def Link.dependents (links : List Link) (i : Nat) : List Nat :=
  sortBy (fun a b => decide (a ≤ b)) ((outOf links i).map (·.target))

variable [Number α]

/-- Everything that is wrong with a model, check by check. -/
def Model.faults (m : Model α) : List (Fault α) :=
  let links := m.links
  m.duplicateFaults ++ m.danglingFaults ++ m.sinkFaults links ++ m.slotFaults links ++
    m.settingsFaults ++ m.cycleFaults links ++ m.reachFaults (m.contributors links)

/-- Accepts a model without faults or, unless `strict`, with warnings alone; else gives all
faults, warnings included. -/
def validate (strict : Bool) (m : Model α) : Except (List (Fault α)) (Checked α) :=
  let faults := m.faults
  if faults.any fun f => strict || !f.isWarning then .error faults
  else
    match m.sinks with
    | [sink] =>
      let links := m.links
      let positions := List.range m.nodes.length
      .ok { model := m
            inputs := positions.map (Link.inputs links)
            dependents := positions.map (Link.dependents links)
            sink
            contributors := m.contributors links
            warnings := faults }
    | _ => .error faults

end Grading
