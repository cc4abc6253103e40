import Grading.Checked

/-!
# Evaluation order

The order in which the nodes of a checked model are evaluated: every node after all nodes that
it reads from, and among the nodes that could come next the one with the least id.

Each node waits for as many inputs as it has links.  Placing a node ends one wait for every link
out of it; a node whose last wait ends becomes ready.  The ready nodes are kept in order, so the
next one is the head of their list.
-/

namespace Grading

variable {α : Type}

/-- The state of scheduling. -/
structure Frontier where
  /-- For each node the number of its inputs that are not placed yet. -/
  waiting : List Nat
  /-- The nodes that could come next with their ids, least id first. -/
  ready : List (String × Nat)
  /-- The nodes placed so far. -/
  placed : List Nat
deriving DecidableEq

namespace Frontier

/-- By id, and by position where ids are the same. -/
def comesBefore (a b : String × Nat) : Bool :=
  decide (a.1 < b.1) || (a.1 = b.1 && decide (a.2 ≤ b.2))

/-- Before anything is placed, the nodes without inputs are ready. -/
def start (c : Checked α) : Frontier :=
  let waiting := (List.range c.size).map fun i => (c.inputsOf i).length
  let free := c.model.nodes.zipIdx.filter fun p => waiting.getD p.2 0 = 0
  { waiting, ready := sortBy comesBefore (free.map fun p => (p.1.id, p.2)), placed := [] }

/-- Ends one wait of a node. -/
def release (c : Checked α) (f : Frontier) (i : Nat) : Frontier :=
  let left := f.waiting.getD i 0 - 1
  { f with
    waiting := f.waiting.set i left
    ready := if left = 0 then insertBy comesBefore (c.idAt i, i) f.ready else f.ready }

/-- Places the first ready node; nothing happens without one. -/
def step (c : Checked α) (f : Frontier) : Frontier :=
  match f.ready with
  | [] => f
  | (_, i) :: ready =>
    (c.dependentsOf i).foldl (release c) { f with ready, placed := f.placed ++ [i] }

/-- Places up to `count` nodes. -/
def run (c : Checked α) : Nat → Frontier → Frontier
  | 0, f => f
  | count + 1, f => run c count (f.step c)

end Frontier

/-- The positions of the nodes in evaluation order. -/
def Checked.order (c : Checked α) : List Nat := (Frontier.run c c.size (Frontier.start c)).placed

/-- The ids of the nodes in evaluation order. -/
def Checked.orderIds (c : Checked α) : List String := c.order.map c.idAt

end Grading
