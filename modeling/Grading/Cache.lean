import Grading.Evaluation.Basic

/-!
# A cache of evaluators

Checking and ordering a model takes longer than evaluating it, so evaluators are kept under a key
of their model.  A kept evaluator is given out only if its model is equal to the one asked for; a
model with the same key that is not equal takes its place.

Each evaluator that is built gets a serial number, by which "the very same evaluator" is told
from "one that is just like it".  What serves as a key is a parameter of the operations, so what is
said of them holds whatever keys collide.

Calls come one after the other.  The lock under which threads share a cache, and the second look
that it makes necessary after a model was checked, are left out.
-/

namespace Grading

variable {α κ : Type}

/-- An evaluator as it was built. -/
structure Compiled (α : Type) where
  serial : Nat
  evaluator : Evaluator α

/-- The model that was compiled. -/
def Compiled.model (c : Compiled α) : Model α := c.evaluator.checked.model

/-- Evaluators by the key of their model. -/
structure Cache (κ α : Type) where
  /-- Are warnings refused too? -/
  strict : Bool
  entries : List (κ × Compiled α)
  /-- The serial number of the next evaluator. -/
  next : Nat

namespace Cache

def empty (strict : Bool) : Cache κ α := ⟨strict, [], 0⟩

def size (c : Cache κ α) : Nat := c.entries.length

def isEmpty (c : Cache κ α) : Bool := c.entries.isEmpty

/-- Forgets all evaluators. -/
def clear (c : Cache κ α) : Cache κ α := { c with entries := [] }

/-- The entry under a key. -/
def get? [BEq κ] (c : Cache κ α) (key : κ) : Option (Compiled α) :=
  (c.entries.find? fun e => e.1 == key).map (·.2)

/-- Puts the next evaluator under a key, in place of the one that is there. -/
def insert [BEq κ] (c : Cache κ α) (key : κ) (evaluator : Evaluator α) : Cache κ α :=
  let others := c.entries.filter fun e => !(e.1 == key)
  { c with entries := others ++ [(key, ⟨c.next, evaluator⟩)], next := c.next + 1 }

variable [BEq κ] [Number α]

/-- The kept evaluator of a model. -/
def lookup? (keyOf : Model α → κ) (c : Cache κ α) (m : Model α) : Option (Compiled α) :=
  (c.get? (keyOf m)).filter fun entry => entry.model == m

/-- The evaluator of a model, kept or built, or the faults that refuse it.  Nothing is kept of a
refused model. -/
def compile (keyOf : Model α → κ) (c : Cache κ α) (m : Model α) :
    Except (List (Fault α)) (Compiled α) × Cache κ α :=
  match c.lookup? keyOf m with
  | some entry => (.ok entry, c)
  | none =>
    match validate c.strict m with
    | .error faults => (.error faults, c)
    | .ok checked =>
      let evaluator := Evaluator.ofChecked checked
      (.ok ⟨c.next, evaluator⟩, c.insert (keyOf m) evaluator)

end Cache

end Grading
