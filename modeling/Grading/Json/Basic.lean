/-!
# JSON values

A JSON text as it was written: object members keep their order and may repeat a name, whole
numbers are kept apart from doubles, and a name remembers whether it was written with escapes.
What a reader makes of repeated names is for the reader to say.

`generic?` gives the value that a program keeps when it does not know its shape: one member per
name, the last one written, and a bound on the nesting.
-/

namespace Grading

/-- The name of an object member as it was written. -/
inductive Json.Name where
  | plain (text : String)
  /-- Written with at least one escape. -/
  | escaped (text : String)
  /-- Holds half of a surrogate pair, so it is no text. -/
  | broken
deriving DecidableEq

/-- A JSON value as it was written. -/
inductive Json where
  | null
  | bool (b : Bool)
  /-- A whole number of at most 64 bits. -/
  | int (n : Int)
  | real (x : Float)
  | str (text : String)
  /-- Well formed, but without a value: a number that is too large, or half of a surrogate pair.
  -/
  | void
  | arr (items : List Json)
  | obj (members : List (Json.Name × Json))

namespace Json

/-- The text of a name, if it is one. -/
def Name.text? : Name → Option String
  | .plain t => some t
  | .escaped t => some t
  | .broken => none

/-- An object with plainly written names. -/
def record (members : List (String × Json)) : Json :=
  .obj (members.map fun m => (.plain m.1, m.2))

/-- Replaces the member of that name, or adds one. -/
def insertMember (name : String) (value : Json) :
    List (Name × Json) → List (Name × Json)
  | [] => [(.plain name, value)]
  | m :: ms =>
    if m.1 = .plain name then (.plain name, value) :: ms else m :: insertMember name value ms

mutual

/-- The value to keep, of at most `levels` nested containers: no part of it without a value, and
of members that share a name the last one. -/
def generic? (levels : Nat) : Json → Option Json
  | .arr items =>
    match levels with
    | 0 => none
    | levels + 1 => (genericItems? levels items).map .arr
  | .obj members =>
    match levels with
    | 0 => none
    | levels + 1 => (genericMembers? levels [] members).map .obj
  | .void => none
  | j => some j
termination_by structural j => j

def genericItems? (levels : Nat) : List Json → Option (List Json)
  | [] => some []
  | j :: rest => do
    let first ← j.generic? levels
    return first :: (← genericItems? levels rest)
termination_by structural items => items

def genericMembers? (levels : Nat) (kept : List (Name × Json)) :
    List (Name × Json) → Option (List (Name × Json))
  | [] => some kept
  | (name, j) :: rest => do
    let text ← name.text?
    let value ← j.generic? levels
    genericMembers? levels (insertMember text value kept) rest
termination_by structural members => members

end

/-- A text is at most this many containers deep where its values are kept. -/
def maxDepth : Nat := 127

mutual

/-- The number of nested containers. -/
def depth : Json → Nat
  | .arr items => depthItems items + 1
  | .obj members => depthMembers members + 1
  | _ => 0
termination_by structural j => j

def depthItems : List Json → Nat
  | [] => 0
  | j :: rest => max j.depth (depthItems rest)
termination_by structural items => items

def depthMembers : List (Name × Json) → Nat
  | [] => 0
  | (_, j) :: rest => max j.depth (depthMembers rest)
termination_by structural members => members

end

mutual

/-- Every part has a value and every name is a text. -/
def isLegible : Json → Bool
  | .void => false
  | .arr items => legibleItems items
  | .obj members => legibleMembers members
  | _ => true
termination_by structural j => j

def legibleItems : List Json → Bool
  | [] => true
  | j :: rest => j.isLegible && legibleItems rest
termination_by structural items => items

def legibleMembers : List (Name × Json) → Bool
  | [] => true
  | (name, j) :: rest => name.text?.isSome && j.isLegible && legibleMembers rest
termination_by structural members => members

end

end Json

end Grading
