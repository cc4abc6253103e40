import Grading.Json.Basic
import Grading.Decimal.Digits

/-!
# Shapes of JSON values

How records, variants and keyed tables are laid out in JSON, whatever they hold.

* A record is an object, or the array of its fields in order.  Members it does not know are
  passed over; a field written twice, also under another of its names, is refused, and so are
  surplus array items.
* A variant is its name alone, or an object with that name as its only member.
* A table keyed by slots has whole decimal numbers as names; of equal keys the last one counts.
-/

namespace Grading.Json

/-! ## Values -/

def text? : Json → Option String
  | .str t => some t
  | _ => none

def bool? : Json → Option Bool
  | .bool b => some b
  | _ => none

/-- A number that is not infinite or undefined. -/
def finite? (x : Float) : Option Float := if x.isFinite then some x else none

/-- Whole numbers serve as doubles too. -/
def float? : Json → Option Float
  | .int n => finite? (Float.ofInt n)
  | .real x => finite? x
  | _ => none

/-- A whole number of 32 bits; `2.0` is not one. -/
def uint32? : Json → Option UInt32
  | .int n => if 0 ≤ n && n.toNat < UInt32.size then some (UInt32.ofNat n.toNat) else none
  | _ => none

/-- The items of an array, each one read by `f`. -/
def list? {β : Type} (f : Json → Option β) : Json → Option (List β)
  | .arr items => items.mapM f
  | _ => none

/-- An infinite or undefined number has no JSON form. -/
def ofFloat (x : Float) : Json := if x.isFinite then .real x else .null

def ofUInt32 (n : UInt32) : Json := .int n.toNat

def ofList {β : Type} (f : β → Json) (xs : List β) : Json := .arr (xs.map f)

/-! ## Records -/

/-- The members that carry one of the names. -/
def membersNamed (names : List String) (members : List (Name × Json)) : List (Name × Json) :=
  members.filter fun m => m.1.text?.any names.contains

/-- The fields of a record, given for each field the names it goes by; a field that is not there
is `none`. -/
def fields? (fields : List (List String)) : Json → Option (List (Option Json))
  | .arr items =>
    if items.length ≤ fields.length then
      some (items.map some ++ List.replicate (fields.length - items.length) none)
    else none
  | .obj members =>
    if members.all fun m => m.1.text?.isSome then
      fields.mapM fun names =>
        match membersNamed names members with
        | [] => some none
        | [m] => some (some m.2)
        | _ => none
    else none
  | _ => none

/-- A field that may be missing or null. -/
def optional? {β : Type} (f : Json → Option β) : Option Json → Option (Option β)
  | none => some none
  | some .null => some none
  | some j => (f j).map some

/-- A field that may be missing, but not null. -/
def orElse? {β : Type} (f : Json → Option β) (default : β) : Option Json → Option β
  | none => some default
  | some j => f j

/-! ## Variants -/

/-- The name of a variant and what it carries. -/
def variant? : Json → Option (String × Option Json)
  | .str name => some (name, none)
  | .obj [(name, content)] => name.text?.map fun t => (t, some content)
  | _ => none

/-- Nothing, or a null in its place. -/
def isNothing : Option Json → Bool
  | none => true
  | some .null => true
  | _ => false

/-- The name of a variant that carries nothing. -/
def unitVariant? (j : Json) : Option String := do
  let (name, content) ← variant? j
  if isNothing content then some name else none

/-! ## Tables -/

/-- The members of an object whose names are texts. -/
def table? {β : Type} (f : Json → Option β) : Json → Option (List (String × β))
  | .obj members => members.mapM fun m => do
    let name ← m.1.text?
    return (name, ← f m.2)
  | _ => none

/-- A 32-bit number as a name: digits without a sign, a superfluous zero or an escape. -/
def slotName? : Name → Option UInt32
  | .plain t =>
    let ds := t.toList
    if ds.isEmpty || !ds.all Digits.isDigit then none
    else if ds.length ≠ 1 && ds.head? = some '0' then none
    else if Digits.toNat ds < UInt32.size then some (UInt32.ofNat (Digits.toNat ds)) else none
  | _ => none

/-- The members of an object whose names are slots. -/
def slotTable? {β : Type} (f : Json → Option β) : Json → Option (List (UInt32 × β))
  | .obj members => members.mapM fun m => do
    let slot ← slotName? m.1
    return (slot, ← f m.2)
  | _ => none

end Grading.Json
