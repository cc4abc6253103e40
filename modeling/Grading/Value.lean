import Grading.Number.Basic
import Grading.Json.Shape

/-!
# Values that nodes give out

A `Value` is a number or a failure.  An `Outcome` may also be unknown, when it depends on points
that have not been given.  `Outcome.known?` and `Value.outcome` go between the two.
-/

namespace Grading

/-- What a node gives out once all its points are known. -/
inductive Value (α : Type) where
  | number (x : α)
  /-- A requirement was not met here or further up. -/
  | fail
deriving BEq

/-- What can be said about a node when some points may be missing. -/
inductive Outcome (α : Type) where
  | number (x : α)
  | fail
  /-- Depends on points that have not been given. -/
  | unknown
deriving BEq

variable {α : Type}

/-! ## Operations -/

namespace Value

def isFail : Value α → Bool
  | fail => true
  | number _ => false

def number? : Value α → Option α
  | number x => some x
  | fail => none

def outcome : Value α → Outcome α
  | number x => .number x
  | fail => .fail

/-- The value as a grade. -/
def text [Number α] : Value α → String
  | number x => Number.gradeText x
  | fail => "fail"

end Value

namespace Outcome

def isFail : Outcome α → Bool
  | fail => true
  | _ => false

def isUnknown : Outcome α → Bool
  | unknown => true
  | _ => false

def known? : Outcome α → Option (Value α)
  | number x => some (.number x)
  | fail => some .fail
  | unknown => none

/-- The outcome as a grade. -/
def text [Number α] : Outcome α → String
  | number x => Number.gradeText x
  | fail => "fail"
  | unknown => "-"

end Outcome

/-! ## Stored form

A value is a record of its type and its content: an object, in which a failure needs no
content, or the array of both.  In an object the type is a variant that carries nothing, in
either form of a variant; in an array it is its name alone. -/

/-- The type of a stored value and its content. -/
def Json.tagged? (j : Json) : Option (String × Option Json) := do
  match j with
  | .arr [.str tag, content] => return (tag, some content)
  | .obj _ =>
    match ← j.fields? [["type"], ["value"]] with
    | [some tag, content] => return (← tag.unitVariant?, content)
    | _ => none
  | _ => none

def Value.toJson : Value Float → Json
  | .number x => .record [("type", .str "number"), ("value", Json.ofFloat x)]
  | .fail => .record [("type", .str "fail")]

def Value.ofJson? (j : Json) : Option (Value Float) := do
  match ← j.tagged? with
  | ("number", some content) => return .number (← content.float?)
  | ("fail", content) => if Json.isNothing content then some .fail else none
  | _ => none

def Outcome.toJson : Outcome Float → Json
  | .number x => .record [("type", .str "number"), ("value", Json.ofFloat x)]
  | .fail => .record [("type", .str "fail")]
  | .unknown => .record [("type", .str "unevaluable")]

def Outcome.ofJson? (j : Json) : Option (Outcome Float) := do
  match ← j.tagged? with
  | ("number", some content) => return .number (← content.float?)
  | ("fail", content) => if Json.isNothing content then some .fail else none
  | ("unevaluable", content) => if Json.isNothing content then some .unknown else none
  | _ => none

end Grading
