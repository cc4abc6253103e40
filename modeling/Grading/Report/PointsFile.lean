import Grading.Json.Reader
import Grading.Json.Shape

/-!
# Files of points

A file of points is either one table from source ids to points, or a list of students with a
table each.  Which of the two it is shows only once it has been read, so all of it has to be
legible, down to members that are then passed over.
-/

namespace Grading

/-- A student with points by source id. -/
structure Student where
  name : String
  points : List (String × Float)

/-- The contents of a file of points. -/
inductive PointsFile where
  | single (points : List (String × Float))
  | batch (students : List Student)

def pointsOfJson? (j : Json) : Option (List (String × Float)) := j.table? Json.float?

def Student.ofJson? (j : Json) : Option Student := do
  match ← j.fields? [["student"], ["inputs", "points"]] with
  | [some name, some points] =>
    return { name := ← name.text?, points := ← pointsOfJson? points }
  | _ => none

namespace PointsFile

/-- A list of students, or else a single table. -/
def ofJson? (j : Json) : Option PointsFile :=
  if j.isLegible && j.depth ≤ Json.maxDepth then
    match j.list? Student.ofJson? with
    | some students => some (batch students)
    | none => (pointsOfJson? j).map single
  else none

def read? (text : String) : Option PointsFile := do ofJson? (← Json.read? text)

end PointsFile

end Grading
