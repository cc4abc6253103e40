import Grading.Evaluation.Basic
import Grading.Number.Double
import Grading.Editor.Import
import Grading.Report.Blank
import Grading.Report.Options
import Grading.Report.PointsFile
import Grading.Report.Timings

/-!
# Reports

What the command line prints: a summary of the model, then one grade, one preview or an entry for
every student, and at the end of an evaluation how long it took.  A report is a plain function of
the options and of the texts of the files; only the durations come from a clock, so standard output
is a function of a report and of them (`Report.stdout`).

The stages come one after the other, and the first that fails ends the report: the mappings of
type names, the import, the checks, the file of points, and the evaluation of a single table.  A
student whose points cannot be evaluated gets an error in an entry of their own.

Left out are log lines, which go to standard error, and what a reader of JSON says of a text that
it refuses.
-/

namespace Grading

/-- What is printed, and whether it is a success. -/
structure Report where
  /-- Standard output, up to the durations. -/
  out : String
  /-- Standard error. -/
  err : String
  success : Bool
  /-- Do the durations follow? -/
  timed : Bool
deriving DecidableEq

namespace Report

/-! ## Parts -/

/-- A text with the end of its line. -/
def line (text : String) : String := text ++ "\n"

/-- Ends a report with an error after what was printed. -/
def failed (out message : String) : Report :=
  { out, err := "\nError: " ++ line message, success := false, timed := false }

/-- Ends a report before any points are evaluated. -/
def succeeded (out : String) : Report := { out, err := "", success := true, timed := false }

/-- Ends a report after points were evaluated. -/
def evaluated (out : String) : Report := { out, err := "", success := true, timed := true }

/-- What the program exits with. -/
def exitCode (report : Report) : UInt32 := if report.success then 0 else 1

/-- How long the parts of a run took. -/
def performance (t : Timings) : String :=
  line "\n--- Performance Summary ---" ++ line ("Validation:           " ++ t.validation.text) ++
    line ("Evaluation:           " ++ t.evaluation.text) ++ line "-----------------------------" ++
      line ("Total Execution:      " ++ t.total.text)

/-- All of standard output. -/
def stdout (report : Report) (t : Timings) : String :=
  if report.timed then report.out ++ performance t else report.out

/-- A text filled up with blanks to a number of characters. -/
def padded (width : Nat) (text : String) : String :=
  text ++ String.ofList (List.replicate (width - text.length) ' ')

/-- Splits a mapping at its first equals sign. -/
def mapping? (mapping : String) : Option (String × String) :=
  let cs := mapping.toList
  match cs.dropWhile (· ≠ '=') with
  | _ :: type =>
    let name := cs.takeWhile (· ≠ '=')
    some (String.ofList (trimBlanks name), String.ofList (trimBlanks type))
  | [] => none

/-- The importer for all mappings, or the first one without an equals sign. -/
def importer (mappings : List String) : Except String Editor.Importer :=
  match mappings.find? fun m => (mapping? m).isNone with
  | some m => .error m
  | none => .ok (Editor.Importer.standard.withMappings (mappings.filterMap mapping?))

/-- The faults of a refused model. -/
def faultLines (faults : List (Fault Float)) : String :=
  line s!"\nGrading model is invalid ({faults.length} problems):" ++
    String.join (faults.map fun f => line ("  - " ++ f.finding.text))

/-- The summary of an accepted model. -/
def summary (e : Evaluator Float) : String :=
  let c := e.checked
  line s!"Grading model is valid: {c.size} nodes, {c.model.edges.length} edges" ++
    String.join (c.warnings.map fun f => line ("  warning: " ++ f.finding.text)) ++
    line ("Evaluation order: " ++ String.intercalate " -> " (e.order.map c.idAt))

/-- The grade of a single table of points. -/
def gradeLines (g : Evaluation Float) : String :=
  line ("\n  -> Final grade: " ++ g.grade.text) ++ line ("  -> Reason: " ++ g.reason)

/-- The outcomes of all nodes in evaluation order, then the grade. -/
def previewLines (e : Evaluator Float) (p : Preview Float) : String :=
  let outcomes := (e.order.map e.checked.idAt).filterMap fun id =>
    (p.node? id).map fun outcome => line ("  " ++ padded 24 id ++ " " ++ outcome.text)
  line "" ++ String.join outcomes ++ line ("\n  -> Final grade (preview): " ++ p.grade.text)

/-- The entry of a student for what the evaluation of their points came to. -/
def gradeEntry (name : String) : Except (EvaluationError Float) (Evaluation Float) → String
  | .ok g => line s!"  {name}: {g.grade.text} ({g.reason})"
  | .error error => line s!"  {name}: error: {error.message}"

/-- The entry of a student for what the preview of their points came to. -/
def previewEntry (name : String) : Except (EvaluationError Float) (Preview Float) → String
  | .ok p => line s!"  {name}: {p.grade.text} (preview)"
  | .error error => line s!"  {name}: error: {error.message}"

/-- The entries of a list of students, whose points are evaluated or previewed as one batch. -/
def entries (preview : Bool) (e : Evaluator Float) (students : List Student) : List String :=
  let batch := students.map fun s => (s.name, Points.ofList s.points)
  if preview then (e.previewBatch batch).map fun entry => previewEntry entry.1 entry.2
  else (e.evaluateBatch batch).map fun entry => gradeEntry entry.1 entry.2

/-! ## Stages -/

/-- The model in the text of a graph, or the report that ends without one. -/
def imported (o : Options) (graph : String) : Except Report (Model Float) :=
  match importer o.mappings with
  | .error mapping =>
    .error (failed "" s!"Invalid type mapping '{mapping}', expected USER=CANONICAL")
  | .ok importer =>
    match importer.importText graph with
    | .error error => .error (failed "" ("Failed to import graph: " ++ error.message))
    | .ok m => .ok m

/-- The evaluator of a model, or the report that ends with its faults. -/
def checked (o : Options) (m : Model Float) : Except Report (Evaluator Float) :=
  match validate o.strict m with
  | .error faults =>
    .error { out := "", err := faultLines faults, success := false, timed := false }
  | .ok c => .ok (Evaluator.ofChecked c)

/-- The report on points, after the summary of the model. -/
def onPoints (preview : Bool) (e : Evaluator Float) (text : String) : Report :=
  let out := summary e
  match PointsFile.read? text with
  | none => failed out "Failed to parse inputs JSON"
  | some (.batch students) =>
    evaluated (out ++ line "" ++ String.join (entries preview e students))
  | some (.single points) =>
    if preview then
      match e.preview (Points.ofList points) with
      | .ok p => evaluated (out ++ previewLines e p)
      | .error error => failed out ("Preview failed: " ++ error.message)
    else
      match e.evaluate (Points.ofList points) with
      | .ok g => evaluated (out ++ gradeLines g)
      | .error error => failed out ("Evaluation failed: " ++ error.message)

/-- The report on a model that has come through, and perhaps on points. -/
def finished (o : Options) (points : Option String) : Except Report (Evaluator Float) → Report
  | .error report => report
  | .ok e =>
    match points with
    | none => succeeded (summary e)
    | some text => onPoints o.preview e text

/-! ## The report -/

/-- The report on the texts of the files that the options name. -/
def make (o : Options) (graph : String) (points : Option String) : Report :=
  finished o points (imported o graph >>= checked o)

end Report

end Grading
