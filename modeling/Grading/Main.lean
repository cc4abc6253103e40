import Grading.Report.Basic

/-!
# The command line

Reads the files that the options name, makes the report, takes the time and prints.
-/

namespace Grading

/-- The text of a file, or the error line if it cannot be read. -/
def readText (what path : String) : IO (Except String String) := do
  try
    return .ok (← IO.FS.readFile path)
  catch error =>
    return .error s!"\nError: Failed to read {what} file '{path}': {error}"

/-- Runs a stage and says how long it took. -/
def measured {β : Type} (stage : Unit → β) : IO (β × Duration) := do
  let start ← IO.monoNanosNow
  let result ← IO.lazyPure stage
  return (result, ⟨(← IO.monoNanosNow) - start⟩)

/-- Makes a report stage by stage and prints it. -/
def printReport (o : Options) (graph : String) (points : Option String) : IO Report := do
  let start ← IO.monoNanosNow
  let (imported, _) ← measured fun _ => Report.imported o graph
  let (checked, validation) ← measured fun _ => imported >>= Report.checked o
  let (report, evaluation) ← measured fun _ => Report.finished o points checked
  let total : Duration := ⟨(← IO.monoNanosNow) - start⟩
  IO.print (report.stdout ⟨validation, evaluation, total⟩)
  IO.eprint report.err
  return report

end Grading

open Grading

def main (arguments : List String) : IO UInt32 := do
  match Options.ofArguments arguments with
  | .error error =>
    IO.eprintln ("error: " ++ error.message)
    return 2
  | .ok options =>
    match ← readText "graph" options.graph with
    | .error message =>
      IO.eprintln message
      return 1
    | .ok graph =>
      match ← options.points.mapM (readText "inputs") with
      | some (.error message) =>
        -- the model is reported on before the points are missed
        let report ← printReport options graph none
        if report.success then IO.eprintln message
        return 1
      | some (.ok points) => return (← printReport options graph (some points)).exitCode
      | none => return (← printReport options graph none).exitCode
