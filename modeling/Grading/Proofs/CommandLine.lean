import Grading.Proofs.Mappings
import Grading.Proofs.Previews

/-!
# The command line agrees with the library

A report is made of what the library says of the texts: the model is `Accepted` if the mappings
can be split, the graph is imported with them and the checks pass (stages_eq_ok_iff), and then the
points are read and evaluated (onPoints_cases).

    the program exits with 0 ↔ the model is accepted and the points succeed, else with 1
    nothing is printed of a model that is refused, and its summary (summary_eq) of one that is
    not, even if the points fail
    a single table gets the library's grade, or a line of its preview for every node
    a list of students gets one entry for each, made of the name and the library's result
                                                                              (entries_eq)
    after an evaluation the durations follow, whatever the clock says of them
                                                                     (commandLine_agrees)

An entry knows nothing of the other students, so changing one student changes one entry
(`Agrees.apart`).
-/

namespace Grading

namespace Report

/-! ## Stages -/

variable {o : Options} {graph text message out : String} {points : Option String} {t : Timings}
variable {m : Model Float} {c : Checked Float} {e : Evaluator Float} {r : Report} {preview : Bool}

/-- The mappings can be split, the graph is imported with them in order, and the checks accept the
model. -/
def Accepted (o : Options) (graph : String) (c : Checked Float) : Prop :=
  ∃ pairs m, List.Forall₂ (fun mapping p => Splits mapping p.1 p.2) o.mappings pairs ∧
    (Editor.Importer.standard.withMappings pairs).importText graph = .ok m ∧
      validate o.strict m = .ok c

/-- A report that ends before there is anything to say of a model. -/
structure Silent (r : Report) : Prop where
  failed : r.success = false
  stdout : ∀ t, r.stdout t = ""

@[simp] theorem stdout_failed : (failed out message).stdout t = out := rfl

@[simp] theorem stdout_succeeded : (succeeded out).stdout t = out := rfl

@[simp] theorem stdout_evaluated : (evaluated out).stdout t = out ++ performance t := rfl

theorem silent_failed : Silent (failed "" message) := ⟨rfl, fun _ => stdout_failed⟩

theorem imported_eq_ok_iff : imported o graph = .ok m ↔ ∃ pairs,
    List.Forall₂ (fun mapping p => Splits mapping p.1 p.2) o.mappings pairs ∧
      (Editor.Importer.standard.withMappings pairs).importText graph = .ok m := by
  unfold imported
  constructor
  · intro h
    split at h
    · cases h
    next importer himporter =>
    obtain ⟨pairs, hpairs, rfl⟩ := importer_eq_ok_iff.1 himporter
    split at h
    · cases h
    next m' himport =>
    obtain rfl := Except.ok.inj h
    exact ⟨pairs, hpairs, himport⟩
  · rintro ⟨pairs, hpairs, himport⟩
    simp only [importer_eq_ok_iff.2 ⟨pairs, hpairs, rfl⟩, himport]

theorem silent_of_imported (h : imported o graph = .error r) : Silent r := by
  unfold imported at h
  split at h
  · obtain rfl := Except.error.inj h
    exact silent_failed
  · split at h
    · obtain rfl := Except.error.inj h
      exact silent_failed
    · cases h

theorem checked_eq_ok_iff :
    checked o m = .ok e ↔ ∃ c, validate o.strict m = .ok c ∧ Evaluator.ofChecked c = e := by
  unfold checked
  cases validate o.strict m <;> simp

theorem silent_of_checked (h : checked o m = .error r) : Silent r := by
  unfold checked at h
  split at h
  · obtain rfl := Except.error.inj h
    exact ⟨rfl, fun _ => rfl⟩
  · cases h

/-- The stages before the points come through exactly with the models that are accepted. -/
theorem stages_eq_ok_iff : imported o graph >>= checked o = .ok e ↔
    ∃ c, Accepted o graph c ∧ Evaluator.ofChecked c = e := by
  simp only [bind_eq_ok_iff, imported_eq_ok_iff, checked_eq_ok_iff]
  constructor
  · rintro ⟨m, ⟨pairs, hpairs, himport⟩, c, hvalidate, he⟩
    exact ⟨c, ⟨pairs, m, hpairs, himport, hvalidate⟩, he⟩
  · rintro ⟨c, ⟨pairs, m, hpairs, himport, hvalidate⟩, he⟩
    exact ⟨m, ⟨pairs, hpairs, himport⟩, c, hvalidate, he⟩

theorem make_of_accepted (h : Accepted o graph c) :
    make o graph points = finished o points (.ok (Evaluator.ofChecked c)) :=
  congrArg (finished o points) (stages_eq_ok_iff.2 ⟨c, h, rfl⟩)

theorem make_of_not_accepted (h : ¬ ∃ c, Accepted o graph c) : Silent (make o graph points) := by
  unfold make
  cases hstages : imported o graph >>= checked o with
  | ok e =>
    obtain ⟨c, hc, -⟩ := stages_eq_ok_iff.1 hstages
    exact absurd ⟨c, hc⟩ h
  | error r =>
    rcases bind_eq_error_iff.1 hstages with himported | ⟨m, -, hchecked⟩
    · exact silent_of_imported himported
    · exact silent_of_checked hchecked

/-- The graph that was accepted is wired as its tables say. -/
theorem Accepted.faithful (h : Accepted o graph c) : c.Faithful := by
  obtain ⟨-, m, -, -, hvalidate⟩ := h
  exact (faithful_of_validate hvalidate).1

/-! ## Lines -/

/-- Lines one after the other. -/
def printed (lines : List String) : String := String.join (lines.map line)

/-- The lines on an accepted model: how many nodes and edges it has, its warnings, and the order in
which its nodes are evaluated. -/
def summaryLines (c : Checked Float) : List String :=
  s!"Grading model is valid: {c.model.nodes.length} nodes, {c.model.edges.length} edges" ::
    (c.warnings.map fun f => "  warning: " ++ f.finding.text) ++
      ["Evaluation order: " ++ String.intercalate " -> " (c.order.map c.idAt)]

/-- The line of the node at a position, if the preview has an outcome for it. -/
def nodeLine? (c : Checked Float) (p : Preview Float) (i : Nat) : Option String :=
  (p.node? (c.idAt i)).map fun out => "  " ++ padded 24 (c.idAt i) ++ " " ++ out.text

theorem printed_append (lines lines' : List String) :
    printed (lines ++ lines') = printed lines ++ printed lines' := by
  unfold printed
  rw [List.map_append, String.join_append]

theorem printed_cons (text : String) (lines : List String) :
    printed (text :: lines) = line text ++ printed lines := by
  unfold printed
  rw [List.map_cons, String.join_cons]

theorem line_newline (text text' : String) :
    line ("\n" ++ text ++ text') = line "" ++ line (text ++ text') := by
  unfold line
  simp only [String.empty_append, String.append_assoc]

theorem summary_eq (c : Checked Float) :
    summary (Evaluator.ofChecked c) = printed (summaryLines c) := by
  unfold printed summaryLines
  simp only [List.map_append, List.map_cons, List.map_map, List.map_nil, String.join_append,
    String.join_cons, String.join_nil, List.cons_append, String.append_empty,
    ← String.append_assoc]
  rfl

theorem gradeLines_eq (g : Evaluation Float) : gradeLines g =
    printed ["", "  -> Final grade: " ++ g.grade.text, "  -> Reason: " ++ g.reason] := by
  have hgrade : "\n  -> Final grade: " = "\n" ++ "  -> Final grade: " := by decide
  unfold gradeLines
  rw [hgrade, line_newline]
  simp [printed, String.append_assoc]

theorem previewLines_eq (c : Checked Float) (p : Preview Float) :
    previewLines (Evaluator.ofChecked c) p = printed ("" :: c.order.filterMap (nodeLine? c p) ++
      ["", "  -> Final grade (preview): " ++ p.grade.text]) := by
  have hgrade : "\n  -> Final grade (preview): " = "\n" ++ "  -> Final grade (preview): " := by
    decide
  have hlines : (c.order.map c.idAt).filterMap (fun id =>
      (p.node? id).map fun out => line ("  " ++ padded 24 id ++ " " ++ out.text)) =
        (c.order.filterMap (nodeLine? c p)).map line := by
    rw [List.filterMap_map, List.map_filterMap]
    refine List.filterMap_congr fun i _ => ?_
    unfold nodeLine?
    rw [Option.map_map]
    rfl
  show line "" ++ String.join ((c.order.map c.idAt).filterMap _) ++ _ = _
  rw [hlines, hgrade, line_newline]
  simp [printed, String.append_assoc]

/-- A preview of points shows every node. -/
theorem nodeLines (hc : c.Faithful) {points : Points Float} {p : Preview Float}
    (hp : (Evaluator.ofChecked c).preview points = .ok p) :
    List.Forall₂ (fun i text => nodeLine? c p i = some text) c.order
      (c.order.filterMap (nodeLine? c p)) := by
  rw [← mapM_eq_some_iff, mapM_eq_some_filterMap_iff]
  refine ⟨fun i hi => ?_, rfl⟩
  have hlt : i < c.size :=
    List.mem_range.1 ((Checked.order_topological hc).perm.mem_iff.1 hi)
  obtain ⟨n, hn⟩ := Checked.exists_node hlt
  obtain ⟨v, -, -, hshows⟩ := preview_shows hc hp
  unfold nodeLine?
  rw [Checked.idAt_eq hn, hshows.node?_id hn]
  rfl

/-! ## Students -/

/-- What the library says of a student's own points: the grade with its reason, the preview of the
grade, or the error. -/
def verdict (preview : Bool) (e : Evaluator Float) (s : Student) : String :=
  if preview then
    match e.preview (Points.ofList s.points) with
    | .ok p => p.grade.text ++ " (preview)"
    | .error error => "error: " ++ error.message
  else
    match e.evaluate (Points.ofList s.points) with
    | .ok g => g.grade.text ++ " (" ++ g.reason ++ ")"
    | .error error => "error: " ++ error.message

/-- The entry of a student. -/
def entry (preview : Bool) (e : Evaluator Float) (s : Student) : String :=
  line ("  " ++ s.name ++ ": " ++ verdict preview e s)

theorem error_text : ": error: " = ": " ++ "error: " := by decide

theorem previewEntry_eq (e : Evaluator Float) (s : Student) :
    previewEntry s.name (e.preview (Points.ofList s.points)) = entry true e s := by
  unfold entry verdict
  cases e.preview (Points.ofList s.points) <;>
    simp only [previewEntry, error_text, if_true, String.append_assoc] <;> rfl

theorem gradeEntry_eq (e : Evaluator Float) (s : Student) :
    gradeEntry s.name (e.evaluate (Points.ofList s.points)) = entry false e s := by
  unfold entry verdict
  cases e.evaluate (Points.ofList s.points) <;>
    simp only [gradeEntry, error_text, Bool.false_eq_true, if_false, String.append_assoc] <;> rfl

/-- A batch gives every student the entry of their own points. -/
theorem entries_eq (preview : Bool) (e : Evaluator Float) (students : List Student) :
    entries preview e students = students.map (entry preview e) := by
  unfold entries Evaluator.previewBatch Evaluator.evaluateBatch
  cases preview with
  | true => simp [previewEntry_eq]
  | false => simp [gradeEntry_eq]

/-! ## Points -/

/-- The points can be read, and if they are a single table the library evaluates it. -/
def PointsSucceed (preview : Bool) (e : Evaluator Float) (text : String) : Prop :=
  ∃ file, PointsFile.read? text = some file ∧ ∀ entries, file = .single entries →
    if preview then ∃ p, e.preview (Points.ofList entries) = .ok p
    else ∃ g, e.evaluate (Points.ofList entries) = .ok g

/-- Points that do not succeed leave the summary and an error, others add to the summary. -/
theorem onPoints_cases (preview : Bool) (e : Evaluator Float) (text : String) :
    (PointsSucceed preview e text ∧
      ∃ rest, onPoints preview e text = evaluated (summary e ++ rest)) ∨
    (¬ PointsSucceed preview e text ∧
      ∃ message, onPoints preview e text = failed (summary e) message) := by
  unfold onPoints PointsSucceed
  cases hfile : PointsFile.read? text with
  | none => exact .inr ⟨by simp, _, rfl⟩
  | some file =>
    cases file with
    | batch students => exact .inl ⟨by simp, _, by rw [← String.append_assoc]⟩
    | single points =>
      cases preview with
      | true =>
        cases hp : e.preview (Points.ofList points) with
        | ok p => exact .inl ⟨by simp [hp], _, by simp only [hp]; rfl⟩
        | error error => exact .inr ⟨by simp [hp], _, by simp only [hp]; rfl⟩
      | false =>
        cases hg : e.evaluate (Points.ofList points) with
        | ok g => exact .inl ⟨by simp [hg], _, by simp only [hg]; rfl⟩
        | error error => exact .inr ⟨by simp [hg], _, by simp only [hg]; rfl⟩

theorem onPoints_batch {students : List Student}
    (h : PointsFile.read? text = some (.batch students)) : onPoints preview e text =
      evaluated (summary e ++ line "" ++ String.join (students.map (entry preview e))) := by
  rw [← entries_eq]
  unfold onPoints
  rw [h]

theorem onPoints_graded {points : List (String × Float)} {g : Evaluation Float}
    (h : PointsFile.read? text = some (.single points))
    (hg : e.evaluate (Points.ofList points) = .ok g) :
    onPoints false e text = evaluated (summary e ++ gradeLines g) := by
  unfold onPoints
  simp only [h, hg, Bool.false_eq_true, if_false]

theorem onPoints_previewed {points : List (String × Float)} {p : Preview Float}
    (h : PointsFile.read? text = some (.single points))
    (hp : e.preview (Points.ofList points) = .ok p) :
    onPoints true e text = evaluated (summary e ++ previewLines e p) := by
  unfold onPoints
  simp only [h, hp, if_true]

/-! ## Exit codes -/

theorem exitCode_eq_zero_iff : r.exitCode = 0 ↔ r.success = true := by
  unfold exitCode
  cases r.success <;> simp

theorem exitCode_eq_one_iff : r.exitCode = 1 ↔ r.success = false := by
  unfold exitCode
  cases r.success <;> simp

@[simp] theorem exitCode_evaluated : (evaluated out).exitCode = 0 := rfl

/-- An accepted model is reported on with success exactly if its points succeed; the summary is
printed in either case. -/
theorem make_cases (h : Accepted o graph c) :
    ((∀ text, points = some text → PointsSucceed o.preview (Evaluator.ofChecked c) text) ∧
      (make o graph points).success = true) ∨
    ((∃ text, points = some text ∧ ¬ PointsSucceed o.preview (Evaluator.ofChecked c) text) ∧
      (make o graph points).success = false ∧
        ∀ t, (make o graph points).stdout t = printed (summaryLines c)) := by
  rw [make_of_accepted h, ← summary_eq]
  cases points with
  | none => exact .inl ⟨fun _ h => (nomatch h), rfl⟩
  | some text =>
    show (_ ∧ (onPoints _ _ text).success = true) ∨ (_ ∧ (onPoints _ _ text).success = false ∧
      ∀ t, (onPoints _ _ text).stdout t = _)
    rcases onPoints_cases o.preview (Evaluator.ofChecked c) text with
      ⟨hsucceed, rest, hreport⟩ | ⟨hfail, message, hreport⟩
    · rw [hreport]
      exact .inl ⟨fun text' htext => Option.some.inj htext ▸ hsucceed, rfl⟩
    · rw [hreport]
      exact .inr ⟨⟨text, rfl, hfail⟩, rfl, fun _ => stdout_failed⟩

theorem exitCode_make_eq_zero_iff : (make o graph points).exitCode = 0 ↔ ∃ c, Accepted o graph c ∧
    ∀ text, points = some text → PointsSucceed o.preview (Evaluator.ofChecked c) text := by
  rw [exitCode_eq_zero_iff]
  constructor
  · intro h
    by_cases haccepted : ∃ c, Accepted o graph c
    · obtain ⟨c, hc⟩ := haccepted
      rcases make_cases hc with ⟨hpoints, -⟩ | ⟨-, hfail, -⟩
      · exact ⟨c, hc, hpoints⟩
      · rw [hfail] at h
        cases h
    · rw [(make_of_not_accepted haccepted).failed] at h
      cases h
  · rintro ⟨c, hc, hpoints⟩
    rcases make_cases hc with ⟨-, hsuccess⟩ | ⟨⟨text, htext, hfail⟩, -⟩
    · exact hsuccess
    · exact absurd (hpoints text htext) hfail

theorem stdout_make_of_failure (h : Accepted o graph c)
    (hcode : (make o graph points).exitCode = 1) :
    (make o graph points).stdout t = printed (summaryLines c) := by
  rw [exitCode_eq_one_iff] at hcode
  rcases make_cases h with ⟨-, hsuccess⟩ | ⟨-, -, hstdout⟩
  · rw [hcode] at hsuccess
    cases hsuccess
  · exact hstdout t

/-! ## Whole reports on accepted models -/

section

variable {entries : List (String × Float)} {students : List Student}

theorem make_alone (h : Accepted o graph c) :
    make o graph none = succeeded (printed (summaryLines c)) := by
  rw [make_of_accepted h, ← summary_eq]
  rfl

theorem make_graded {g : Evaluation Float} (h : Accepted o graph c) (hpreview : o.preview = false)
    (htext : PointsFile.read? text = some (.single entries))
    (hg : (Evaluator.ofChecked c).evaluate (Points.ofList entries) = .ok g) :
    make o graph (some text) = evaluated (printed (summaryLines c ++
      ["", "  -> Final grade: " ++ g.grade.text, "  -> Reason: " ++ g.reason])) := by
  rw [make_of_accepted h, printed_append, ← summary_eq, ← gradeLines_eq, ← onPoints_graded htext hg,
    ← hpreview]
  rfl

theorem make_previewed {p : Preview Float} (h : Accepted o graph c) (hpreview : o.preview = true)
    (htext : PointsFile.read? text = some (.single entries))
    (hp : (Evaluator.ofChecked c).preview (Points.ofList entries) = .ok p) :
    make o graph (some text) = evaluated (printed (summaryLines c ++
      "" :: c.order.filterMap (nodeLine? c p) ++
        ["", "  -> Final grade (preview): " ++ p.grade.text])) := by
  rw [make_of_accepted h, List.append_assoc, printed_append, ← summary_eq, ← previewLines_eq,
    ← onPoints_previewed htext hp, ← hpreview]
  rfl

theorem make_batch (h : Accepted o graph c)
    (htext : PointsFile.read? text = some (.batch students)) :
    make o graph (some text) = evaluated (printed (summaryLines c ++ [""]) ++
      String.join (students.map (entry o.preview (Evaluator.ofChecked c)))) := by
  rw [make_of_accepted h, printed_append, ← summary_eq]
  refine (onPoints_batch htext).trans ?_
  simp [printed]

end

/-! ## Top theorem -/

/-- What the program prints and exits with is what the library says of the texts. -/
structure Agrees (o : Options) (graph : String) (points : Option String) : Prop where
  exit_zero_iff : (make o graph points).exitCode = 0 ↔ ∃ c, Accepted o graph c ∧
    ∀ text, points = some text → PointsSucceed o.preview (Evaluator.ofChecked c) text
  exit_one : (make o graph points).exitCode ≠ 0 → (make o graph points).exitCode = 1
  /-- Nothing is printed of a model that is not accepted. -/
  refused : (¬ ∃ c, Accepted o graph c) → ∀ t, (make o graph points).stdout t = ""
  /-- The summary of an accepted model is printed even if the points fail. -/
  late : ∀ c, Accepted o graph c → (make o graph points).exitCode = 1 →
    ∀ t, (make o graph points).stdout t = printed (summaryLines c)
  /-- Without points nothing else is printed. -/
  alone : ∀ c, Accepted o graph c → points = none →
    ∀ t, (make o graph points).stdout t = printed (summaryLines c)
  /-- A single table is graded by the library. -/
  graded : ∀ c, Accepted o graph c → o.preview = false → ∀ text entries g, points = some text →
    PointsFile.read? text = some (.single entries) →
    (Evaluator.ofChecked c).evaluate (Points.ofList entries) = .ok g →
      ∀ t, (make o graph points).stdout t = printed (summaryLines c ++
        ["", "  -> Final grade: " ++ g.grade.text, "  -> Reason: " ++ g.reason]) ++ performance t
  /-- A preview of a single table shows every node in the order of evaluation. -/
  previewed : ∀ c, Accepted o graph c → o.preview = true → ∀ text entries p, points = some text →
    PointsFile.read? text = some (.single entries) →
    (Evaluator.ofChecked c).preview (Points.ofList entries) = .ok p →
      ∃ lines, List.Forall₂ (fun i text => nodeLine? c p i = some text) c.order lines ∧
        ∀ t, (make o graph points).stdout t = printed (summaryLines c ++ "" :: lines ++
          ["", "  -> Final grade (preview): " ++ p.grade.text]) ++ performance t
  /-- Every student of a list gets an entry, in order, and the program succeeds. -/
  batch : ∀ c, Accepted o graph c → ∀ text students, points = some text →
    PointsFile.read? text = some (.batch students) →
      (make o graph points).exitCode = 0 ∧
        ∀ t, (make o graph points).stdout t = printed (summaryLines c ++ [""]) ++
          String.join (students.map (entry o.preview (Evaluator.ofChecked c))) ++ performance t
  /-- Another name or other points of one student change the entry of that student alone. -/
  apart : ∀ c, Accepted o graph c → ∀ text text' before s s' after, points = some text →
    PointsFile.read? text = some (.batch (before ++ s :: after)) →
    PointsFile.read? text' = some (.batch (before ++ s' :: after)) →
      (make o graph (some text')).exitCode = (make o graph points).exitCode ∧
        ∃ front back, ∀ t,
          (make o graph points).stdout t =
            front ++ entry o.preview (Evaluator.ofChecked c) s ++ back ++ performance t ∧
          (make o graph (some text')).stdout t =
            front ++ entry o.preview (Evaluator.ofChecked c) s' ++ back ++ performance t

end Report

open Report

/-- Whatever is asked for, what is printed and the exit code are what the library says of the
texts. -/
theorem commandLine_agrees (o : Options) (graph : String) (points : Option String) :
    Agrees o graph points where
  exit_zero_iff := exitCode_make_eq_zero_iff
  exit_one h := by
    rw [Ne, exitCode_eq_zero_iff, Bool.not_eq_true] at h
    exact exitCode_eq_one_iff.2 h
  refused h := (make_of_not_accepted h).stdout
  late c h hcode t := stdout_make_of_failure h hcode
  alone c h hpoints t := by rw [hpoints, make_alone h, stdout_succeeded]
  graded c h hpreview text entries g htext hread hg t := by
    rw [htext, make_graded h hpreview hread hg, stdout_evaluated]
  previewed c h hpreview text entries p htext hread hp :=
    ⟨_, nodeLines h.faithful hp, fun t => by
      rw [htext, make_previewed h hpreview hread hp, stdout_evaluated]⟩
  batch c h text students htext hread := by
    rw [htext, make_batch h hread]
    exact ⟨exitCode_evaluated, fun _ => stdout_evaluated⟩
  apart c h text text' before s s' after htext hread hread' := by
    rw [htext, make_batch h hread, make_batch h hread', exitCode_evaluated, exitCode_evaluated]
    -- the entries on either side are those of the students on either side
    refine ⟨rfl, printed (summaryLines c ++ [""]) ++
      String.join (before.map (entry o.preview (Evaluator.ofChecked c))),
      String.join (after.map (entry o.preview (Evaluator.ofChecked c))), fun t => ?_⟩
    simp only [stdout_evaluated, List.map_append, List.map_cons, String.join_append,
      String.join_cons, String.append_assoc, and_self]

/-- One exam and the grade made of it, with another name for the type of the exam; records are
written as arrays. -/
def examGraphText : String :=
  "[[[\"exam\",\"test\"],[\"grade\",\"sink\"]],[[null,\"exam\",null,\"grade\"]]," ++
    "\x7b\"exam\":[\"\",[null,\"ignore\"]]\x7d]"

/-- Points of a student who took the exam and of one who did not. -/
def examPointsText : String :=
  "[[\"Ada\",\x7b\"exam\":5\x7d],[\"Ben\",\x7b\x7d]]"

/-- Strict, with a name for sources. -/
def examRunOptions : Options :=
  ⟨"graph.json", some "points.json", false, true, ["test = source"]⟩

theorem commandLine_agrees_exam :
    (∃ c, Accepted examRunOptions examGraphText c) ∧
      (Report.make examRunOptions examGraphText (some examPointsText)).stdout
          ⟨⟨70125⟩, ⟨1500⟩, ⟨2000000000⟩⟩ =
        "Grading model is valid: 2 nodes, 1 edges\nEvaluation order: exam -> grade\n\n" ++
          "  Ada: 5 (Final grade 5)\n" ++
          "  Ben: error: Missing input values for source nodes: exam\n" ++
          "\n--- Performance Summary ---\nValidation:           70.125µs\n" ++
          "Evaluation:           1.5µs\n-----------------------------\n" ++
          "Total Execution:      2s\n" := by
  have hagrees := commandLine_agrees examRunOptions examGraphText (some examPointsText)
  have hcode : (Report.make examRunOptions examGraphText (some examPointsText)).exitCode = 0 := by
    decide +kernel
  obtain ⟨c, hc, -⟩ := hagrees.exit_zero_iff.1 hcode
  exact ⟨⟨c, hc⟩, by decide +kernel⟩

end Grading
