import Grading.Proofs.Propagation

/-!
# Full evaluations and previews agree

Both look at the same run.  A full evaluation first asks for the points of all sources that
contribute, and then gives the outcomes that are known; a preview gives all outcomes.  Points are
missing exactly where a source without points leads to the sink, so a grade that a preview knows
to be a number is never refused, and one that it does not know always is:

    points are missing ↔ a source without points leads to the sink          (missing_iff)
    the grade of a run is a number → no points are missing                  (missing_of_number)
    the grade of a run is unknown → points are missing                      (missing_of_unknown)

`evaluate_agrees_with_preview` compares the two ways of ending and what they give.
-/

namespace Grading

open Evaluator

variable {α : Type} [Number α] {c : Checked α} {m : Model α} {points : Points α}
variable {v : List (Outcome α)} {p : Preview α} {r : Evaluation α} {i : Nat} {n : Node α}

/-! ## Missing points -/

omit [Number α] in
theorem missing_eq_nil_iff_given : c.missing points = [] ↔
    ∀ id ∈ c.requiredSources, ∃ x, points id = some x := by
  unfold Checked.missing
  rw [List.filter_eq_nil_iff]
  refine forall₂_congr fun id _ => ?_
  rw [Option.isNone_iff_eq_none, ← ne_eq, Option.ne_none_iff_exists']

omit [Number α] in
/-- Points are missing if and only if a source without points leads to the sink. -/
theorem missing_iff (hc : c.Faithful) : c.missing points ≠ [] ↔ c.LackingAt points c.sink := by
  rw [ne_eq, missing_eq_nil_iff hc, not_forall_not]
  constructor
  · rintro ⟨_, n, hn, rfl, hk, hcontributes, hp⟩
    obtain ⟨j, hj⟩ := List.getElem?_of_mem hn
    exact ⟨j, n, hj, hk, hp, (Checked.contributes_iff_leads hc hj).1 hcontributes⟩
  · rintro ⟨j, n, hj, hk, hp, hleads⟩
    exact ⟨n.id, n, List.mem_of_getElem? hj, rfl, hk,
      (Checked.contributes_iff_leads hc hj).2 hleads, hp⟩

theorem missing_of_number (hc : c.Faithful) (hv : Stable c points v) {x : α}
    (h : valueAt v c.sink = .number x) : c.missing points = [] := by
  by_contra hmissing
  exact not_number_of_lacking hc hv ((missing_iff hc).1 hmissing) ⟨x, h⟩

theorem missing_of_unknown (hc : c.Faithful) (hv : Stable c points v)
    (h : valueAt v c.sink = .unknown) : c.missing points ≠ [] := by
  obtain ⟨s, -, hs⟩ := Checked.sink?_eq hc
  exact (missing_iff hc).2 (exists_absent hc hv (Checked.lt_size hs) h)

/-! ## Both ways of evaluation -/

/-- A full evaluation succeeds if and only if the run does and no points are missing. -/
theorem evaluate_ok_iff (hc : c.Faithful) :
    (∃ r, (Evaluator.ofChecked c).evaluate points = .ok r) ↔
      (∃ p, (Evaluator.ofChecked c).preview points = .ok p) ∧ c.missing points = [] := by
  constructor
  · rintro ⟨r, hr⟩
    obtain ⟨hmissing, v, hrun, -⟩ := evaluate_ok_spec hc hr
    exact ⟨⟨_, preview_ok_iff.2 ⟨v, hrun, rfl⟩⟩, hmissing⟩
  · rintro ⟨⟨p, hp⟩, hmissing⟩
    obtain ⟨v, hrun, -⟩ := preview_ok_iff.1 hp
    obtain ⟨grade, hgrade⟩ := exists_grade hc hmissing hrun
    exact ⟨_, evaluate_of_run hmissing hrun hgrade⟩

/-- Where both succeed they give the same grade, and the full evaluation gives what the preview
knows. -/
theorem evaluate_preview (hc : c.Faithful)
    (hr : (Evaluator.ofChecked c).evaluate points = .ok r)
    (hp : (Evaluator.ofChecked c).preview points = .ok p) : p.grade = r.grade.outcome ∧
      ∀ id value, (id, value) ∈ r.nodes ↔ p.node? id = some value.outcome := by
  obtain ⟨-, v, hrun, hgrade, hnodes, -⟩ := evaluate_ok_spec hc hr
  obtain ⟨w, hrun', hw, hshows⟩ := preview_shows hc hp
  obtain rfl : v = w := Except.ok.inj (hrun.symm.trans hrun')
  refine ⟨hshows.grade.trans hgrade, fun id value => ?_⟩
  rw [hnodes, mem_knownValues hw.length, hshows.node?]

/-- A full evaluation leaves out only nodes that do not contribute. -/
theorem mem_nodes_of_contributes (hc : c.Faithful)
    (hr : (Evaluator.ofChecked c).evaluate points = .ok r) (hn : n ∈ c.model.nodes)
    (hcontributes : c.model.Contributes n.id) : ∃ value, (n.id, value) ∈ r.nodes := by
  obtain ⟨hmissing, v, hrun, -, hnodes, -⟩ := evaluate_ok_spec hc hr
  have hv := run_stable hc hrun
  obtain ⟨i, hi⟩ := List.getElem?_of_mem hn
  obtain ⟨value, hvalue⟩ :=
    known_of_contributes hc hv ((missing_eq_nil_iff hc).1 hmissing) hi hcontributes
  refine ⟨value, ?_⟩
  rw [hnodes, mem_knownValues hv.length]
  exact ⟨i, n, hi, rfl, hvalue⟩

omit [Number α] in
theorem value_outcome_inj {value value' : Value α} (h : value.outcome = value'.outcome) :
    value = value' := by
  have hknown := known?_eq_some_iff.2 h
  rw [known?_eq_some_iff.2 rfl] at hknown
  exact Option.some.inj hknown

/-! ## Top theorem -/

/-- A full evaluation succeeds where the preview does and no source that contributes lacks points;
then it has the grade of the preview and all that the preview knows, and leaves out only nodes that
do not contribute.  A number as the grade of a preview is the grade, and an unknown one means that
points are missing. -/
theorem evaluate_agrees_with_preview {strict : Bool} (h : validate strict m = .ok c)
    (points : Points α) :
    ((∃ r, (Evaluator.ofChecked c).evaluate points = .ok r) ↔
      (∃ p, (Evaluator.ofChecked c).preview points = .ok p) ∧
        ∀ id ∈ c.requiredSources, ∃ x, points id = some x) ∧
    (∀ r p, (Evaluator.ofChecked c).evaluate points = .ok r →
      (Evaluator.ofChecked c).preview points = .ok p →
        p.grade = r.grade.outcome ∧
        (∀ id value, (id, value) ∈ r.nodes ↔ p.node? id = some value.outcome) ∧
        ∀ n ∈ m.nodes, n.id ∉ r.nodes.map (·.1) → ¬ m.Contributes n.id) ∧
    (∀ p x, (Evaluator.ofChecked c).preview points = .ok p → p.grade = .number x →
      ∃ r, (Evaluator.ofChecked c).evaluate points = .ok r ∧ r.grade = .number x) ∧
    ∀ p, (Evaluator.ofChecked c).preview points = .ok p → p.grade = .unknown →
      ∃ ids, (Evaluator.ofChecked c).evaluate points = .error (.missingInputs ids) := by
  obtain ⟨hc, rfl⟩ := faithful_of_validate h
  refine ⟨?_, fun r p hr hp => ?_, fun p x hp hx => ?_, fun p hp hunknown => ?_⟩
  · rw [evaluate_ok_iff hc, missing_eq_nil_iff_given]
  · obtain ⟨hgrade, hnodes⟩ := evaluate_preview hc hr hp
    refine ⟨hgrade, hnodes, fun n hn hleft hcontributes => hleft ?_⟩
    obtain ⟨value, hvalue⟩ := mem_nodes_of_contributes hc hr hn hcontributes
    exact List.mem_map_of_mem hvalue
  · obtain ⟨v, -, hv, hshows⟩ := preview_shows hc hp
    have hmissing := missing_of_number hc hv (hshows.grade.symm.trans hx)
    obtain ⟨r, hr⟩ := (evaluate_ok_iff hc).2 ⟨⟨p, hp⟩, hmissing⟩
    refine ⟨r, hr, value_outcome_inj ?_⟩
    rw [← (evaluate_preview hc hr hp).1, hx]
    rfl
  · obtain ⟨v, -, hv, hshows⟩ := preview_shows hc hp
    have hmissing := missing_of_unknown hc hv (hshows.grade.symm.trans hunknown)
    exact ⟨_, evaluate_of_missing hmissing⟩

theorem evaluate_agrees_with_preview_exam :
    validate false examModel = .ok (examModel.accepted 4) ∧
      (∃ p r, (Evaluator.ofChecked (examModel.accepted 4)).preview allPoints = .ok p ∧
        p.grade = .number 10 ∧
        (Evaluator.ofChecked (examModel.accepted 4)).evaluate allPoints = .ok r ∧
        r.grade = .number 10 ∧ ∀ value, ("talk", value) ∉ r.nodes) ∧
      ∃ p ids, (Evaluator.ofChecked (examModel.accepted 4)).preview examPoints = .ok p ∧
        p.grade = .unknown ∧
        (Evaluator.ofChecked (examModel.accepted 4)).evaluate examPoints =
          .error (.missingInputs ids) := by
  have hvalid : validate false examModel = .ok (examModel.accepted 4) := rfl
  obtain ⟨p, hp, hgrade, htalk⟩ : ∃ p,
      (Evaluator.ofChecked (examModel.accepted 4)).preview allPoints = .ok p ∧
        p.grade = .number 10 ∧ p.node? "talk" = some .unknown := ⟨_, rfl, rfl, rfl⟩
  obtain ⟨p', hp', hgrade'⟩ : ∃ p,
      (Evaluator.ofChecked (examModel.accepted 4)).preview examPoints = .ok p ∧
        p.grade = .unknown := ⟨_, rfl, rfl⟩
  have hall := evaluate_agrees_with_preview hvalid allPoints
  obtain ⟨r, hr, hgrade''⟩ := hall.2.2.1 p 10 hp hgrade
  obtain ⟨ids, hids⟩ := (evaluate_agrees_with_preview hvalid examPoints).2.2.2 p' hp' hgrade'
  refine ⟨hvalid, ⟨p, r, hp, hgrade, hr, hgrade'', fun value hmem => ?_⟩,
    p', ids, hp', hgrade', hids⟩
  have hvalue := ((hall.2.1 r p hr hp).2.1 "talk" value).1 hmem
  exact outcome_ne_unknown value (Option.some.inj (hvalue.symm.trans htalk))

end Grading
