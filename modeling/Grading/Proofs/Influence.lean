import Grading.Proofs.Agreement
import Grading.Proofs.Correspondence

/-!
# What influences a grade

Two evaluations of one model are compared.  Points under an id that is not the id of a source are
never looked at, so they change nothing.  And whatever leads to the sink depends only on the sources
that lead there, which are the required ones: if their points are the same,

    the nodes that lead to the sink have the same outcomes  (valueAt_eq_of_required)
    a failed grade has the same causes                       (causes_eq_of_required)

The walk back from the sink stays among these nodes, though nodes that do not lead to the sink may
read from them and be evaluated in between.  `only_required_sources_count` states both.
-/

namespace Grading

open Evaluator

variable {α : Type} {c : Checked α} {m : Model α} {points other : Points α}
variable {v w : List (Outcome α)} {i : Nat} {n : Node α} {id : String}

/-! ## Points that no source has -/

/-- The sources have the same points. -/
def Model.AgreeOnSources (m : Model α) (points other : Points α) : Prop :=
  ∀ n ∈ m.nodes, n.kind = .source → other n.id = points n.id

/-- Every position corresponds to itself if the sources have the same points. -/
theorem corresponds_self (h : c.model.AgreeOnSources points other) :
    Corresponds c c v v other points Eq where
  node hij := by rw [hij]
  value hij := by rw [hij]
  given _ hn hk := h _ (List.mem_of_getElem? hn) hk
  inputs hij := by
    subst hij
    exact List.forall₂_same.2 fun _ _ => rfl
  unique := ⟨fun _ _ _ hik hjk => hik.trans hjk.symm, fun _ _ _ hij hik => hij.symm.trans hik⟩

theorem causes_eq_of_sources (hc : c.Faithful) (h : c.model.AgreeOnSources points other) :
    c.causes v other = c.causes v points := causes_eq hc hc (corresponds_self h) rfl

theorem missing_eq_of_sources (hc : c.Faithful) (h : c.model.AgreeOnSources points other) :
    c.missing other = c.missing points := by
  refine List.filter_congr fun id hid => ?_
  obtain ⟨n, hn, rfl, hk, -⟩ := (mem_requiredSources hc).1 hid
  rw [h n hn hk]

section

variable [Number α]

theorem nodeOutcome_eq_of_sources (h : c.model.AgreeOnSources points other)
    (values : List (Outcome α)) (i : Nat) :
    nodeOutcome c other values i = nodeOutcome c points values i := by
  cases hn : c.model.nodes[i]? with
  | none =>
    unfold nodeOutcome
    rw [hn]
  | some n =>
    by_cases hk : n.kind = .source
    · obtain ⟨s, hs⟩ := Node.kind_eq_source_iff.1 hk
      rw [nodeOutcome_source hn hs, nodeOutcome_source hn hs]
      unfold sourceOutcome
      rw [h n (List.mem_of_getElem? hn) hk]
    · rw [nodeOutcome_other hn hk, nodeOutcome_other hn hk]

theorem fill_eq_of_sources (h : c.model.AgreeOnSources points other) (order : List Nat)
    (values : List (Outcome α)) : fill c other order values = fill c points order values := by
  induction order generalizing values with
  | nil => rfl
  | cons i order ih =>
    unfold fill
    rw [nodeOutcome_eq_of_sources h]
    cases nodeOutcome c points values i with
    | error e => rfl
    | ok out => exact ih (values.set i out)

theorem run_eq_of_sources (h : c.model.AgreeOnSources points other) :
    (Evaluator.ofChecked c).run other = (Evaluator.ofChecked c).run points :=
  fill_eq_of_sources h _ _

theorem preview_eq_of_sources (h : c.model.AgreeOnSources points other) :
    (Evaluator.ofChecked c).preview other = (Evaluator.ofChecked c).preview points := by
  unfold preview
  rw [run_eq_of_sources h]

theorem evaluate_eq_of_sources (hc : c.Faithful) (h : c.model.AgreeOnSources points other) :
    (Evaluator.ofChecked c).evaluate other = (Evaluator.ofChecked c).evaluate points := by
  have hmissing := missing_eq_of_sources hc h
  have hrun := run_eq_of_sources h
  by_cases hnone : c.missing points = []
  · cases hpoints : (Evaluator.ofChecked c).run points with
    | error e =>
      rw [evaluate_of_error hnone hpoints,
        evaluate_of_error (hmissing.trans hnone) (hrun.trans hpoints)]
    | ok v =>
      obtain ⟨grade, hgrade⟩ := exists_grade hc hnone hpoints
      rw [evaluate_of_run hnone hpoints hgrade,
        evaluate_of_run (hmissing.trans hnone) (hrun.trans hpoints) hgrade,
        reason_eq (causes_eq_of_sources hc h)]
  · rw [evaluate_of_missing hnone, evaluate_of_missing (hmissing ▸ hnone), hmissing]

/-! ## Points of the required sources -/

/-- What leads to the sink has the same outcome if the required sources have the same points. -/
theorem valueAt_eq_of_required (hc : c.Faithful)
    (h : ∀ id ∈ c.requiredSources, other id = points id) (hv : Stable c points v)
    (hw : Stable c other w) (hi : Relation.ReflTransGen (Feeds c.model.links) i c.sink) :
    valueAt w i = valueAt v i := by
  refine valueAt_congr hc hv hw (lt_of_leads_sink hc hi) fun j n hn hk hleads => h n.id ?_
  rw [mem_requiredSources hc]
  exact ⟨n, List.mem_of_getElem? hn, rfl, hk,
    (Checked.contributes_iff_leads hc hn).2 (hleads.trans hi)⟩

theorem causes_eq_of_required (hc : c.Faithful)
    (h : ∀ id ∈ c.requiredSources, other id = points id) (hv : Stable c points v)
    (hw : Stable c other w) : c.causes w other = c.causes v points := by
  -- A position corresponds to itself as long as it leads to the sink.
  let R (i j : Nat) : Prop := i = j ∧ Relation.ReflTransGen (Feeds c.model.links) i c.sink
  have hcorresponds : Corresponds c c w v other points R := by
    refine ⟨?_, ?_, ?_, ?_, ⟨?_, ?_⟩⟩
    · rintro i _ ⟨rfl, -⟩
      rfl
    · rintro i _ ⟨rfl, hi⟩
      exact valueAt_eq_of_required hc h hv hw hi
    · rintro i _ n ⟨rfl, hi⟩ hn hk
      refine h n.id ((mem_requiredSources hc).2 ?_)
      exact ⟨n, List.mem_of_getElem? hn, rfl, hk, (Checked.contributes_iff_leads hc hn).2 hi⟩
    · rintro i _ ⟨rfl, hi⟩
      exact List.forall₂_same.2 fun j hj => ⟨rfl, hi.head ((Checked.mem_inputsOf hc).1 hj)⟩
    · exact fun _ _ _ hik hjk => hik.1.trans hjk.1.symm
    · exact fun _ _ _ hij hik => hij.1.symm.trans hik.1
  exact causes_eq hc hc hcorresponds ⟨rfl, .refl⟩

/-- Two full evaluations that succeed are alike in all that leads to the sink. -/
theorem evaluate_of_required (hc : c.Faithful)
    (h : ∀ id ∈ c.requiredSources, other id = points id) {r r' : Evaluation α}
    (hr : (Evaluator.ofChecked c).evaluate points = .ok r)
    (hr' : (Evaluator.ofChecked c).evaluate other = .ok r') :
    r'.grade = r.grade ∧ r'.reason = r.reason ∧
      ∀ n ∈ c.model.nodes, c.model.Contributes n.id →
        (∃ value, (n.id, value) ∈ r.nodes) ∧
          ∀ value, (n.id, value) ∈ r'.nodes ↔ (n.id, value) ∈ r.nodes := by
  obtain ⟨-, v, hrun, hgrade, hnodes, hreason⟩ := evaluate_ok_spec hc hr
  obtain ⟨-, w, hrun', hgrade', hnodes', hreason'⟩ := evaluate_ok_spec hc hr'
  have hv := run_stable hc hrun
  have hw := run_stable hc hrun'
  have hsame : r'.grade = r.grade := by
    refine value_outcome_inj ?_
    rw [← hgrade, ← hgrade', valueAt_eq_of_required hc h hv hw .refl]
  refine ⟨hsame, ?_, fun n hn hcontributes => ⟨mem_nodes_of_contributes hc hr hn hcontributes, ?_⟩⟩
  · rw [hreason, hreason', hsame]
    exact reason_eq (causes_eq_of_required hc h hv hw) _
  · intro value
    rw [hnodes, hnodes', mem_knownValues hw.length, mem_knownValues hv.length]
    refine exists_congr fun i => exists_congr fun n' => and_congr_right fun hi =>
      and_congr_right fun hid => ?_
    rw [← hid] at hcontributes
    rw [valueAt_eq_of_required hc h hv hw ((Checked.contributes_iff_leads hc hi).1 hcontributes)]

end

/-! ## Top theorem -/

/-- Points under ids that no source has change nothing.  Points of the required sources alone
decide on the grade, on the reason, and on the values of all nodes that lead to the sink. -/
theorem only_required_sources_count [Number α] {strict : Bool} (h : validate strict m = .ok c) :
    (∀ points other : Points α, m.AgreeOnSources points other →
      (Evaluator.ofChecked c).evaluate other = (Evaluator.ofChecked c).evaluate points ∧
      (Evaluator.ofChecked c).preview other = (Evaluator.ofChecked c).preview points) ∧
    ∀ (points other : Points α) (r r' : Evaluation α),
      (∀ id ∈ c.requiredSources, other id = points id) →
      (Evaluator.ofChecked c).evaluate points = .ok r →
      (Evaluator.ofChecked c).evaluate other = .ok r' →
        r'.grade = r.grade ∧ r'.reason = r.reason ∧
        ∀ n ∈ m.nodes, m.Contributes n.id →
          (∃ value, (n.id, value) ∈ r.nodes) ∧
          ∀ value, (n.id, value) ∈ r'.nodes ↔ (n.id, value) ∈ r.nodes := by
  obtain ⟨hc, rfl⟩ := faithful_of_validate h
  constructor
  · exact fun points other hagree =>
      ⟨evaluate_eq_of_sources hc hagree, preview_eq_of_sources hagree⟩
  · exact fun points other r r' hagree hr hr' => evaluate_of_required hc hagree hr hr'

/-- Points for all that counts, and under an id of nobody. -/
def strayPoints : Points Float := Points.ofList [("exam", 6), ("homework", 4), ("nobody", 0 / 0)]

/-- Points for all that counts, and for the talk that does not. -/
def talkPoints : Points Float := Points.ofList [("exam", 6), ("homework", 4), ("talk", 9)]

theorem only_required_sources_count_exam :
    validate false examModel = .ok (examModel.accepted 4) ∧
      examModel.AgreeOnSources allPoints strayPoints ∧
      (Evaluator.ofChecked (examModel.accepted 4)).evaluate strayPoints =
        (Evaluator.ofChecked (examModel.accepted 4)).evaluate allPoints ∧
      (∀ id ∈ (examModel.accepted 4).requiredSources, talkPoints id = allPoints id) ∧
      ∃ r r', (Evaluator.ofChecked (examModel.accepted 4)).evaluate allPoints = .ok r ∧
        (Evaluator.ofChecked (examModel.accepted 4)).evaluate talkPoints = .ok r' ∧
        r.grade = .number 10 ∧ r'.grade = r.grade ∧ r'.reason = r.reason ∧
        ("talk", .number 9) ∈ r'.nodes ∧ ∀ value, ("talk", value) ∉ r.nodes := by
  have hvalid : validate false examModel = .ok (examModel.accepted 4) := rfl
  have hstray : examModel.AgreeOnSources allPoints strayPoints := by
    intro n hn hk
    simp only [examModel, List.mem_cons, List.not_mem_nil, or_false] at hn
    rcases hn with rfl | rfl | rfl | rfl | rfl
    · rfl
    · rfl
    · rfl
    · exact absurd hk (by decide)
    · exact absurd hk (by decide)
  have htalk : ∀ id ∈ (examModel.accepted 4).requiredSources, talkPoints id = allPoints id := by
    have hrequired : (examModel.accepted 4).requiredSources = ["exam", "homework"] := by
      decide +kernel
    rw [hrequired]
    intro id hid
    rcases List.mem_cons.1 hid with rfl | hid
    · rfl
    · obtain rfl := List.mem_singleton.1 hid
      rfl
  obtain ⟨r, hr, hgrade, hnodes⟩ : ∃ r,
      (Evaluator.ofChecked (examModel.accepted 4)).evaluate allPoints = .ok r ∧
        r.grade = .number 10 ∧ r.nodes.map (·.1) = ["exam", "homework", "sum", "grade"] :=
    ⟨_, rfl, rfl, rfl⟩
  obtain ⟨r', hr', hmem⟩ : ∃ r',
      (Evaluator.ofChecked (examModel.accepted 4)).evaluate talkPoints = .ok r' ∧
        r'.nodes[2]? = some ("talk", .number 9) := ⟨_, rfl, rfl⟩
  obtain ⟨hsources, hrequired⟩ := only_required_sources_count hvalid
  obtain ⟨hgrade', hreason, -⟩ := hrequired allPoints talkPoints r r' htalk hr hr'
  refine ⟨hvalid, hstray, (hsources allPoints strayPoints hstray).1, htalk, r, r', hr, hr', hgrade,
    hgrade', hreason, List.mem_of_getElem? hmem, fun value hvalue => ?_⟩
  have hid := List.mem_map_of_mem (f := (·.1)) hvalue
  rw [hnodes] at hid
  simp at hid

end Grading
