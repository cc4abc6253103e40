import Grading.Proofs.Dataflow

/-!
# How evaluations end

A full evaluation ends in one of three ways, and the points alone say which: a source that
contributes has none; or a source, contributing or not, has some that are not finite; or there is
a grade.  The source that an error names comes from the evaluation order, and is the least one
all the same: sources read from no node, so they are placed in the order of their ids.

    id ∈ c.requiredSources ↔ a source of that id contributes               (mem_requiredSources)
    an outcome is unknown → a source without points leads to it             (exists_absent)
    a run fails ↔ it names the least source with points that are not finite (run_error_iff)

`Model.Ends` says which end a full evaluation has, and `evaluate_classified` that it has that one.
-/

namespace Grading

open Evaluator

variable {α : Type} {m : Model α} {points : Points α} {id : String} {x : α}

/-! ## Faults of points -/

/-- A source that contributes to the final grade has no points. -/
def Model.Missing (m : Model α) (points : Points α) (id : String) : Prop :=
  ∃ n ∈ m.nodes, n.id = id ∧ n.kind = .source ∧ m.Contributes id ∧ points id = none

variable [Number α]

/-- A source is given points that are not a finite number. -/
def Model.Invalid (m : Model α) (points : Points α) (id : String) (x : α) : Prop :=
  ∃ n ∈ m.nodes, n.id = id ∧ n.kind = .source ∧ points id = some x ∧ Number.isFinite x = false

/-- Of the sources that are given points that are not finite, the one with the least id. -/
def Model.LeastInvalid (m : Model α) (points : Points α) (id : String) (x : α) : Prop :=
  m.Invalid points id x ∧ ∀ id' x', m.Invalid points id' x' → id ≤ id'

variable {c : Checked α} {v : List (Outcome α)} {i : Nat} {n : Node α}
variable {e : EvaluationError α}

/-! ## Sources -/

omit [Number α] in
theorem mem_requiredSources (hc : c.Faithful) : id ∈ c.requiredSources ↔
    ∃ n ∈ c.model.nodes, n.id = id ∧ n.kind = .source ∧ c.model.Contributes id := by
  unfold Checked.requiredSources
  simp only [mem_sortTexts, List.mem_map, List.mem_filter, Bool.and_eq_true, decide_eq_true_eq,
    List.contains_iff_mem]
  constructor
  · rintro ⟨⟨n, i⟩, ⟨hn, hk, hi⟩, rfl⟩
    have hn := List.mk_mem_zipIdx_iff_getElem?.1 hn
    rw [hc.contributors, Model.contributes_iff hc.wellWired hn] at hi
    exact ⟨n, List.mem_of_getElem? hn, rfl, hk, hi⟩
  · rintro ⟨n, hn, rfl, hk, hcontributes⟩
    obtain ⟨i, hi⟩ := List.getElem?_of_mem hn
    refine ⟨(n, i), ⟨List.mk_mem_zipIdx_iff_getElem?.2 hi, hk, ?_⟩, rfl⟩
    rw [hc.contributors, Model.contributes_iff hc.wellWired hi]
    exact hcontributes

omit [Number α] in
theorem requiredSources_ascending (hc : c.Faithful) :
    c.requiredSources.Pairwise (· < ·) := by
  refine sortTexts_pairwise_lt (List.Nodup.sublist (List.filter_sublist.map _) ?_)
  rw [Model.map_zipIdx_id]
  exact hc.wellWired.distinctIds

theorem refuses_iff : (∃ i, c.Refuses points i e) ↔
    ∃ id x, e = .invalidInput id x ∧ c.model.Invalid points id x := by
  constructor
  · rintro ⟨i, n, x, hn, hk, hx, hfinite, rfl⟩
    exact ⟨n.id, x, rfl, n, List.mem_of_getElem? hn, rfl, hk, hx, hfinite⟩
  · rintro ⟨id, x, rfl, n, hn, rfl, hk, hx, hfinite⟩
    obtain ⟨i, hi⟩ := List.getElem?_of_mem hn
    exact ⟨i, n, x, hi, hk, hx, hfinite, rfl⟩

theorem Model.LeastInvalid.unique {id' : String} {x' : α} (h : m.LeastInvalid points id x)
    (h' : m.LeastInvalid points id' x') : id = id' ∧ x = x' := by
  obtain rfl : id = id' := le_antisymm (h.2 id' x' h'.1) (h'.2 id x h.1)
  obtain ⟨-, -, -, -, hx, -⟩ := h.1
  obtain ⟨-, -, -, -, hx', -⟩ := h'.1
  exact ⟨rfl, Option.some.inj (hx.symm.trans hx')⟩

/-! ## Runs -/

theorem run_stable (hc : c.Faithful) (h : (Evaluator.ofChecked c).run points = .ok v) :
    Stable c points v := fill_stable hc (Checked.order_topological hc) h

theorem not_invalid_of_stable (hv : Stable c points v) : ¬ c.model.Invalid points id x := by
  intro h
  obtain ⟨i, hi⟩ := refuses_iff.2 ⟨id, x, rfl, h⟩
  have hlt : i < c.size := by
    obtain ⟨n, -, hn, -⟩ := hi
    exact (List.getElem?_eq_some_iff.1 hn).1
  have hfixed := hv.fixed i hlt
  rw [nodeOutcome_error_iff.2 hi] at hfixed
  exact nomatch hfixed

theorem Stable.finitePoints (hv : Stable c points v) : c.model.FinitePoints points := by
  intro n hn hk x hx
  by_contra hfinite
  exact not_invalid_of_stable hv ⟨n, hn, rfl, hk, hx, Bool.eq_false_iff.2 hfinite⟩

/-- The first source of the evaluation order that is refused has the least id of all that are. -/
theorem run_error_least (hc : c.Faithful) (h : (Evaluator.ofChecked c).run points = .error e) :
    ∃ id x, e = .invalidInput id x ∧ c.model.LeastInvalid points id x := by
  obtain ⟨pre, i, post, horder, hi, hpre⟩ := fill_error_iff.1 h
  obtain ⟨n, x, hn, hk, hx, hfinite, rfl⟩ := hi
  refine ⟨n.id, x, rfl, ⟨n, List.mem_of_getElem? hn, rfl, hk, hx, hfinite⟩, ?_⟩
  rintro - x' ⟨n', hn', rfl, hk', hx', hfinite'⟩
  obtain ⟨j, hj⟩ := List.getElem?_of_mem hn'
  have hready : c.Ready pre j := by
    refine ⟨(List.getElem?_eq_some_iff.1 hj).1, fun hmem => ?_, fun k hk => ?_⟩
    · exact hpre j hmem _ ⟨n', x', hj, hk', hx', hfinite', rfl⟩
    · exact absurd hk (Checked.not_feeds_source hc hj hk' k)
  rw [← Model.idAt_eq hn, ← Model.idAt_eq hj]
  exact ((Checked.order_greedy hc).at_split horder).2 j hready

theorem run_error_iff (hc : c.Faithful) : (Evaluator.ofChecked c).run points = .error e ↔
    ∃ id x, e = .invalidInput id x ∧ c.model.LeastInvalid points id x := by
  refine ⟨run_error_least hc, ?_⟩
  rintro ⟨id, x, rfl, hleast⟩
  cases h : (Evaluator.ofChecked c).run points with
  | ok v => exact absurd hleast.1 (not_invalid_of_stable (run_stable hc h))
  | error e =>
    obtain ⟨id', x', rfl, hleast'⟩ := run_error_least hc h
    obtain ⟨rfl, rfl⟩ := hleast.unique hleast'
    rfl

/-! ## Unknown outcomes -/

omit [Number α] in
theorem outcome_ne_unknown (value : Value α) : value.outcome ≠ .unknown := by
  cases value <;> exact fun h => nomatch h

/-- What is unknown depends on a source without points. -/
theorem exists_absent (hc : c.Faithful) (hv : Stable c points v) (hi : i < c.size)
    (hunknown : valueAt v i = .unknown) : ∃ j n, c.model.nodes[j]? = some n ∧
      n.kind = .source ∧ points n.id = none ∧ Relation.ReflTransGen (Feeds c.model.links) j i := by
  induction i using (Checked.feeds_wellFounded hc).induction with
  | _ i ih =>
    obtain ⟨n, hn⟩ := Checked.exists_node hi
    have hgives := hv.gives hn
    by_cases hk : n.kind = .source
    · obtain ⟨s, hs⟩ := Node.kind_eq_source_iff.1 hk
      rw [Node.gives_source hs, hunknown] at hgives
      rcases hgives.cases with ⟨hp, -⟩ | ⟨x, -, -, hout⟩ | ⟨x, -, -, hout⟩
      · exact ⟨i, n, hn, hk, hp, .refl⟩
      · exact nomatch hout
      · exact nomatch hout
    · rw [Node.gives_other hk, hunknown] at hgives
      rcases hgives.cases with ⟨-, hout⟩ | ⟨-, hmem, -⟩ | ⟨xs, -, hout⟩
      · exact nomatch hout
      · obtain ⟨k, hfeeds, hvalue⟩ := (mem_inputOutcomes hc).1 hmem
        obtain ⟨j, n', hn', hk', hp, hj⟩ := ih k hfeeds (Model.feeds_lt hfeeds).1 hvalue
        exact ⟨j, n', hn', hk', hp, hj.tail hfeeds⟩
      · exact absurd hout.symm (outcome_ne_unknown _)

omit [Number α] in
theorem known?_eq_some_iff {out : Outcome α} {value : Value α} :
    out.known? = some value ↔ out = value.outcome := by
  cases out <;> cases value <;> simp [Outcome.known?, Value.outcome]

/-- Where no source that contributes lacks points, all nodes that contribute are known. -/
theorem known_of_contributes (hc : c.Faithful) (hv : Stable c points v)
    (hmissing : ∀ id, ¬ c.model.Missing points id) (hn : c.model.nodes[i]? = some n)
    (hcontributes : c.model.Contributes n.id) :
    ∃ value : Value α, valueAt v i = value.outcome := by
  cases hvalue : valueAt v i with
  | number x => exact ⟨.number x, rfl⟩
  | fail => exact ⟨.fail, rfl⟩
  | unknown =>
    have hi : i < c.size := (List.getElem?_eq_some_iff.1 hn).1
    obtain ⟨j, n', hn', hk, hp, hleads⟩ := exists_absent hc hv hi hvalue
    have hpath := Model.leads_of_feeds hleads
    rw [Model.idAt_eq hn', Model.idAt_eq hn] at hpath
    obtain ⟨s, hs, hs'⟩ := hcontributes
    exact absurd ⟨n', List.mem_of_getElem? hn', rfl, hk, ⟨s, hs, hpath.trans hs'⟩, hp⟩
      (hmissing n'.id)

/-! ## Full evaluations -/

/-- The sources that contribute but have no points, in ascending order. -/
def Checked.missing (c : Checked α) (points : Points α) : List String :=
  c.requiredSources.filter fun id => (points id).isNone

omit [Number α] in
theorem mem_missing (hc : c.Faithful) : id ∈ c.missing points ↔ c.model.Missing points id := by
  unfold Checked.missing Model.Missing
  rw [List.mem_filter, mem_requiredSources hc, Option.isNone_iff_eq_none]
  constructor
  · rintro ⟨⟨n, hn, hid, hk, hcontributes⟩, hp⟩
    exact ⟨n, hn, hid, hk, hcontributes, hp⟩
  · rintro ⟨n, hn, hid, hk, hcontributes, hp⟩
    exact ⟨⟨n, hn, hid, hk, hcontributes⟩, hp⟩

omit [Number α] in
theorem missing_eq_nil_iff (hc : c.Faithful) : c.missing points = [] ↔
    ∀ id, ¬ c.model.Missing points id := by
  rw [List.eq_nil_iff_forall_not_mem]
  simp only [mem_missing hc]

/-- The known ones of outcomes with names. -/
def knownValues (named : List (String × Outcome α)) : List (String × Value α) :=
  named.filterMap fun n => n.2.known?.map fun value => (n.1, value)

theorem evaluate_of_missing (h : c.missing points ≠ []) :
    (Evaluator.ofChecked c).evaluate points = .error (.missingInputs (c.missing points)) := by
  have hempty : (!(c.missing points).isEmpty) = true := by
    rw [List.isEmpty_eq_false_iff.2 h]
    rfl
  exact if_pos hempty

theorem evaluate_of_error (h : c.missing points = [])
    (hrun : (Evaluator.ofChecked c).run points = .error e) :
    (Evaluator.ofChecked c).evaluate points = .error e := by
  have hempty : ¬ (!(c.missing points).isEmpty) = true := by rw [h]; exact Bool.false_ne_true
  unfold Evaluator.evaluate
  rw [hrun]
  exact if_neg hempty

theorem evaluate_of_run {grade : Value α} (h : c.missing points = [])
    (hrun : (Evaluator.ofChecked c).run points = .ok v)
    (hgrade : valueAt v c.sink = grade.outcome) :
    (Evaluator.ofChecked c).evaluate points =
      .ok { grade, nodes := knownValues (c.model.ids.zip v),
            reason := (Evaluator.ofChecked c).reason points v grade } := by
  have hempty : ¬ (!(c.missing points).isEmpty) = true := by rw [h]; exact Bool.false_ne_true
  have hknown : (valueAt v (Evaluator.ofChecked c).checked.sink).known? = some grade :=
    known?_eq_some_iff.2 hgrade
  unfold Evaluator.evaluate
  rw [hrun]
  refine (if_neg hempty).trans ?_
  simp only [bind, Except.bind, hknown]
  rfl

/-- The grade of a run with no points missing. -/
theorem exists_grade (hc : c.Faithful) (h : c.missing points = [])
    (hrun : (Evaluator.ofChecked c).run points = .ok v) :
    ∃ grade : Value α, valueAt v c.sink = grade.outcome := by
  obtain ⟨s, hs, hi⟩ := Checked.sink?_eq hc
  exact known_of_contributes hc (run_stable hc hrun) ((missing_eq_nil_iff hc).1 h) hi
    ⟨s, hs, .refl⟩

/-- A full evaluation that succeeds is a run with no points missing, and a look at the sink. -/
theorem evaluate_ok_spec (hc : c.Faithful) {r : Evaluation α}
    (h : (Evaluator.ofChecked c).evaluate points = .ok r) : c.missing points = [] ∧
      ∃ v, (Evaluator.ofChecked c).run points = .ok v ∧ valueAt v c.sink = r.grade.outcome ∧
        r.nodes = knownValues (c.model.ids.zip v) ∧
        r.reason = (Evaluator.ofChecked c).reason points v r.grade := by
  by_cases hmissing : c.missing points = []
  · refine ⟨hmissing, ?_⟩
    cases hrun : (Evaluator.ofChecked c).run points with
    | error e =>
      rw [evaluate_of_error hmissing hrun] at h
      exact nomatch h
    | ok v =>
      obtain ⟨grade, hgrade⟩ := exists_grade hc hmissing hrun
      rw [evaluate_of_run hmissing hrun hgrade] at h
      obtain rfl := Except.ok.inj h
      exact ⟨v, rfl, hgrade, rfl, rfl⟩
  · rw [evaluate_of_missing hmissing] at h
    exact nomatch h

omit [Number α] in
/-- The outcomes by id are those at the positions of the ids. -/
theorem mem_zip_ids (hlength : v.length = c.size) {out : Outcome α} :
    (id, out) ∈ c.model.ids.zip v ↔
      ∃ i n, c.model.nodes[i]? = some n ∧ n.id = id ∧ valueAt v i = out := by
  constructor
  · intro hmem
    obtain ⟨i, hi⟩ := List.getElem?_of_mem hmem
    obtain ⟨hid, hout⟩ := List.getElem?_zip_eq_some.1 hi
    obtain ⟨n, hn, hid⟩ := Option.map_eq_some_iff.1 ((List.getElem?_map ..).symm.trans hid)
    exact ⟨i, n, hn, hid, valueAt_eq hout⟩
  · rintro ⟨i, n, hn, rfl, rfl⟩
    have hi : i < v.length := hlength ▸ (List.getElem?_eq_some_iff.1 hn).1
    refine List.mem_of_getElem? (i := i) (List.getElem?_zip_eq_some.2 ⟨?_, ?_⟩)
    · unfold Model.ids
      rw [List.getElem?_map, hn]
      rfl
    · rw [List.getElem?_eq_getElem hi, valueAt_eq (List.getElem?_eq_getElem hi)]

omit [Number α] in
theorem mem_knownValues (hlength : v.length = c.size) {value : Value α} :
    (id, value) ∈ knownValues (c.model.ids.zip v) ↔
      ∃ i n, c.model.nodes[i]? = some n ∧ n.id = id ∧ valueAt v i = value.outcome := by
  rw [← mem_zip_ids hlength]
  unfold knownValues
  rw [List.mem_filterMap]
  constructor
  · rintro ⟨⟨id', out⟩, hmem, hknown⟩
    obtain ⟨value', hvalue', heq⟩ := Option.map_eq_some_iff.1 hknown
    obtain ⟨rfl, rfl⟩ := Prod.mk.inj heq
    exact known?_eq_some_iff.1 hvalue' ▸ hmem
  · intro hmem
    refine ⟨_, hmem, ?_⟩
    show value.outcome.known?.map _ = _
    rw [known?_eq_some_iff.2 rfl]
    rfl

/-! ## Top theorems -/

/-- How a full evaluation ends. -/
structure Model.Ends (m : Model α) (points : Points α)
    (result : Except (EvaluationError α) (Evaluation α)) : Prop where
  /-- Points are missing if and only if a source that contributes has none. -/
  missing_iff : (∃ ids, result = .error (.missingInputs ids)) ↔ ∃ id, m.Missing points id
  /-- All such sources are named, in ascending order, and there is one. -/
  missing_ids : ∀ ids, result = .error (.missingInputs ids) →
    ids ≠ [] ∧ ids.Pairwise (· < ·) ∧ ∀ id, id ∈ ids ↔ m.Missing points id
  /-- Otherwise points are refused if and only if those of a source are not finite. -/
  invalid_iff : (∃ id x, result = .error (.invalidInput id x)) ↔
    (∀ id, ¬ m.Missing points id) ∧ ∃ id x, m.Invalid points id x
  /-- The least such source is named, with its points. -/
  invalid_least : ∀ id x, result = .error (.invalidInput id x) → m.LeastInvalid points id x
  /-- Otherwise there is an outcome. -/
  ok_iff : (∃ r, result = .ok r) ↔
    (∀ id, ¬ m.Missing points id) ∧ ∀ id x, ¬ m.Invalid points id x
  /-- The grade is the value of the sink. -/
  ok_grade : ∀ r, result = .ok r → ∃ s, m.sink? = some s ∧ (s.id, r.grade) ∈ r.nodes
  /-- All nodes that contribute have values. -/
  ok_nodes : ∀ r, result = .ok r → ∀ n ∈ m.nodes, m.Contributes n.id →
    ∃ value, (n.id, value) ∈ r.nodes

theorem ends_of_missing (hc : c.Faithful) (h : c.missing points ≠ []) :
    c.model.Ends points (.error (.missingInputs (c.missing points))) := by
  obtain ⟨id, hid⟩ := List.exists_mem_of_ne_nil _ h
  have hsome : ∃ id, c.model.Missing points id := ⟨id, (mem_missing hc).1 hid⟩
  have hnone : ¬ ∀ id, ¬ c.model.Missing points id := not_forall_not.2 hsome
  refine ⟨iff_of_true ⟨_, rfl⟩ hsome, ?_, iff_of_false (by simp) fun h => hnone h.1, by simp,
    iff_of_false (by simp) fun h => hnone h.1, by simp, by simp⟩
  rintro ids ⟨rfl⟩
  exact ⟨h, (requiredSources_ascending hc).filter _, fun id => mem_missing hc⟩

theorem ends_of_invalid (hc : c.Faithful) (h : c.missing points = [])
    (hleast : c.model.LeastInvalid points id x) :
    c.model.Ends points (.error (.invalidInput id x)) := by
  have hnone := (missing_eq_nil_iff hc).1 h
  refine ⟨iff_of_false (by simp) (not_exists.2 hnone), by simp,
    iff_of_true ⟨id, x, rfl⟩ ⟨hnone, id, x, hleast.1⟩, ?_,
    iff_of_false (by simp) fun h => h.2 id x hleast.1, by simp, by simp⟩
  rintro id' x' ⟨⟩
  exact hleast

theorem ends_of_run (hc : c.Faithful) (h : c.missing points = [])
    (hrun : (Evaluator.ofChecked c).run points = .ok v) {r : Evaluation α}
    (hgrade : valueAt v c.sink = r.grade.outcome)
    (hnodes : r.nodes = knownValues (c.model.ids.zip v)) :
    c.model.Ends points (.ok r) := by
  have hnone := (missing_eq_nil_iff hc).1 h
  have hv := run_stable hc hrun
  have hvalid : ∀ id x, ¬ c.model.Invalid points id x := fun _ _ => not_invalid_of_stable hv
  refine ⟨iff_of_false (by simp) (not_exists.2 hnone), by simp,
    iff_of_false (by simp) fun h => ?_, by simp, iff_of_true ⟨r, rfl⟩ ⟨hnone, hvalid⟩, ?_, ?_⟩
  · obtain ⟨-, id, x, hinvalid⟩ := h
    exact hvalid id x hinvalid
  · rintro _ ⟨rfl⟩
    obtain ⟨s, hs, hi⟩ := Checked.sink?_eq hc
    refine ⟨s, hs, ?_⟩
    rw [hnodes, mem_knownValues hv.length]
    exact ⟨c.sink, s, hi, rfl, hgrade⟩
  · rintro _ ⟨rfl⟩ n hn hcontributes
    obtain ⟨i, hi⟩ := List.getElem?_of_mem hn
    obtain ⟨value, hvalue⟩ := known_of_contributes hc hv hnone hi hcontributes
    refine ⟨value, ?_⟩
    rw [hnodes, mem_knownValues hv.length]
    exact ⟨i, n, hi, rfl, hvalue⟩

theorem preview_of_error (hrun : (Evaluator.ofChecked c).run points = .error e) :
    (Evaluator.ofChecked c).preview points = .error e := by
  unfold preview
  rw [hrun]
  rfl

theorem preview_error_iff (hc : c.Faithful) :
    (Evaluator.ofChecked c).preview points = .error e ↔
      ∃ id x, e = .invalidInput id x ∧ c.model.LeastInvalid points id x := by
  rw [← run_error_iff hc]
  unfold preview
  cases (Evaluator.ofChecked c).run points with
  | error e' =>
    show Except.error e' = Except.error e ↔ Except.error e' = Except.error e
    simp
  | ok v => exact iff_of_false (fun h => nomatch h) (fun h => nomatch h)

theorem preview_fails_iff (hc : c.Faithful) :
    (∃ e, (Evaluator.ofChecked c).preview points = .error e) ↔
      ∃ id x, c.model.Invalid points id x := by
  constructor
  · rintro ⟨e, he⟩
    obtain ⟨id, x, -, hleast⟩ := (preview_error_iff hc).1 he
    exact ⟨id, x, hleast.1⟩
  · rintro ⟨id, x, hinvalid⟩
    cases hrun : (Evaluator.ofChecked c).run points with
    | error e => exact ⟨e, (preview_error_iff hc).2 (run_error_least hc hrun)⟩
    | ok v => exact absurd hinvalid (not_invalid_of_stable (run_stable hc hrun))

/-- Which of its ends a full evaluation has follows from the points alone, and so does whether a
preview is refused, which is only ever for points that are not finite. -/
theorem evaluate_classified {strict : Bool} (h : validate strict m = .ok c)
    (points : Points α) : m.Ends points ((Evaluator.ofChecked c).evaluate points) ∧
      ((∃ e, (Evaluator.ofChecked c).preview points = .error e) ↔
        ∃ id x, m.Invalid points id x) ∧
      ∀ e, (Evaluator.ofChecked c).preview points = .error e ↔
        ∃ id x, e = .invalidInput id x ∧ m.LeastInvalid points id x := by
  obtain ⟨hc, rfl⟩ := faithful_of_validate h
  refine ⟨?_, preview_fails_iff hc, fun e => preview_error_iff hc⟩
  by_cases hmissing : c.missing points = []
  · cases hrun : (Evaluator.ofChecked c).run points with
    | error e =>
      obtain ⟨id, x, rfl, hleast⟩ := run_error_least hc hrun
      rw [evaluate_of_error hmissing hrun]
      exact ends_of_invalid hc hmissing hleast
    | ok v =>
      obtain ⟨grade, hgrade⟩ := exists_grade hc hmissing hrun
      rw [evaluate_of_run hmissing hrun hgrade]
      exact ends_of_run hc hmissing hrun hgrade rfl
  · rw [evaluate_of_missing hmissing]
    exact ends_of_missing hc hmissing

theorem evaluate_classified_quiz :
    validate true quizModel = .ok (quizModel.accepted 2) ∧
      quizModel.Ends (fun _ => none)
        ((Evaluator.ofChecked (quizModel.accepted 2)).evaluate fun _ => none) ∧
      quizModel.Missing (fun _ => none) "quiz" := by
  have hvalid : validate true quizModel = .ok (quizModel.accepted 2) := rfl
  have hends := (evaluate_classified hvalid fun _ => none).1
  exact ⟨hvalid, hends, ((hends.missing_ids ["quiz"] rfl).2.2 "quiz").1 List.mem_cons_self⟩

end Grading
