import Grading.Proofs.Agreement
import Grading.Proofs.ExactRules

/-!
# More points never hurt

A failure is below every number, and numbers are ordered by size.  Over exact numbers every rule
is monotone, if the outputs of a stepper are: sums, means with weights that are not negative, the
largest of some numbers, roundings, and a minimum, which fails the numbers below it.  So more
points for the same sources raise what every node gives out:

    s sound and rising, xs ≤ ys → s.applyTo xs ≤ s.applyTo ys                 (applyTo_atMost)
    more points for the sources → every outcome rises                        (rises_of_points)
    the same for the values and the grade of a full evaluation      (more_points_never_hurt)

A failure may also rise to an unknown outcome, when a failed input no longer hides a missing one.
That happens only at a node that does not contribute to the grade (`failure_becomes_unknown`).
-/

namespace Grading

open Evaluator

/-! ## Order -/

/-- A failure is at most any value, and numbers are compared. -/
inductive Value.AtMost : Value Rat → Value Rat → Prop where
  | fail (value : Value Rat) : AtMost .fail value
  | number {x y : Rat} (h : x ≤ y) : AtMost (.number x) (.number y)

/-- How an outcome may change with more points for the same sources.  A failure may become
anything; what is not a failure stays unknown, or a number that is not smaller. -/
inductive Outcome.Rises : Outcome Rat → Outcome Rat → Prop where
  | fail (out : Outcome Rat) : Rises .fail out
  | unknown : Rises .unknown .unknown
  | number {x y : Rat} (h : x ≤ y) : Rises (.number x) (.number y)

/-- The same sources are given points, and none is given fewer. -/
def Model.MorePoints (m : Model Rat) (points more : Points Rat) : Prop :=
  ∀ n ∈ m.nodes, n.kind = .source → Option.Rel (· ≤ ·) (points n.id) (more n.id)

/-- The outputs of a stepper are numbers, and none is smaller than the one before it. -/
def StepperSettings.Rising (s : StepperSettings Rat) : Prop :=
  ∃ ys : List Rat, s.outputs = ys.map .value ∧ ys.Pairwise (· ≤ ·)

def Settings.Rising : Settings Rat → Prop
  | .stepper s => s.Rising
  | _ => True

theorem Value.AtMost.rises {value value' : Value Rat} (h : value.AtMost value') :
    value.outcome.Rises value'.outcome := by
  cases h with
  | fail value => exact .fail _
  | number h => exact .number h

namespace Outcome.Rises

variable {out : Outcome Rat} {x : Rat}

theorem eq_fail (h : out.Rises .fail) : out = .fail := by
  cases h
  rfl

theorem eq_unknown (h : Outcome.unknown.Rises out) : out = .unknown := by
  cases h
  rfl

theorem exists_number (h : (Outcome.number x).Rises out) : ∃ y, out = .number y ∧ x ≤ y := by
  cases h with
  | number h => exact ⟨_, rfl, h⟩

theorem atMost {value value' : Value Rat} (h : value.outcome.Rises value'.outcome) :
    value.AtMost value' := by
  cases value with
  | fail => exact .fail _
  | number x =>
    obtain ⟨y, hy, hxy⟩ := h.exists_number
    obtain rfl : value' = .number y := value_outcome_inj hy
    exact .number hxy

/-- What is known afterwards was known before. -/
theorem known_before {value : Value Rat} (h : out.Rises value.outcome) :
    ∃ value' : Value Rat, out = value'.outcome := by
  cases out with
  | fail => exact ⟨.fail, rfl⟩
  | unknown => exact absurd h.eq_unknown (outcome_ne_unknown value)
  | number x => exact ⟨.number x, rfl⟩

/-- What was known before is still known, unless it was a failure. -/
theorem known_after {value : Value Rat} (h : value.outcome.Rises out) :
    (∃ value' : Value Rat, out = value'.outcome) ∨ value = .fail := by
  cases value with
  | fail => exact .inr rfl
  | number x =>
    obtain ⟨y, hy, -⟩ := h.exists_number
    exact .inl ⟨.number y, hy⟩

end Outcome.Rises

/-! ## Rules -/

section

variable {x y : Rat} {xs ys : List Rat}

theorem requirePoints_atMost (minPoints : Option Rat) (onFail : FailPolicy) (h : x ≤ y) :
    (requirePoints x minPoints onFail).AtMost (requirePoints y minPoints onFail) := by
  by_cases hx : Missed x minPoints onFail
  · rw [requirePoints_of_missed hx]
    exact .fail _
  · have hy : ¬ Missed y minPoints onFail := by
      rintro ⟨least, hleast, hfail, hlt⟩
      exact hx ⟨least, hleast, hfail, Number.lt_iff.2 (h.trans_lt (Number.lt_iff.1 hlt))⟩
    rw [requirePoints_of_not_missed hx, requirePoints_of_not_missed hy]
    exact .number h

theorem firstInput_le (h : List.Forall₂ (· ≤ ·) xs ys) : firstInput xs ≤ firstInput ys := by
  cases h with
  | nil => exact le_rfl
  | cons h _ => exact h

theorem foldl_larger_le (hxy : x ≤ y) (h : List.Forall₂ (· ≤ ·) xs ys) :
    xs.foldl Number.larger x ≤ ys.foldl Number.larger y := by
  induction h generalizing x y with
  | nil => exact hxy
  | cons hnext _ ih =>
    refine ih ?_
    simpa only [Number.larger_eq_max] using max_le_max hxy hnext

theorem Rounding.apply_le (mode : Rounding) (h : x ≤ y) : mode.apply x ≤ mode.apply y := by
  cases mode with
  | up =>
    have hceil : ⌈x⌉ ≤ ⌈y⌉ := Int.ceil_le_ceil h
    simpa [Rounding.apply] using hceil
  | closest =>
    have hfloor : ⌊x + 1 / 2⌋ ≤ ⌊y + 1 / 2⌋ := Int.floor_le_floor (by linarith)
    simpa [Rounding.apply] using hfloor
  | down =>
    have hfloor : ⌊x⌋ ≤ ⌊y⌋ := Int.floor_le_floor h
    simpa [Rounding.apply] using hfloor

/-- Products with weights that are not negative keep the order. -/
theorem products_le {ws : List Rat} (hws : ∀ w ∈ ws, 0 ≤ w) (h : List.Forall₂ (· ≤ ·) xs ys) :
    List.Forall₂ (· ≤ ·) ((ws.zip xs).map fun p => p.1 * p.2)
      ((ws.zip ys).map fun p => p.1 * p.2) := by
  induction h generalizing ws with
  | nil =>
    rw [List.zip_nil_right]
    exact .nil
  | cons hxy _ ih =>
    cases ws with
    | nil => exact .nil
    | cons w ws =>
      rw [List.forall_mem_cons] at hws
      exact .cons (mul_le_mul_of_nonneg_left hxy hws.1) (ih hws.2)

theorem weightedAverage_le {s : AverageSettings Rat} (hs : s.Sound)
    (h : List.Forall₂ (· ≤ ·) xs ys) : weightedAverage s xs ≤ weightedAverage s ys := by
  rw [weightedAverage_eq_mean hs, weightedAverage_eq_mean hs]
  exact div_le_div_of_nonneg_right (products_le (fun _ => hs.nonneg) h).sum_le_sum hs.sum_pos.le

theorem StepperSettings.range_le (s : StepperSettings Rat) (h : x ≤ y) : s.range x ≤ s.range y := by
  rw [StepperSettings.range_eq_findIdx, StepperSettings.range_eq_findIdx]
  refine List.findIdx_le_findIdx fun p _ hp => ?_
  exact Number.lt_iff.2 (h.trans_lt (Number.lt_iff.1 hp))

theorem StepperSettings.output_le {s : StepperSettings Rat} (hs : s.Sound) (hrising : s.Rising)
    (h : x ≤ y) : s.output x ≤ s.output y := by
  obtain ⟨outputs, houtputs, hpairwise⟩ := hrising
  have hvalue : ∀ z, ∃ hz : s.range z < outputs.length, s.output z = outputs[s.range z] := by
    intro z
    have hz := hs.range_lt z
    rw [houtputs, List.length_map] at hz
    refine ⟨hz, ?_⟩
    unfold StepperSettings.output
    rw [houtputs, List.getElem?_map, List.getElem?_eq_getElem hz]
    rfl
  obtain ⟨hx, hox⟩ := hvalue x
  obtain ⟨hy, hoy⟩ := hvalue y
  rw [hox, hoy]
  exact hpairwise.rel_get_of_le (s.range_le h)

/-- A node gives out no less for numbers that are no smaller. -/
theorem applyTo_atMost {s : Settings Rat} (hs : s.Sound) (hrising : s.Rising)
    (h : List.Forall₂ (· ≤ ·) xs ys) : (s.applyTo xs).AtMost (s.applyTo ys) := by
  have hfirst := firstInput_le h
  cases s with
  | source s => exact requirePoints_atMost s.minPoints s.onFail hfirst
  | addition => exact .number (by simpa using h.sum_le_sum)
  | average s => exact .number (weightedAverage_le hs h)
  | stepper s => exact .number (StepperSettings.output_le hs hrising hfirst)
  | sink => exact .number hfirst
  | minPoints s => exact requirePoints_atMost (some s.minPoints) s.onFail hfirst
  | max minValue => exact .number (foldl_larger_le le_rfl h)
  | round mode => exact .number (mode.apply_le hfirst)

end

/-! ## Nodes -/

variable {c : Checked Rat} {m : Model Rat} {points more : Points Rat} {v w : List (Outcome Rat)}
variable {i : Nat} {out out' : Outcome Rat}

/-- What a source gives out for points is the value of its rule. -/
theorem SourceSettings.Gives.eq_requirePoints {s : SourceSettings Rat} {x : Rat}
    (h : s.Gives (some x) out) : out = (requirePoints x s.minPoints s.onFail).outcome := by
  by_cases hx : Missed x s.minPoints s.onFail
  · rw [h.missed x rfl hx, requirePoints_of_missed hx]
    rfl
  · rw [h.reached x rfl hx, requirePoints_of_not_missed hx]
    rfl

/-- A source with more points gives out more. -/
theorem SourceSettings.Gives.rises {s : SourceSettings Rat} {given given' : Option Rat}
    (h : s.Gives given out) (h' : s.Gives given' out') (hgiven : Option.Rel (· ≤ ·) given given') :
    out.Rises out' := by
  cases hgiven with
  | none =>
    rw [h.absent rfl, h'.absent rfl]
    exact .unknown
  | @some x y hxy =>
    rw [h.eq_requirePoints, h'.eq_requirePoints]
    exact (requirePoints_atMost s.minPoints s.onFail hxy).rises

/-- Outcomes that rise from numbers are numbers, and none is smaller. -/
theorem exists_numbers_le {ι : Type} {l : List ι} {f g : ι → Outcome Rat} {xs : List Rat}
    (hxs : l.map f = xs.map .number) (hinputs : ∀ a ∈ l, (f a).Rises (g a)) :
    ∃ ys : List Rat, l.map g = ys.map .number ∧ List.Forall₂ (· ≤ ·) xs ys := by
  induction l generalizing xs with
  | nil =>
    obtain rfl := List.map_eq_nil_iff.1 hxs.symm
    exact ⟨[], rfl, .nil⟩
  | cons a l ih =>
    rw [List.forall_mem_cons] at hinputs
    obtain ⟨x, xs, rfl, hx, hrest⟩ := List.map_eq_cons_iff.1 hxs.symm
    obtain ⟨y, hy, hxy⟩ := Outcome.Rises.exists_number (hx ▸ hinputs.1)
    obtain ⟨ys, hys, hle⟩ := ih hrest.symm hinputs.2
    exact ⟨y :: ys, by rw [List.map_cons, List.map_cons, hy, hys], .cons hxy hle⟩

/-- A node gives out more when its inputs rise: where none of them fails before, the same are
unknown after, and numbers come from numbers. -/
theorem Settings.Combines.rises {ι : Type} {s : Settings Rat} {l : List ι} {f g : ι → Outcome Rat}
    (hs : s.Sound) (hrising : s.Rising) (h : s.Combines (l.map f) out)
    (h' : s.Combines (l.map g) out') (hinputs : ∀ a ∈ l, (f a).Rises (g a)) : out.Rises out' := by
  rcases h.cases with ⟨-, hout⟩ | ⟨hfail, hunknown, hout⟩ | ⟨xs, hxs, hout⟩
  · rw [hout]
    exact .fail _
  · have hfail' : .fail ∉ l.map g := by
      intro hmem
      obtain ⟨a, ha, hga⟩ := List.mem_map.1 hmem
      exact hfail (List.mem_map.2 ⟨a, ha, (hga ▸ hinputs a ha).eq_fail⟩)
    obtain ⟨a, ha, hfa⟩ := List.mem_map.1 hunknown
    have hga : g a = .unknown := Outcome.Rises.eq_unknown (hfa ▸ hinputs a ha)
    rw [hout, h'.unknown hfail' (List.mem_map.2 ⟨a, ha, hga⟩)]
    exact .unknown
  · obtain ⟨ys, hys, hle⟩ := exists_numbers_le hxs hinputs
    rw [hout, h'.known ys hys, evaluate_numbers]
    exact (applyTo_atMost hs hrising hle).rises

/-! ## Runs -/

/-- With more points for the sources every outcome rises. -/
theorem rises_of_points (hc : c.Faithful)
    (hsettings : ∀ n ∈ c.model.nodes, n.settings.Sound ∧ n.settings.Rising)
    (hmore : c.model.MorePoints points more) (hv : Stable c points v) (hw : Stable c more w)
    (hi : i < c.size) : (valueAt v i).Rises (valueAt w i) := by
  induction i using (Checked.feeds_wellFounded hc).induction with
  | _ i ih =>
    obtain ⟨n, hn⟩ := Checked.exists_node hi
    have hmem := List.mem_of_getElem? hn
    have hless := hv.gives hn
    have hgives := hw.gives hn
    by_cases hk : n.kind = .source
    · obtain ⟨s, hs⟩ := Node.kind_eq_source_iff.1 hk
      rw [Node.gives_source hs] at hless hgives
      exact hless.rises hgives (hmore n hmem hk)
    · rw [Node.gives_other hk] at hless hgives
      refine hless.rises (hsettings n hmem).1 (hsettings n hmem).2 hgives fun a ha => ?_
      have hfeeds : Feeds c.model.links a.2 i :=
        (Checked.mem_inputsOf hc).1 (List.mem_map.2 ⟨a, ha, rfl⟩)
      exact ih a.2 hfeeds (Model.feeds_lt hfeeds).1

theorem exists_node_of_preview {p : Preview Rat} {id : String} (hc : c.Faithful)
    (hp : (Evaluator.ofChecked c).preview points = .ok p) (h : p.node? id = some out) :
    ∃ n ∈ c.model.nodes, n.id = id := by
  obtain ⟨v, -, -, hshows⟩ := preview_shows hc hp
  obtain ⟨i, n, hn, hid, -⟩ := (hshows.node? id out).1 h
  exact ⟨n, List.mem_of_getElem? hn, hid⟩

/-- With more points for the sources every outcome of a preview rises. -/
theorem preview_rises {p q : Preview Rat} (hc : c.Faithful)
    (hsettings : ∀ n ∈ c.model.nodes, n.settings.Sound ∧ n.settings.Rising)
    (hmore : c.model.MorePoints points more)
    (hp : (Evaluator.ofChecked c).preview points = .ok p)
    (hq : (Evaluator.ofChecked c).preview more = .ok q) :
    p.grade.Rises q.grade ∧
      (∀ id out, p.node? id = some out → ∃ out', q.node? id = some out' ∧ out.Rises out') ∧
      ∀ id out', q.node? id = some out' → ∃ out, p.node? id = some out ∧ out.Rises out' := by
  obtain ⟨v, -, hv, hshows⟩ := preview_shows hc hp
  obtain ⟨w, -, hw, hshows'⟩ := preview_shows hc hq
  have hrises : ∀ i < c.size, (valueAt v i).Rises (valueAt w i) :=
    fun i hi => rises_of_points hc hsettings hmore hv hw hi
  refine ⟨?_, fun id out hout => ?_, fun id out' hout' => ?_⟩
  · obtain ⟨s, -, hs⟩ := Checked.sink?_eq hc
    rw [hshows.grade, hshows'.grade]
    exact hrises c.sink (Checked.lt_size hs)
  · obtain ⟨i, n, hn, rfl, rfl⟩ := (hshows.node? id out).1 hout
    exact ⟨_, hshows'.node?_id hn, hrises i (Checked.lt_size hn)⟩
  · obtain ⟨i, n, hn, rfl, rfl⟩ := (hshows'.node? id out').1 hout'
    exact ⟨_, hshows.node?_id hn, hrises i (Checked.lt_size hn)⟩

/-! ## Top theorem -/

/-- With more points for the same sources, the grade and every value that stays known are no less.
Only a failed node that does not contribute may become unknown, and no passing grade becomes a
failure. -/
theorem more_points_never_hurt {strict : Bool} {r r' : Evaluation Rat}
    (h : validate strict m = .ok c) (hrising : ∀ n ∈ m.nodes, n.settings.Rising)
    (hmore : m.MorePoints points more)
    (hr : (Evaluator.ofChecked c).evaluate points = .ok r)
    (hr' : (Evaluator.ofChecked c).evaluate more = .ok r') :
    (∀ id value value', (id, value) ∈ r.nodes → (id, value') ∈ r'.nodes → value.AtMost value') ∧
    (∀ id value, (id, value) ∈ r.nodes →
      (∃ value', (id, value') ∈ r'.nodes) ∨ value = .fail ∧ ¬ m.Contributes id) ∧
    (∀ id value', (id, value') ∈ r'.nodes → ∃ value, (id, value) ∈ r.nodes) ∧
    r.grade.AtMost r'.grade ∧
    ∀ x, r.grade = .number x → ∃ y, r'.grade = .number y ∧ x ≤ y := by
  have hsound := (Model.wellFormed_iff.2 (validate_eq_ok_iff.1 h).1).settings
  obtain ⟨hc, rfl⟩ := faithful_of_validate h
  obtain ⟨p, hp⟩ := ((evaluate_ok_iff hc).1 ⟨r, hr⟩).1
  obtain ⟨q, hq⟩ := ((evaluate_ok_iff hc).1 ⟨r', hr'⟩).1
  obtain ⟨hgrade, hnodes⟩ := evaluate_preview hc hr hp
  obtain ⟨hgrade', hnodes'⟩ := evaluate_preview hc hr' hq
  obtain ⟨hsink, hbefore, hafter⟩ :=
    preview_rises hc (fun n hn => ⟨hsound n hn, hrising n hn⟩) hmore hp hq
  rw [hgrade, hgrade'] at hsink
  refine ⟨fun id value value' hmem hmem' => ?_, fun id value hmem => ?_,
    fun id value' hmem' => ?_, hsink.atMost, fun x hx => ?_⟩
  · obtain ⟨out, hout, hrises⟩ := hbefore id _ ((hnodes id value).1 hmem)
    obtain rfl : value'.outcome = out :=
      Option.some.inj (((hnodes' id value').1 hmem').symm.trans hout)
    exact hrises.atMost
  · obtain ⟨out, hout, hrises⟩ := hbefore id _ ((hnodes id value).1 hmem)
    by_cases hknown : ∃ value', (id, value') ∈ r'.nodes
    · exact .inl hknown
    · refine .inr ⟨hrises.known_after.resolve_left ?_, fun hcontributes => ?_⟩
      · rintro ⟨value', rfl⟩
        exact hknown ⟨value', (hnodes' id value').2 hout⟩
      · obtain ⟨n, hn, rfl⟩ := exists_node_of_preview hc hq hout
        exact hknown (mem_nodes_of_contributes hc hr' hn hcontributes)
  · obtain ⟨out, hout, hrises⟩ := hafter id _ ((hnodes' id value').1 hmem')
    obtain ⟨value, rfl⟩ := hrises.known_before
    exact ⟨value, (hnodes id value).2 hout⟩
  · rw [hx] at hsink
    obtain ⟨y, hy, hxy⟩ := hsink.exists_number
    exact ⟨y, value_outcome_inj hy, hxy⟩

/-- The grade is a step reached in the exam, which has to be passed.  An extra sum of the exam and
a talk does not count. -/
def stepsModel : Model Rat where
  nodes :=
    [⟨"exam", .source ⟨some 5, .courseFail⟩⟩, ⟨"talk", .source ⟨none, .ignore⟩⟩,
      ⟨"steps", .stepper ⟨2, [.value 1, .value 2], [7]⟩⟩, ⟨"extra", .addition⟩, ⟨"grade", .sink⟩]
  edges :=
    [Edge.join "exam" "steps" 0, Edge.join "steps" "grade" 0, Edge.join "exam" "extra" 0,
      Edge.join "talk" "extra" 1]

/-- Points for the exam alone. -/
def onlyExam (x : Rat) : Points Rat := Points.ofList [("exam", x)]

theorem stepsModel_rising : ∀ n ∈ stepsModel.nodes, n.settings.Rising := by
  simp only [stepsModel, List.forall_mem_cons]
  exact ⟨trivial, trivial, ⟨[1, 2], rfl, by decide⟩, trivial, trivial, by simp⟩

theorem onlyExam_morePoints {x y : Rat} (h : x ≤ y) :
    stepsModel.MorePoints (onlyExam x) (onlyExam y) := by
  simp only [Model.MorePoints, stepsModel, List.forall_mem_cons]
  exact ⟨fun _ => .some h, fun _ => .none, fun _ => .none, fun _ => .none, fun _ => .none, by simp⟩

theorem more_points_never_hurt_steps :
    validate false stepsModel = .ok (stepsModel.accepted 4) ∧
      (∀ n ∈ stepsModel.nodes, n.settings.Rising) ∧
      stepsModel.MorePoints (onlyExam 6) (onlyExam 8) ∧
      ∃ r r', (Evaluator.ofChecked (stepsModel.accepted 4)).evaluate (onlyExam 6) = .ok r ∧
        (Evaluator.ofChecked (stepsModel.accepted 4)).evaluate (onlyExam 8) = .ok r' ∧
        r.grade = .number 1 ∧ ∃ y, r'.grade = .number y ∧ 1 ≤ y := by
  have hvalid : validate false stepsModel = .ok (stepsModel.accepted 4) := rfl
  have hmore : stepsModel.MorePoints (onlyExam 6) (onlyExam 8) := onlyExam_morePoints (by decide)
  obtain ⟨r, hr, hgrade⟩ : ∃ r,
      (Evaluator.ofChecked (stepsModel.accepted 4)).evaluate (onlyExam 6) = .ok r ∧
        r.grade = .number 1 := ⟨_, rfl, rfl⟩
  obtain ⟨r', hr'⟩ : ∃ r',
      (Evaluator.ofChecked (stepsModel.accepted 4)).evaluate (onlyExam 8) = .ok r' := ⟨_, rfl⟩
  have hall := more_points_never_hurt hvalid stepsModel_rising hmore hr hr'
  exact ⟨hvalid, stepsModel_rising, hmore, r, r', hr, hr', hgrade, hall.2.2.2.2 1 hgrade⟩

/-- With more points, a failure at a node that does not contribute becomes unknown. -/
theorem failure_becomes_unknown :
    validate false stepsModel = .ok (stepsModel.accepted 4) ∧
      (∀ n ∈ stepsModel.nodes, n.settings.Rising) ∧
      stepsModel.MorePoints (onlyExam 3) (onlyExam 6) ∧
      ∃ r r', (Evaluator.ofChecked (stepsModel.accepted 4)).evaluate (onlyExam 3) = .ok r ∧
        (Evaluator.ofChecked (stepsModel.accepted 4)).evaluate (onlyExam 6) = .ok r' ∧
        ("extra", .fail) ∈ r.nodes ∧ ∀ value, ("extra", value) ∉ r'.nodes := by
  obtain ⟨r, hr, hnodes⟩ : ∃ r,
      (Evaluator.ofChecked (stepsModel.accepted 4)).evaluate (onlyExam 3) = .ok r ∧
        r.nodes = [("exam", .fail), ("steps", .fail), ("extra", .fail), ("grade", .fail)] :=
    ⟨_, rfl, rfl⟩
  obtain ⟨r', hr', hnodes'⟩ : ∃ r',
      (Evaluator.ofChecked (stepsModel.accepted 4)).evaluate (onlyExam 6) = .ok r' ∧
        r'.nodes = [("exam", .number 6), ("steps", .number 1), ("grade", .number 1)] :=
    ⟨_, rfl, rfl⟩
  refine ⟨rfl, stepsModel_rising, onlyExam_morePoints (by decide), r, r', hr, hr', ?_, ?_⟩
  · rw [hnodes]
    simp
  · rw [hnodes']
    simp

end Grading
