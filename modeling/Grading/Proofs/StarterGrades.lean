import Grading.Proofs.Agreement
import Grading.Proofs.Ranges
import Grading.Proofs.StarterNumbers
import Grading.Proofs.Starters

/-!
# Sums of all points have a grade

A starting sum is a valid model, whatever its parts are, and it gives a grade to all points.  What
its nodes mean is read along the chain: the sources give out their points, the middle node adds
them in the order of the parts, the stepper counts the middle points that the sum reaches, and the
sink passes that number on:

    the middle points ascend → the range of a sum counts those it reaches        (range_sum)
    a meaning of a wired model ends with the step of its sum                     (meaning_sink)
    points for all sources → a grade, and never a failure                        (addition_total)

The middle points ascend over doubles as over the rationals, so both have the same theorem.
-/

namespace Grading

/-! ## Meanings -/

namespace Model

variable {α : Type} [Number α] {m : Model α} {points : Points α} {value : String → Outcome α}
variable {n : Node α}

/-- A source without a minimum gives out its points. -/
theorem Meaning.source (h : m.Meaning points value) (hn : n ∈ m.nodes)
    (hs : n.settings = .source {}) {x : α} (hx : points n.id = some x) :
    value n.id = .number x := by
  refine ((Node.gives_source hs).1 (h n hn)).reached x hx ?_
  rintro ⟨least, hnone, -⟩
  exact nomatch hnone

/-- From numbers at its inputs a node makes what its rule says. -/
theorem Meaning.rule (h : m.Meaning points value) (hn : n ∈ m.nodes) (hk : n.kind ≠ .source)
    {xs : List α} (hxs : (m.incoming n.id).map (fun e => value e.source) = xs.map .number) :
    value n.id = (n.settings.applyTo xs).outcome := by
  rw [((Node.gives_other hk).1 (h n hn)).known xs hxs, evaluate_numbers]

end Model

/-! ## Ranges -/

namespace Template

section

variable {α : Type} [Number α] [GradedSums α] {parts : List UInt32} {count : ℕ} {xs : List α}

theorem isFinite_additionBreakpoints (hpos : 0 < count) (hle : count ≤ 2 ^ 32) :
    ∀ p ∈ (additionBreakpoints count : List α), Number.isFinite p = true := by
  rw [additionBreakpoints_eq, List.forall_mem_map]
  exact fun i hi => GradedSums.isFinite_middlePoint hpos hle (List.mem_range.1 hi)

theorem additionBreakpoints_ascending (hpos : 0 < count) (hle : count ≤ 2 ^ 32) :
    (additionBreakpoints count : List α).Pairwise fun p q => Number.lt p q = true := by
  rw [additionBreakpoints_eq, List.pairwise_map]
  exact List.pairwise_lt_range.imp_of_mem fun _ hj hij =>
    GradedSums.middlePoint_lt hpos hle hij (List.mem_range.1 hj)

theorem additionStepper_sound (hpos : 0 < count) (hle : count ≤ 2 ^ 32) :
    (stepper (additionBreakpoints count) : StepperSettings α).Sound :=
  stepper_sound (by rw [additionBreakpoints_eq, List.length_map, List.length_range])
    (isFinite_additionBreakpoints hpos hle) (additionBreakpoints_ascending hpos hle)
    GradedSums.isFinite_grade

/-- The first middle point above a sum comes after all that the sum reaches. -/
theorem findIdx_sum {breakpoints : List α} (hxs : ∀ x ∈ xs, Number.isFinite x = true)
    (hfinite : ∀ p ∈ breakpoints, Number.isFinite p = true)
    (hascending : breakpoints.Pairwise fun p q => Number.lt p q = true) :
    (breakpoints.findIdx fun p => Number.lt (Number.sum xs) p) =
      breakpoints.countP fun p => Number.le p (Number.sum xs) := by
  refine findIdx_eq_countP (fun p hp => GradedSums.sum_lt hxs (hfinite p hp)) ?_
  refine hascending.imp_of_mem fun {p q} hp hq hpq hle => ?_
  exact GradedSums.le_sum hxs (hfinite p hp) (hfinite q hq) hpq hle

theorem range_sum (hpos : 0 < count) (hle : count ≤ 2 ^ 32)
    (hxs : ∀ x ∈ xs, Number.isFinite x = true) :
    (stepper (additionBreakpoints count) : StepperSettings α).range (Number.sum xs) =
      (additionBreakpoints count : List α).countP fun p => Number.le p (Number.sum xs) := by
  rw [StepperSettings.range_eq_findIdx]
  exact findIdx_sum hxs (isFinite_additionBreakpoints hpos hle)
    (additionBreakpoints_ascending hpos hle)

end

/-! ## Grades of wired models -/

section

variable {α : Type} [Number α] {id : String} {middle : Settings α} {breakpoints : List α}
variable {parts : List UInt32} {points : Points α} {outcome : String → Outcome α}
variable {value : UInt32 → α} {total : α}

/-- The grades are the numbers of the ranges. -/
theorem output_stepper (hs : (stepper breakpoints).Sound) (x : α) :
    (stepper breakpoints).output x = Number.ofNat ((stepper breakpoints).range x) := by
  have hrange : (stepper breakpoints).range x < gradeSteps := by
    have hlt := hs.range_lt x
    unfold stepper at hlt
    rwa [List.length_map, List.length_range] at hlt
  have houtput : (stepper breakpoints).outputs[(stepper breakpoints).range x]? =
      some (.value (Number.ofNat ((stepper breakpoints).range x))) := by
    generalize (stepper breakpoints).range x = grade at hrange
    unfold stepper
    rw [List.getElem?_map, List.getElem?_range hrange]
    rfl
  unfold StepperSettings.output
  rw [houtput]

/-- Along the chain the sink gets the step of what the middle node makes of the points. -/
theorem meaning_sink (h : Bridges id middle parts)
    (hmeaning : (wired id middle breakpoints parts).Meaning points outcome)
    (hpoints : ∀ part ∈ parts, points (sourceId part) = some (value part))
    (hmiddle : middle.applyTo (parts.map value) = .number total) :
    outcome sinkId = .number ((stepper breakpoints).output total) := by
  have hsources : ∀ part ∈ parts, outcome (sourceId part) = .number (value part) :=
    fun part hpart => hmeaning.source (n := ⟨sourceId part, .source {}⟩)
      (mem_nodes_wired.2 (.inr (.inl ⟨part, hpart, rfl⟩))) rfl (hpoints part hpart)
  have hmiddle : outcome id = .number total := by
    have hinputs : ((wired id middle breakpoints parts).incoming id).map
        (fun e => outcome e.source) = (parts.map value).map .number := by
      have hids := congrArg (List.map outcome) (map_source_sourceEdges id parts)
      rw [List.map_map, List.map_map] at hids
      rw [incoming_middle h, List.map_map]
      exact hids.trans (List.map_congr_left hsources)
    rw [hmeaning.rule (n := ⟨id, middle⟩) (mem_nodes_wired.2 (.inr (.inr (.inl rfl))))
      h.kind_ne_source hinputs]
    exact congrArg Value.outcome hmiddle
  have hstepper : outcome stepperId = .number ((stepper breakpoints).output total) := by
    have hinputs : ((wired id middle breakpoints parts).incoming stepperId).map
        (fun e => outcome e.source) = [total].map .number := by
      rw [incoming_stepper h]
      exact congrArg (fun out => [out]) hmiddle
    exact hmeaning.rule (n := ⟨stepperId, .stepper (stepper breakpoints)⟩)
      (mem_nodes_wired.2 (.inr (.inr (.inr rfl)))) (fun hk => nomatch hk) hinputs
  have hinputs : ((wired id middle breakpoints parts).incoming sinkId).map
      (fun e => outcome e.source) = [(stepper breakpoints).output total].map .number := by
    rw [incoming_sink h]
    exact congrArg (fun out => [out]) hstepper
  exact hmeaning.rule (n := ⟨sinkId, .sink⟩) (mem_nodes_wired.2 (.inl rfl))
    (fun hk => nomatch hk) hinputs

/-- A grade that all meanings give to the sink is the one that is evaluated. -/
theorem evaluate_of_meaning {c : Checked α} (hc : c.Faithful)
    (hfinite : c.model.FinitePoints points) (hmissing : c.missing points = []) {grade : Value α}
    (hgrade : ∀ outcome, c.model.Meaning points outcome →
      outcome (c.idAt c.sink) = grade.outcome) :
    ∃ r, (Evaluator.ofChecked c).evaluate points = .ok r ∧ r.grade = grade := by
  obtain ⟨v, hv⟩ := exists_stable hc hfinite
  obtain ⟨outcome, rfl⟩ := exists_value hc hv.length
  have hmeaning := (stable_iff_meaning hc hfinite).1 hv
  have hpreview := preview_of_meaning hc hfinite hmeaning
  obtain ⟨r, hr⟩ := (evaluate_ok_iff hc).2 ⟨⟨_, hpreview⟩, hmissing⟩
  refine ⟨r, hr, value_outcome_inj ?_⟩
  rw [← (evaluate_preview hc hr hpreview).1]
  exact hgrade outcome hmeaning

theorem finitePoints_wired (h : Bridges id middle parts)
    (hpoints : ∀ part ∈ parts, points (sourceId part) = some (value part))
    (hvalue : ∀ part ∈ parts, Number.isFinite (value part) = true) :
    (wired id middle breakpoints parts).FinitePoints points := by
  intro n hn hk x hx
  rcases mem_nodes_wired.1 hn with rfl | ⟨part, hpart, rfl⟩ | rfl | rfl
  · exact nomatch hk
  · obtain rfl := Option.some.inj ((hpoints part hpart).symm.trans hx)
    exact hvalue part hpart
  · exact absurd hk h.kind_ne_source
  · exact nomatch hk

end

/-! ## Top theorem -/

/-- The sum of the parts starts with a model in which nothing is found, and all points are graded by
how many middle points their sum reaches. -/
def GradesSum (α : Type) [Number α] (parts : List UInt32) : Prop :=
  ∃ (m : Model α) (c : Checked α), addition.model? parts = some m ∧ validate true m = .ok c ∧
    c.warnings = [] ∧
      ∀ (points : Points α) (value : UInt32 → α),
        (∀ part ∈ parts, points (sourceId part) = some (value part)) →
        (∀ part ∈ parts, Number.isFinite (value part) = true) →
          ∃ r, (Evaluator.ofChecked c).evaluate points = .ok r ∧
            r.grade = .number (Number.ofNat ((additionBreakpoints parts.length).countP fun p =>
              Number.le p (Number.sum (parts.map value))))

theorem addition_bridges {α : Type} {parts : List UInt32} (hne : parts ≠ []) (hd : parts.Nodup) :
    Bridges "addition" (.addition : Settings α) parts where
  id_ne_sink := by decide
  id_ne_stepper := by decide
  id_ne_source _ := sourceId_ne (by decide)
  kind_ne_source := fun h => nomatch h
  kind_ne_sink := fun h => nomatch h
  distinct := hd
  takes := ⟨0, List.length_pos_iff.2 hne⟩

theorem gradesSum {α : Type} [Number α] [GradedSums α] {parts : List UInt32} (hne : parts ≠ [])
    (hd : parts.Nodup) : GradesSum α parts := by
  have hpos := List.length_pos_iff.2 hne
  have hle := length_le_size hd
  have hbridges : Bridges "addition" (.addition : Settings α) parts := addition_bridges hne hd
  have hstepper : (stepper (additionBreakpoints parts.length) : StepperSettings α).Sound :=
    additionStepper_sound hpos hle
  obtain ⟨c, hc, hwarnings, -⟩ := validate_wired hbridges trivial hstepper
  refine ⟨_, c, if_neg (by simpa using hne), hc, hwarnings, fun points value hpoints hvalue => ?_⟩
  obtain ⟨hfaithful, hmodel⟩ := faithful_of_validate hc
  have hvalues : ∀ x ∈ parts.map value, Number.isFinite x = true := List.forall_mem_map.2 hvalue
  have hsink : c.idAt c.sink = sinkId := by
    obtain ⟨s, hs, hi⟩ := Checked.sink?_eq hfaithful
    rw [hmodel, sink?_wired hbridges] at hs
    rw [Checked.idAt_eq hi, ← Option.some.inj hs]
  refine evaluate_of_meaning hfaithful ?finite ?missing fun outcome hmeaning => ?grade
  case finite =>
    rw [hmodel]
    exact finitePoints_wired hbridges hpoints hvalue
  case missing =>
    rw [missing_eq_nil_iff_given]
    intro source hsource
    obtain ⟨part, hpart, rfl⟩ :=
      List.mem_map.1 ((mem_requiredSources_wired hbridges hfaithful hmodel).1 hsource)
    exact ⟨_, hpoints part hpart⟩
  case grade =>
    rw [hmodel] at hmeaning
    rw [hsink, meaning_sink hbridges hmeaning hpoints rfl, output_stepper hstepper,
      range_sum hpos hle hvalues]
    rfl

/-- Sums start with a valid model that gives every set of points its grade, over doubles and over
exact numbers. -/
theorem addition_total (parts : List UInt32) (hne : parts ≠ []) (hd : parts.Nodup) :
    GradesSum Float parts ∧ GradesSum Rat parts :=
  ⟨gradesSum hne hd, gradesSum hne hd⟩

/-- Five points for each of three parts reach three of the middle points 5, 10, 15, 20 and 25. -/
theorem addition_total_three : ([30, 4, 200] : List UInt32).Nodup ∧
    ∃ (m : Model Float) (c : Checked Float) (r : Evaluation Float),
      addition.model? [30, 4, 200] = some m ∧ validate true m = .ok c ∧ c.warnings = [] ∧
        (Evaluator.ofChecked c).evaluate (fun _ => some 5) = .ok r ∧ r.grade = .number 3 := by
  obtain ⟨⟨m, c, hm, hc, hwarnings, hgrade⟩, -⟩ :=
    addition_total [30, 4, 200] (by decide) (by decide)
  obtain ⟨r, hr, hrgrade⟩ := hgrade (fun _ => some 5) (fun _ => 5) (fun _ _ => rfl)
    (fun _ _ => by decide)
  have hcount : ((additionBreakpoints [(30 : UInt32), 4, 200].length : List Float).countP fun p =>
      Number.le p (Number.sum ([(30 : UInt32), 4, 200].map fun _ => (5 : Float)))) = 3 := by
    decide +kernel
  rw [hcount] at hrgrade
  exact ⟨by decide, m, c, r, hm, hc, hwarnings, hr, hrgrade⟩

end Template
end Grading
