import Grading.Evaluation.Basic
import Grading.Proofs.WellFormed

/-!
# What the nodes of a model mean

The meaning of a model is an assignment of outcomes to ids, said without any order of
evaluation: what each node gives out fits what is given for it or what its inputs give out.

* `Missed`: a number below a minimum that fails the course.
* `SourceSettings.Gives`: a source and the points for it.
* `Settings.Combines`: any other node and the outcomes at its inputs, in slot order.
* `Model.Meaning`: an assignment in which all nodes fit.

The rules that run agree with these, and nothing else does:

    s.combine inputs = out ↔ s.Combines inputs out                          (combine_eq_iff)
    the outcome of a source, if it has one, is what the source gives        (sourceOutcome_gives)
-/

namespace Grading

variable {α : Type} [Number α]

/-! ## Requirements -/

/-- The number is below a minimum, and that fails the course. -/
def Missed (x : α) (minPoints : Option α) (onFail : FailPolicy) : Prop :=
  ∃ least, minPoints = some least ∧ onFail = .courseFail ∧ Number.lt x least = true

section

variable {x : α} {minPoints : Option α} {onFail : FailPolicy}

theorem requirePoints_of_missed (h : Missed x minPoints onFail) :
    requirePoints x minPoints onFail = .fail := by
  obtain ⟨least, rfl, rfl, hlt⟩ := h
  unfold requirePoints
  simp [hlt]

theorem requirePoints_of_not_missed (h : ¬ Missed x minPoints onFail) :
    requirePoints x minPoints onFail = .number x := by
  unfold requirePoints
  cases minPoints with
  | none => rfl
  | some least =>
    refine if_neg fun hfail => h ⟨least, rfl, ?_⟩
    rw [Bool.and_eq_true, decide_eq_true_eq] at hfail
    exact ⟨hfail.2, hfail.1⟩

theorem requirePoints_eq_fail_iff :
    requirePoints x minPoints onFail = .fail ↔ Missed x minPoints onFail := by
  constructor
  · intro h
    by_cases hmissed : Missed x minPoints onFail
    · exact hmissed
    · rw [requirePoints_of_not_missed hmissed] at h
      exact nomatch h
  · exact requirePoints_of_missed

end

/-! ## Sources -/

/-- A source without points is unknown; with points it fails below its minimum and gives out the
points otherwise. -/
structure SourceSettings.Gives (s : SourceSettings α) (given : Option α) (out : Outcome α) :
    Prop where
  absent : given = none → out = .unknown
  missed : ∀ x, given = some x → Missed x s.minPoints s.onFail → out = .fail
  reached : ∀ x, given = some x → ¬ Missed x s.minPoints s.onFail → out = .number x

/-- The three things that a source can give out. -/
theorem SourceSettings.Gives.cases {s : SourceSettings α} {given : Option α} {out : Outcome α}
    (h : s.Gives given out) : given = none ∧ out = .unknown ∨
      (∃ x, given = some x ∧ Missed x s.minPoints s.onFail ∧ out = .fail) ∨
      ∃ x, given = some x ∧ ¬ Missed x s.minPoints s.onFail ∧ out = .number x := by
  cases given with
  | none => exact .inl ⟨rfl, h.absent rfl⟩
  | some x =>
    by_cases hx : Missed x s.minPoints s.onFail
    · exact .inr (.inl ⟨x, rfl, hx, h.missed x rfl hx⟩)
    · exact .inr (.inr ⟨x, rfl, hx, h.reached x rfl hx⟩)

theorem SourceSettings.Gives.unique {s : SourceSettings α} {given : Option α}
    {out out' : Outcome α} (h : s.Gives given out) (h' : s.Gives given out') : out = out' := by
  rcases h.cases with ⟨hnone, hout⟩ | ⟨x, hx, hmissed, hout⟩ | ⟨x, hx, hmissed, hout⟩
  · rw [hout, h'.absent hnone]
  · rw [hout, h'.missed x hx hmissed]
  · rw [hout, h'.reached x hx hmissed]

theorem sourceOutcome_gives {points : Points α} {id : String} {s : SourceSettings α}
    {out : Outcome α} (h : Evaluator.sourceOutcome points id (.source s) = .ok out) :
    s.Gives (points id) out := by
  unfold Evaluator.sourceOutcome at h
  cases hp : points id with
  | none =>
    simp only [hp] at h
    exact ⟨fun _ => (Except.ok.inj h).symm, by simp, by simp⟩
  | some x =>
    by_cases hx : Number.isFinite x = true
    · simp only [hp, if_pos hx] at h
      have hout : (requirePoints x s.minPoints s.onFail).outcome = out := Except.ok.inj h
      refine ⟨by simp, ?_, ?_⟩
      · rintro _ ⟨rfl⟩ hmissed
        rw [← hout, requirePoints_of_missed hmissed]
        rfl
      · rintro _ ⟨rfl⟩ hreached
        rw [← hout, requirePoints_of_not_missed hreached]
        rfl
    · simp only [hp, if_neg hx] at h
      exact nomatch h

/-! ## Other nodes -/

/-- A failed input fails a node, otherwise an unknown one makes it unknown, and from numbers the
rule of its type makes what it gives out. -/
structure Settings.Combines (s : Settings α) (inputs : List (Outcome α)) (out : Outcome α) :
    Prop where
  failed : .fail ∈ inputs → out = .fail
  unknown : .fail ∉ inputs → .unknown ∈ inputs → out = .unknown
  known : ∀ xs : List α, inputs = xs.map .number →
    out = (s.evaluate (xs.map .number)).outcome

variable {inputs : List (Outcome α)} {s : Settings α} {out : Outcome α}

omit [Number α] in
theorem any_isFail : inputs.any Outcome.isFail = true ↔ .fail ∈ inputs := by
  rw [List.any_eq_true]
  constructor
  · rintro ⟨out, hout, hfail⟩
    cases out with
    | fail => exact hout
    | number x => exact absurd hfail Bool.false_ne_true
    | unknown => exact absurd hfail Bool.false_ne_true
  · exact fun h => ⟨.fail, h, rfl⟩

omit [Number α] in
/-- Outcomes are all numbers if none is a failure or unknown. -/
theorem exists_numbers (hfail : .fail ∉ inputs) (hunknown : .unknown ∉ inputs) :
    ∃ xs : List α, inputs = xs.map .number := by
  induction inputs with
  | nil => exact ⟨[], rfl⟩
  | cons out inputs ih =>
    rw [List.mem_cons, not_or] at hfail hunknown
    obtain ⟨xs, rfl⟩ := ih hfail.2 hunknown.2
    cases out with
    | number x => exact ⟨x :: xs, rfl⟩
    | fail => exact absurd rfl hfail.1
    | unknown => exact absurd rfl hunknown.1

omit [Number α] in
theorem mapM_known?_numbers (xs : List α) :
    (xs.map Outcome.number).mapM Outcome.known? = some (xs.map Value.number) := by
  induction xs with
  | nil => rfl
  | cons x xs ih =>
    rw [List.map_cons, List.mapM_cons, ih]
    rfl

omit [Number α] in
theorem mapM_known?_unknown (h : .unknown ∈ inputs) : inputs.mapM Outcome.known? = none := by
  induction inputs with
  | nil => exact absurd h List.not_mem_nil
  | cons out inputs ih =>
    rw [List.mapM_cons]
    rcases List.mem_cons.1 h with rfl | h
    · rfl
    · rw [ih h]
      cases out.known? <;> rfl

theorem evaluate_numbers (s : Settings α) (xs : List α) :
    s.evaluate (xs.map .number) = s.applyTo xs := by
  have hnumbers : (xs.map Value.number).mapM Value.number? = some xs := by
    induction xs with
    | nil => rfl
    | cons x xs ih =>
      rw [List.map_cons, List.mapM_cons, ih]
      rfl
  unfold Settings.evaluate
  rw [hnumbers]

theorem combine_combines (s : Settings α) (inputs : List (Outcome α)) :
    s.Combines inputs (s.combine inputs) := by
  unfold Settings.combine
  refine ⟨fun h => if_pos (any_isFail.2 h), fun h hunknown => ?_, ?_⟩
  · rw [if_neg (mt any_isFail.1 h), mapM_known?_unknown hunknown]
  · rintro xs rfl
    have hfail : (.fail : Outcome α) ∉ xs.map .number := by simp
    rw [if_neg (mt any_isFail.1 hfail), mapM_known?_numbers]

/-- The three things that a node with inputs can give out. -/
theorem Settings.Combines.cases (h : s.Combines inputs out) :
    .fail ∈ inputs ∧ out = .fail ∨
      .fail ∉ inputs ∧ .unknown ∈ inputs ∧ out = .unknown ∨
      ∃ xs : List α, inputs = xs.map .number ∧ out = (s.applyTo xs).outcome := by
  by_cases hfail : .fail ∈ inputs
  · exact .inl ⟨hfail, h.failed hfail⟩
  · by_cases hunknown : .unknown ∈ inputs
    · exact .inr (.inl ⟨hfail, hunknown, h.unknown hfail hunknown⟩)
    · obtain ⟨xs, hxs⟩ := exists_numbers hfail hunknown
      refine .inr (.inr ⟨xs, hxs, ?_⟩)
      rw [h.known xs hxs, evaluate_numbers]

theorem Settings.Combines.unique {out' : Outcome α} (h : s.Combines inputs out)
    (h' : s.Combines inputs out') : out = out' := by
  rcases h.cases with ⟨hfail, hout⟩ | ⟨hfail, hunknown, hout⟩ | ⟨xs, hxs, hout⟩
  · rw [hout, h'.failed hfail]
  · rw [hout, h'.unknown hfail hunknown]
  · rw [hout, h'.known xs hxs, evaluate_numbers]

theorem combine_eq_iff : s.combine inputs = out ↔ s.Combines inputs out :=
  ⟨fun h => h ▸ combine_combines s inputs, fun h => (combine_combines s inputs).unique h⟩

/-! ## Models -/

/-- What a node gives out, by the points for it or by what its inputs give out. -/
def Node.Gives (n : Node α) (points : Points α) (inputs : List (Outcome α)) (out : Outcome α) :
    Prop :=
  match n.settings with
  | .source s => s.Gives (points n.id) out
  | settings => settings.Combines inputs out

/-- An assignment of outcomes in which every node gives out what its points or inputs say. -/
def Model.Meaning (m : Model α) (points : Points α) (value : String → Outcome α) : Prop :=
  ∀ n ∈ m.nodes, n.Gives points ((m.incoming n.id).map fun e => value e.source) (value n.id)

/-- No source is given points that are not a finite number. -/
def Model.FinitePoints (m : Model α) (points : Points α) : Prop :=
  ∀ n ∈ m.nodes, n.kind = .source → ∀ x, points n.id = some x → Number.isFinite x = true

section

variable {n : Node α} {points : Points α}

theorem Node.gives_source {s : SourceSettings α} (hs : n.settings = .source s) :
    n.Gives points inputs out ↔ s.Gives (points n.id) out := by
  unfold Node.Gives
  rw [hs]

theorem Node.gives_other (hk : n.kind ≠ .source) :
    n.Gives points inputs out ↔ n.settings.Combines inputs out := by
  unfold Node.Gives
  cases hs : n.settings with
  | source s => exact absurd (Node.kind_eq_source_iff.2 ⟨s, hs⟩) hk
  | _ => rfl

theorem Node.Gives.unique {out' : Outcome α} (h : n.Gives points inputs out)
    (h' : n.Gives points inputs out') : out = out' := by
  by_cases hk : n.kind = .source
  · obtain ⟨s, hs⟩ := Node.kind_eq_source_iff.1 hk
    exact ((Node.gives_source hs).1 h).unique ((Node.gives_source hs).1 h')
  · exact ((Node.gives_other hk).1 h).unique ((Node.gives_other hk).1 h')

end

end Grading
