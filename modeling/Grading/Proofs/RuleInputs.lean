import Grading.Proofs.ExactRules
import Grading.Proofs.Finiteness
import Grading.Proofs.Representation

/-!
# What the rules are asked

Every rule has an answer for whatever it is asked: a rule for one number takes zero where there is
none, an average leaves out what has no partner and is zero without a positive weight, and a
stepper without an output gives out its input.  In an accepted model none of these answers is ever
given.  `Turn` takes the evaluation of a node apart into the rule being asked and all else, so that
the questions of a run can be listed (`Evaluator.asked`):

    a turn with the answers of the rules is the outcome of the node          (nodeOutcome_eq_turn)
    a run only depends on the answers to what it asks                            (fillWith_congr)
    what a turn asks has the inputs that the rule counts on                         (turn_served)

The inputs are counted by the table of inputs alone, so the order of evaluation and the outcomes so
far do not matter, nor whether a number is finite.
-/

namespace Grading

open Evaluator

variable {α : Type}

/-! ## Questions -/

/-- The rule of a node, with the values that it is asked about. -/
structure Call (α : Type) where
  settings : Settings α
  inputs : List (Value α)

/-- What evaluating a node comes to: asking its rule, or a result without it. -/
inductive Turn (α : Type) where
  | asks (call : Call α)
  | ends (result : Except (EvaluationError α) (Outcome α))

def Turn.calls : Turn α → List (Call α)
  | asks call => [call]
  | ends _ => []

/-- The result of a turn when its question is answered that way. -/
def Turn.result (answer : Call α → Value α) : Turn α → Except (EvaluationError α) (Outcome α)
  | asks call => .ok (answer call).outcome
  | ends result => result

variable [Number α]

/-- The answer of the rule itself. -/
def Call.answer (call : Call α) : Value α := call.settings.evaluate call.inputs

/-- A source is asked about its points. -/
def Node.sourceTurn (n : Node α) (points : Points α) : Turn α :=
  match points n.id with
  | none => .ends (.ok .unknown)
  | some x =>
    if Number.isFinite x then .asks ⟨n.settings, [.number x]⟩
    else .ends (.error (.invalidInput n.id x))

/-- Any other node is asked about its inputs once all are known and none has failed. -/
def Settings.turn (s : Settings α) (inputs : List (Outcome α)) : Turn α :=
  if inputs.any Outcome.isFail then .ends (.ok .fail)
  else
    match inputs.mapM Outcome.known? with
    | some values => .asks ⟨s, values⟩
    | none => .ends (.ok .unknown)

namespace Evaluator

def turn (c : Checked α) (points : Points α) (values : List (Outcome α)) (i : Nat) : Turn α :=
  match c.model.nodes[i]? with
  | none => .ends (.ok .unknown)
  | some n =>
    match n.settings with
    | .source _ => n.sourceTurn points
    | _ => n.settings.turn (inputOutcomes c values i)

/-- Evaluates the nodes of an order, with other answers to the questions. -/
def fillWith (answer : Call α → Value α) (c : Checked α) (points : Points α) :
    List Nat → List (Outcome α) → Except (EvaluationError α) (List (Outcome α))
  | [], values => .ok values
  | i :: rest, values => do
    let value ← (turn c points values i).result answer
    fillWith answer c points rest (values.set i value)

/-- The questions while the nodes of an order are evaluated, first one first. -/
def calls (c : Checked α) (points : Points α) :
    List Nat → List (Outcome α) → List (Call α)
  | [], _ => []
  | i :: rest, values =>
    (turn c points values i).calls ++
      match (turn c points values i).result Call.answer with
      | .ok value => calls c points rest (values.set i value)
      | .error _ => []

/-- A run with other answers. -/
def runWith (answer : Call α → Value α) (e : Evaluator α) (points : Points α) :
    Except (EvaluationError α) (List (Outcome α)) :=
  fillWith answer e.checked points e.order (List.replicate e.checked.size .unknown)

/-- All that is asked in a run. -/
def asked (e : Evaluator α) (points : Points α) : List (Call α) :=
  calls e.checked points e.order (List.replicate e.checked.size .unknown)

end Evaluator

section

variable {c : Checked α} {points : Points α} {values : List (Outcome α)} {i : Nat}
variable {n : Node α} {call : Call α} {answer : Call α → Value α} {order : List Nat}

theorem turn_source {s : SourceSettings α} (hn : c.model.nodes[i]? = some n)
    (hs : n.settings = .source s) : turn c points values i = n.sourceTurn points := by
  unfold turn
  simp only [hn, hs]

theorem turn_other (hn : c.model.nodes[i]? = some n) (hk : n.kind ≠ .source) :
    turn c points values i = n.settings.turn (inputOutcomes c values i) := by
  unfold turn
  simp only [hn]
  cases hs : n.settings with
  | source s => exact absurd (Node.kind_eq_source_iff.2 ⟨s, hs⟩) hk
  | _ => rfl

/-- Evaluating a node is a turn in which the rule answers. -/
theorem nodeOutcome_eq_turn :
    nodeOutcome c points values i = (turn c points values i).result Call.answer := by
  cases hn : c.model.nodes[i]? with
  | none =>
    unfold nodeOutcome turn
    simp only [hn]
    rfl
  | some n =>
    by_cases hk : n.kind = .source
    · obtain ⟨s, hs⟩ := Node.kind_eq_source_iff.1 hk
      rw [nodeOutcome_source hn hs, turn_source hn hs]
      unfold sourceOutcome Node.sourceTurn
      cases points n.id with
      | none => rfl
      | some x =>
        by_cases hx : Number.isFinite x = true
        · simp only [if_pos hx, ← hs]
          rfl
        · simp only [if_neg hx]
          rfl
    · rw [nodeOutcome_other hn hk, turn_other hn hk]
      unfold Settings.combine Settings.turn
      by_cases hfail : (inputOutcomes c values i).any Outcome.isFail = true
      · rw [if_pos hfail, if_pos hfail]
        rfl
      · rw [if_neg hfail, if_neg hfail]
        cases (inputOutcomes c values i).mapM Outcome.known? <;> rfl

theorem result_congr {turn : Turn α} (h : ∀ call ∈ turn.calls, answer call = call.answer) :
    turn.result answer = turn.result Call.answer := by
  cases turn with
  | asks call => exact congrArg (fun value => Except.ok value.outcome) (h call List.mem_cons_self)
  | ends result => rfl

/-- Only the answers to what is asked count. -/
theorem fillWith_congr (h : ∀ call ∈ calls c points order values, answer call = call.answer) :
    fillWith answer c points order values = fill c points order values := by
  induction order generalizing values with
  | nil => rfl
  | cons i order ih =>
    unfold calls at h
    rw [List.forall_mem_append] at h
    unfold fillWith fill
    rw [result_congr h.1, nodeOutcome_eq_turn]
    cases hresult : (turn c points values i).result Call.answer with
    | error e => rfl
    | ok value =>
      rw [hresult] at h
      exact ih h.2

theorem exists_turn_of_mem_calls (h : call ∈ calls c points order values) :
    ∃ values i, turn c points values i = .asks call := by
  induction order generalizing values with
  | nil => exact absurd h List.not_mem_nil
  | cons i order ih =>
    unfold calls at h
    rcases List.mem_append.1 h with h | h
    · cases hturn : turn c points values i with
      | asks call' =>
        rw [hturn] at h
        rw [List.mem_singleton.1 h]
        exact ⟨values, i, hturn⟩
      | ends result =>
        rw [hturn] at h
        exact absurd h List.not_mem_nil
    · cases hresult : (turn c points values i).result Call.answer with
      | error e =>
        rw [hresult] at h
        exact absurd h List.not_mem_nil
      | ok value =>
        rw [hresult] at h
        exact ih h

end

/-! ## What a rule counts on -/

/-- The numbers that the rule of each type counts on: one, some, or one for each weight of which
the largest is positive.  A stepper also counts on an output for every number. -/
def Settings.ServedBy (s : Settings α) (xs : List α) : Prop :=
  match s with
  | .source _ => ∃ x, xs = [x]
  | .addition => xs ≠ []
  | .average s => xs.length = s.weights.values.length ∧ s.largest ∈ s.weights.values ∧
      Number.lt Number.zero s.largest = true ∧ Number.le s.largest Number.zero = false
  | .stepper s => (∃ x, xs = [x]) ∧ ∀ y, s.range y < s.outputs.length
  | .sink => ∃ x, xs = [x]
  | .minPoints _ => ∃ x, xs = [x]
  | .max _ => xs ≠ []
  | .round _ => ∃ x, xs = [x]

/-- The rule is asked about numbers only, and about those that it counts on. -/
def Call.Served (call : Call α) : Prop :=
  ∃ xs : List α, call.inputs = xs.map .number ∧ call.settings.ServedBy xs

section

variable [ComparableNumber α] {s : Settings α} {inputs : List (Outcome α)} {call : Call α}
variable {c : Checked α} {points : Points α} {values : List (Outcome α)} {i : Nat} {n : Node α}

omit [Number α] [ComparableNumber α] in
theorem eq_of_turn_eq_asks (h : s.turn inputs = .asks call) :
    ∃ xs : List α, inputs = xs.map .number ∧ call = ⟨s, xs.map .number⟩ := by
  unfold Settings.turn at h
  by_cases hfail : inputs.any Outcome.isFail = true
  · rw [if_pos hfail] at h
    exact nomatch h
  · rw [if_neg hfail] at h
    have hunknown : .unknown ∉ inputs := by
      intro hmem
      rw [mapM_known?_unknown hmem] at h
      exact nomatch h
    obtain ⟨xs, rfl⟩ := exists_numbers (mt any_isFail.2 hfail) hunknown
    rw [mapM_known?_numbers] at h
    exact ⟨xs, rfl, (Turn.asks.inj h).symm⟩

/-- As many numbers as a node has inputs are those that its rule counts on. -/
theorem servedBy_of_reads {links : List (Slot × Nat)} (hs : s.Sound) (hreads : s.Reads links)
    (hkind : s.kind ≠ .source) {xs : List α} (hlength : xs.length = links.length) :
    s.ServedBy xs := by
  have hsome : links ≠ [] → xs ≠ [] := by
    intro hlinks hxs
    rw [hxs] at hlength
    exact hlinks (List.length_eq_zero_iff.1 hlength.symm)
  have hone : (∃ j, links = [(0, j)]) → ∃ x, xs = [x] := by
    rintro ⟨j, rfl⟩
    exact List.length_eq_one_iff.1 hlength
  cases s with
  | source s => exact absurd rfl hkind
  | addition => exact hsome hreads
  | max minValue => exact hsome hreads
  | average s =>
    have hslots : links.map (·.1) = s.weights.slots := hreads
    have hentries : xs.length = s.weights.entries.length := by
      rw [hlength, ← List.length_map (·.1), hslots]
      exact List.length_map _
    obtain ⟨hmem, hpositive⟩ := AverageSettings.Sound.largest_spec hs
    have hfinite : Number.isFinite s.largest = true := (hs.weights _ hmem).1
    refine ⟨hentries.trans (List.length_map _).symm, hmem, hpositive, ?_⟩
    rw [← Bool.not_eq_true]
    exact (OrderedNumber.lt_iff_not_le OrderedNumber.isFinite_zero hfinite).1 hpositive
  | stepper s => exact ⟨hone hreads, StepperSettings.Sound.range_lt hs⟩
  | sink => exact hone hreads
  | minPoints s => exact hone hreads
  | round mode => exact hone hreads

/-- Whatever a turn asks has the inputs that the rule counts on. -/
theorem turn_served (hc : c.Faithful) (hsound : ∀ n ∈ c.model.nodes, n.settings.Sound)
    (h : turn c points values i = .asks call) : call.Served := by
  cases hn : c.model.nodes[i]? with
  | none =>
    unfold turn at h
    simp only [hn] at h
    exact nomatch h
  | some n =>
    by_cases hk : n.kind = .source
    · obtain ⟨s, hs⟩ := Node.kind_eq_source_iff.1 hk
      rw [turn_source hn hs] at h
      unfold Node.sourceTurn at h
      cases hp : points n.id with
      | none =>
        simp only [hp] at h
        exact nomatch h
      | some x =>
        simp only [hp] at h
        by_cases hx : Number.isFinite x = true
        · rw [if_pos hx, hs] at h
          obtain rfl := Turn.asks.inj h
          exact ⟨[x], rfl, x, rfl⟩
        · rw [if_neg hx] at h
          exact nomatch h
    · rw [turn_other hn hk] at h
      obtain ⟨xs, hxs, rfl⟩ := eq_of_turn_eq_asks h
      refine ⟨xs, rfl, servedBy_of_reads (hsound n (List.mem_of_getElem? hn))
        (Checked.reads_inputsOf hc hn) hk ?_⟩
      rw [← List.length_map Outcome.number, ← hxs]
      exact List.length_map _

end

/-! ## Top theorem -/

/-- In a run of an accepted model every rule is asked about the numbers that it counts on; and what
the rules would answer to anything else makes no difference to the run. -/
theorem rules_are_served [ComparableNumber α] {m : Model α} {strict : Bool} {c : Checked α}
    (h : validate strict m = .ok c) (points : Points α) :
    (∀ call ∈ (Evaluator.ofChecked c).asked points, call.Served) ∧
    ∀ answer : Call α → Value α,
      (∀ call ∈ (Evaluator.ofChecked c).asked points, answer call = call.answer) →
        (Evaluator.ofChecked c).runWith answer points = (Evaluator.ofChecked c).run points := by
  have hsound := (Model.wellFormed_iff.2 (validate_eq_ok_iff.1 h).1).settings
  obtain ⟨hc, rfl⟩ := faithful_of_validate h
  refine ⟨fun call hcall => ?_, fun answer hanswer => fillWith_congr hanswer⟩
  obtain ⟨values, i, hturn⟩ := exists_turn_of_mem_calls hcall
  exact turn_served hc hsound hturn

/-- Steps over the sum of two parts, and the mean of the step and one part at slots with a gap. -/
def stepMeanModel : Model Float where
  nodes :=
    [⟨"exam", .source ⟨none, .ignore⟩⟩, ⟨"homework", .source ⟨none, .ignore⟩⟩, ⟨"sum", .addition⟩,
      ⟨"steps", .stepper ⟨2, [.value 1, .value 2], [5]⟩⟩,
      ⟨"mean", .average ⟨.ofList [(7, 1), (2, 3)], false⟩⟩, ⟨"grade", .sink⟩]
  edges :=
    [Edge.join "exam" "sum" 0, Edge.join "homework" "sum" 4, Edge.join "sum" "steps" 0,
      Edge.join "steps" "mean" 7, Edge.join "exam" "mean" 2, Edge.join "mean" "grade" 0]

set_option maxRecDepth 4000 in
/-- The sum overflows, so the stepper is asked about an infinite number. -/
theorem rules_are_served_infinite :
    validate true stepMeanModel = .ok (stepMeanModel.accepted 5) ∧
      ∃ call ∈ (Evaluator.ofChecked (stepMeanModel.accepted 5)).asked hugePoints,
        call.settings.kind = .stepper ∧ call.Served ∧
        ∃ x, call.inputs = [.number x] ∧ Number.isFinite x = false := by
  have hvalid : validate true stepMeanModel = .ok (stepMeanModel.accepted 5) := rfl
  obtain ⟨call, hcall, hkind, x, hinputs, hfinite⟩ : ∃ call,
      ((Evaluator.ofChecked (stepMeanModel.accepted 5)).asked hugePoints)[3]? = some call ∧
        call.settings.kind = .stepper ∧
        ∃ x, call.inputs = [.number x] ∧ Number.isFinite x = false :=
    ⟨_, rfl, rfl, _, rfl, rfl⟩
  have hmem := List.mem_of_getElem? hcall
  exact ⟨hvalid, call, hmem, hkind, (rules_are_served hvalid hugePoints).1 call hmem, x, hinputs,
    hfinite⟩

end Grading
