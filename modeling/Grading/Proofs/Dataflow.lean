import Grading.Number.Double
import Grading.Proofs.Meaning
import Grading.Proofs.Scheduling

/-!
# Evaluation computes the meaning of a model

The outcomes of all nodes, by position, are stable if evaluating any node once more changes
nothing.  There is one stable list at most, because no path of links comes back to its start;
going through the nodes in a topological order makes one, because a node is evaluated after all
that it reads from and never again; and a list is stable if and only if, read by ids, it is a
meaning of the model.

    Stable c points v → Stable c points w → v = w                           (stable_unique)
    order topological, fill … order … = .ok v → Stable c points v           (fill_stable)
    Stable c points (the outcomes of `value`) ↔ Meaning points value        (stable_iff_meaning)

So any topological order computes the one meaning (`preview_computes_meaning`).
-/

namespace Grading

open Evaluator

variable {α : Type} [Number α] {c : Checked α} {points : Points α}
variable {v w values result : List (Outcome α)} {order done : List Nat} {i j : Nat}
variable {e : EvaluationError α} {n : Node α} {out : Outcome α}

/-! ## One node -/

/-- The outcomes at the inputs of a node, in slot order. -/
def inputOutcomes (c : Checked α) (values : List (Outcome α)) (i : Nat) : List (Outcome α) :=
  (c.inputsOf i).map fun input => valueAt values input.2

/-- A source is given points that are not finite. -/
def Checked.Refuses (c : Checked α) (points : Points α) (i : Nat) (e : EvaluationError α) : Prop :=
  ∃ n x, c.model.nodes[i]? = some n ∧ n.kind = .source ∧ points n.id = some x ∧
    Number.isFinite x = false ∧ e = .invalidInput n.id x

theorem nodeOutcome_source {s : SourceSettings α} (hn : c.model.nodes[i]? = some n)
    (hs : n.settings = .source s) :
    nodeOutcome c points values i = sourceOutcome points n.id (.source s) := by
  unfold nodeOutcome
  simp only [hn, hs]

theorem nodeOutcome_other (hn : c.model.nodes[i]? = some n) (hk : n.kind ≠ .source) :
    nodeOutcome c points values i = .ok (n.settings.combine (inputOutcomes c values i)) := by
  unfold nodeOutcome
  simp only [hn]
  cases hs : n.settings with
  | source s => exact absurd (Node.kind_eq_source_iff.2 ⟨s, hs⟩) hk
  | _ => rfl

theorem sourceOutcome_error_iff {id : String} {s : Settings α} :
    sourceOutcome points id s = .error e ↔
      ∃ x, points id = some x ∧ Number.isFinite x = false ∧ e = .invalidInput id x := by
  unfold sourceOutcome
  cases hp : points id with
  | none => simp
  | some x =>
    by_cases hx : Number.isFinite x = true
    · simp [hx]
    · simp only [if_neg hx, Except.error.injEq]
      constructor
      · rintro rfl
        exact ⟨x, rfl, Bool.eq_false_iff.2 hx, rfl⟩
      · rintro ⟨_, ⟨rfl⟩, -, rfl⟩
        rfl

theorem nodeOutcome_error_iff : nodeOutcome c points values i = .error e ↔
    c.Refuses points i e := by
  cases hn : c.model.nodes[i]? with
  | none =>
    unfold nodeOutcome Checked.Refuses
    simp [hn]
  | some n =>
    have hrefuses : c.Refuses points i e ↔ n.kind = .source ∧
        ∃ x, points n.id = some x ∧ Number.isFinite x = false ∧ e = .invalidInput n.id x := by
      unfold Checked.Refuses
      rw [hn]
      constructor
      · rintro ⟨_, x, ⟨rfl⟩, hk, hx⟩
        exact ⟨hk, x, hx⟩
      · rintro ⟨hk, x, hx⟩
        exact ⟨n, x, rfl, hk, hx⟩
    rw [hrefuses]
    by_cases hk : n.kind = .source
    · obtain ⟨s, hs⟩ := Node.kind_eq_source_iff.1 hk
      rw [nodeOutcome_source hn hs, sourceOutcome_error_iff, and_iff_right hk]
    · rw [nodeOutcome_other hn hk]
      simp [hk]

/-- Only the outcomes of the inputs count. -/
theorem nodeOutcome_congr (hc : c.Faithful)
    (h : ∀ j, Feeds c.model.links j i → valueAt v j = valueAt w j) :
    nodeOutcome c points v i = nodeOutcome c points w i := by
  have hinputs : inputOutcomes c v i = inputOutcomes c w i := by
    refine List.map_congr_left fun a ha => h a.2 ?_
    exact (Checked.mem_inputsOf hc).1 (List.mem_map.2 ⟨a, ha, rfl⟩)
  cases hn : c.model.nodes[i]? with
  | none =>
    unfold nodeOutcome
    simp only [hn]
  | some n =>
    by_cases hk : n.kind = .source
    · obtain ⟨s, hs⟩ := Node.kind_eq_source_iff.1 hk
      rw [nodeOutcome_source hn hs, nodeOutcome_source hn hs]
    · rw [nodeOutcome_other hn hk, nodeOutcome_other hn hk, hinputs]

/-- What evaluating a node makes is what the node gives out, and nothing else is. -/
theorem nodeOutcome_ok_iff (hn : c.model.nodes[i]? = some n)
    (hr : ∀ e, ¬ c.Refuses points i e) : nodeOutcome c points values i = .ok out ↔
      n.Gives points (inputOutcomes c values i) out := by
  by_cases hk : n.kind = .source
  · obtain ⟨s, hs⟩ := Node.kind_eq_source_iff.1 hk
    rw [Node.gives_source hs]
    constructor
    · intro h
      rw [nodeOutcome_source hn hs] at h
      exact sourceOutcome_gives h
    · intro h
      cases hout : nodeOutcome c points values i with
      | error e => exact absurd (nodeOutcome_error_iff.1 hout) (hr e)
      | ok out' =>
        rw [nodeOutcome_source hn hs] at hout
        rw [(sourceOutcome_gives hout).unique h]
  · rw [nodeOutcome_other hn hk, Node.gives_other hk, ← combine_eq_iff, Except.ok.injEq]

/-! ## Stable outcomes -/

/-- Evaluating any node once more changes nothing. -/
structure Stable (c : Checked α) (points : Points α) (values : List (Outcome α)) : Prop where
  length : values.length = c.size
  fixed : ∀ i < c.size, nodeOutcome c points values i = .ok (valueAt values i)

omit [Number α] in
theorem mem_inputOutcomes (hc : c.Faithful) : out ∈ inputOutcomes c v i ↔
    ∃ j, Feeds c.model.links j i ∧ valueAt v j = out := by
  unfold inputOutcomes
  rw [List.mem_map]
  constructor
  · rintro ⟨a, ha, rfl⟩
    exact ⟨a.2, (Checked.mem_inputsOf hc).1 (List.mem_map.2 ⟨a, ha, rfl⟩), rfl⟩
  · rintro ⟨j, hj, rfl⟩
    obtain ⟨a, ha, rfl⟩ := List.mem_map.1 ((Checked.mem_inputsOf hc).2 hj)
    exact ⟨a, ha, rfl⟩

/-- In stable outcomes every node has what it gives out. -/
theorem Stable.gives (hv : Stable c points v) (hn : c.model.nodes[i]? = some n) :
    n.Gives points (inputOutcomes c v i) (valueAt v i) := by
  have hfixed := hv.fixed i (List.getElem?_eq_some_iff.1 hn).1
  refine (nodeOutcome_ok_iff hn fun e he => ?_).1 hfixed
  rw [nodeOutcome_error_iff.2 he] at hfixed
  exact nomatch hfixed

omit [Number α] in
theorem valueAt_eq (h : values[i]? = some out) : valueAt values i = out := by
  unfold valueAt
  rw [List.getD_eq_getElem?_getD, h]
  rfl

omit [Number α] in
theorem ext_valueAt (hv : v.length = c.size) (hw : w.length = c.size)
    (h : ∀ i < c.size, valueAt v i = valueAt w i) : v = w := by
  refine List.ext_getElem (hv.trans hw.symm) fun i hi hi' => ?_
  have hvalue := h i (hv ▸ hi)
  rwa [valueAt_eq (List.getElem?_eq_getElem hi), valueAt_eq (List.getElem?_eq_getElem hi')] at hvalue

/-- No more than one list of outcomes is stable. -/
theorem stable_unique (hc : c.Faithful) (hv : Stable c points v) (hw : Stable c points w) :
    v = w := by
  refine ext_valueAt hv.length hw.length fun i => ?_
  induction i using (Checked.feeds_wellFounded hc).induction with
  | _ i ih =>
    intro hi
    have heq : nodeOutcome c points v i = nodeOutcome c points w i :=
      nodeOutcome_congr hc fun j hj => ih j hj (Model.feeds_lt hj).1
    rw [hv.fixed i hi, hw.fixed i hi] at heq
    exact Except.ok.inj heq

omit [Number α] in
theorem valueAt_set_self (hi : i < values.length) : valueAt (values.set i out) i = out :=
  valueAt_eq (List.getElem?_set_self hi)

omit [Number α] in
theorem valueAt_set_ne (h : j ≠ i) : valueAt (values.set i out) j = valueAt values j := by
  unfold valueAt
  rw [List.getD_eq_getElem?_getD, List.getElem?_set_ne h.symm, List.getD_eq_getElem?_getD]

/-- Going on with an order keeps the nodes of the order so far fixed: they are not set again, and
neither are the nodes that they read from. -/
theorem fill_fixed (hc : c.Faithful) (horder : c.Topological (done ++ order))
    (hlength : values.length = c.size)
    (hdone : ∀ i ∈ done, nodeOutcome c points values i = .ok (valueAt values i))
    (h : fill c points order values = .ok result) : Stable c points result := by
  induction order generalizing done values with
  | nil =>
    obtain rfl := Except.ok.inj h
    refine ⟨hlength, fun i hi => hdone i ?_⟩
    rw [List.append_nil] at horder
    exact horder.perm.mem_iff.2 (List.mem_range.2 hi)
  | cons i order ih =>
    unfold fill at h
    cases hout : nodeOutcome c points values i with
    | error e =>
      rw [hout] at h
      exact nomatch h
    | ok out =>
      rw [hout] at h
      have happend : done ++ i :: order = done ++ [i] ++ order := by simp
      have hnodup : (done ++ i :: order).Nodup := horder.perm.nodup_iff.2 List.nodup_range
      have hi : i < c.size := List.mem_range.1 (horder.perm.mem_iff.1 (by simp))
      have hfirst := List.pairwise_append.1 horder.inputsFirst
      have hset : ∀ j ∈ done ++ [i],
          nodeOutcome c points (values.set i out) j = nodeOutcome c points values j := by
        intro j hj
        refine nodeOutcome_congr hc fun k hk => valueAt_set_ne ?_
        rintro rfl
        rcases List.mem_append.1 hj with hj | hj
        · exact hfirst.2.2 j hj k List.mem_cons_self hk
        · rw [List.mem_singleton.1 hj] at hk
          exact Checked.not_feeds_circle hc k (.single hk)
      rw [happend] at horder
      refine ih horder ((List.length_set).trans hlength) (fun j hj => ?_) h
      rw [hset j hj]
      rcases List.mem_append.1 hj with hj | hj
      · have hne : j ≠ i := (List.nodup_append.1 hnodup).2.2 j hj i List.mem_cons_self
        rw [hdone j hj, valueAt_set_ne hne]
      · rw [List.mem_singleton.1 hj, hout, valueAt_set_self (hlength ▸ hi)]

theorem fill_stable (hc : c.Faithful) (horder : c.Topological order)
    (h : fill c points order (List.replicate c.size .unknown) = .ok result) :
    Stable c points result :=
  @fill_fixed _ _ _ _ _ _ _ [] hc horder List.length_replicate (fun _ h => absurd h List.not_mem_nil) h

/-- Going through an order fails at the first source in it that is given points that are not
finite. -/
theorem fill_error_iff : fill c points order values = .error e ↔
    ∃ pre i post, order = pre ++ i :: post ∧ c.Refuses points i e ∧
      ∀ j ∈ pre, ∀ e', ¬ c.Refuses points j e' := by
  induction order generalizing values with
  | nil =>
    unfold fill
    simp
  | cons k order ih =>
    unfold fill
    cases hout : nodeOutcome c points values k with
    | error e' =>
      have hk := nodeOutcome_error_iff.1 hout
      show Except.error e' = Except.error e ↔ _
      constructor
      · rintro ⟨rfl⟩
        exact ⟨[], k, order, rfl, hk, fun _ h => absurd h List.not_mem_nil⟩
      · rintro ⟨pre, i, post, heq, hi, hpre⟩
        cases pre with
        | nil =>
          obtain rfl : k = i := List.head_eq_of_cons_eq heq
          rw [nodeOutcome_error_iff.2 hi] at hout
          rw [Except.error.inj hout]
        | cons k' pre =>
          obtain rfl : k = k' := List.head_eq_of_cons_eq heq
          exact absurd hk (hpre k List.mem_cons_self e')
    | ok out =>
      have hk : ∀ e', ¬ c.Refuses points k e' := by
        intro e' he'
        rw [nodeOutcome_error_iff.2 he'] at hout
        exact nomatch hout
      show fill c points order (values.set k out) = Except.error e ↔ _
      rw [ih]
      constructor
      · rintro ⟨pre, i, post, rfl, hi, hpre⟩
        refine ⟨k :: pre, i, post, rfl, hi, fun j hj => ?_⟩
        rcases List.mem_cons.1 hj with rfl | hj
        · exact hk
        · exact hpre j hj
      · rintro ⟨pre, i, post, heq, hi, hpre⟩
        cases pre with
        | nil =>
          obtain rfl : k = i := List.head_eq_of_cons_eq heq
          exact absurd hi (hk e)
        | cons k' pre =>
          exact ⟨pre, i, post, (List.cons.inj heq).2, hi,
            fun j hj => hpre j (List.mem_cons_of_mem k' hj)⟩

/-! ## Stable outcomes and meaning -/

omit [Number α] in
theorem valueAt_map {β : Type} {nodes : List β} {b : β} (value : β → Outcome α)
    (h : nodes[i]? = some b) : valueAt (nodes.map value) i = value b := by
  refine valueAt_eq ?_
  rw [List.getElem?_map, h]
  rfl

omit [Number α] in
/-- Every list of outcomes comes from an assignment to ids. -/
theorem exists_value (hc : c.Faithful) (h : values.length = c.size) :
    ∃ value : String → Outcome α, values = c.model.nodes.map fun n => value n.id := by
  refine ⟨fun id => ((c.model.position? id).map (valueAt values)).getD .unknown, ?_⟩
  refine ext_valueAt h (List.length_map _) fun i hi => ?_
  obtain ⟨n, hn⟩ := Checked.exists_node hi
  rw [valueAt_map _ hn]
  show valueAt values i = ((c.model.position? n.id).map (valueAt values)).getD .unknown
  rw [Model.position?_of_nodup hc.wellWired.distinctIds hn]
  rfl

omit [Number α] in
/-- The outcomes at the inputs of a node are those at the sources of its edges. -/
theorem inputOutcomes_map (hc : c.Faithful) (hn : c.model.nodes[i]? = some n)
    (value : String → Outcome α) :
    inputOutcomes c (c.model.nodes.map fun n => value n.id) i =
      (c.model.incoming n.id).map fun e => value e.source := by
  have hids := congrArg (List.map value) (Checked.inputsOf_ids hc hn)
  rw [List.map_map, List.map_map] at hids
  refine Eq.trans (List.map_congr_left fun a ha => ?_) hids
  have hfeeds := (Checked.mem_inputsOf hc).1 (List.mem_map.2 ⟨a, ha, rfl⟩)
  obtain ⟨n', hn'⟩ := Checked.exists_node (Model.feeds_lt hfeeds).1
  show valueAt _ a.2 = value (c.model.idAt a.2)
  rw [valueAt_map _ hn', Model.idAt_eq hn']

theorem not_refuses (hp : c.model.FinitePoints points) (i : Nat) (e : EvaluationError α) :
    ¬ c.Refuses points i e := by
  rintro ⟨n, x, hn, hk, hx, hfinite, -⟩
  rw [hp n (List.mem_of_getElem? hn) hk x hx] at hfinite
  exact absurd hfinite (Bool.noConfusion)

/-- Outcomes are stable if and only if, read by ids, they are a meaning of the model. -/
theorem stable_iff_meaning (hc : c.Faithful) (hp : c.model.FinitePoints points)
    {value : String → Outcome α} :
    Stable c points (c.model.nodes.map fun n => value n.id) ↔ c.model.Meaning points value := by
  have hnode : ∀ i n, c.model.nodes[i]? = some n →
      (nodeOutcome c points (c.model.nodes.map fun n => value n.id) i =
        .ok (valueAt (c.model.nodes.map fun n => value n.id) i) ↔
      n.Gives points ((c.model.incoming n.id).map fun e => value e.source) (value n.id)) := by
    intro i n hn
    rw [nodeOutcome_ok_iff hn (not_refuses hp i), inputOutcomes_map hc hn, valueAt_map _ hn]
  constructor
  · intro h n hn
    obtain ⟨i, hi⟩ := List.getElem?_of_mem hn
    exact (hnode i n hi).1 (h.fixed i (List.getElem?_eq_some_iff.1 hi).1)
  · refine fun h => ⟨List.length_map _, fun i hi => ?_⟩
    obtain ⟨n, hn⟩ := Checked.exists_node hi
    exact (hnode i n hn).2 (h n (List.mem_of_getElem? hn))

/-! ## Top theorems -/

/-- With finite points every topological order gives the same preview, that of the stable
outcomes. -/
theorem preview_of_stable (hc : c.Faithful) (hp : c.model.FinitePoints points)
    (hv : Stable c points v) (horder : c.Topological order) :
    (⟨c, order⟩ : Evaluator α).preview points =
      .ok { grade := valueAt v c.sink, nodes := c.model.ids.zip v } := by
  have hrun : (⟨c, order⟩ : Evaluator α).run points = .ok v := by
    show fill c points order (List.replicate c.size .unknown) = .ok v
    cases h : fill c points order (List.replicate c.size .unknown) with
    | ok w => rw [stable_unique hc (fill_stable hc horder h) hv]
    | error e =>
      obtain ⟨-, i, -, -, hi, -⟩ := fill_error_iff.1 h
      exact absurd hi (not_refuses hp i e)
  unfold preview
  rw [hrun]
  rfl

/-- A preview reads a meaning of the model off by ids. -/
theorem preview_of_meaning (hc : c.Faithful) (hp : c.model.FinitePoints points)
    {value : String → Outcome α} (h : c.model.Meaning points value) :
    (Evaluator.ofChecked c).preview points =
      .ok { grade := value (c.idAt c.sink), nodes := c.model.ids.map fun id => (id, value id) } := by
  obtain ⟨s, -, hs⟩ := Checked.sink?_eq hc
  have hv := (stable_iff_meaning hc hp).2 h
  have hgrade : valueAt (c.model.nodes.map fun n => value n.id) c.sink =
      value (c.idAt c.sink) := by
    rw [Checked.idAt_eq hs]
    exact valueAt_map (fun n : Node α => value n.id) hs
  have hnodes : c.model.ids.zip (c.model.nodes.map fun n => value n.id) =
      c.model.ids.map fun id => (id, value id) := by
    unfold Model.ids
    rw [List.zip_map', List.map_map]
    rfl
  have hpreview : (Evaluator.ofChecked c).preview points =
      .ok ⟨valueAt (c.model.nodes.map fun n => value n.id) c.sink,
        c.model.ids.zip (c.model.nodes.map fun n => value n.id)⟩ :=
    preview_of_stable hc hp hv (Checked.order_topological hc)
  rw [hpreview, hgrade, hnodes]

theorem exists_stable (hc : c.Faithful) (hp : c.model.FinitePoints points) :
    ∃ v, Stable c points v := by
  cases h : fill c points c.order (List.replicate c.size .unknown) with
  | ok v => exact ⟨v, fill_stable hc (Checked.order_topological hc) h⟩
  | error e =>
    obtain ⟨-, i, -, -, hi, -⟩ := fill_error_iff.1 h
    exact absurd hi (not_refuses hp i e)

/-- Evaluation in the scheduled order computes the one meaning of the model, and so does
evaluation in any topological order. -/
theorem preview_computes_meaning {m : Model α} {strict : Bool}
    (h : validate strict m = .ok c) (hp : m.FinitePoints points) :
    ∃ p value, (Evaluator.ofChecked c).preview points = .ok p ∧
      p.nodes = m.nodes.map (fun n => (n.id, value n.id)) ∧
      m.Meaning points value ∧
      (∀ other, m.Meaning points other → ∀ id ∈ m.ids, other id = value id) ∧
      (∃ s, m.sink? = some s ∧ p.grade = value s.id) ∧
      c.Topological c.order ∧
      ∀ order, c.Topological order → (⟨c, order⟩ : Evaluator α).preview points = .ok p := by
  obtain ⟨hc, rfl⟩ := faithful_of_validate h
  obtain ⟨v, hv⟩ := exists_stable hc hp
  obtain ⟨value, rfl⟩ := exists_value hc hv.length
  have hall := fun order (horder : c.Topological order) => preview_of_stable hc hp hv horder
  refine ⟨_, value, hall c.order (Checked.order_topological hc), ?_,
    (stable_iff_meaning hc hp).1 hv, fun other hother id hid => ?_, ?_,
    Checked.order_topological hc, hall⟩
  · show (c.model.nodes.map (·.id)).zip (c.model.nodes.map fun n => value n.id) = _
    rw [List.zip_map']
  · obtain ⟨n, hn, rfl⟩ := Model.mem_ids.1 hid
    have heq := stable_unique hc ((stable_iff_meaning hc hp).2 hother) hv
    exact List.map_inj_left.1 heq n hn
  · obtain ⟨s, hs, hi⟩ := Checked.sink?_eq hc
    exact ⟨s, hs, valueAt_map (fun n : Node α => value n.id) hi⟩

/-- A quiz, a gate after it and the grade. -/
def quizModel : Model Float where
  nodes :=
    [⟨"quiz", .source ⟨none, .ignore⟩⟩, ⟨"gate", .minPoints ⟨5, .courseFail⟩⟩, ⟨"grade", .sink⟩]
  edges := [Edge.join "quiz" "gate" 0, Edge.join "gate" "grade" 0]

/-- Points in the quiz that are not enough for the gate. -/
def quizPoints : Points Float := Points.ofList [("quiz", 3)]

theorem preview_computes_meaning_quiz :
    validate true quizModel = .ok (quizModel.accepted 2) ∧ quizModel.FinitePoints quizPoints ∧
      ∃ p value, (Evaluator.ofChecked (quizModel.accepted 2)).preview quizPoints = .ok p ∧
        quizModel.Meaning quizPoints value ∧ p.grade = value "grade" ∧ p.grade = .fail := by
  have hvalid : validate true quizModel = .ok (quizModel.accepted 2) := rfl
  have hfinite : quizModel.FinitePoints quizPoints := by
    intro n hn hk x hx
    have hquiz : n.id = "quiz" := by
      simp only [quizModel, List.mem_cons, List.not_mem_nil, or_false] at hn
      rcases hn with rfl | rfl | rfl
      · rfl
      · exact nomatch hk
      · exact nomatch hk
    rw [hquiz] at hx
    obtain rfl : 3 = x := Option.some.inj hx
    rfl
  obtain ⟨p, value, hp, -, hmeaning, -, ⟨s, hs, hgrade⟩, -⟩ :=
    preview_computes_meaning hvalid hfinite
  obtain rfl : (⟨"grade", .sink⟩ : Node Float) = s := Option.some.inj hs
  have hfail : p.grade = .fail := by
    obtain rfl := Except.ok.inj hp
    rfl
  exact ⟨hvalid, hfinite, p, value, hp, hmeaning, hgrade, hfail⟩

end Grading
