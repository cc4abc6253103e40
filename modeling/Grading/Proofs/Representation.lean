import Grading.Proofs.Dataflow

/-!
# The tables of an accepted model are its edges

A model can be read in two ways: by ids, from its lists of nodes and edges, and by positions, from
the tables made when it is accepted.  `Checked.Represents` says that both tell the same, and which
inputs a node of each type has; it holds of whatever is accepted.

    c.position? id = some i ↔ the node at i has that id                     (position?_eq_iff)
    j reads from i as often as i lists j                                  (count_dependentsOf)
    each node has the inputs of its type                                       (reads_inputsOf)
    validate strict m = .ok c → c.Represents m                            (validate_represents)
-/

namespace Grading

variable {α : Type}

/-! ## What the tables say -/

/-- The inputs that a node of each type has: none, one at slot `0`, some, or one for each weight in
the order of the weights. -/
def Settings.Reads (s : Settings α) (inputs : List (Slot × Nat)) : Prop :=
  match s with
  | .source _ => inputs = []
  | .addition => inputs ≠ []
  | .max _ => inputs ≠ []
  | .average s => inputs.map (·.1) = s.weights.slots
  | .stepper _ => ∃ j, inputs = [(0, j)]
  | .minPoints _ => ∃ j, inputs = [(0, j)]
  | .round _ => ∃ j, inputs = [(0, j)]
  | .sink => ∃ j, inputs = [(0, j)]

/-- The checked model says by positions what the model says by ids. -/
structure Checked.Represents (c : Checked α) (m : Model α) : Prop where
  model : c.model = m
  position? : ∀ id i, c.position? id = some i ↔ ∃ n, m.nodes[i]? = some n ∧ n.id = id
  inputsLength : c.inputs.length = m.nodes.length
  dependentsLength : c.dependents.length = m.nodes.length
  /-- The inputs of a node are the edges into it, with the positions of their sources. -/
  inputs : ∀ (i : Nat) (n : Node α), m.nodes[i]? = some n →
    (c.inputsOf i).map (fun a => (a.1, some a.2)) =
      (m.incoming n.id).map fun e => (e.slot, m.position? e.source)
  inputsAscending : ∀ i < m.nodes.length, (c.inputsOf i).Pairwise fun a b => a.1 < b.1
  /-- A node is listed once for every input that reads from the other. -/
  dependents : ∀ i j, (c.dependentsOf i).count j = (c.inputsOf j).countP fun a => a.2 = i
  dependentsAscending : ∀ i, (c.dependentsOf i).Pairwise (· ≤ ·)
  sink : ∃ s, m.sink? = some s ∧ m.nodes[c.sink]? = some s
  reads : ∀ (i : Nat) (n : Node α), m.nodes[i]? = some n → n.settings.Reads (c.inputsOf i)

namespace Checked

variable {c : Checked α} {i j : Nat} {n : Node α} {id : String}

/-! ## Lemmas -/

theorem position?_eq_iff (h : c.Faithful) :
    c.position? id = some i ↔ ∃ n, c.model.nodes[i]? = some n ∧ n.id = id := by
  constructor
  · intro hposition
    obtain ⟨n, hn, hid, -⟩ := Model.position?_eq_some.1 hposition
    exact ⟨n, hn, hid⟩
  · rintro ⟨n, hn, rfl⟩
    exact Model.position?_of_nodup h.wellWired.distinctIds hn

theorem inputs_length (h : c.Faithful) : c.inputs.length = c.model.nodes.length := by
  rw [h.inputs, List.length_map, List.length_range]

theorem dependents_length (h : c.Faithful) : c.dependents.length = c.model.nodes.length := by
  rw [h.dependents, List.length_map, List.length_range]

theorem dependentsOf_ascending (h : c.Faithful) (i : Nat) :
    (c.dependentsOf i).Pairwise (· ≤ ·) := by
  rw [dependentsOf_eq h]
  exact sortBy_key_pairwise id _

/-- A sink has one edge into it, which leads into slot `0`. -/
theorem wired_sink_iff (h : c.Faithful) (hn : c.model.nodes[i]? = some n) (hk : n.kind = .sink)
    (slot : Slot) : c.model.Wired n.id slot ↔ slot = 0 := by
  have hfirst := Model.position?_of_nodup h.wellWired.distinctIds hn
  have hi : i ∈ c.model.sinks := Model.mem_sinks.2 ⟨n, hn, hfirst, hk⟩
  rw [h.sinks, List.mem_singleton] at hi
  obtain ⟨s, hs, e, he, hslot⟩ := h.wellWired.oneSink
  obtain ⟨s', hs', hns⟩ := sink?_eq h
  obtain rfl : s = s' := Option.some.inj (hs.symm.trans hs')
  obtain rfl : n = s := Option.some.inj (hn.symm.trans (hi ▸ hns))
  have hwired : ∀ f, f ∈ c.model.edges ∧ f.target = n.id ↔ f = e := by
    intro f
    have hincoming : f ∈ c.model.incoming n.id ↔ f = e := by
      rw [he, List.mem_singleton]
    unfold Model.incoming at hincoming
    rwa [mem_sortBy, List.mem_filter, decide_eq_true_eq] at hincoming
  unfold Model.Wired
  constructor
  · rintro ⟨f, hf, ht, rfl⟩
    rw [(hwired f).1 ⟨hf, ht⟩, hslot]
  · rintro rfl
    obtain ⟨hmem, ht⟩ := (hwired e).2 rfl
    exact ⟨e, hmem, ht, hslot⟩

/-- The slots of the inputs are in the order of the weights. -/
theorem slots_eq_of_wired (h : c.Faithful) (hn : c.model.nodes[i]? = some n) {β : Type}
    {weights : SlotMap β} (hslots : ∀ slot, c.model.Wired n.id slot ↔ slot ∈ weights.slots) :
    (c.inputsOf i).map (·.1) = weights.slots := by
  have hascending : ((c.inputsOf i).map (·.1)).Pairwise (· < ·) :=
    List.pairwise_map.2 (inputsOf_ascending h hn)
  have hweights : weights.slots.Pairwise (· < ·) := List.pairwise_map.2 weights.ascending
  refine hascending.eq_of_mem_iff hweights fun slot => ?_
  rw [← wired_iff h hn, hslots]

theorem reads_inputsOf (h : c.Faithful) (hn : c.model.nodes[i]? = some n) :
    n.settings.Reads (c.inputsOf i) := by
  have htakes := h.wellWired.takes n (List.mem_of_getElem? hn)
  have hsome : (∃ slot, c.model.Wired n.id slot) → c.inputsOf i ≠ [] := by
    rintro ⟨slot, hslot⟩ hnil
    rw [wired_iff h hn, hnil] at hslot
    exact absurd hslot List.not_mem_nil
  cases hs : n.settings with
  | source s =>
    rw [hs] at htakes
    refine List.eq_nil_iff_forall_not_mem.2 fun a ha => htakes a.1 ?_
    exact (wired_iff h hn).2 (List.mem_map_of_mem ha)
  | addition =>
    rw [hs] at htakes
    exact hsome htakes
  | max x =>
    rw [hs] at htakes
    exact hsome htakes
  | average s =>
    rw [hs] at htakes
    exact slots_eq_of_wired h hn htakes
  | stepper s =>
    rw [hs] at htakes
    exact inputsOf_single h hn htakes
  | minPoints s =>
    rw [hs] at htakes
    exact inputsOf_single h hn htakes
  | round mode =>
    rw [hs] at htakes
    exact inputsOf_single h hn htakes
  | sink =>
    refine inputsOf_single h hn (wired_sink_iff h hn ?_)
    unfold Node.kind
    rw [hs]
    rfl

end Checked

/-! ## Top theorem -/

/-- Whatever is accepted is represented by its tables. -/
theorem validate_represents [Number α] {m : Model α} {strict : Bool} {c : Checked α}
    (h : validate strict m = .ok c) : c.Represents m := by
  obtain ⟨hc, rfl⟩ := faithful_of_validate h
  exact
    { model := rfl
      position? := fun _ _ => Checked.position?_eq_iff hc
      inputsLength := Checked.inputs_length hc
      dependentsLength := Checked.dependents_length hc
      inputs := fun _ _ hn => Checked.inputsOf_eq_incoming hc hn
      inputsAscending := fun _ hi =>
        Checked.inputsOf_ascending hc (List.getElem?_eq_getElem hi)
      dependents := fun i j => by
        rw [Checked.count_dependentsOf hc, List.count_eq_countP, List.countP_map]
        rfl
      dependentsAscending := Checked.dependentsOf_ascending hc
      sink := Checked.sink?_eq hc
      reads := fun _ _ hn => Checked.reads_inputsOf hc hn }

/-- An exam that is wired to two slots of an average. -/
def doubledModel : Model Float where
  nodes :=
    [⟨"grade", .sink⟩, ⟨"mean", .average ⟨.ofList [(7, 2), (3, 1)], false⟩⟩,
      ⟨"exam", .source ⟨none, .ignore⟩⟩]
  edges := [Edge.join "exam" "mean" 7, Edge.join "mean" "grade" 0, Edge.join "exam" "mean" 3]

theorem validate_represents_doubled :
    validate true doubledModel = .ok (doubledModel.accepted 0) ∧
      (doubledModel.accepted 0).Represents doubledModel ∧
      (doubledModel.accepted 0).inputsOf 1 = [(3, 2), (7, 2)] ∧
      (doubledModel.accepted 0).dependentsOf 2 = [1, 1] := by
  have hvalid : validate true doubledModel = .ok (doubledModel.accepted 0) := rfl
  exact ⟨hvalid, validate_represents hvalid, rfl, rfl⟩

end Grading
