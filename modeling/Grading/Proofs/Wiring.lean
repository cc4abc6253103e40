import Mathlib.Data.List.Nodup
import Grading.Check.Wiring
import Grading.Proofs.Reach
import Grading.Proofs.WellFormed

/-!
# The checks of ids, edges and slots find everything

Each check comes out empty if and only if a part of `Model.WellWired` holds.  The first two speak
of ids alone.  The others see links, and say of a well-joined model what its edges say, because
then the links into a node are the edges that name it (`edges_into`):

    m.duplicateFaults = [] ↔ m.ids.Nodup                             (duplicateFaults_eq_nil_iff)
    m.danglingFaults = [] ↔ m.EdgesJoinNodes                          (danglingFaults_eq_nil_iff)
    m.slotFaults m.links = [] ↔ outputs, slots and arities fit             (slotFaults_eq_nil_iff)
    m.sinkFaults m.links = [] ↔ there is one sink with one input           (sinkFaults_eq_nil_iff)
-/

namespace Grading

variable {α : Type}

/-! ## Ids and ends -/

namespace Model

variable {m : Model α}

theorem duplicateFaults_eq_nil_iff : m.duplicateFaults = [] ↔ m.ids.Nodup := by
  unfold duplicateFaults
  rw [List.map_eq_nil_iff, List.eq_nil_iff_forall_not_mem, List.nodup_iff_count_le_one]
  simp only [mem_sortTexts, List.mem_eraseDups, List.mem_filter, decide_eq_true_eq, not_and]
  show (∀ id, id ∈ m.ids → ¬ 1 < m.ids.count id) ↔ _
  constructor
  · intro h id
    by_cases hid : id ∈ m.ids
    · exact Nat.le_of_not_lt (h id hid)
    · rw [List.count_eq_zero_of_not_mem hid]
      exact Nat.zero_le 1
  · exact fun h id _ => Nat.not_lt_of_le (h id)

theorem link?_isSome {e : Edge} : (m.link? e).isSome ↔ e.source ∈ m.ids ∧ e.target ∈ m.ids := by
  rw [Option.isSome_iff_exists, ← position?_isSome, ← position?_isSome,
    Option.isSome_iff_exists, Option.isSome_iff_exists]
  constructor
  · rintro ⟨l, hl⟩
    obtain ⟨-, hs, ht⟩ := link?_eq_some.1 hl
    exact ⟨⟨_, hs⟩, ⟨_, ht⟩⟩
  · rintro ⟨⟨i, hs⟩, ⟨j, ht⟩⟩
    exact ⟨⟨i, j, e⟩, link?_eq_some.2 ⟨rfl, hs, ht⟩⟩

theorem danglingFaults_eq_nil_iff : m.danglingFaults = [] ↔ m.EdgesJoinNodes := by
  unfold danglingFaults EdgesJoinNodes
  rw [List.map_eq_nil_iff, List.filter_eq_nil_iff]
  refine forall₂_congr fun e _ => ?_
  rw [← link?_isSome]
  cases m.link? e <;> simp

/-! ## Links into a node -/

end Model

/-- The edges of the links into a node. -/
def Link.edgesInto (links : List Link) (i : Nat) : List Edge := (into links i).map (·.edge)

namespace Model

variable {m : Model α}

/-- Where all edges join nodes, the links into a node are the edges that name it. -/
theorem edges_into (hm : m.EdgesJoinNodes) {id : String} {i : Nat} (hi : m.position? id = some i) :
    Link.edgesInto m.links i = m.edges.filter fun e => e.target = id := by
  have hlist : ∀ edges : List Edge, (∀ e ∈ edges, e.source ∈ m.ids ∧ e.target ∈ m.ids) →
      ((edges.filterMap m.link?).filter fun l => l.target = i).map (·.edge) =
        edges.filter fun e => e.target = id := by
    intro edges
    induction edges with
    | nil => exact fun _ => rfl
    | cons e edges ih =>
      intro hall
      have ih := ih fun f hf => hall f (List.mem_cons_of_mem e hf)
      obtain ⟨l, hl⟩ := Option.isSome_iff_exists.1 (link?_isSome.2 (hall e List.mem_cons_self))
      obtain ⟨hedge, -, ht⟩ := link?_eq_some.1 hl
      have htarget : l.target = i ↔ e.target = id := by
        constructor
        · intro h
          rw [← idAt_position? hi, ← idAt_position? ht, h]
        · intro h
          rw [h, hi] at ht
          exact (Option.some.inj ht).symm
      rw [List.filterMap_cons_some hl, List.filter_cons, List.filter_cons]
      by_cases h : e.target = id
      · rw [if_pos (by simpa using htarget.2 h), if_pos (by simpa using h), List.map_cons, ih, hedge]
      · rw [if_neg (by simpa using fun h' => h (htarget.1 h')), if_neg (by simpa using h), ih]
  exact hlist m.edges hm

/-! ## Slots of one node -/

end Model

variable {links : List Link} {i : Nat} {slot : Slot} {es : List Edge} {id : String}

/-- The wired slots of a node, each with all of its edges. -/
theorem mem_wiring : (slot, es) ∈ Link.wiring links i ↔
    (∃ e ∈ Link.edgesInto links i, e.slot = slot) ∧
      es = (Link.edgesInto links i).filter fun e => e.slot = slot := by
  unfold Link.wiring Link.edgesInto
  simp only [List.mem_map, List.mem_eraseDups, mem_sortBy, Prod.mk.injEq]
  constructor
  · rintro ⟨_, ⟨e, he, rfl⟩, rfl, rfl⟩
    exact ⟨⟨e, he, rfl⟩, rfl⟩
  · rintro ⟨⟨e, he, hslot⟩, rfl⟩
    exact ⟨slot, ⟨e, he, hslot⟩, rfl, rfl⟩

theorem wiring_any : (Link.wiring links i).any (fun w => w.1 = slot) = true ↔
    ∃ e ∈ Link.edgesInto links i, e.slot = slot := by
  rw [List.any_eq_true]
  constructor
  · rintro ⟨⟨slot', es⟩, hw, h⟩
    obtain rfl : slot' = slot := of_decide_eq_true h
    exact (mem_wiring.1 hw).1
  · intro he
    exact ⟨_, mem_wiring.2 ⟨he, rfl⟩, decide_eq_true rfl⟩

/-- What holds of the slots of the wiring holds of the slots of the edges. -/
theorem forall_wiring {P : Slot → Prop} : (∀ w ∈ Link.wiring links i, P w.1) ↔
    ∀ slot, (∃ e ∈ Link.edgesInto links i, e.slot = slot) → P slot := by
  constructor
  · intro h slot he
    exact h _ (mem_wiring.2 ⟨he, rfl⟩)
  · intro h w hw
    exact h w.1 (mem_wiring.1 hw).1

theorem wiring_isEmpty : (Link.wiring links i).isEmpty = true ↔
    ∀ slot, ¬ ∃ e ∈ Link.edgesInto links i, e.slot = slot := by
  rw [List.isEmpty_iff, List.eq_nil_iff_forall_not_mem]
  exact @forall_wiring links i fun _ => False

/-- No slot has several edges if and only if the slots of the edges are distinct. -/
theorem collisionFaults_eq_nil_iff :
    (collisionFaults id (Link.wiring links i) : List (Fault α)) = [] ↔
      ((Link.edgesInto links i).map (·.slot)).Nodup := by
  have hcount : ∀ slot, ((Link.edgesInto links i).filter fun e => e.slot = slot).length =
      ((Link.edgesInto links i).map (·.slot)).count slot := by
    intro slot
    rw [List.count_eq_countP, List.countP_map, List.countP_eq_length_filter]
    congr 1
  unfold collisionFaults
  rw [List.map_eq_nil_iff, List.filter_eq_nil_iff, List.nodup_iff_count_le_one]
  constructor
  · intro h slot
    by_cases he : ∃ e ∈ Link.edgesInto links i, e.slot = slot
    · have hle := h _ (mem_wiring.2 ⟨he, rfl⟩)
      rw [← hcount]
      simpa using hle
    · rw [List.count_eq_zero_of_not_mem (by simpa using he)]
      exact Nat.zero_le 1
  · rintro h ⟨slot, es⟩ hw
    obtain ⟨-, rfl⟩ := mem_wiring.1 hw
    rw [hcount]
    simpa using h slot

theorem singleInputFaults_eq_nil_iff {kind : Kind} :
    (singleInputFaults kind id (Link.wiring links i) : List (Fault α)) = [] ↔
      (∀ slot, (∃ e ∈ Link.edgesInto links i, e.slot = slot) → slot = 0) ∧
        (kind ≠ .sink → ∃ e ∈ Link.edgesInto links i, e.slot = 0) := by
  unfold singleInputFaults
  rw [List.append_eq_nil_iff, List.map_eq_nil_iff, List.filter_eq_nil_iff, ← wiring_any,
    ← @forall_wiring links i fun slot => slot = 0]
  refine and_congr (forall₂_congr fun w _ => by simp) ?_
  by_cases hk : kind = .sink
  · simp [hk]
  · simp [hk]

theorem SlotMap.contains_iff {weights : SlotMap α} :
    weights.contains slot = true ↔ slot ∈ weights.slots := by
  unfold contains slots
  simp [List.any_eq_true]

theorem weightFaults_wiring_eq_nil_iff {weights : SlotMap α} :
    weightFaults id weights (Link.wiring links i) = [] ↔
      ∀ slot, (∃ e ∈ Link.edgesInto links i, e.slot = slot) ↔ slot ∈ weights.slots := by
  unfold weightFaults
  rw [List.append_eq_nil_iff, List.map_eq_nil_iff, List.map_eq_nil_iff, List.filter_eq_nil_iff,
    List.filter_eq_nil_iff]
  constructor
  · rintro ⟨hunwired, hunweighted⟩ slot
    constructor
    · intro he
      have h := hunweighted _ (mem_wiring.2 ⟨he, rfl⟩)
      rw [← SlotMap.contains_iff]
      simpa using h
    · intro hslot
      have h := hunwired slot hslot
      rw [← wiring_any]
      simpa using h
  · intro h
    refine ⟨fun slot hslot => ?_, ?_⟩
    · rw [wiring_any.2 ((h slot).2 hslot)]
      simp
    · rintro ⟨slot, es⟩ hw
      rw [SlotMap.contains_iff.2 ((h slot).1 (mem_wiring.1 hw).1)]
      simp

/-- A node has no faults of arity if and only if the wired slots are those of its type. -/
theorem arityFaults_eq_nil_iff {n : Node α} : arityFaults n (Link.wiring links i) = [] ↔
    n.settings.Takes fun slot => ∃ e ∈ Link.edgesInto links i, e.slot = slot := by
  have hsome : (Link.wiring links i).isEmpty = false ↔
      ∃ slot, ∃ e ∈ Link.edgesInto links i, e.slot = slot := by
    rw [← Bool.not_eq_true, wiring_isEmpty, not_forall_not]
  have hsingle : ∀ {kind : Kind}, kind ≠ .sink →
      ((singleInputFaults kind n.id (Link.wiring links i) : List (Fault α)) = [] ↔
        ∀ slot, (∃ e ∈ Link.edgesInto links i, e.slot = slot) ↔ slot = 0) := by
    intro kind hk
    rw [singleInputFaults_eq_nil_iff]
    constructor
    · rintro ⟨h, hzero⟩ slot
      refine ⟨h slot, ?_⟩
      rintro rfl
      exact hzero hk
    · exact fun h => ⟨fun slot => (h slot).1, fun _ => (h 0).2 rfl⟩
  unfold arityFaults Settings.Takes
  cases hs : n.settings with
  | source s =>
    show _ ↔ ∀ slot, ¬ ∃ e ∈ Link.edgesInto links i, e.slot = slot
    rw [← wiring_isEmpty]
    cases (Link.wiring links i).isEmpty <;> simp
  | addition =>
    show _ ↔ ∃ slot, ∃ e ∈ Link.edgesInto links i, e.slot = slot
    rw [← hsome]
    cases (Link.wiring links i).isEmpty <;> simp
  | max minValue =>
    show _ ↔ ∃ slot, ∃ e ∈ Link.edgesInto links i, e.slot = slot
    rw [← hsome]
    cases (Link.wiring links i).isEmpty <;> simp
  | average s => exact weightFaults_wiring_eq_nil_iff
  | stepper s => exact hsingle (by simp [Node.kind, Settings.kind, hs])
  | minPoints s => exact hsingle (by simp [Node.kind, Settings.kind, hs])
  | round mode => exact hsingle (by simp [Node.kind, Settings.kind, hs])
  | sink =>
    rw [singleInputFaults_eq_nil_iff]
    simp [Node.kind, Settings.kind, hs]

/-! ## Slots of all nodes -/

namespace Model

variable {m : Model α}

theorem outputFaults_eq_nil_iff :
    (outputFaults links : List (Fault α)) = [] ↔ ∀ l ∈ links, l.edge.output = 0 := by
  unfold outputFaults
  rw [List.map_eq_nil_iff, List.filter_eq_nil_iff]
  refine forall₂_congr fun l _ => ?_
  simp

/-- Edges with distinct targets and slots are, node by node, edges with distinct slots. -/
theorem distinctSlots_iff (hm : m.EdgesJoinNodes) :
    (m.edges.map fun e => (e.target, e.slot)).Nodup ↔
      ∀ id ∈ m.ids, ((m.edges.filter fun e => e.target = id).map (·.slot)).Nodup := by
  unfold List.Nodup
  simp only [List.pairwise_map, List.pairwise_filter, decide_eq_true_eq]
  constructor
  · intro h id _
    refine h.imp fun hne he hf heq => hne ?_
    rw [he, hf, heq]
  · intro h
    rw [List.pairwise_iff_getElem]
    intro i j hi hj hij heq
    obtain ⟨htarget, hslot⟩ := Prod.mk.injEq .. ▸ heq
    have hid := (hm m.edges[i] (List.getElem_mem hi)).2
    exact List.pairwise_iff_getElem.1 (h _ hid) i j hi hj hij rfl htarget.symm hslot

theorem slotFaults_eq_nil_iff (hd : m.ids.Nodup) (hm : m.EdgesJoinNodes) :
    m.slotFaults m.links = [] ↔ (∀ e ∈ m.edges, e.output = 0) ∧
      (m.edges.map fun e => (e.target, e.slot)).Nodup ∧
      ∀ n ∈ m.nodes, n.settings.Takes (m.Wired n.id) := by
  have houtputs : (∀ l ∈ m.links, l.edge.output = 0) ↔ ∀ e ∈ m.edges, e.output = 0 := by
    constructor
    · intro h e he
      obtain ⟨l, hl⟩ := Option.isSome_iff_exists.1 (link?_isSome.2 (hm e he))
      obtain ⟨rfl, hs, ht⟩ := link?_eq_some.1 hl
      exact h l (mem_links.2 ⟨he, hs, ht⟩)
    · exact fun h l hl => h l.edge (mem_links.1 hl).1
  -- A node of a model with distinct ids is the first of its id.
  have hnode : ∀ n ∈ m.nodes, ∃ i, (n, i) ∈ m.firstNodes := by
    intro n hn
    obtain ⟨i, hi⟩ := List.getElem?_of_mem hn
    exact ⟨i, mem_firstNodes.2 ⟨hi, position?_of_nodup hd hi⟩⟩
  have hwired : ∀ n i, (n, i) ∈ m.firstNodes →
      (fun slot => ∃ e ∈ Link.edgesInto m.links i, e.slot = slot) = m.Wired n.id := by
    intro n i hi
    rw [edges_into hm (mem_firstNodes.1 hi).2]
    unfold Wired
    ext slot
    simp only [List.mem_filter, decide_eq_true_eq, and_assoc]
  have hnodes : (∀ p ∈ m.firstNodes,
      (collisionFaults p.1.id (Link.wiring m.links p.2) : List (Fault α)) ++
        arityFaults p.1 (Link.wiring m.links p.2) = []) ↔
      (∀ id ∈ m.ids, ((m.edges.filter fun e => e.target = id).map (·.slot)).Nodup) ∧
        ∀ n ∈ m.nodes, n.settings.Takes (m.Wired n.id) := by
    constructor
    · intro h
      have hpart : ∀ n ∈ m.nodes,
          ((m.edges.filter fun e => e.target = n.id).map (·.slot)).Nodup ∧
            n.settings.Takes (m.Wired n.id) := by
        intro n hn
        obtain ⟨i, hi⟩ := hnode n hn
        have hnil := h (n, i) hi
        rw [List.append_eq_nil_iff, collisionFaults_eq_nil_iff, arityFaults_eq_nil_iff] at hnil
        rwa [hwired n i hi, edges_into hm (mem_firstNodes.1 hi).2] at hnil
      refine ⟨fun id hid => ?_, fun n hn => (hpart n hn).2⟩
      obtain ⟨n, hn, rfl⟩ := mem_ids.1 hid
      exact (hpart n hn).1
    · rintro ⟨hslots, htakes⟩ ⟨n, i⟩ hi
      have hn : n ∈ m.nodes := List.mem_of_getElem? (mem_firstNodes.1 hi).1
      rw [List.append_eq_nil_iff, collisionFaults_eq_nil_iff, arityFaults_eq_nil_iff]
      show _ ∧ n.settings.Takes fun slot => ∃ e ∈ Link.edgesInto m.links i, e.slot = slot
      rw [hwired n i hi, edges_into hm (mem_firstNodes.1 hi).2]
      exact ⟨hslots n.id (mem_ids.2 ⟨n, hn, rfl⟩), htakes n hn⟩
  unfold slotFaults
  rw [List.append_eq_nil_iff, outputFaults_eq_nil_iff, houtputs, List.flatMap_eq_nil_iff, hnodes,
    distinctSlots_iff hm]

/-! ## The sink -/

theorem firstNodes_of_nodup (hd : m.ids.Nodup) : m.firstNodes = m.nodes.zipIdx := by
  unfold firstNodes
  rw [List.filter_eq_self]
  rintro ⟨n, i⟩ hi
  exact decide_eq_true (position?_of_nodup hd (List.mk_mem_zipIdx_iff_getElem?.1 hi))

theorem sink?_eq_some_iff (hd : m.ids.Nodup) {n : Node α} :
    m.sink? = some n ↔ ∃ i, m.sinks = [i] ∧ m.nodes[i]? = some n := by
  have hfst : (m.nodes.filter fun n => n.kind = .sink) =
      (m.firstNodes.filter fun p => p.1.kind = .sink).map (·.1) := by
    conv_lhs => rw [← List.zipIdx_map_fst 0 m.nodes, List.filter_map]
    rw [firstNodes_of_nodup hd]
    rfl
  unfold sink? sinks
  rw [hfst]
  have hmem : ∀ p ∈ m.firstNodes.filter fun p => p.1.kind = .sink, m.nodes[p.2]? = some p.1 :=
    fun p hp => (mem_firstNodes.1 (List.mem_filter.1 hp).1).1
  generalize m.firstNodes.filter (fun p => p.1.kind = .sink) = found at hmem
  match found, hmem with
  | [], _ => simp
  | [(n', j)], hmem =>
    have hj : m.nodes[j]? = some n' := hmem (n', j) List.mem_cons_self
    constructor
    · intro h
      obtain rfl : n' = n := Option.some.inj h
      exact ⟨j, rfl, hj⟩
    · rintro ⟨i, hi, hn⟩
      obtain rfl : j = i := List.head_eq_of_cons_eq hi
      show some n' = some n
      rw [← hj, hn]
  | p :: q :: found, _ => simp

theorem sinkFaults_eq_nil_iff (hd : m.ids.Nodup) (hm : m.EdgesJoinNodes) :
    m.sinkFaults m.links = [] ↔ ∃ n, m.sink? = some n ∧ ∃ e, m.incoming n.id = [e] := by
  have hincoming : ∀ id e, m.incoming id = [e] ↔ (m.edges.filter fun e => e.target = id) = [e] := by
    intro id e
    unfold incoming
    rw [← List.perm_singleton, ← List.perm_singleton]
    exact ⟨(sortBy_perm _ _).symm.trans, (sortBy_perm _ _).trans⟩
  have hone : ∀ i n, m.sinks = [i] → m.nodes[i]? = some n →
      (((Link.into m.links i).map (·.edge.id)).length = 1 ↔ ∃ e, m.incoming n.id = [e]) := by
    intro i n _ hn
    simp only [hincoming]
    rw [← edges_into hm (position?_of_nodup hd hn), ← List.length_eq_one_iff]
    unfold Link.edgesInto
    rw [List.length_map, List.length_map]
  unfold sinkFaults
  constructor
  · intro h
    match hs : m.sinks with
    | [] => simp [hs] at h
    | _ :: _ :: _ => simp [hs] at h
    | [i] =>
      obtain ⟨n, hn, -⟩ := mem_sinks.1 (show i ∈ m.sinks by rw [hs]; exact List.mem_cons_self)
      refine ⟨n, (sink?_eq_some_iff hd).2 ⟨i, hs, hn⟩, (hone i n hs hn).1 ?_⟩
      by_contra hne
      simp only [hs] at h
      rw [if_neg hne] at h
      exact absurd h (List.cons_ne_nil _ _)
  · rintro ⟨n, hn, he⟩
    obtain ⟨i, hs, hi⟩ := (sink?_eq_some_iff hd).1 hn
    simp only [hs]
    rw [if_pos ((hone i n hs hi).2 he)]

end Model

end Grading
