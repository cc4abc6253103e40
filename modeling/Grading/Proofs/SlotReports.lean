import Grading.Proofs.FindingKinds
import Grading.Proofs.ReachReports
import Grading.Proofs.Sorted
import Grading.Proofs.Wiring

/-!
# What is reported about slots

For every model, whether it is accepted or not, the faults of the kinds of slots tell where its
edges end.  As in the reports about circles, an edge counts if both its ends are ids of nodes
(`Model.joining`), and an id means the first node that has it.

    one collision for each slot that several edges claim             (exists_collisionFaults)
    one fault for each edge that reads an output but `0`                 (outputFaults_links)
    one fault for each thing that does not fit the edges into a node    (mem_arityFaults_iff)
    so every edge into a slot that is not declared is pointed at            (exists_misfit)

What does not fit a node is said of the node and its edges alone (`Misfit`).  The checks group the
edges by slot first, and `Groups` is all that they need of the groups.
-/

namespace Grading

variable {α : Type}

/-! ## Rules -/

/-- The edges that claim a slot, of some edges that lead into a node. -/
def claiming (slot : Slot) (entering : List Edge) : List Edge :=
  entering.filter fun e => e.slot = slot

/-- Some edges by slot; edges of one slot keep their order. -/
def bySlot (entering : List Edge) : List Edge :=
  sortBy (fun e e' => decide (e.slot ≤ e'.slot)) entering

namespace Model

/-- The edges into a node, of those that join nodes. -/
def entering (m : Model α) (id : String) : List Edge := m.joining.filter fun e => e.target = id

/-- The edges that claim a slot of a node, of those that join nodes. -/
def claimants (m : Model α) (id : String) (slot : Slot) : List Edge :=
  claiming slot (m.entering id)

end Model

/-- The nodes that have slot `0` and no other. -/
def Kind.HasOneSlot (kind : Kind) : Prop :=
  kind = .stepper ∨ kind = .minPoints ∨ kind = .round ∨ kind = .sink

/-- What does not fit a node that some edges lead into. -/
inductive Misfit (n : Node α) (entering : List Edge) : Fault α → Prop
  | sourceInputs (source : n.kind = .source) (entered : entering ≠ []) :
      Misfit n entering (.sourceInputs n.id ((bySlot entering).map (·.id)))
  | noInputs (any : n.kind = .addition ∨ n.kind = .max) (bare : entering = []) :
      Misfit n entering (.noInputs n.kind n.id)
  | unwiredWeight {s : AverageSettings α} {slot : Slot} (settings : n.settings = .average s)
      (weight : slot ∈ s.weights.slots) (unclaimed : claiming slot entering = []) :
      Misfit n entering (.unwiredWeight n.id slot)
  | unweightedSlot {s : AverageSettings α} {slot : Slot} (settings : n.settings = .average s)
      (no_weight : slot ∉ s.weights.slots) (claimed : claiming slot entering ≠ []) :
      Misfit n entering (.unweightedSlot n.id slot ((claiming slot entering).map (·.id)))
  | foreignSlot {slot : Slot} (single : n.kind.HasOneSlot) (foreign : slot ≠ 0)
      (claimed : claiming slot entering ≠ []) :
      Misfit n entering (.foreignSlot n.kind n.id slot ((claiming slot entering).map (·.id)))
  | noInput (single : n.kind.HasOneSlot) (not_sink : n.kind ≠ .sink)
      (unclaimed : claiming 0 entering = []) : Misfit n entering (.noInput n.kind n.id)

/-- The slots that the settings of a node declare; a sum and a maximum take any. -/
def Settings.Declares : Settings α → Slot → Prop
  | .source _, _ => False
  | .addition, _ => True
  | .max _, _ => True
  | .average s, slot => slot ∈ s.weights.slots
  | .stepper _, slot => slot = 0
  | .minPoints _, slot => slot = 0
  | .round _, slot => slot = 0
  | .sink, slot => slot = 0

/-! ## Groups of edges -/

section

variable {entering : List Edge} {wiring : List (Slot × List Edge)} {slot : Slot}

theorem claiming_ne_nil_iff : claiming slot entering ≠ [] ↔ ∃ e ∈ entering, e.slot = slot := by
  unfold claiming
  rw [Ne, List.filter_eq_nil_iff, not_forall]
  simp

/-- What the checks need of the wiring of a node: it is the edges, grouped by slot. -/
structure Groups (entering : List Edge) (wiring : List (Slot × List Edge)) : Prop where
  distinct : (wiring.map (·.1)).Nodup
  mem_iff : ∀ slot es, (slot, es) ∈ wiring ↔
    claiming slot entering ≠ [] ∧ es = claiming slot entering
  flat : wiring.flatMap (·.2) = bySlot entering

theorem groups_wiring (links : List Link) (i : Nat) :
    Groups (Link.edgesInto links i) (Link.wiring links i) := by
  refine ⟨?distinct, fun slot es => ?mem_iff, ?flat⟩
  case distinct =>
    unfold Link.wiring
    rw [List.map_map]
    exact (List.map_id _).symm ▸ nodup_eraseDups _
  case mem_iff =>
    rw [mem_wiring, claiming_ne_nil_iff]
    rfl
  case flat =>
    unfold Link.wiring
    rw [List.flatMap_map]
    refine flatMap_filter_eq_sortBy ?_ fun e he => ?_
    · have hsorted := sortBy_key_pairwise id ((Link.edgesInto links i).map (·.slot))
      have hle := hsorted.sublist (eraseDups_sublist _)
      exact (hle.and (nodup_eraseDups _)).imp fun h => UInt32.lt_of_le_of_ne h.1 h.2
    · rw [List.mem_eraseDups, mem_sortBy]
      exact List.mem_map_of_mem he

namespace Groups

variable {β : Type} {p : Slot × List Edge → Bool} {g : Slot × List Edge → β} {b : β}

/-- What is made of some of the groups. -/
theorem mem_map_filter_iff (h : Groups entering wiring) : b ∈ (wiring.filter p).map g ↔
    ∃ slot, claiming slot entering ≠ [] ∧ p (slot, claiming slot entering) = true ∧
      b = g (slot, claiming slot entering) := by
  rw [List.mem_map]
  constructor
  · rintro ⟨⟨slot, es⟩, hw, rfl⟩
    obtain ⟨hw, hp⟩ := List.mem_filter.1 hw
    obtain ⟨hclaimed, rfl⟩ := (h.mem_iff slot es).1 hw
    exact ⟨slot, hclaimed, hp, rfl⟩
  · rintro ⟨slot, hclaimed, hp, rfl⟩
    have hw := (h.mem_iff slot _).2 ⟨hclaimed, rfl⟩
    exact ⟨_, List.mem_filter.2 ⟨hw, hp⟩, rfl⟩

theorem nodup_map_filter (h : Groups entering wiring) (hg : ∀ w w', g w = g w' → w.1 = w'.1) :
    ((wiring.filter p).map g).Nodup := by
  have hsub : ((wiring.filter p).map (·.1)).Sublist (wiring.map (·.1)) := List.filter_sublist.map _
  have hslots := h.distinct.sublist hsub
  refine List.Nodup.map_on (fun w hw w' hw' heq => ?_) (List.Nodup.of_map _ hslots)
  exact List.inj_on_of_nodup_map hslots hw hw' (hg w w' heq)

theorem isEmpty_iff (h : Groups entering wiring) : wiring.isEmpty = true ↔ entering = [] := by
  rw [List.isEmpty_iff]
  constructor
  · rintro rfl
    have hperm : (bySlot entering).Perm entering := sortBy_perm _ _
    rw [← h.flat] at hperm
    exact hperm.nil_eq.symm
  · rintro rfl
    rw [List.eq_nil_iff_forall_not_mem]
    rintro ⟨slot, es⟩ hw
    exact ((h.mem_iff slot es).1 hw).1 rfl

theorem none_iff (h : Groups entering wiring) :
    (!wiring.any fun w => w.1 = slot) = true ↔ claiming slot entering = [] := by
  rw [Bool.not_eq_true', ← Bool.not_eq_true, ← not_ne_iff (b := ([] : List Edge)), not_iff_not,
    List.any_eq_true]
  constructor
  · rintro ⟨⟨slot', es⟩, hw, heq⟩
    obtain rfl : slot' = slot := of_decide_eq_true heq
    exact ((h.mem_iff slot' es).1 hw).1
  · intro hclaimed
    exact ⟨_, (h.mem_iff slot _).2 ⟨hclaimed, rfl⟩, decide_eq_true rfl⟩

end Groups

/-! ## One node -/

variable {n : Node α} {f : Fault α} {kind : Kind} {id : String} {weights : SlotMap α}
  {s : AverageSettings α}

theorem collisionFaults_eq (h : Groups entering wiring) :
    (collisionFaults id wiring : List (Fault α)) = (wiring.filter fun w => 1 < w.2.length).map
      fun w => .slotCollision id w.1 ((claiming w.1 entering).map (·.id)) := by
  unfold collisionFaults
  refine List.map_congr_left fun w hw => ?_
  obtain ⟨-, heq⟩ := (h.mem_iff w.1 w.2).1 (List.mem_filter.1 hw).1
  rw [heq]

theorem arityFaults_of_source (hk : n.kind = .source) : arityFaults n wiring =
    if wiring.isEmpty then []
    else [.sourceInputs n.id (wiring.flatMap fun w => w.2.map (·.id))] := by
  obtain ⟨s, hs⟩ := Node.kind_eq_source_iff.1 hk
  unfold arityFaults
  rw [hs]

theorem arityFaults_of_sum (hk : n.kind = .addition ∨ n.kind = .max) : arityFaults n wiring =
    if wiring.isEmpty then [.noInputs n.kind n.id] else [] := by
  unfold Node.kind at hk
  unfold arityFaults
  cases hs : n.settings with
  | addition => rfl
  | max minValue => rfl
  | _ =>
    rw [hs] at hk
    rcases hk with hk | hk <;> cases hk

theorem arityFaults_of_average (hs : n.settings = .average s) :
    arityFaults n wiring = weightFaults n.id s.weights wiring := by
  unfold arityFaults
  rw [hs]

theorem arityFaults_of_hasOneSlot (hk : n.kind.HasOneSlot) :
    arityFaults n wiring = singleInputFaults n.kind n.id wiring := by
  unfold Node.kind at hk
  unfold arityFaults
  cases hs : n.settings with
  | stepper s => rfl
  | minPoints s => rfl
  | round mode => rfl
  | sink => rfl
  | _ =>
    rw [hs] at hk
    rcases hk with hk | hk | hk | hk <;> cases hk

/-- How many slots a node has decides how its wiring is looked at. -/
theorem Node.slots_cases (n : Node α) : n.kind = .source ∨ (n.kind = .addition ∨ n.kind = .max) ∨
    (∃ s, n.settings = .average s) ∨ n.kind.HasOneSlot := by
  unfold Node.kind Kind.HasOneSlot
  cases n.settings <;> simp [Settings.kind]

theorem mem_sourceFaults_iff (h : Groups entering wiring) (hk : n.kind = .source) :
    f ∈ arityFaults n wiring ↔
      entering ≠ [] ∧ f = .sourceInputs n.id ((bySlot entering).map (·.id)) := by
  rw [arityFaults_of_source hk, List.mem_ite_nil_left, h.isEmpty_iff, List.mem_singleton,
    ← List.map_flatMap, h.flat]

theorem mem_sumFaults_iff (h : Groups entering wiring) (hk : n.kind = .addition ∨ n.kind = .max) :
    f ∈ arityFaults n wiring ↔ entering = [] ∧ f = .noInputs n.kind n.id := by
  rw [arityFaults_of_sum hk, List.mem_ite_nil_right, h.isEmpty_iff, List.mem_singleton]

theorem mem_singleInputFaults_iff (h : Groups entering wiring) :
    f ∈ singleInputFaults kind id wiring ↔
      (∃ slot, claiming slot entering ≠ [] ∧ slot ≠ 0 ∧
        f = .foreignSlot kind id slot ((claiming slot entering).map (·.id))) ∨
      kind ≠ .sink ∧ claiming 0 entering = [] ∧ f = .noInput kind id := by
  unfold singleInputFaults
  rw [List.mem_append]
  refine or_congr ?foreign ?none
  case foreign =>
    rw [h.mem_map_filter_iff]
    simp only [decide_eq_true_eq]
  case none =>
    simp only [List.mem_ite_nil_right, Bool.and_eq_true, decide_eq_true_eq, h.none_iff,
      List.mem_singleton, and_assoc]

theorem mem_weightFaults_iff (h : Groups entering wiring) :
    f ∈ weightFaults id weights wiring ↔
      (∃ slot ∈ weights.slots, claiming slot entering = [] ∧ f = .unwiredWeight id slot) ∨
      ∃ slot, claiming slot entering ≠ [] ∧ slot ∉ weights.slots ∧
        f = .unweightedSlot id slot ((claiming slot entering).map (·.id)) := by
  unfold weightFaults
  rw [List.mem_append]
  refine or_congr ?unwired ?unweighted
  case unwired =>
    simp only [List.mem_map, List.mem_filter, h.none_iff, and_assoc]
    simp only [eq_comm]
  case unweighted =>
    rw [h.mem_map_filter_iff]
    simp only [Bool.not_eq_true', ← Bool.not_eq_true, SlotMap.contains_iff]

/-- The faults of a node are what does not fit it. -/
theorem mem_arityFaults_iff (h : Groups entering wiring) :
    f ∈ arityFaults n wiring ↔ Misfit n entering f := by
  constructor
  · intro hf
    rcases n.slots_cases with hk | hk | ⟨s, hs⟩ | hk
    · obtain ⟨hentered, rfl⟩ := (mem_sourceFaults_iff h hk).1 hf
      exact .sourceInputs hk hentered
    · obtain ⟨hbare, rfl⟩ := (mem_sumFaults_iff h hk).1 hf
      exact .noInputs hk hbare
    · rw [arityFaults_of_average hs, mem_weightFaults_iff h] at hf
      rcases hf with ⟨slot, hslot, hunclaimed, rfl⟩ | ⟨slot, hclaimed, hslot, rfl⟩
      · exact .unwiredWeight hs hslot hunclaimed
      · exact .unweightedSlot hs hslot hclaimed
    · rw [arityFaults_of_hasOneSlot hk, mem_singleInputFaults_iff h] at hf
      rcases hf with ⟨slot, hclaimed, hslot, rfl⟩ | ⟨hsink, hunclaimed, rfl⟩
      · exact .foreignSlot hk hslot hclaimed
      · exact .noInput hk hsink hunclaimed
  · intro hf
    cases hf with
    | sourceInputs hk hentered => exact (mem_sourceFaults_iff h hk).2 ⟨hentered, rfl⟩
    | noInputs hk hbare => exact (mem_sumFaults_iff h hk).2 ⟨hbare, rfl⟩
    | unwiredWeight hs hslot hunclaimed =>
      rw [arityFaults_of_average hs, mem_weightFaults_iff h]
      exact .inl ⟨_, hslot, hunclaimed, rfl⟩
    | unweightedSlot hs hslot hclaimed =>
      rw [arityFaults_of_average hs, mem_weightFaults_iff h]
      exact .inr ⟨_, hclaimed, hslot, rfl⟩
    | foreignSlot hk hslot hclaimed =>
      rw [arityFaults_of_hasOneSlot hk, mem_singleInputFaults_iff h]
      exact .inl ⟨_, hclaimed, hslot, rfl⟩
    | noInput hk hsink hunclaimed =>
      rw [arityFaults_of_hasOneSlot hk, mem_singleInputFaults_iff h]
      exact .inr ⟨hsink, hunclaimed, rfl⟩

theorem slots_nodup (weights : SlotMap α) : weights.slots.Nodup :=
  List.pairwise_map.2 (weights.ascending.imp UInt32.ne_of_lt)

theorem nodup_arityFaults (h : Groups entering wiring) : (arityFaults n wiring).Nodup := by
  rcases n.slots_cases with hk | hk | ⟨s, hs⟩ | hk
  · rw [arityFaults_of_source hk]
    split <;> simp
  · rw [arityFaults_of_sum hk]
    split <;> simp
  · rw [arityFaults_of_average hs]
    unfold weightFaults
    refine List.nodup_append'.2 ⟨?_, h.nodup_map_filter fun w w' heq => ?_, ?_⟩
    · refine List.Nodup.map (fun slot slot' heq => ?_) ((slots_nodup s.weights).filter _)
      exact (Fault.unwiredWeight.inj heq).2
    · exact (Fault.unweightedSlot.inj heq).2.1
    · rw [List.disjoint_left]
      intro f hf hf'
      obtain ⟨slot, -, rfl⟩ := List.mem_map.1 hf
      obtain ⟨w, -, heq⟩ := List.mem_map.1 hf'
      cases heq
  · rw [arityFaults_of_hasOneSlot hk]
    unfold singleInputFaults
    refine List.nodup_append'.2 ⟨h.nodup_map_filter fun w w' heq => ?_, ?_, ?_⟩
    · exact (Fault.foreignSlot.inj heq).2.2.1
    · split <;> simp
    · rw [List.disjoint_left]
      intro f hf hf'
      obtain ⟨w, -, rfl⟩ := List.mem_map.1 hf
      rw [List.mem_ite_nil_right, List.mem_singleton] at hf'
      cases hf'.2

theorem Misfit.nodes (h : Misfit n entering f) : f.nodes = [n.id] := by
  cases h <;> rfl

/-- An edge that ends where the node has no slot is pointed at. -/
theorem exists_misfit {e : Edge} (he : e ∈ entering) (hforeign : ¬ n.settings.Declares e.slot) :
    ∃ f, Misfit n entering f ∧ e.id ∈ f.edges := by
  have hclaims : e ∈ claiming e.slot entering := List.mem_filter.2 ⟨he, decide_eq_true rfl⟩
  have hclaimed := List.ne_nil_of_mem hclaims
  have hid : e.id ∈ (claiming e.slot entering).map (·.id) := List.mem_map_of_mem hclaims
  have hone : n.kind.HasOneSlot → ¬ e.slot = 0 → ∃ f, Misfit n entering f ∧ e.id ∈ f.edges :=
    fun hk hslot => ⟨_, .foreignSlot hk hslot hclaimed, hid⟩
  have hkind : n.kind = n.settings.kind := rfl
  cases hs : n.settings with
  | source s =>
    have hk : n.kind = .source := by rw [hkind, hs]; rfl
    refine ⟨_, .sourceInputs hk (List.ne_nil_of_mem he), List.mem_map_of_mem ?_⟩
    exact mem_sortBy.2 he
  | addition | max =>
    rw [hs] at hforeign
    exact absurd trivial hforeign
  | average s =>
    rw [hs] at hforeign
    exact ⟨_, .unweightedSlot hs hforeign hclaimed, hid⟩
  | stepper | minPoints | round | sink =>
    rw [hs] at hforeign
    exact hone (by rw [hkind, hs]; simp [Settings.kind, Kind.HasOneSlot]) hforeign

end

/-! ## All nodes -/

/-- Lists of entries with different tags have no entry in common. -/
theorem nodup_flatMap_of_tag {β γ κ : Type} {l : List β} {f : β → List γ} {key : β → κ}
    (tag : γ → κ) (hl : (l.map key).Nodup) (hf : ∀ a ∈ l, (f a).Nodup)
    (htag : ∀ a ∈ l, ∀ b ∈ f a, tag b = key a) : (l.flatMap f).Nodup := by
  rw [List.nodup_flatMap]
  refine ⟨hf, (List.pairwise_map.1 hl).imp_of_mem fun {a a'} ha ha' hne => ?_⟩
  intro b hb hb'
  exact hne ((htag a ha b hb).symm.trans (htag a' ha' b hb'))

namespace Model

variable {m : Model α} {n : Node α} {i : Nat} {id : String} {slot : Slot} {e : Edge}

theorem mem_entering : e ∈ m.entering id ↔ e ∈ m.joining ∧ e.target = id := by
  unfold entering
  rw [List.mem_filter, decide_eq_true_eq]

/-- The edges of the links into the first node of an id are those that name the id. -/
theorem groups_firstNode (hn : (n, i) ∈ m.firstNodes) :
    Groups (m.entering n.id) (Link.wiring m.links i) := by
  have hinto : Link.edgesInto m.links i = m.entering n.id := by
    rw [← links_withoutDangling]
    exact edges_into m.edgesJoinNodes_withoutDangling (mem_firstNodes.1 hn).2
  exact hinto ▸ groups_wiring m.links i

theorem node?_of_firstNode (hn : (n, i) ∈ m.firstNodes) : m.node? n.id = some n := by
  obtain ⟨hnode, hfirst⟩ := mem_firstNodes.1 hn
  exact node?_eq_some_iff.2 ⟨i, hfirst, hnode⟩

theorem exists_firstNode (hn : m.node? id = some n) : n.id = id ∧ ∃ i, (n, i) ∈ m.firstNodes := by
  obtain ⟨i, hfirst, hnode⟩ := node?_eq_some_iff.1 hn
  obtain rfl : n.id = id := by rw [← idAt_eq hnode, idAt_position? hfirst]
  exact ⟨rfl, i, mem_firstNodes.2 ⟨hnode, hfirst⟩⟩

/-- The outputs that are looked at are those of the joining edges. -/
theorem outputFaults_links (m : Model α) : (outputFaults m.links : List (Fault α)) =
    (m.joining.filter fun e => e.output ≠ 0).map fun e =>
      .foreignOutput e.id e.output e.source := by
  unfold outputFaults
  rw [← map_edge_links, List.filter_map, List.map_map]
  rfl

/-- Of a node and a slot there is one collision if and only if several edges claim the slot. -/
theorem exists_collisionFaults (m : Model α) : ∃ claims : List (String × Slot),
    (m.firstNodes.flatMap fun p => collisionFaults p.1.id (Link.wiring m.links p.2)) =
      claims.map (fun c => .slotCollision c.1 c.2 ((m.claimants c.1 c.2).map (·.id)) :
        String × Slot → Fault α) ∧
    claims.Nodup ∧ ∀ c, c ∈ claims ↔ 2 ≤ (m.claimants c.1 c.2).length := by
  refine ⟨m.firstNodes.flatMap fun p =>
    ((Link.wiring m.links p.2).filter fun w => 1 < w.2.length).map fun w => (p.1.id, w.1),
    ?eq, ?nodup, fun c => ?mem⟩
  case eq =>
    rw [List.map_flatMap]
    refine List.flatMap_congr fun p hp => ?_
    rw [collisionFaults_eq (groups_firstNode hp), List.map_map]
    rfl
  case nodup =>
    refine nodup_flatMap_of_tag Prod.fst (firstNodes_ids_nodup m) (fun p hp => ?_) ?_
    · exact (groups_firstNode hp).nodup_map_filter fun w w' heq => (Prod.mk.inj heq).2
    · intro p hp c hc
      obtain ⟨w, -, rfl⟩ := List.mem_map.1 hc
      rfl
  case mem =>
    rw [List.mem_flatMap]
    constructor
    · rintro ⟨p, hp, hc⟩
      rw [(groups_firstNode hp).mem_map_filter_iff] at hc
      obtain ⟨slot, -, hseveral, rfl⟩ := hc
      exact of_decide_eq_true hseveral
    · obtain ⟨id, slot⟩ := c
      intro (hseveral : 2 ≤ (m.claimants id slot).length)
      have hclaimed : m.claimants id slot ≠ [] := List.ne_nil_of_length_pos (by omega)
      obtain ⟨e, he, -⟩ := claiming_ne_nil_iff.1 hclaimed
      obtain ⟨hjoining, rfl⟩ := mem_entering.1 he
      have htarget : e.target ∈ m.ids := (m.edgesJoinNodes_withoutDangling e hjoining).2
      obtain ⟨i, hi⟩ := exists_position? htarget
      obtain ⟨n, hn, hid⟩ := mem_firstNodes_of_position? hi
      rw [← hid] at hseveral hclaimed ⊢
      refine ⟨(n, i), hn, (groups_firstNode hn).mem_map_filter_iff.2 ?_⟩
      exact ⟨slot, hclaimed, decide_eq_true hseveral, rfl⟩

/-- The faults of all nodes are what does not fit the node that an id means. -/
theorem mem_arityFaults_firstNodes_iff {f : Fault α} :
    f ∈ (m.firstNodes.flatMap fun p => arityFaults p.1 (Link.wiring m.links p.2)) ↔
      ∃ id n, m.node? id = some n ∧ Misfit n (m.entering id) f := by
  rw [List.mem_flatMap]
  constructor
  · rintro ⟨⟨n, i⟩, hn, hf⟩
    exact ⟨n.id, n, node?_of_firstNode hn, (mem_arityFaults_iff (groups_firstNode hn)).1 hf⟩
  · rintro ⟨id, n, hn, hf⟩
    obtain ⟨rfl, i, hi⟩ := exists_firstNode hn
    exact ⟨(n, i), hi, (mem_arityFaults_iff (groups_firstNode hi)).2 hf⟩

theorem nodup_arityFaults_firstNodes (m : Model α) :
    (m.firstNodes.flatMap fun p => arityFaults p.1 (Link.wiring m.links p.2)).Nodup := by
  have hids : (m.firstNodes.map fun p => [p.1.id]).Nodup := by
    have hinjective : Function.Injective fun id : String => [id] := fun _ _ => List.singleton_inj.1
    have h := (firstNodes_ids_nodup m).map hinjective
    rwa [List.map_map] at h
  refine nodup_flatMap_of_tag Fault.nodes hids (fun p hp => ?_) fun p hp f hf => ?_
  · exact nodup_arityFaults (groups_firstNode hp)
  · exact ((mem_arityFaults_iff (groups_firstNode hp)).1 hf).nodes

/-! ## Kinds of faults -/

theorem slotFaults_filter_collision (m : Model α) :
    ((m.slotFaults m.links).filter fun f => f.kind = .slotCollision) =
      m.firstNodes.flatMap fun p => collisionFaults p.1.id (Link.wiring m.links p.2) := by
  unfold slotFaults
  rw [List.filter_append, (outputFaults_ofKinds m.links).filter_other (by decide),
    List.nil_append, List.filter_flatMap]
  refine List.flatMap_congr fun p _ => ?_
  rw [List.filter_append, (collisionFaults_ofKinds _ _).filter_self,
    (arityFaults_ofKinds _ _).filter_other (by decide), List.append_nil]

theorem slotFaults_filter_completeness (m : Model α) :
    ((m.slotFaults m.links).filter fun f => f.kind = .slotCompleteness) =
      outputFaults m.links ++
        m.firstNodes.flatMap fun p => arityFaults p.1 (Link.wiring m.links p.2) := by
  unfold slotFaults
  rw [List.filter_append, (outputFaults_ofKinds m.links).filter_self, List.filter_flatMap]
  congr 1
  refine List.flatMap_congr fun p _ => ?_
  rw [List.filter_append, (collisionFaults_ofKinds _ _).filter_other (by decide),
    (arityFaults_ofKinds _ _).filter_self, List.nil_append]

end Model

/-- Faults of the kinds of slots come from the check of slots. -/
theorem faults_filter_slots [Number α] (m : Model α) {kind : FindingKind}
    (hkind : kind = .slotCollision ∨ kind = .slotCompleteness) :
    (m.faults.filter fun f => f.kind = kind) =
      (m.slotFaults m.links).filter fun f => f.kind = kind := by
  rw [faults_filter, (duplicateFaults_ofKinds m).filter_other,
    (danglingFaults_ofKinds m).filter_other, (sinkFaults_ofKinds m m.links).filter_other,
    (settingsFaults_ofKinds m).filter_other,
    (cycleFaults_ofKinds m m.links).filter_other,
    (reachFaults_ofKinds m (m.contributors m.links)).filter_other]
  · simp
  all_goals rcases hkind with rfl | rfl <;> decide

/-! ## Top theorem -/

/-- What the reports about slots say of the edges between nodes. -/
structure NamesSlotFaults (m : Model α) (collided incomplete : List (Fault α)) : Prop where
  /-- There is one collision for each slot that several edges claim, with these edges. -/
  collisions : ∃ claims : List (String × Slot),
    collided = claims.map (fun c =>
      .slotCollision c.1 c.2 ((m.claimants c.1 c.2).map (·.id))) ∧
    claims.Nodup ∧ ∀ c, c ∈ claims ↔ 2 ≤ (m.claimants c.1 c.2).length
  /-- There is one fault for each edge that reads an output but `0`, and one for each thing that
  does not fit the node that an id means. -/
  completeness : ∃ misfits : List (Fault α),
    incomplete = ((m.joining.filter fun e => e.output ≠ 0).map fun e =>
      .foreignOutput e.id e.output e.source) ++ misfits ∧
    misfits.Nodup ∧ ∀ f, f ∈ misfits ↔ ∃ id n, m.node? id = some n ∧ Misfit n (m.entering id) f
  /-- So an edge into a slot that its target does not declare is pointed at. -/
  exposed : ∀ e ∈ m.joining, ∀ n, m.node? e.target = some n → ¬ n.settings.Declares e.slot →
    ∃ f ∈ incomplete, e.id ∈ f.edges ∧ f.nodes = [e.target] ∧ f.isWarning = false

/-- The reports about slots are exact on every model. -/
theorem slotReports_exact [Number α] (strict : Bool) (m : Model α) :
    NamesSlotFaults m ((findings strict m).filter fun f => f.kind = .slotCollision)
      ((findings strict m).filter fun f => f.kind = .slotCompleteness) := by
  rw [findings_eq, faults_filter_slots m (.inl rfl), faults_filter_slots m (.inr rfl),
    m.slotFaults_filter_collision, m.slotFaults_filter_completeness, m.outputFaults_links]
  refine ⟨m.exists_collisionFaults, ⟨_, rfl, m.nodup_arityFaults_firstNodes,
    fun f => Model.mem_arityFaults_firstNodes_iff⟩, ?exposed⟩
  case exposed =>
    intro e he n hn hforeign
    obtain ⟨f, hf, hid⟩ := exists_misfit (Model.mem_entering.2 ⟨he, rfl⟩) hforeign
    obtain ⟨htarget, -⟩ := Model.exists_firstNode hn
    have hmem := Model.mem_arityFaults_firstNodes_iff.2 ⟨e.target, n, hn, hf⟩
    refine ⟨f, List.mem_append_right _ hmem, hid, by rw [hf.nodes, htarget], ?_⟩
    cases hf <;> rfl

/-- Of the edges into a sink three claim slots that are taken or not there. -/
example : let m : Model Unit := ⟨[⟨"sum", .addition⟩, ⟨"grade", .sink⟩],
      [Edge.join "sum" "grade" 0, Edge.join "sum" "grade" 0, Edge.join "sum" "grade" 2]⟩
    m.slotFaults m.links =
      [.noInputs .addition "sum", .slotCollision "grade" 0 ["sum-grade:0", "sum-grade:0"],
        .foreignSlot .sink "grade" 2 ["sum-grade:2"]] := by decide

end Grading
