import Grading.Proofs.Acceptance

/-!
# The shape of a model

The checks of wiring look at less than the whole model: at the id and the type of every node, at
the slots that have a weight, and at the edges; and at none of it do they ask what comes first in a
list.  Two models with the same shape, in whatever order it is listed, are therefore well-wired
together, and the same nodes contribute in both:

    m.SameShape m' → m.WellWired → m'.WellWired                  (SameShape.wellWired)
    m.SameShape m' → (m.Contributes id ↔ m'.Contributes id)  (SameShape.contributes)
    m.SameShape m' → m.WellWired → m.warnings = m'.warnings       (SameShape.warnings)

So acceptance carries over if the absence of faults in the settings does (`SameShape.accepts`).
-/

namespace Grading

variable {α : Type}

/-! ## Nodes -/

/-- The slots that have a weight. -/
def Settings.weightedSlots : Settings α → List Slot
  | .average s => s.weights.slots
  | _ => []

/-- All that the checks of wiring see of a node. -/
def Node.shape (n : Node α) : String × Kind × List Slot := (n.id, n.kind, n.settings.weightedSlots)

/-- Which slots may be wired, by the type of the node and the slots that have a weight. -/
def Kind.Takes (kind : Kind) (weighted : List Slot) (wired : Slot → Prop) : Prop :=
  match kind with
  | .source => ∀ slot, ¬ wired slot
  | .addition => ∃ slot, wired slot
  | .max => ∃ slot, wired slot
  | .average => ∀ slot, wired slot ↔ slot ∈ weighted
  | .stepper => ∀ slot, wired slot ↔ slot = 0
  | .minPoints => ∀ slot, wired slot ↔ slot = 0
  | .round => ∀ slot, wired slot ↔ slot = 0
  | .sink => ∀ slot, wired slot → slot = 0

theorem takes_iff_kind {s : Settings α} {wired : Slot → Prop} :
    s.Takes wired ↔ s.kind.Takes s.weightedSlots wired := by
  cases s <;> exact Iff.rfl

theorem takes_of_shape {n n' : Node α} {wired : Slot → Prop} (h : n.shape = n'.shape) :
    n.settings.Takes wired ↔ n'.settings.Takes wired := by
  obtain ⟨-, hkind, hslots⟩ : n.id = n'.id ∧ n.settings.kind = n'.settings.kind ∧
      n.settings.weightedSlots = n'.settings.weightedSlots := by
    simpa [Node.shape, Node.kind] using h
  rw [takes_iff_kind, takes_iff_kind, hkind, hslots]

/-! ## Models -/

/-- The same shapes of nodes and the same edges, each in any order. -/
structure Model.SameShape (m m' : Model α) : Prop where
  nodes : (m.nodes.map Node.shape).Perm (m'.nodes.map Node.shape)
  edges : m.edges.Perm m'.edges

namespace Model.SameShape

variable {m m' : Model α} {n : Node α} {id : String}

theorem symm (h : m.SameShape m') : m'.SameShape m := ⟨h.nodes.symm, h.edges.symm⟩

theorem ids (h : m.SameShape m') : m.ids.Perm m'.ids := by
  have hids := h.nodes.map Prod.fst
  rwa [List.map_map, List.map_map] at hids

theorem exists_node (h : m.SameShape m') (hn : n ∈ m.nodes) :
    ∃ n' ∈ m'.nodes, n'.shape = n.shape :=
  List.mem_map.1 (h.nodes.mem_iff.1 (List.mem_map_of_mem hn))

theorem wired (h : m.SameShape m') : m.Wired id = m'.Wired id := by
  funext slot
  unfold Wired
  simp only [h.edges.mem_iff]

theorem joined (h : m.SameShape m') : Joined m.edges = Joined m'.edges := by
  funext a b
  unfold Joined
  simp only [h.edges.mem_iff]

theorem leads (h : m.SameShape m') : Leads m.edges = Leads m'.edges := by
  unfold Leads
  rw [h.joined]

/-- The one sink of the one model looks like that of the other. -/
theorem sink? (h : m.SameShape m') {s : Node α} (hs : m.sink? = some s) :
    ∃ s', m'.sink? = some s' ∧ s'.shape = s.shape := by
  have hsinks := h.nodes.filter fun p => p.2.1 = .sink
  rw [List.filter_map, List.filter_map] at hsinks
  change ((m.nodes.filter fun n => n.kind = .sink).map Node.shape).Perm
    ((m'.nodes.filter fun n => n.kind = .sink).map Node.shape) at hsinks
  have hone : (m.nodes.filter fun n => n.kind = .sink) = [s] := by
    unfold Model.sink? at hs
    split at hs
    · next s' heq =>
      rw [heq, Option.some.inj hs]
    · exact nomatch hs
  rw [hone, List.map_singleton] at hsinks
  obtain ⟨s', hs', hshape⟩ := List.map_eq_singleton_iff.1 (List.perm_singleton.1 hsinks.symm)
  refine ⟨s', ?_, hshape⟩
  unfold Model.sink?
  rw [hs']

theorem incoming (h : m.SameShape m') (id : String) : (m.incoming id).Perm (m'.incoming id) :=
  (sortBy_perm _ _).trans ((h.edges.filter _).trans (sortBy_perm _ _).symm)

/-- Whether a model is well-wired is a matter of its shape. -/
theorem wellWired (h : m.SameShape m') (hm : m.WellWired) : m'.WellWired where
  distinctIds := h.ids.nodup_iff.1 hm.distinctIds
  edgesJoinNodes e he := by
    obtain ⟨hs, ht⟩ := hm.edgesJoinNodes e (h.edges.mem_iff.2 he)
    exact ⟨h.ids.mem_iff.1 hs, h.ids.mem_iff.1 ht⟩
  outputs e he := hm.outputs e (h.edges.mem_iff.2 he)
  distinctSlots := (h.edges.map _).nodup_iff.1 hm.distinctSlots
  oneSink := by
    obtain ⟨s, hs, e, he, hslot⟩ := hm.oneSink
    obtain ⟨s', hs', hshape⟩ := h.sink? hs
    have hid : s'.id = s.id := congrArg Prod.fst hshape
    refine ⟨s', hs', e, ?_, hslot⟩
    rw [hid]
    exact List.perm_singleton.1 (he ▸ (h.incoming s.id).symm)
  takes n' hn' := by
    obtain ⟨n, hn, hshape⟩ := h.symm.exists_node hn'
    have hid : n.id = n'.id := congrArg Prod.fst hshape
    rw [← takes_of_shape hshape, ← h.wired, ← hid]
    exact hm.takes n hn
  acyclic := h.joined ▸ hm.acyclic

theorem contributes_mono (h : m.SameShape m') (hid : m.Contributes id) : m'.Contributes id := by
  obtain ⟨s, hs, hleads⟩ := hid
  obtain ⟨s', hs', hshape⟩ := h.sink? hs
  refine ⟨s', hs', ?_⟩
  rw [← h.leads, show s'.id = s.id from congrArg Prod.fst hshape]
  exact hleads

theorem contributes (h : m.SameShape m') : m.Contributes id ↔ m'.Contributes id :=
  ⟨h.contributes_mono, h.symm.contributes_mono⟩

theorem allContribute (h : m.SameShape m') (hm : m.AllContribute) : m'.AllContribute := by
  intro n' hn'
  obtain ⟨n, hn, hshape⟩ := h.symm.exists_node hn'
  rw [← show n.id = n'.id from congrArg Prod.fst hshape, ← h.contributes]
  exact hm n hn

/-- The warnings name the same nodes in the same order. -/
theorem warnings (h : m.SameShape m') (hm : m.WellWired) : m.warnings = m'.warnings := by
  obtain ⟨ids, hids, hsorted, hmem⟩ := warnings_eq hm
  obtain ⟨ids', hids', hsorted', hmem'⟩ := warnings_eq (h.wellWired hm)
  have heq : ids = ids' := hsorted.eq_of_mem_iff hsorted' fun id => by
    rw [hmem, hmem', h.ids.mem_iff, h.contributes]
  rw [hids, hids', heq]

/-- A model of the shape of an accepted one is accepted if nothing is wrong with its settings. -/
theorem accepts [Number α] {strict : Bool} (h : m.SameShape m')
    (hsettings : m.settingsFaults = [] → m'.settingsFaults = [])
    (hm : ∃ c, validate strict m = .ok c) : ∃ c, validate strict m' = .ok c := by
  rw [accepts_iff_errors, errors_eq_nil_iff] at hm ⊢
  obtain ⟨⟨hw, hset⟩, hwarnings⟩ := hm
  have hw' := h.wellWired hw
  refine ⟨⟨hw', hsettings hset⟩, fun hstrict => ?_⟩
  rw [warnings_eq_nil_iff hw']
  exact h.allContribute ((warnings_eq_nil_iff hw).1 (hwarnings hstrict))

end Model.SameShape

end Grading
