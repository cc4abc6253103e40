import Grading.Checked
import Grading.Proofs.Circles
import Grading.Proofs.FindingKinds
import Grading.Proofs.Limits
import Grading.Proofs.NumberOrder
import Grading.Proofs.Wiring

/-!
# Which models are accepted

Faults other than warnings are the `Model.errors`, and the only warning is a node that does not
contribute.  So a model is accepted if and only if it has no errors, strictly if it has no
warnings either, and the checks together say that no errors are left exactly where the model is
well-formed.

    m.errors = [] ↔ m.WellWired ∧ m.settingsFaults = []                     (errors_eq_nil_iff)
    (∃ c, validate false m = .ok c) ↔ m.WellFormed                          (accepts_iff)
    (∃ c, validate true m = .ok c) ↔ m.WellFormed ∧ m.AllContribute         (accepts_strictly_iff)

That wiring is sound needs nothing of the numbers; that settings are needs their order.
-/

namespace Grading

variable {α : Type}

/-! ## Warnings -/

/-- None of the faults is a warning. -/
def NoWarning (faults : List (Fault α)) : Prop := ∀ f ∈ faults, f.isWarning = false

/-- Only the check of what leads to the sink finds warnings. -/
theorem OfKinds.noWarning {kinds : List FindingKind} {l : List (Fault α)} (h : OfKinds kinds l)
    (hkinds : .reachability ∉ kinds) : NoWarning l := by
  intro f hf
  have hne : f.kind ≠ .reachability := fun heq => hkinds (heq ▸ h f hf)
  unfold Fault.isWarning FindingKind.severity
  split
  · next heq => exact absurd heq hne
  · rfl

/-! ## Errors -/

namespace Model

variable {m : Model α} {i : Nat} {n : Node α}

/-- The faults that are warnings. -/
def warnings (m : Model α) : List (Fault α) := m.reachFaults (m.contributors m.links)

theorem isWarning_of_mem_warnings {f : Fault α} (h : f ∈ m.warnings) : f.isWarning = true := by
  unfold warnings reachFaults at h
  split at h
  · exact absurd h List.not_mem_nil
  · obtain ⟨id, -, rfl⟩ := List.mem_map.1 h
    rfl

theorem cycleFaults_eq_nil_iff (hm : m.EdgesJoinNodes) : m.cycleFaults m.links = [] ↔
    ∀ id, ¬ Relation.TransGen (Joined m.edges) id id := by
  unfold cycleFaults
  rw [List.map_eq_nil_iff, circles_eq_nil_iff, acyclic_iff hm]

section

variable [Number α]

/-- All faults of a model but the warnings. -/
def errors (m : Model α) : List (Fault α) :=
  m.duplicateFaults ++ m.danglingFaults ++ m.sinkFaults m.links ++ m.slotFaults m.links ++
    m.settingsFaults ++ m.cycleFaults m.links

theorem faults_eq (m : Model α) : m.faults = m.errors ++ m.warnings := rfl

theorem errors_noWarning (m : Model α) : NoWarning m.errors := by
  unfold errors
  simp only [NoWarning, List.forall_mem_append]
  exact ⟨⟨⟨⟨⟨(duplicateFaults_ofKinds m).noWarning (by decide),
    (danglingFaults_ofKinds m).noWarning (by decide)⟩,
    (sinkFaults_ofKinds m m.links).noWarning (by decide)⟩,
    (slotFaults_ofKinds m m.links).noWarning (by decide)⟩,
    (settingsFaults_ofKinds m).noWarning (by decide)⟩,
    (cycleFaults_ofKinds m m.links).noWarning (by decide)⟩

/-- The checks of wiring miss nothing and reject nothing that is well-wired. -/
theorem errors_eq_nil_iff : m.errors = [] ↔ m.WellWired ∧ m.settingsFaults = [] := by
  unfold errors
  simp only [List.append_eq_nil_iff]
  constructor
  · rintro ⟨⟨⟨⟨⟨hdup, hdang⟩, hsink⟩, hslot⟩, hset⟩, hcycle⟩
    have hd := duplicateFaults_eq_nil_iff.1 hdup
    have hm := danglingFaults_eq_nil_iff.1 hdang
    obtain ⟨houtputs, hslots, htakes⟩ := (slotFaults_eq_nil_iff hd hm).1 hslot
    obtain ⟨s, hs, e, he⟩ := (sinkFaults_eq_nil_iff hd hm).1 hsink
    refine ⟨⟨hd, hm, houtputs, hslots, ⟨s, hs, e, he, ?_⟩, htakes,
      (cycleFaults_eq_nil_iff hm).1 hcycle⟩, hset⟩
    -- The one edge into the sink leads into a slot that the sink has.
    obtain ⟨j, hj, hsj⟩ := (sink?_eq_some_iff hd).1 hs
    obtain ⟨s', hs', -, hkind⟩ := mem_sinks.1 (show j ∈ m.sinks from hj ▸ List.mem_cons_self)
    obtain rfl : s = s' := Option.some.inj (hsj.symm.trans hs')
    have hsettings : s.settings = .sink := by
      unfold Node.kind Settings.kind at hkind
      cases hset : s.settings <;> simp_all
    have htake := htakes s (List.mem_of_getElem? hsj)
    rw [hsettings] at htake
    have hmem : e ∈ m.incoming s.id := he ▸ List.mem_cons_self
    obtain ⟨hedge, htarget⟩ := List.mem_filter.1 (mem_sortBy.1 hmem)
    exact htake e.slot ⟨e, hedge, of_decide_eq_true htarget, rfl⟩
  · rintro ⟨h, hset⟩
    obtain ⟨s, hs, e, he, -⟩ := h.oneSink
    exact ⟨⟨⟨⟨⟨duplicateFaults_eq_nil_iff.2 h.distinctIds,
      danglingFaults_eq_nil_iff.2 h.edgesJoinNodes⟩,
      (sinkFaults_eq_nil_iff h.distinctIds h.edgesJoinNodes).2 ⟨s, hs, e, he⟩⟩,
      (slotFaults_eq_nil_iff h.distinctIds h.edgesJoinNodes).2
        ⟨h.outputs, h.distinctSlots, h.takes⟩⟩, hset⟩,
      (cycleFaults_eq_nil_iff h.edgesJoinNodes).2 h.acyclic⟩

theorem settingsFaults_eq_nil [OrderedNumber α] :
    m.settingsFaults = [] ↔ ∀ n ∈ m.nodes, n.settings.Sound := by
  unfold settingsFaults
  rw [List.flatMap_eq_nil_iff]
  exact forall₂_congr fun n _ => settingsFaults_eq_nil_iff

theorem wellFormed_iff [OrderedNumber α] : m.WellFormed ↔ m.errors = [] := by
  rw [errors_eq_nil_iff, settingsFaults_eq_nil]
  exact ⟨fun h => ⟨h.toWellWired, h.settings⟩, fun h => ⟨h.1, h.2⟩⟩

end

/-! ## Contributing nodes -/

/-- The sink by id is the sink by position. -/
theorem WellWired.exists_sink (h : m.WellWired) :
    ∃ s k, m.sink? = some s ∧ m.sinks = [k] ∧ m.nodes[k]? = some s := by
  obtain ⟨s, hs, -⟩ := h.oneSink
  obtain ⟨k, hk, hsk⟩ := (sink?_eq_some_iff h.distinctIds).1 hs
  exact ⟨s, k, hs, hk, hsk⟩

/-- A node contributes if and only if a path of edges leads from it to the sink. -/
theorem contributes_iff (h : m.WellWired) (hn : m.nodes[i]? = some n) :
    i ∈ m.contributors m.links ↔ m.Contributes n.id := by
  have hi := position?_of_nodup h.distinctIds hn
  obtain ⟨s, k, hs, hk, hsk⟩ := h.exists_sink
  rw [mem_contributors]
  constructor
  · rintro ⟨j, hj, hij⟩
    obtain rfl : j = k := by simpa [hk] using hj
    refine ⟨s, hs, ?_⟩
    rw [← idAt_eq hn, ← idAt_eq hsk]
    exact leads_of_feeds hij
  · rintro ⟨s', hs', hleads⟩
    obtain rfl : s = s' := Option.some.inj (hs.symm.trans hs')
    obtain ⟨j, hj, hij⟩ := feeds_of_leads h.edgesJoinNodes hi hleads
    obtain rfl : k = j :=
      Option.some.inj ((position?_of_nodup h.distinctIds hsk).symm.trans hj)
    exact ⟨k, hk ▸ List.mem_cons_self, hij⟩

/-- The warnings name the nodes that do not contribute, in ascending order. -/
theorem warnings_eq (h : m.WellWired) : ∃ ids : List String,
    m.warnings = ids.map .unreachable ∧ ids.Pairwise (· < ·) ∧
      ∀ id, id ∈ ids ↔ id ∈ m.ids ∧ ¬ m.Contributes id := by
  obtain ⟨s, k, hs, hk, -⟩ := h.exists_sink
  have hempty : m.sinks.isEmpty = false := by rw [hk]; rfl
  refine ⟨_, if_neg (by rw [hempty]; exact Bool.false_ne_true), ?_, fun id => ?_⟩
  · refine sortTexts_pairwise_lt (List.Nodup.sublist (List.filter_sublist.map _) ?_)
    refine List.Nodup.sublist (List.filter_sublist.map _) ?_
    rw [map_zipIdx_id]
    exact h.distinctIds
  · simp only [mem_sortTexts, List.mem_map, List.mem_filter, Bool.not_eq_true', ← Bool.not_eq_true,
      List.contains_iff_mem]
    constructor
    · rintro ⟨⟨n, i⟩, ⟨hn, hout⟩, rfl⟩
      have hi := (mem_firstNodes.1 hn).1
      rw [contributes_iff h hi] at hout
      exact ⟨mem_ids.2 ⟨n, List.mem_of_getElem? hi, rfl⟩, hout⟩
    · rintro ⟨hid, hout⟩
      obtain ⟨n, hn, rfl⟩ := mem_ids.1 hid
      obtain ⟨i, hi⟩ := List.getElem?_of_mem hn
      refine ⟨(n, i), ⟨mem_firstNodes.2 ⟨hi, position?_of_nodup h.distinctIds hi⟩, ?_⟩, rfl⟩
      rw [contributes_iff h hi]
      exact hout

theorem warnings_eq_nil_iff (h : m.WellWired) : m.warnings = [] ↔ m.AllContribute := by
  obtain ⟨ids, hids, -, hmem⟩ := warnings_eq h
  rw [hids, List.map_eq_nil_iff, List.eq_nil_iff_forall_not_mem]
  constructor
  · intro hnone n hn
    by_contra hout
    exact hnone n.id ((hmem n.id).2 ⟨mem_ids.2 ⟨n, hn, rfl⟩, hout⟩)
  · intro hall id hid
    obtain ⟨hnode, hout⟩ := (hmem id).1 hid
    obtain ⟨n, hn, rfl⟩ := mem_ids.1 hnode
    exact hout (hall n hn)

end Model

/-! ## Top theorems -/

section

variable [Number α] {m : Model α} {strict : Bool} {c : Checked α}

theorem any_faults : (m.faults.any fun f => strict || !f.isWarning) = false ↔
    m.errors = [] ∧ (strict = true → m.warnings = []) := by
  rw [Model.faults_eq, List.any_append, Bool.or_eq_false_iff]
  have herrors : (m.errors.any fun f => strict || !f.isWarning) = false ↔ m.errors = [] := by
    rw [List.any_eq_false, List.eq_nil_iff_forall_not_mem]
    refine forall₂_congr fun f hf => ?_
    simp [m.errors_noWarning f hf]
  have hwarnings : (m.warnings.any fun f => strict || !f.isWarning) = false ↔
      (strict = true → m.warnings = []) := by
    rw [List.any_eq_false, List.eq_nil_iff_forall_not_mem]
    constructor
    · intro h hstrict f hf
      exact h f hf (by rw [hstrict, Bool.true_or])
    · intro h f hf hany
      rw [Model.isWarning_of_mem_warnings hf] at hany
      exact h (by simpa using hany) f hf
  rw [herrors, hwarnings]

/-- One error is enough for a model to be rejected. -/
theorem validate_of_mem_errors {f : Fault α} (hf : f ∈ m.errors) :
    validate strict m = .error m.faults := by
  have hany : (m.faults.any fun f => strict || !f.isWarning) = true := by
    by_contra hnone
    rw [(any_faults.1 (Bool.eq_false_iff.2 hnone)).1] at hf
    exact List.not_mem_nil hf
  unfold validate
  exact if_pos hany

/-- What a model is accepted as, given the position of its sink. -/
def Model.accepted (m : Model α) (sink : Nat) : Checked α where
  model := m
  inputs := (List.range m.nodes.length).map (Link.inputs m.links)
  dependents := (List.range m.nodes.length).map (Link.dependents m.links)
  sink := sink
  contributors := m.contributors m.links
  warnings := m.faults

theorem validate_eq_ok_iff : validate strict m = .ok c ↔
    m.errors = [] ∧ (strict = true → m.warnings = []) ∧
      ∃ s, m.sinks = [s] ∧ c = m.accepted s := by
  unfold validate
  by_cases hany : (m.faults.any fun f => strict || !f.isWarning) = true
  · simp only [if_pos hany]
    constructor
    · exact fun h => nomatch h
    · rintro ⟨herrors, hwarnings, -⟩
      rw [any_faults.2 ⟨herrors, hwarnings⟩] at hany
      exact absurd hany Bool.false_ne_true
  · simp only [if_neg hany]
    obtain ⟨herrors, hwarnings⟩ := any_faults.1 (Bool.eq_false_iff.2 hany)
    constructor
    · intro h
      refine ⟨herrors, hwarnings, ?_⟩
      match hs : m.sinks with
      | [s] =>
        simp only [hs] at h
        exact ⟨s, rfl, (Except.ok.inj h).symm⟩
      | [] => simp [hs] at h
      | _ :: _ :: _ => simp [hs] at h
    · rintro ⟨-, -, s, hs, rfl⟩
      simp only [hs]
      rfl

theorem accepts_iff_errors : (∃ c, validate strict m = .ok c) ↔
    m.errors = [] ∧ (strict = true → m.warnings = []) := by
  constructor
  · rintro ⟨c, hc⟩
    obtain ⟨herrors, hwarnings, -⟩ := validate_eq_ok_iff.1 hc
    exact ⟨herrors, hwarnings⟩
  · rintro ⟨herrors, hwarnings⟩
    have hw := (Model.errors_eq_nil_iff.1 herrors).1
    obtain ⟨s, k, -, hk, -⟩ := hw.exists_sink
    exact ⟨m.accepted k, validate_eq_ok_iff.2 ⟨herrors, hwarnings, k, hk, rfl⟩⟩

/-- An accepted model is well-wired, whatever its numbers are. -/
theorem wellWired_of_validate (h : validate strict m = .ok c) : m.WellWired :=
  (Model.errors_eq_nil_iff.1 (validate_eq_ok_iff.1 h).1).1

/-- All that is found in an accepted model is its warnings. -/
theorem warnings_of_validate (h : validate strict m = .ok c) : c.warnings = m.warnings := by
  obtain ⟨herrors, -, s, -, rfl⟩ := validate_eq_ok_iff.1 h
  show m.errors ++ m.warnings = m.warnings
  rw [herrors, List.nil_append]

theorem accepts_iff [OrderedNumber α] : (∃ c, validate false m = .ok c) ↔ m.WellFormed := by
  rw [accepts_iff_errors, Model.wellFormed_iff]
  exact ⟨fun h => h.1, fun h => ⟨h, fun hs => absurd hs Bool.false_ne_true⟩⟩

theorem accepts_strictly_iff [OrderedNumber α] :
    (∃ c, validate true m = .ok c) ↔ m.WellFormed ∧ m.AllContribute := by
  rw [accepts_iff_errors, Model.wellFormed_iff]
  refine and_congr_right fun herrors => ?_
  rw [Model.warnings_eq_nil_iff (Model.errors_eq_nil_iff.1 herrors).1]
  exact ⟨fun h => h rfl, fun h _ => h⟩

end

/-- The models of floating-point numbers that are accepted are the well-formed ones; strictly
accepted are those in which all nodes contribute as well. -/
theorem validate_accepts_exactly_wellFormed (m : Model Float) :
    ((∃ c, validate false m = .ok c) ↔ m.WellFormed) ∧
      ((∃ c, validate true m = .ok c) ↔ m.WellFormed ∧ m.AllContribute) :=
  ⟨accepts_iff, accepts_strictly_iff⟩

end Grading
