import Grading.Model.Template
import Grading.Proofs.Acceptance
import Grading.Proofs.Classification
import Grading.Proofs.Numerals

/-!
# Wired starter models are accepted

A wired starter model is a chain: the sources lead to a node in the middle, that leads to the
stepper, and the stepper leads to the sink.  What varies is the node in the middle and the middle
points of the stepper.  Where that node takes one slot for each part (`Template.Bridges`) the ids,
edges and slots fit together and every node contributes, so sound settings are all that is left to
ask for:

    every edge leads further down → no circle of edges                    (acyclic_of_depth)
    the middle node bridges → the model is well-wired                     (wellWired_wired)
    the middle node bridges → every node contributes                      (allContribute_wired)
    its settings and those of the stepper are sound too → the model is strictly accepted, without
    findings, and requires all its sources                                (validate_wired)
-/

namespace Grading

/-- Where every edge leads further down there is no circle. -/
theorem acyclic_of_depth {edges : List Edge} (depth : String → Nat)
    (h : ∀ e ∈ edges, depth e.source < depth e.target) (id : String) :
    ¬ Relation.TransGen (Joined edges) id id := by
  intro hcircle
  have hdown : ∀ a b, Joined edges a b → depth a < depth b := by
    rintro _ _ ⟨e, he, rfl, rfl⟩
    exact h e he
  have hlt : Relation.TransGen (· < ·) (depth id) (depth id) := hcircle.lift depth hdown
  rw [Relation.transGen_eq_self] at hlt
  exact Nat.lt_irrefl _ hlt

namespace Template

variable {α : Type} {parts : List UInt32} {part : UInt32} {id : String} {slot : Slot}

/-! ## Ids and slots -/

theorem sourceId_injective : Function.Injective sourceId := by
  intro part part' h
  unfold sourceId at h
  rw [String.append_right_inj, Nat.repr_eq_ofList_toDigits, Nat.repr_eq_ofList_toDigits,
    String.ofList_inj] at h
  have hdigits := congrArg Digits.toNat h
  rwa [Digits.toNat_toDigits, Digits.toNat_toDigits, UInt32.toNat_inj] at hdigits

/-- The ids of sources begin alike. -/
theorem sourceId_ne (h : id.toList.take 7 ≠ "source-".toList) : sourceId part ≠ id := by
  rintro rfl
  refine h ?_
  unfold sourceId
  rw [String.toList_append]
  exact List.take_left' rfl

/-- There are no more parts than numbers for them. -/
theorem length_le_size (hd : parts.Nodup) : parts.length ≤ 2 ^ 32 := by
  have hle : (parts.map UInt32.toNat).length ≤ 2 ^ 32 := by
    refine length_le_of_nodup_lt (hd.map fun _ _ => UInt32.toNat_inj.1) fun i hi => ?_
    obtain ⟨part, -, rfl⟩ := List.mem_map.1 hi
    exact part.toNat_lt
  rwa [List.length_map] at hle

theorem toNat_ofNat {i count : Nat} (hi : i < count) (hcount : count ≤ 2 ^ 32) :
    (UInt32.ofNat i).toNat = i :=
  UInt32.toNat_ofNat_of_lt' (Nat.lt_of_lt_of_le hi hcount)

/-! ## Edges -/

/-- A node that can stand between the sources and the stepper: it has an id of its own, is neither
a source nor the sink, and takes one slot for each part. -/
structure Bridges (id : String) (middle : Settings α) (parts : List UInt32) : Prop where
  id_ne_sink : id ≠ sinkId
  id_ne_stepper : id ≠ stepperId
  id_ne_source : ∀ part, sourceId part ≠ id
  kind_ne_source : middle.kind ≠ .source
  kind_ne_sink : middle.kind ≠ .sink
  distinct : parts.Nodup
  takes : middle.Takes fun slot => slot.toNat < parts.length

/-- The edges from the sources. -/
def sourceEdges (id : String) (parts : List UInt32) : List Edge :=
  parts.zipIdx.map fun p => Edge.join (sourceId p.1) id (UInt32.ofNat p.2)

theorem mem_sourceEdges {e : Edge} : e ∈ sourceEdges id parts ↔
    ∃ part i, parts[i]? = some part ∧ e = Edge.join (sourceId part) id (UInt32.ofNat i) := by
  unfold sourceEdges
  rw [List.mem_map]
  constructor
  · rintro ⟨⟨part, i⟩, hp, rfl⟩
    exact ⟨part, i, List.mk_mem_zipIdx_iff_getElem?.1 hp, rfl⟩
  · rintro ⟨part, i, hp, rfl⟩
    exact ⟨(part, i), List.mk_mem_zipIdx_iff_getElem?.2 hp, rfl⟩

/-- The parts are numbered in their order. -/
theorem sourceEdges_ascending (hd : parts.Nodup) :
    (sourceEdges id parts).Pairwise fun e f => e.slot < f.slot := by
  have hpositions : (parts.zipIdx.map (·.2)).Pairwise (· < ·) := by
    rw [List.zipIdx_map_snd]
    exact List.pairwise_lt_range'
  have hlength := length_le_size hd
  unfold sourceEdges
  rw [List.pairwise_map]
  refine (List.pairwise_map.1 hpositions).imp_of_mem ?_
  rintro ⟨part, i⟩ ⟨part', j⟩ hi hj hij
  have hi := (List.getElem?_eq_some_iff.1 (List.mk_mem_zipIdx_iff_getElem?.1 hi)).1
  have hj := (List.getElem?_eq_some_iff.1 (List.mk_mem_zipIdx_iff_getElem?.1 hj)).1
  show UInt32.ofNat i < UInt32.ofNat j
  rwa [UInt32.lt_iff_toNat_lt, toNat_ofNat hi hlength, toNat_ofNat hj hlength]

/-- The edges from the sources all lead to the middle node. -/
theorem target_of_mem_sourceEdges {e : Edge} (he : e ∈ sourceEdges id parts) : e.target = id := by
  obtain ⟨part, i, -, rfl⟩ := mem_sourceEdges.1 he
  rfl

theorem map_source_sourceEdges (id : String) (parts : List UInt32) :
    (sourceEdges id parts).map (·.source) = parts.map sourceId := by
  have hparts : (parts.zipIdx.map Prod.fst).map sourceId = parts.map sourceId := by
    rw [List.zipIdx_map_fst]
  rw [List.map_map] at hparts
  unfold sourceEdges
  rwa [List.map_map]

section

variable [Number α]

/-- The settings of the stepper. -/
def stepper (breakpoints : List α) : StepperSettings α where
  steps := UInt32.ofNat gradeSteps
  outputs := (List.range gradeSteps).map fun grade => .value (Number.ofNat grade)
  middlePoints := breakpoints

variable {middle : Settings α} {breakpoints : List α} (h : Bridges id middle parts)

theorem edges_wired : (wired id middle breakpoints parts).edges =
    sourceEdges id parts ++ [Edge.join id stepperId 0, Edge.join stepperId sinkId 0] := rfl

theorem mem_edges_wired {e : Edge} : e ∈ (wired id middle breakpoints parts).edges ↔
    e ∈ sourceEdges id parts ∨ e = Edge.join id stepperId 0 ∨ e = Edge.join stepperId sinkId 0 := by
  rw [edges_wired, List.mem_append, List.mem_cons, List.mem_singleton]

theorem mem_nodes_wired {n : Node α} : n ∈ (wired id middle breakpoints parts).nodes ↔
    n = ⟨sinkId, .sink⟩ ∨ (∃ part ∈ parts, n = ⟨sourceId part, .source {}⟩) ∨
      n = ⟨id, middle⟩ ∨ n = ⟨stepperId, .stepper (stepper breakpoints)⟩ := by
  show n ∈ ends parts ++ [⟨id, middle⟩, ⟨stepperId, .stepper (stepper breakpoints)⟩] ↔ _
  unfold ends
  simp only [List.cons_append, List.mem_cons, List.mem_append, List.mem_map, List.not_mem_nil,
    or_false, eq_comm]

theorem ids_wired : (wired id middle breakpoints parts).ids =
    sinkId :: (parts.map sourceId ++ [id, stepperId]) := by
  show (ends parts ++ [_, _]).map _ = _
  unfold ends
  rw [List.map_append, List.map_cons, List.map_map]
  rfl

/-! ## Wiring -/

include h in
theorem wired_iff {target : String} : (wired id middle breakpoints parts).Wired target slot ↔
    target = id ∧ slot.toNat < parts.length ∨ target = stepperId ∧ slot = 0 ∨
      target = sinkId ∧ slot = 0 := by
  unfold Model.Wired
  simp only [mem_edges_wired]
  constructor
  · rintro ⟨e, he | rfl | rfl, rfl, rfl⟩
    · obtain ⟨part, i, hp, rfl⟩ := mem_sourceEdges.1 he
      obtain ⟨hi, -⟩ := List.getElem?_eq_some_iff.1 hp
      refine .inl ⟨rfl, ?_⟩
      show (UInt32.ofNat i).toNat < parts.length
      rwa [toNat_ofNat hi (length_le_size h.distinct)]
    · exact .inr (.inl ⟨rfl, rfl⟩)
    · exact .inr (.inr ⟨rfl, rfl⟩)
  · rintro (⟨rfl, hslot⟩ | ⟨rfl, rfl⟩ | ⟨rfl, rfl⟩)
    · refine ⟨Edge.join (sourceId parts[slot.toNat]) target slot, .inl ?_, rfl, rfl⟩
      refine mem_sourceEdges.2 ⟨_, slot.toNat, List.getElem?_eq_getElem hslot, ?_⟩
      rw [UInt32.ofNat_toNat]
    · exact ⟨_, .inr (.inl rfl), rfl, rfl⟩
    · exact ⟨_, .inr (.inr rfl), rfl, rfl⟩

theorem stepperId_ne_sinkId : stepperId ≠ sinkId := by decide

theorem sourceId_ne_sinkId : sourceId part ≠ sinkId := sourceId_ne (by decide)

theorem sourceId_ne_stepperId : sourceId part ≠ stepperId := sourceId_ne (by decide)

include h in
theorem ids_nodup : (wired id middle breakpoints parts).ids.Nodup := by
  rw [ids_wired, List.nodup_cons, List.nodup_append]
  refine ⟨?_, h.distinct.map sourceId_injective, ?_, ?_⟩
  · simp [h.id_ne_sink.symm, stepperId_ne_sinkId.symm, sourceId_ne_sinkId]
  · simp [h.id_ne_stepper]
  · simp [h.id_ne_source, sourceId_ne_stepperId]

include h in
theorem distinctSlots_wired :
    ((wired id middle breakpoints parts).edges.map fun e => (e.target, e.slot)).Nodup := by
  have hsources : ((sourceEdges id parts).map fun e => (e.target, e.slot)).Nodup :=
    List.pairwise_map.2 ((sourceEdges_ascending h.distinct).imp fun hlt heq =>
      UInt32.ne_of_lt hlt (congrArg Prod.snd heq))
  rw [edges_wired, List.map_append, List.nodup_append]
  refine ⟨hsources, ?_, ?_⟩
  · simp [Edge.join, stepperId_ne_sinkId]
  intro a ha b hb
  obtain ⟨e, he, rfl⟩ := List.mem_map.1 ha
  rw [target_of_mem_sourceEdges he]
  rintro rfl
  simp [Edge.join, h.id_ne_sink, h.id_ne_stepper] at hb

/-- How far down the chain a node stands. -/
def depth (middleId id : String) : Nat :=
  if id = sinkId then 3 else if id = stepperId then 2 else if id = middleId then 1 else 0

include h in
theorem depth_lt {e : Edge} (he : e ∈ (wired id middle breakpoints parts).edges) :
    depth id e.source < depth id e.target := by
  rcases mem_edges_wired.1 he with he | rfl | rfl
  · obtain ⟨part, i, -, rfl⟩ := mem_sourceEdges.1 he
    simp [depth, Edge.join, sourceId_ne_sinkId, sourceId_ne_stepperId, h.id_ne_source,
      h.id_ne_sink, h.id_ne_stepper]
  · simp [depth, Edge.join, h.id_ne_sink, h.id_ne_stepper, stepperId_ne_sinkId]
  · simp [depth, Edge.join, stepperId_ne_sinkId]

include h in
theorem sink?_wired : (wired id middle breakpoints parts).sink? = some ⟨sinkId, .sink⟩ := by
  let others : List (Node α) := parts.map (fun part => ⟨sourceId part, .source {}⟩) ++
    [⟨id, middle⟩, ⟨stepperId, .stepper (stepper breakpoints)⟩]
  have hothers : ∀ n ∈ others, ¬ n.kind = .sink := by
    rw [List.forall_mem_append, List.forall_mem_map]
    refine ⟨fun _ _ hk => (nomatch hk), ?_⟩
    simp only [List.forall_mem_cons]
    exact ⟨h.kind_ne_sink, fun hk => (nomatch hk), fun _ hn => nomatch hn⟩
  have hsinks : (wired id middle breakpoints parts).nodes.filter (fun n => n.kind = .sink) =
      [⟨sinkId, .sink⟩] := by
    show (⟨sinkId, .sink⟩ :: others).filter _ = _
    have hnone : others.filter (fun n => n.kind = .sink) = [] :=
      List.filter_eq_nil_iff.2 fun n hn => by simpa using hothers n hn
    rw [List.filter_cons_of_pos rfl, hnone]
  unfold Model.sink?
  rw [hsinks]

/-- The edges that lead to a node other than the middle one. -/
theorem filter_edges_wired {target : String} (htarget : target ≠ id) :
    ((wired id middle breakpoints parts).edges.filter fun e => e.target = target) =
      [Edge.join id stepperId 0, Edge.join stepperId sinkId 0].filter
        fun e => e.target = target := by
  have hsources : (sourceEdges id parts).filter (fun e => e.target = target) = [] := by
    rw [List.filter_eq_nil_iff]
    intro e he
    rw [target_of_mem_sourceEdges he]
    simpa using htarget.symm
  rw [edges_wired, List.filter_append, hsources, List.nil_append]

include h in
theorem incoming_sink : (wired id middle breakpoints parts).incoming sinkId =
    [Edge.join stepperId sinkId 0] := by
  unfold Model.incoming
  rw [filter_edges_wired h.id_ne_sink.symm]
  rfl

include h in
theorem incoming_stepper : (wired id middle breakpoints parts).incoming stepperId =
    [Edge.join id stepperId 0] := by
  unfold Model.incoming
  rw [filter_edges_wired h.id_ne_stepper.symm]
  rfl

include h in
/-- The sources come in by slot, in the order of the parts. -/
theorem incoming_middle :
    (wired id middle breakpoints parts).incoming id = sourceEdges id parts := by
  have hsources :
      (sourceEdges id parts).filter (fun e => e.target = id) = sourceEdges id parts := by
    rw [List.filter_eq_self]
    exact fun e he => decide_eq_true (target_of_mem_sourceEdges he)
  have hothers : [Edge.join id stepperId 0, Edge.join stepperId sinkId 0].filter
      (fun e => e.target = id) = [] := by
    simp [Edge.join, h.id_ne_sink.symm, h.id_ne_stepper.symm]
  unfold Model.incoming
  rw [edges_wired, List.filter_append, hsources, hothers, List.append_nil]
  exact sortBy_eq_self ((sourceEdges_ascending h.distinct).imp fun hlt => by simp [hlt])

include h in
/-- Ids, edges and slots fit together, whatever the numbers in the settings are. -/
theorem wellWired_wired : (wired id middle breakpoints parts).WellWired where
  distinctIds := ids_nodup h
  edgesJoinNodes := by
    intro e he
    rw [ids_wired]
    rcases mem_edges_wired.1 he with he | rfl | rfl
    · obtain ⟨part, i, hp, rfl⟩ := mem_sourceEdges.1 he
      have hmem := List.mem_map_of_mem (f := sourceId) (List.mem_of_getElem? hp)
      simp [Edge.join, List.mem_map.1 hmem]
    · simp [Edge.join]
    · simp [Edge.join]
  outputs := by
    intro e he
    rcases mem_edges_wired.1 he with he | rfl | rfl
    · obtain ⟨part, i, -, rfl⟩ := mem_sourceEdges.1 he
      rfl
    · rfl
    · rfl
  distinctSlots := distinctSlots_wired h
  oneSink := ⟨_, sink?_wired h, _, incoming_sink h, rfl⟩
  takes := by
    intro n hn
    have hwired : (wired id middle breakpoints parts).Wired n.id = fun slot =>
        n.id = id ∧ slot.toNat < parts.length ∨ n.id = stepperId ∧ slot = 0 ∨
          n.id = sinkId ∧ slot = 0 := funext fun slot => propext (wired_iff h)
    rw [hwired]
    rcases mem_nodes_wired.1 hn with rfl | ⟨part, -, rfl⟩ | rfl | rfl
    · simp [Settings.Takes, h.id_ne_sink.symm, stepperId_ne_sinkId.symm]
    · simp [Settings.Takes, h.id_ne_source, sourceId_ne_sinkId, sourceId_ne_stepperId]
    · simpa [h.id_ne_sink, h.id_ne_stepper] using h.takes
    · simp [Settings.Takes, h.id_ne_stepper.symm, stepperId_ne_sinkId]
  acyclic := acyclic_of_depth (depth id) fun _ => depth_lt h

/-! ## Paths to the sink -/

include h in
/-- The chain leads from every node to the sink. -/
theorem allContribute_wired : (wired id middle breakpoints parts).AllContribute := by
  have hjoined : ∀ e ∈ (wired id middle breakpoints parts).edges,
      Joined (wired id middle breakpoints parts).edges e.source e.target :=
    fun e he => ⟨e, he, rfl, rfl⟩
  have hstepper : Leads (wired id middle breakpoints parts).edges stepperId sinkId :=
    .single (hjoined _ (mem_edges_wired.2 (.inr (.inr rfl))))
  have hmiddle : Leads (wired id middle breakpoints parts).edges id sinkId :=
    .head (hjoined _ (mem_edges_wired.2 (.inr (.inl rfl)))) hstepper
  have hsource : ∀ part ∈ parts,
      Leads (wired id middle breakpoints parts).edges (sourceId part) sinkId := by
    intro part hpart
    obtain ⟨i, hi⟩ := List.getElem?_of_mem hpart
    have hedge : Edge.join (sourceId part) id (.ofNat i) ∈ sourceEdges id parts :=
      mem_sourceEdges.2 ⟨part, i, hi, rfl⟩
    exact .head (hjoined _ (mem_edges_wired.2 (.inl hedge))) hmiddle
  intro n hn
  refine ⟨_, sink?_wired h, ?_⟩
  rcases mem_nodes_wired.1 hn with rfl | ⟨part, hpart, rfl⟩ | rfl | rfl
  · exact .refl
  · exact hsource part hpart
  · exact hmiddle
  · exact hstepper

include h in
theorem mem_requiredSources_wired {c : Checked α} (hc : c.Faithful)
    (hmodel : c.model = wired id middle breakpoints parts) {source : String} :
    source ∈ c.requiredSources ↔ source ∈ parts.map sourceId := by
  rw [mem_requiredSources hc, hmodel, List.mem_map]
  constructor
  · rintro ⟨n, hn, rfl, hk, -⟩
    rcases mem_nodes_wired.1 hn with rfl | ⟨part, hpart, rfl⟩ | rfl | rfl
    · exact nomatch hk
    · exact ⟨part, hpart, rfl⟩
    · exact absurd hk h.kind_ne_source
    · exact nomatch hk
  · rintro ⟨part, hpart, rfl⟩
    have hn : (⟨sourceId part, .source {}⟩ : Node α) ∈
        (wired id middle breakpoints parts).nodes :=
      mem_nodes_wired.2 (.inr (.inl ⟨part, hpart, rfl⟩))
    exact ⟨_, hn, rfl, rfl, allContribute_wired h _ hn⟩

/-! ## Acceptance -/

theorem stepper_sound (hlength : breakpoints.length = gradeSteps - 1)
    (hfinite : ∀ p ∈ breakpoints, Number.isFinite p = true)
    (hascending : breakpoints.Pairwise fun p q => Number.lt p q = true)
    (hgrades : ∀ grade < gradeSteps, Number.isFinite (Number.ofNat grade : α) = true) :
    (stepper breakpoints).Sound where
  steps := (by decide : 1 ≤ (UInt32.ofNat gradeSteps).toNat)
  outputs := by
    show ((List.range gradeSteps).map _).length = _
    rw [List.length_map, List.length_range]
    rfl
  middlePoints := hlength
  middleFinite := hfinite
  ascending := hascending
  outputsFinite := by
    intro x hx
    obtain ⟨grade, hgrade, hvalue⟩ := List.mem_map.1 hx
    obtain rfl := StepOutput.value.inj hvalue
    exact hgrades grade (List.mem_range.1 hgrade)

variable [OrderedNumber α]

/-- A wired starter model with sound settings is accepted strictly, nothing at all is found in it,
and it requires all its sources. -/
theorem validate_wired (h : Bridges id middle parts) (hmiddle : middle.Sound)
    (hstepper : (stepper breakpoints).Sound) :
    ∃ c, validate true (wired id middle breakpoints parts) = .ok c ∧ c.warnings = [] ∧
      c.requiredSources = sortTexts (parts.map sourceId) := by
  have hw : (wired id middle breakpoints parts).WellWired := wellWired_wired h
  have hsettings : ∀ n ∈ (wired id middle breakpoints parts).nodes, n.settings.Sound := by
    intro n hn
    rcases mem_nodes_wired.1 hn with rfl | ⟨part, -, rfl⟩ | rfl | rfl
    · trivial
    · exact fun x hx => nomatch hx
    · exact hmiddle
    · exact hstepper
  obtain ⟨c, hc⟩ := accepts_strictly_iff.2 ⟨⟨hw, hsettings⟩, allContribute_wired h⟩
  obtain ⟨hfaithful, hmodel⟩ := faithful_of_validate hc
  refine ⟨c, hc, ?_, ?_⟩
  · rw [warnings_of_validate hc, Model.warnings_eq_nil_iff hw]
    exact allContribute_wired h
  · refine (requiredSources_ascending hfaithful).eq_of_mem_iff
      (sortTexts_pairwise_lt (h.distinct.map sourceId_injective)) fun source => ?_
    rw [mem_requiredSources_wired h hfaithful hmodel, mem_sortTexts]

end

end Template
end Grading
