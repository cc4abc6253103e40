import Grading.Proofs.CircleReports
import Grading.Proofs.Classification

/-!
# What is reported about nodes that lead nowhere

For every model, whether it is accepted or not, the faults of the kind of reachability tell the
ids from which no path leads to a sink.  As in the reports about circles, an edge counts if both
its ends are ids of nodes (`Model.joining`), and an id means the first node that has it.

    i contributes ↔ a path of joining edges leads from its id to a sink     (mem_contributors_iff)
    without a sink nothing is reported                            (reachFaults_of_not_isSink)
    with a sink one fault for each id without a path, least id first       (reachFaults_of_isSink)

The search behind the reports ends on every model because its queue runs empty, and it queues every
node once at most (`contributors_drain`).  In an accepted model the same search gives the required
sources, those with a path to the one sink (`reachability_is_paths`).
-/

namespace Grading

variable {α : Type}

namespace Model

variable {m : Model α} {i : Nat} {id : String}

/-! ## Sinks and paths by id -/

/-- The id means a sink. -/
def IsSink (m : Model α) (id : String) : Prop := ∃ s, m.node? id = some s ∧ s.kind = .sink

/-- A path of edges between nodes leads from the id to a sink; it may be empty. -/
def ReachesSink (m : Model α) (id : String) : Prop :=
  ∃ sink, m.IsSink sink ∧ Leads m.joining id sink

theorem mem_sinks_iff (hi : m.position? id = some i) : i ∈ m.sinks ↔ m.IsSink id := by
  rw [mem_sinks]
  constructor
  · rintro ⟨n, hn, -, hk⟩
    exact ⟨n, node?_eq_some_iff.2 ⟨i, hi, hn⟩, hk⟩
  · rintro ⟨n, hn, hk⟩
    obtain ⟨j, hj, hnode⟩ := node?_eq_some_iff.1 hn
    obtain rfl : i = j := Option.some.inj (hi.symm.trans hj)
    have hid : n.id = id := by rw [← idAt_eq hnode, idAt_position? hi]
    exact ⟨n, hnode, by rw [hid, hi], hk⟩

theorem isSink_iff : m.IsSink id ↔ ∃ i ∈ m.sinks, m.position? id = some i := by
  constructor
  · rintro ⟨n, hn, hk⟩
    obtain ⟨i, hi, -⟩ := node?_eq_some_iff.1 hn
    exact ⟨i, (mem_sinks_iff hi).2 ⟨n, hn, hk⟩, hi⟩
  · rintro ⟨i, hs, hi⟩
    exact (mem_sinks_iff hi).1 hs

theorem sinks_eq_nil_iff : m.sinks = [] ↔ ∀ id, ¬ m.IsSink id := by
  rw [List.eq_nil_iff_forall_not_mem]
  constructor
  · intro h id hid
    obtain ⟨i, hs, -⟩ := isSink_iff.1 hid
    exact h i hs
  · intro h i hi
    obtain ⟨n, -, hfirst, -⟩ := mem_sinks.1 hi
    exact h n.id (isSink_iff.2 ⟨i, hi, hfirst⟩)

/-- Between nodes that exist, a path of links is a path of joining edges. -/
theorem leads_joining_of_feeds {j : Nat} (h : Relation.ReflTransGen (Feeds m.links) i j) :
    Leads m.joining (m.idAt i) (m.idAt j) :=
  h.lift m.idAt fun _ _ => joined_joining_of_feeds

theorem feeds_of_leads_joining {id' : String} (hi : m.position? id = some i)
    (h : Leads m.joining id id') :
    ∃ j, m.position? id' = some j ∧ Relation.ReflTransGen (Feeds m.links) i j := by
  rw [← links_withoutDangling]
  exact feeds_of_leads m.edgesJoinNodes_withoutDangling hi h

/-- The first node of an id contributes if and only if a path leads from the id to a sink. -/
theorem mem_contributors_iff (hi : m.position? id = some i) :
    i ∈ m.contributors m.links ↔ m.ReachesSink id := by
  rw [mem_contributors]
  constructor
  · rintro ⟨k, hk, hpath⟩
    obtain ⟨n, hn, hfirst, -⟩ := mem_sinks.1 hk
    have hleads := leads_joining_of_feeds hpath
    rw [idAt_position? hi, idAt_position? hfirst] at hleads
    exact ⟨n.id, (mem_sinks_iff hfirst).1 hk, hleads⟩
  · rintro ⟨sink, hsink, hleads⟩
    obtain ⟨k, hk, hpath⟩ := feeds_of_leads_joining hi hleads
    exact ⟨k, (mem_sinks_iff hk).2 hsink, hpath⟩

/-! ## Ids without a path -/

theorem mem_firstNodes_of_position? (hi : m.position? id = some i) :
    ∃ n, (n, i) ∈ m.firstNodes ∧ n.id = id := by
  obtain ⟨n, hn, hid, -⟩ := position?_eq_some.1 hi
  exact ⟨n, mem_firstNodes.2 ⟨hn, by rw [hid, hi]⟩, hid⟩

/-- No two nodes are the first of one id. -/
theorem firstNodes_ids_nodup (m : Model α) : (m.firstNodes.map (·.1.id)).Nodup := by
  have hpositions : m.firstNodes.Nodup := by
    refine List.Nodup.filter _ (List.Nodup.of_map (·.2) ?_)
    rw [List.zipIdx_map_snd]
    exact List.nodup_range'
  refine hpositions.map_on ?_
  rintro ⟨n, i⟩ hn ⟨n', i'⟩ hn' hid
  obtain ⟨hnode, hfirst⟩ := mem_firstNodes.1 hn
  obtain ⟨hnode', hfirst'⟩ := mem_firstNodes.1 hn'
  have hid : n.id = n'.id := hid
  rw [hid, hfirst'] at hfirst
  obtain rfl := Option.some.inj hfirst
  rw [hnode] at hnode'
  rw [Option.some.inj hnode']

theorem reachFaults_of_not_isSink (h : ∀ id, ¬ m.IsSink id) :
    m.reachFaults (m.contributors m.links) = [] := by
  unfold reachFaults
  rw [sinks_eq_nil_iff.2 h]
  rfl

/-- With a sink, the ids of nodes without a path to one are named in ascending order. -/
theorem reachFaults_of_isSink (h : m.IsSink id) : ∃ ids : List String,
    m.reachFaults (m.contributors m.links) = ids.map .unreachable ∧ ids.Pairwise (· < ·) ∧
      ∀ id, id ∈ ids ↔ id ∈ m.ids ∧ ¬ m.ReachesSink id := by
  have hsinks : ¬ m.sinks.isEmpty = true := by
    rw [List.isEmpty_iff, sinks_eq_nil_iff]
    exact fun hnone => hnone id h
  refine ⟨_, if_neg hsinks, ?_, fun id => ?_⟩
  · exact sortTexts_pairwise_lt ((firstNodes_ids_nodup m).sublist (List.filter_sublist.map _))
  · simp only [mem_sortTexts, List.mem_map, List.mem_filter, Bool.not_eq_true', ← Bool.not_eq_true,
      List.contains_iff_mem]
    constructor
    · rintro ⟨⟨n, i⟩, ⟨hn, hout⟩, rfl⟩
      obtain ⟨hnode, hfirst⟩ := mem_firstNodes.1 hn
      refine ⟨mem_ids.2 ⟨n, List.mem_of_getElem? hnode, rfl⟩, ?_⟩
      rwa [← mem_contributors_iff hfirst]
    · rintro ⟨hid, hout⟩
      obtain ⟨i, hi⟩ := exists_position? hid
      obtain ⟨n, hn, rfl⟩ := mem_firstNodes_of_position? hi
      refine ⟨(n, i), ⟨hn, ?_⟩, rfl⟩
      rwa [mem_contributors_iff hi]

end Model

/-! ## Top theorem -/

/-- What the reports about nodes that lead nowhere say of the edges between nodes. -/
structure NamesDeadEnds (m : Model α) (reports : List (Fault α)) : Prop where
  /-- Without a sink there is no report. -/
  noSink : (∀ id, ¬ m.IsSink id) → reports = []
  /-- With one, there is a report for each id of a node from which no path leads to a sink, in
  ascending order. -/
  named : (∃ id, m.IsSink id) → ∃ ids : List String, reports = ids.map .unreachable ∧
    ids.Pairwise (· < ·) ∧ ∀ id, id ∈ ids ↔ id ∈ m.ids ∧ ¬ m.ReachesSink id

/-- Reports and required sources are facts about paths, on every model, and the search that finds
them runs until its queue is empty, queuing no node twice. -/
theorem reachability_is_paths [Number α] (m : Model α) (strict : Bool) :
    NamesDeadEnds m ((findings strict m).filter fun f => f.kind = .reachability) ∧
    (∀ c, validate strict m = .ok c → c.requiredSources.Pairwise (· < ·) ∧
      ∀ id, id ∈ c.requiredSources ↔
        ∃ n ∈ m.nodes, n.id = id ∧ n.kind = .source ∧ m.Contributes id) ∧
    Drains m.predecessors (m.contributors m.links).length m.sinks m.sinks
      (m.contributors m.links) ∧
    (m.contributors m.links).Nodup := by
  obtain ⟨hdrains, hnodup, -⟩ := m.contributors_drain
  refine ⟨?reports, ?required, hdrains, hnodup⟩
  case reports =>
    rw [findings_eq, faults_filter_reachability]
    refine ⟨Model.reachFaults_of_not_isSink, ?_⟩
    rintro ⟨id, hid⟩
    exact Model.reachFaults_of_isSink hid
  case required =>
    intro c h
    obtain ⟨hc, rfl⟩ := faithful_of_validate h
    exact ⟨requiredSources_ascending hc, fun id => mem_requiredSources hc⟩

/-- A circle and a loop that lead nowhere, an id that is used twice, parallel edges, and an edge to
a node that does not exist. -/
def tangledModel : Model Float where
  nodes :=
    [⟨"turn", .addition⟩, ⟨"grade", .sink⟩, ⟨"loop", .addition⟩, ⟨"sum", .addition⟩,
      ⟨"exam", .source ⟨none, .ignore⟩⟩, ⟨"turn", .sink⟩]
  edges :=
    [Edge.join "exam" "sum" 0, Edge.join "exam" "sum" 1, Edge.join "sum" "grade" 0,
      Edge.join "loop" "turn" 0, Edge.join "turn" "loop" 0, Edge.join "loop" "loop" 1,
      Edge.join "loop" "nowhere" 0]

/-- An exam that counts and one that does not. -/
def spareModel : Model Float where
  nodes :=
    [⟨"spare", .source ⟨none, .ignore⟩⟩, ⟨"exam", .source ⟨none, .ignore⟩⟩, ⟨"grade", .sink⟩]
  edges := [Edge.join "exam" "grade" 0]

theorem reachability_is_paths_tangled :
    NamesDeadEnds tangledModel [.unreachable "loop", .unreachable "turn"] ∧
    ¬ tangledModel.ReachesSink "turn" ∧
    Drains tangledModel.predecessors 3 [1] [1] [1, 3, 4] ∧
    ∃ c, validate false spareModel = .ok c ∧ c.requiredSources = ["exam"] ∧
      ¬ spareModel.Contributes "spare" := by
  obtain ⟨hnames, -, hdrains, -⟩ := reachability_is_paths tangledModel true
  obtain ⟨-, hrequired, -, -⟩ := reachability_is_paths spareModel false
  have hreports : ((findings true tangledModel).filter fun f => f.kind = .reachability) =
      [.unreachable "loop", .unreachable "turn"] := by rw [findings_eq]; rfl
  rw [hreports] at hnames
  refine ⟨hnames, ?turn, hdrains, spareModel.accepted 2, rfl, rfl, ?spare⟩
  case turn =>
    obtain ⟨ids, hids, -, hmem⟩ := hnames.named ⟨"grade", _, rfl, rfl⟩
    obtain rfl : ["loop", "turn"] = ids := by
      refine List.map_injective_iff.2 (fun a b hab => ?_) hids
      exact Fault.unreachable.inj hab
    exact ((hmem "turn").1 (by simp)).2
  case spare =>
    intro hspare
    have hmem := ((hrequired (spareModel.accepted 2) rfl).2 "spare").2
      ⟨_, List.mem_cons_self, rfl, rfl, hspare⟩
    exact absurd hmem (by decide)

end Grading
