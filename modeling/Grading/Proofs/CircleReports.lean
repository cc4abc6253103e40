import Grading.Proofs.Circles
import Grading.Proofs.FindingKinds

/-!
# What is reported about circles

For every model, whether it is accepted or not, the faults of the kind of circles tell the circles
of its edges.  An edge counts if both its ends are ids of nodes (`Model.joining`), and an id means
the first node that has it.

    the reported nodes, in order, are a circle of joining edges, least id first
    the reported edges are the joining edges between two of them
    no two reports have the same nodes
    without all these edges no path leads from an id back to it

So there is a report exactly if there is a circle (`circleReports_diagnose`).

The search speaks of links between positions.  Leaving out the edges that join no nodes changes no
link (`links_withoutDangling`), and then links and edges are two readings of the same thing.
-/

namespace Grading

variable {α : Type}

/-! ## The least entry first -/

/-- Starting at the least entry turns a list round and leaves its entries as they are. -/
theorem exists_startAtLeast {ids : List String} (hne : ids ≠ []) : ∃ front back least,
    ids = front ++ least :: back ∧ startAtLeast ids = least :: back ++ front ∧
      ∀ id ∈ ids, least ≤ id := by
  unfold startAtLeast
  cases hsort : sortTexts ids with
  | nil =>
    obtain ⟨id, hid⟩ := List.exists_mem_of_ne_nil ids hne
    rw [← mem_sortTexts, hsort] at hid
    cases hid
  | cons least rest =>
    have hleast : least ∈ ids := mem_sortTexts.1 (hsort ▸ List.mem_cons_self)
    have hsorted := sortTexts_pairwise ids
    rw [hsort, List.pairwise_cons] at hsorted
    obtain ⟨front, back, hcut, htake, hdrop⟩ := exists_cut hleast
    refine ⟨front, back, least, hcut, by simp only [hdrop, htake], fun id hid => ?_⟩
    rw [← mem_sortTexts, hsort] at hid
    rcases List.mem_cons.1 hid with rfl | hid
    · exact String.le_refl _
    · exact hsorted.1 id hid

theorem mem_startAtLeast {ids : List String} {id : String} :
    id ∈ startAtLeast ids ↔ id ∈ ids := by
  cases hids : ids with
  | nil => rfl
  | cons first rest =>
    obtain ⟨front, back, least, hcut, hstart, -⟩ :=
      exists_startAtLeast (List.cons_ne_nil first rest)
    rw [hstart, hcut, List.mem_append, List.mem_append, or_comm]

theorem IsCircle.startAtLeast {R : String → String → Prop} {ids : List String}
    (h : IsCircle R ids) : IsCircle R (startAtLeast ids) := by
  obtain ⟨front, back, least, hcut, hstart, -⟩ := exists_startAtLeast h.nonempty
  rw [hstart]
  rw [hcut] at h
  exact h.rotate

theorem head_startAtLeast {ids : List String} {first id : String}
    (hfirst : (startAtLeast ids).head? = some first) (hid : id ∈ ids) : first ≤ id := by
  obtain ⟨front, back, least, -, hstart, hleast⟩ := exists_startAtLeast (List.ne_nil_of_mem hid)
  rw [hstart] at hfirst
  obtain rfl : least = first := Option.some.inj hfirst
  exact hleast id hid

namespace Model

variable {m : Model α} {i j : Nat} {circle : List Nat}

/-! ## Edges that join nodes -/

/-- Both ends of the edge are ids of nodes. -/
def joins (m : Model α) (e : Edge) : Bool := decide (e.source ∈ m.ids) && decide (e.target ∈ m.ids)

/-- The edges that join nodes. -/
def joining (m : Model α) : List Edge := m.edges.filter m.joins

/-- The model without the edges that join no nodes. -/
def withoutDangling (m : Model α) : Model α := { m with edges := m.joining }

theorem edgesJoinNodes_withoutDangling (m : Model α) : m.withoutDangling.EdgesJoinNodes := by
  intro e he
  have hjoins := (List.mem_filter.1 he).2
  unfold joins at hjoins
  rw [Bool.and_eq_true, decide_eq_true_eq, decide_eq_true_eq] at hjoins
  exact hjoins

theorem isSome_link? (m : Model α) (e : Edge) : (m.link? e).isSome = m.joins e := by
  have hposition : ∀ id, (m.position? id).isSome = decide (id ∈ m.ids) := fun id =>
    Bool.eq_iff_iff.2 (position?_isSome.trans decide_eq_true_iff.symm)
  unfold joins
  rw [← hposition, ← hposition]
  unfold link?
  cases m.position? e.source with
  | none => rfl
  | some i => cases m.position? e.target <;> rfl

/-- An edge that joins no nodes makes no link. -/
theorem links_withoutDangling (m : Model α) : m.withoutDangling.links = m.links := by
  show (m.edges.filter m.joins).filterMap m.link? = m.edges.filterMap m.link?
  rw [List.filterMap_filter]
  refine List.filterMap_congr fun e _ => ?_
  cases hjoins : m.joins e with
  | true => rfl
  | false =>
    rw [← isSome_link?, Option.isSome_eq_false_iff, Option.isNone_iff_eq_none] at hjoins
    rw [hjoins]
    rfl

/-- The links are made from the joining edges, in the same order. -/
theorem map_edge_links (m : Model α) : m.links.map (·.edge) = m.joining := by
  unfold links joining
  rw [List.map_filterMap, ← List.filterMap_eq_filter]
  refine List.filterMap_congr fun e _ => ?_
  cases hlink : m.link? e with
  | none =>
    have hjoins := m.isSome_link? e
    rw [hlink] at hjoins
    simp [Option.guard, ← hjoins]
  | some l =>
    have hjoins := m.isSome_link? e
    rw [hlink] at hjoins
    simp [Option.guard, ← hjoins, (link?_eq_some.1 hlink).1]

theorem joined_joining_of_feeds (h : Feeds m.links i j) :
    Joined m.joining (m.idAt i) (m.idAt j) :=
  joined_of_feeds (m := m.withoutDangling) (by rwa [links_withoutDangling])

/-- Paths of links lead round in circles if and only if paths of joining edges do. -/
theorem acyclic_joining_iff : (∀ i, ¬ Relation.TransGen (Feeds m.links) i i) ↔
    ∀ id, ¬ Relation.TransGen (Joined m.joining) id id := by
  rw [← links_withoutDangling]
  exact acyclic_iff m.edgesJoinNodes_withoutDangling

/-- A position that a link leads from is the first of its id. -/
theorem position?_idAt_of_feeds (h : Feeds m.links i j) : m.position? (m.idAt i) = some i := by
  obtain ⟨l, hl, rfl, -⟩ := h
  have hsource := (mem_links.1 hl).2.1
  rwa [idAt_position? hsource]

/-! ## The circles by id -/

/-- Every position on a circle is the first of its id. -/
theorem position?_idAt_of_mem_circle (hc : circle ∈ m.circles m.links) (hi : i ∈ circle) :
    m.position? (m.idAt i) = some i := by
  obtain ⟨j, hj⟩ := (circle_of_mem_circles hc).exists_step hi
  exact position?_idAt_of_feeds hj

theorem isCircle_map_idAt (hc : circle ∈ m.circles m.links) :
    IsCircle (Joined m.joining) (circle.map m.idAt) := by
  refine (circle_of_mem_circles hc).map (fun i hi j hj heq => ?_) joined_joining_of_feeds
  have hi := position?_idAt_of_mem_circle hc hi
  rw [heq, position?_idAt_of_mem_circle hc hj] at hi
  exact (Option.some.inj hi).symm

/-- The node of an id is on a circle if and only if the id is among those of the circle. -/
theorem mem_map_idAt_iff {id : String} (hc : circle ∈ m.circles m.links)
    (hi : m.position? id = some i) : id ∈ circle.map m.idAt ↔ i ∈ circle := by
  constructor
  · intro hid
    obtain ⟨j, hj, rfl⟩ := List.mem_map.1 hid
    rw [position?_idAt_of_mem_circle hc hj] at hi
    exact Option.some.inj hi ▸ hj
  · intro hmem
    exact List.mem_map.2 ⟨i, hmem, idAt_position? hi⟩

/-- The edges with both ends among some ids. -/
def within (ids : List String) (edges : List Edge) : List Edge :=
  edges.filter fun e => ids.contains e.source && ids.contains e.target

/-- The links inside a circle are made from the edges between its ids. -/
theorem map_edge_inside (hc : circle ∈ m.circles m.links) :
    (m.links.filter fun l => circle.contains l.source && circle.contains l.target).map (·.edge) =
      within (startAtLeast (circle.map m.idAt)) m.joining := by
  unfold within
  rw [← map_edge_links, List.filter_map]
  congr 1
  refine List.filter_congr fun l hl => ?_
  obtain ⟨-, hsource, htarget⟩ := mem_links.1 hl
  have hcontains : ∀ {id i}, m.position? id = some i →
      (startAtLeast (circle.map m.idAt)).contains id = circle.contains i := by
    intro id i hi
    rw [Bool.eq_iff_iff, List.contains_iff_mem, List.contains_iff_mem, mem_startAtLeast,
      mem_map_idAt_iff hc hi]
  rw [Function.comp_apply, hcontains hsource, hcontains htarget]

/-- What is reported about one circle. -/
def circleFault (m : Model α) (circle : List Nat) : Fault α :=
  let nodes := startAtLeast (circle.map m.idAt)
  .cycle nodes ((within nodes m.joining).map (·.id))

theorem cycleFaults_eq (m : Model α) :
    m.cycleFaults m.links = (m.circles m.links).map m.circleFault := by
  unfold cycleFaults
  refine List.map_congr_left fun circle hc => ?_
  simp only [circleFault, ← map_edge_inside hc, List.map_map, Function.comp_def]

/-- Two nodes that read from each other are reported once, the lesser id first. -/
example : let m : Model Unit := ⟨[⟨"b", .addition⟩, ⟨"a", .addition⟩],
      [Edge.join "b" "a" 0, Edge.join "a" "b" 0]⟩
    m.cycleFaults m.links = [.cycle ["a", "b"] ["b-a:0", "a-b:0"]] := by decide

theorem mem_nodes_circleFault {id : String} (hc : circle ∈ m.circles m.links)
    (hi : m.position? id = some i) : id ∈ (m.circleFault circle).nodes ↔ i ∈ circle :=
  mem_startAtLeast.trans (mem_map_idAt_iff hc hi)

/-- No two reports are about the same nodes. -/
theorem cycleFaults_pairwise (m : Model α) :
    (m.cycleFaults m.links).Pairwise fun f g => ¬ ∀ id, id ∈ f.nodes ↔ id ∈ g.nodes := by
  rw [cycleFaults_eq, List.pairwise_map]
  refine m.circles_pairwise.imp_of_mem fun {c c'} hc hc' hne hsame => hne fun i => ?_
  constructor
  · intro hi
    have hposition := position?_idAt_of_mem_circle hc hi
    rwa [← mem_nodes_circleFault hc' hposition, ← hsame, mem_nodes_circleFault hc hposition]
  · intro hi
    have hposition := position?_idAt_of_mem_circle hc' hi
    rwa [← mem_nodes_circleFault hc hposition, hsame, mem_nodes_circleFault hc' hposition]

theorem cycleFaults_ne_nil_iff : m.cycleFaults m.links ≠ [] ↔
    ∃ id, Relation.TransGen (Joined m.joining) id id := by
  rw [cycleFaults_eq, Ne, List.map_eq_nil_iff, circles_eq_nil_iff, acyclic_joining_iff]
  exact not_forall_not

/-! ## What the reports leave over -/

/-- The joining edges that are not between two nodes of one report. -/
def unreported (m : Model α) (reports : List (Fault α)) : List Edge :=
  m.joining.filter fun e =>
    reports.all fun f => !(f.nodes.contains e.source && f.nodes.contains e.target)

theorem mem_unreported {reports : List (Fault α)} {e : Edge} : e ∈ m.unreported reports ↔
    e ∈ m.joining ∧ ∀ f ∈ reports, e.source ∈ f.nodes → e.target ∉ f.nodes := by
  unfold unreported
  rw [List.mem_filter, List.all_eq_true]
  refine and_congr_right fun _ => forall₂_congr fun f _ => ?_
  rw [Bool.not_eq_true', Bool.and_eq_false_imp, List.contains_iff_mem, ← Bool.not_eq_true,
    List.contains_iff_mem]

/-- A joining edge that no report is about is a link that is not inside a circle. -/
theorem leftOver_of_joined {a b : String}
    (h : Joined (m.unreported (m.cycleFaults m.links)) a b) :
    LeftOver (Feeds m.links) (m.circles m.links) ((m.position? a).getD 0)
      ((m.position? b).getD 0) := by
  obtain ⟨e, he, rfl, rfl⟩ := h
  obtain ⟨hjoining, hapart⟩ := mem_unreported.1 he
  rw [← map_edge_links, List.mem_map] at hjoining
  obtain ⟨l, hl, rfl⟩ := hjoining
  obtain ⟨-, hsource, htarget⟩ := mem_links.1 hl
  rw [hsource, htarget]
  refine ⟨⟨l, hl, rfl, rfl⟩, fun circle hc hs ht => ?_⟩
  have hf : m.circleFault circle ∈ m.cycleFaults m.links := by
    rw [cycleFaults_eq]
    exact List.mem_map_of_mem hc
  exact hapart _ hf ((mem_nodes_circleFault hc hsource).2 hs)
    ((mem_nodes_circleFault hc htarget).2 ht)

theorem acyclic_unreported (m : Model α) (id : String) :
    ¬ Relation.TransGen (Joined (m.unreported (m.cycleFaults m.links))) id id :=
  fun h => m.acyclic_leftOver _
    (Relation.TransGen.lift (fun a => (m.position? a).getD 0) (fun _ _ => leftOver_of_joined) _ _ h)

/-- A circle of joining edges has an edge that is reported. -/
theorem exists_reported {walk : List Edge}
    (hwalk : IsCircle (fun e e' => e.target = e'.source) walk)
    (hjoining : ∀ e ∈ walk, e ∈ m.joining) :
    ∃ e ∈ walk, ∃ f ∈ m.cycleFaults m.links, e.source ∈ f.nodes ∧ e.target ∈ f.nodes := by
  by_contra hnone
  have hleft : ∀ e ∈ walk, e ∈ m.unreported (m.cycleFaults m.links) := fun e he =>
    mem_unreported.2 ⟨hjoining e he, fun f hf hs ht => hnone ⟨e, he, f, hf, hs, ht⟩⟩
  -- from edge to edge the walk goes by edges that are left over, so their sources do as well
  have hstep := hwalk.mono (S := fun e e' =>
    Joined (m.unreported (m.cycleFaults m.links)) e.source e'.source)
      fun e e' he _ heq => ⟨e, hleft e he, rfl, heq⟩
  obtain ⟨e, he⟩ := hstep.cyclic
  exact m.acyclic_unreported e.source (Relation.TransGen.lift Edge.source (fun _ _ h => h) e e he)

end Model

/-! ## Top theorem -/

/-- What the reports about circles say of the edges that join nodes. -/
structure Diagnoses (m : Model α) (reports : List (Fault α)) : Prop where
  /-- There is a report exactly if some path of edges leads from an id back to it. -/
  some_iff : reports ≠ [] ↔ ∃ id, Relation.TransGen (Joined m.joining) id id
  /-- The nodes of a report are distinct, and edges lead from each to the next and from the last
  to the first. -/
  circle : ∀ f ∈ reports, IsCircle (Joined m.joining) f.nodes
  least : ∀ f ∈ reports, ∀ first, f.nodes.head? = some first → ∀ id ∈ f.nodes, first ≤ id
  /-- The edges of a report are all those between two of its nodes. -/
  edges : ∀ f ∈ reports, f.edges = (Model.within f.nodes m.joining).map (·.id)
  /-- No two reports have the same nodes. -/
  distinct : reports.Pairwise fun f g => ¬ ∀ id, id ∈ f.nodes ↔ id ∈ g.nodes
  /-- Without the edges between two nodes of one report nothing leads back to itself. -/
  acyclic : ∀ id, ¬ Relation.TransGen (Joined (m.unreported reports)) id id
  /-- So every circle of edges has an edge that is reported. -/
  caught : ∀ walk : List Edge, IsCircle (fun e e' => e.target = e'.source) walk →
    (∀ e ∈ walk, e ∈ m.joining) → ∃ e ∈ walk, ∃ f ∈ reports, e.id ∈ f.edges

theorem circleReports_diagnose [Number α] (strict : Bool) (m : Model α) :
    Diagnoses m ((findings strict m).filter fun f => f.kind = .cycle) := by
  rw [findings_eq, faults_filter_cycle]
  have hreport : ∀ f ∈ m.cycleFaults m.links, ∃ c ∈ m.circles m.links, f = m.circleFault c := by
    intro f hf
    rw [m.cycleFaults_eq, List.mem_map] at hf
    obtain ⟨c, hc, rfl⟩ := hf
    exact ⟨c, hc, rfl⟩
  refine ⟨Model.cycleFaults_ne_nil_iff, ?circle, ?least, ?edges, m.cycleFaults_pairwise,
    m.acyclic_unreported, ?caught⟩
  case circle =>
    intro f hf
    obtain ⟨c, hc, rfl⟩ := hreport f hf
    exact (Model.isCircle_map_idAt hc).startAtLeast
  case least =>
    intro f hf first hfirst id hid
    obtain ⟨c, -, rfl⟩ := hreport f hf
    exact head_startAtLeast hfirst (mem_startAtLeast.1 hid)
  case edges =>
    intro f hf
    obtain ⟨c, -, rfl⟩ := hreport f hf
    rfl
  case caught =>
    intro walk hwalk hjoining
    obtain ⟨e, he, f, hf, hs, ht⟩ := Model.exists_reported hwalk hjoining
    obtain ⟨c, -, rfl⟩ := hreport f hf
    refine ⟨e, he, _, hf, List.mem_map_of_mem (List.mem_filter.2 ⟨hjoining e he, ?_⟩)⟩
    exact Bool.and_eq_true_iff.2 ⟨List.contains_iff_mem.2 hs, List.contains_iff_mem.2 ht⟩

end Grading
