import Mathlib.Logic.Relation
import Grading.Check.Links

/-!
# Edges by id and links by position

Two readings of the connections of a model.  By id, `Joined` and `Leads` speak of edges as they
are written.  By position, `Feeds` speaks of links, in which an id means the first node that has
it.  A link joins the ids of its two positions, and where all edges join nodes the two readings
are one:

    a path of links is a path of edges                                      (leads_of_feeds)
    every edge joins nodes → a path of edges from a node is one of links    (feeds_of_leads)
    every edge joins nodes → no circle of links ↔ no circle of edges        (acyclic_iff)
-/

namespace Grading

variable {α : Type}

/-! ## Paths -/

/-- An edge leads from the one id to the other. -/
def Joined (edges : List Edge) (a b : String) : Prop :=
  ∃ e ∈ edges, e.source = a ∧ e.target = b

/-- A directed path leads from the one id to the other; it may be empty. -/
def Leads (edges : List Edge) : String → String → Prop := Relation.ReflTransGen (Joined edges)

/-- A link leads from the one position to the other. -/
def Feeds (links : List Link) (i j : Nat) : Prop := ∃ l ∈ links, l.source = i ∧ l.target = j

namespace Model

/-- The ids of the nodes, in the order of the nodes. -/
def ids (m : Model α) : List String := m.nodes.map (·.id)

/-- Both ends of every edge are ids of nodes. -/
def EdgesJoinNodes (m : Model α) : Prop :=
  ∀ e ∈ m.edges, e.source ∈ m.ids ∧ e.target ∈ m.ids

/-! ## Positions -/

variable {m : Model α} {i j : Nat} {n : Node α} {id : String} {l : Link}

theorem mem_ids : id ∈ m.ids ↔ ∃ n ∈ m.nodes, n.id = id := List.mem_map

theorem map_zipIdx_id (m : Model α) : m.nodes.zipIdx.map (·.1.id) = m.ids := by
  have hids : (m.nodes.zipIdx.map Prod.fst).map (·.id) = m.ids := by
    rw [List.zipIdx_map_fst]
    rfl
  rwa [List.map_map] at hids

theorem position?_eq_some : m.position? id = some i ↔
    ∃ n, m.nodes[i]? = some n ∧ n.id = id ∧ ∀ j < i, ∀ n', m.nodes[j]? = some n' → n'.id ≠ id := by
  unfold position?
  rw [List.findIdx?_eq_some_iff_getElem]
  constructor
  · rintro ⟨h, hid, hbefore⟩
    refine ⟨m.nodes[i], List.getElem?_eq_getElem h, by simpa using hid, ?_⟩
    intro j hj n' hn' heq
    obtain ⟨hlt, rfl⟩ := List.getElem?_eq_some_iff.1 hn'
    exact hbefore j hj (by simpa using heq)
  · rintro ⟨n, hn, hid, hbefore⟩
    obtain ⟨hlt, rfl⟩ := List.getElem?_eq_some_iff.1 hn
    refine ⟨hlt, by simpa using hid, fun j hj => ?_⟩
    simpa using hbefore j hj _ (List.getElem?_eq_getElem (by omega))

theorem position?_lt (h : m.position? id = some i) : i < m.nodes.length := by
  obtain ⟨n, hn, -⟩ := position?_eq_some.1 h
  exact (List.getElem?_eq_some_iff.1 hn).1

theorem position?_isSome : (m.position? id).isSome ↔ id ∈ m.ids := by
  unfold position?
  rw [List.findIdx?_isSome, mem_ids]
  simp

theorem exists_position? (h : id ∈ m.ids) : ∃ i, m.position? id = some i :=
  Option.isSome_iff_exists.1 (position?_isSome.2 h)

/-- The node of an id stands at the position of the id. -/
theorem node?_eq_some_iff :
    m.node? id = some n ↔ ∃ i, m.position? id = some i ∧ m.nodes[i]? = some n := by
  unfold node?
  rw [List.find?_eq_some_iff_getElem]
  constructor
  · rintro ⟨hid, i, hi, rfl, hbefore⟩
    refine ⟨i, position?_eq_some.2 ⟨_, List.getElem?_eq_getElem hi, by simpa using hid, ?_⟩,
      List.getElem?_eq_getElem hi⟩
    intro j hj n' hn' heq
    obtain ⟨hlt, rfl⟩ := List.getElem?_eq_some_iff.1 hn'
    simpa [heq] using hbefore j hj
  · rintro ⟨i, hi, hn⟩
    obtain ⟨n', hn', hid, hbefore⟩ := position?_eq_some.1 hi
    obtain rfl : n' = n := Option.some.inj (hn'.symm.trans hn)
    obtain ⟨hlt, rfl⟩ := List.getElem?_eq_some_iff.1 hn
    refine ⟨by simpa using hid, i, hlt, rfl, fun j hj => ?_⟩
    simpa using hbefore j hj _ (List.getElem?_eq_getElem (by omega))

theorem idAt_eq (h : m.nodes[i]? = some n) : m.idAt i = n.id := by
  unfold idAt
  rw [h]
  rfl

theorem idAt_position? (h : m.position? id = some i) : m.idAt i = id := by
  obtain ⟨n, hn, hid, -⟩ := position?_eq_some.1 h
  rw [idAt_eq hn, hid]

/-- Where ids are used once, every node is the first of its id. -/
theorem position?_of_nodup (hd : m.ids.Nodup) (h : m.nodes[i]? = some n) :
    m.position? n.id = some i := by
  rw [position?_eq_some]
  refine ⟨n, h, rfl, fun j hj n' hn' heq => ?_⟩
  have hi : m.ids[i]? = some n.id := by
    unfold ids
    rw [List.getElem?_map, h]
    rfl
  have hj' : m.ids[j]? = some n.id := by
    unfold ids
    rw [List.getElem?_map, hn', ← heq]
    rfl
  have : j = i :=
    (List.getElem?_inj (List.getElem?_eq_some_iff.1 hj').1 hd).1 (hj'.trans hi.symm)
  omega

theorem mem_firstNodes : (n, i) ∈ m.firstNodes ↔
    m.nodes[i]? = some n ∧ m.position? n.id = some i := by
  unfold firstNodes
  rw [List.mem_filter, List.mk_mem_zipIdx_iff_getElem?]
  simp

theorem mem_sinks : i ∈ m.sinks ↔
    ∃ n, m.nodes[i]? = some n ∧ m.position? n.id = some i ∧ n.kind = .sink := by
  unfold sinks
  simp only [List.mem_map, List.mem_filter, decide_eq_true_eq]
  constructor
  · rintro ⟨⟨n, j⟩, ⟨h, hk⟩, rfl⟩
    obtain ⟨h1, h2⟩ := mem_firstNodes.1 h
    exact ⟨n, h1, h2, hk⟩
  · rintro ⟨n, h1, h2, hk⟩
    exact ⟨(n, i), ⟨mem_firstNodes.2 ⟨h1, h2⟩, hk⟩, rfl⟩

/-! ## Links -/

theorem link?_eq_some {e : Edge} : m.link? e = some l ↔
    l.edge = e ∧ m.position? e.source = some l.source ∧ m.position? e.target = some l.target := by
  unfold link?
  cases l
  simp only [bind, Option.bind_eq_some_iff, pure, Option.some.injEq, Link.mk.injEq]
  constructor
  · rintro ⟨s, hs, t, ht, rfl, rfl, rfl⟩
    exact ⟨rfl, hs, ht⟩
  · rintro ⟨rfl, hs, ht⟩
    exact ⟨_, hs, _, ht, rfl, rfl, rfl⟩

theorem mem_links : l ∈ m.links ↔ l.edge ∈ m.edges ∧
    m.position? l.edge.source = some l.source ∧ m.position? l.edge.target = some l.target := by
  unfold links
  rw [List.mem_filterMap]
  constructor
  · rintro ⟨e, he, h⟩
    obtain ⟨rfl, hs, ht⟩ := link?_eq_some.1 h
    exact ⟨he, hs, ht⟩
  · rintro ⟨he, hs, ht⟩
    exact ⟨l.edge, he, link?_eq_some.2 ⟨rfl, hs, ht⟩⟩

theorem source_lt (h : l ∈ m.links) : l.source < m.nodes.length :=
  position?_lt (mem_links.1 h).2.1

theorem target_lt (h : l ∈ m.links) : l.target < m.nodes.length :=
  position?_lt (mem_links.1 h).2.2

theorem feeds_lt (h : Feeds m.links i j) : i < m.nodes.length ∧ j < m.nodes.length := by
  obtain ⟨l, hl, rfl, rfl⟩ := h
  exact ⟨source_lt hl, target_lt hl⟩

/-! ## Tables of links -/

theorem mem_into {links : List Link} : l ∈ Link.into links i ↔ l ∈ links ∧ l.target = i := by
  unfold Link.into
  rw [List.mem_filter, decide_eq_true_eq]

theorem mem_outOf {links : List Link} : l ∈ Link.outOf links i ↔ l ∈ links ∧ l.source = i := by
  unfold Link.outOf
  rw [List.mem_filter, decide_eq_true_eq]

theorem into_eq_nil (h : m.nodes.length ≤ i) : Link.into m.links i = [] := by
  rw [List.eq_nil_iff_forall_not_mem]
  intro l hl
  obtain ⟨hmem, rfl⟩ := mem_into.1 hl
  have := target_lt hmem
  omega

theorem outOf_eq_nil (h : m.nodes.length ≤ i) : Link.outOf m.links i = [] := by
  rw [List.eq_nil_iff_forall_not_mem]
  intro l hl
  obtain ⟨hmem, rfl⟩ := mem_outOf.1 hl
  have := source_lt hmem
  omega

/-- A table of all positions with nothing beyond them, read at any position. -/
theorem getD_range_map {β : Type} (f : Nat → List β) {size : Nat}
    (h : ∀ k, size ≤ k → f k = []) : ((List.range size).map f).getD i [] = f i := by
  rw [List.getD_eq_getElem?_getD, List.getElem?_map]
  by_cases hi : i < size
  · rw [List.getElem?_range hi]
    rfl
  · rw [List.getElem?_eq_none (by rw [List.length_range]; omega), h i (by omega)]
    rfl

/-! ## The two readings -/

theorem joined_of_feeds (h : Feeds m.links i j) : Joined m.edges (m.idAt i) (m.idAt j) := by
  obtain ⟨l, hl, rfl, rfl⟩ := h
  obtain ⟨he, hs, ht⟩ := mem_links.1 hl
  exact ⟨l.edge, he, (idAt_position? hs).symm, (idAt_position? ht).symm⟩

theorem feeds_of_joined {a b : String} (hm : m.EdgesJoinNodes) (ha : m.position? a = some i)
    (h : Joined m.edges a b) : ∃ j, m.position? b = some j ∧ Feeds m.links i j := by
  obtain ⟨e, he, rfl, rfl⟩ := h
  obtain ⟨j, hj⟩ := exists_position? (hm e he).2
  exact ⟨j, hj, ⟨i, j, e⟩, mem_links.2 ⟨he, ha, hj⟩, rfl, rfl⟩

theorem leads_of_feeds (h : Relation.ReflTransGen (Feeds m.links) i j) :
    Leads m.edges (m.idAt i) (m.idAt j) :=
  h.lift m.idAt fun _ _ => joined_of_feeds

theorem feeds_of_leads {a b : String} (hm : m.EdgesJoinNodes) (ha : m.position? a = some i)
    (h : Leads m.edges a b) :
    ∃ j, m.position? b = some j ∧ Relation.ReflTransGen (Feeds m.links) i j := by
  induction h with
  | refl => exact ⟨i, ha, .refl⟩
  | tail _ hbc ih =>
    obtain ⟨j, hj, hij⟩ := ih
    obtain ⟨k, hk, hjk⟩ := feeds_of_joined hm hj hbc
    exact ⟨k, hk, hij.tail hjk⟩

/-- No path of links comes back to its start if and only if no path of edges does. -/
theorem acyclic_iff (hm : m.EdgesJoinNodes) : (∀ i, ¬ Relation.TransGen (Feeds m.links) i i) ↔
    ∀ id, ¬ Relation.TransGen (Joined m.edges) id id := by
  constructor
  · intro h id hid
    obtain ⟨b, ⟨e, he, hs, ht⟩, hb⟩ := Relation.TransGen.head'_iff.1 hid
    obtain ⟨i, hi⟩ := exists_position? (hs ▸ (hm e he).1)
    obtain ⟨j, hj, hij⟩ := feeds_of_joined hm hi ⟨e, he, hs, ht⟩
    obtain ⟨k, hk, hjk⟩ := feeds_of_leads hm hj hb
    obtain rfl : i = k := Option.some.inj (hi.symm.trans hk)
    exact h i (Relation.TransGen.head' hij hjk)
  · intro h i hi
    exact h (m.idAt i) (hi.lift m.idAt fun _ _ => joined_of_feeds)

end Model

end Grading
