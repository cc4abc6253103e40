import Mathlib.Data.Fintype.EquivFin
import Grading.Proofs.Acceptance

/-!
# The tables of an accepted model

`Checked.Faithful` says of a checked model that it is what `validate` makes: a well-wired model
with the tables of its links.  All later proofs start from it and see the tables through links,
or through the edges that the model lists for a node:

    validate strict m = .ok c → c.Faithful ∧ c.model = m                   (faithful_of_validate)
    a path of edges leads from id to id ↔ one of links does                 (leads_idAt)
    j ∈ (c.inputsOf i).map (·.2) ↔ Feeds c.model.links j i                  (mem_inputsOf)
    (c.dependentsOf i).count j = ((c.inputsOf j).map (·.2)).count i         (count_dependentsOf)
    the inputs of a node are its incoming edges, slot by slot               (inputsOf_eq_incoming)
-/

namespace Grading

variable {α : Type}

namespace Checked

/-- A well-wired model with the tables of its links. -/
structure Faithful (c : Checked α) : Prop where
  wellWired : c.model.WellWired
  inputs : c.inputs = (List.range c.model.nodes.length).map (Link.inputs c.model.links)
  dependents :
    c.dependents = (List.range c.model.nodes.length).map (Link.dependents c.model.links)
  sinks : c.model.sinks = [c.sink]
  contributors : c.contributors = c.model.contributors c.model.links

end Checked

theorem faithful_of_validate [Number α] {m : Model α} {strict : Bool} {c : Checked α}
    (h : validate strict m = .ok c) : c.Faithful ∧ c.model = m := by
  have hw := wellWired_of_validate h
  obtain ⟨-, -, s, hs, rfl⟩ := validate_eq_ok_iff.1 h
  exact ⟨⟨hw, rfl, rfl, hs, rfl⟩, rfl⟩

namespace Checked

variable {c : Checked α} {i j : Nat} {n : Node α}

/-! ## Ids and positions -/

theorem exists_node (hi : i < c.size) : ∃ n, c.model.nodes[i]? = some n :=
  ⟨_, List.getElem?_eq_getElem hi⟩

theorem lt_size (hn : c.model.nodes[i]? = some n) : i < c.size :=
  (List.getElem?_eq_some_iff.1 hn).1

theorem idAt_eq (hn : c.model.nodes[i]? = some n) : c.idAt i = n.id := Model.idAt_eq hn

theorem idAt_inj (h : c.Faithful) (hi : i < c.size) (hj : j < c.size) (heq : c.idAt i = c.idAt j) :
    i = j := by
  obtain ⟨n, hn⟩ := exists_node hi
  obtain ⟨n', hn'⟩ := exists_node hj
  have hid : n.id = n'.id := by
    rw [← idAt_eq hn, ← idAt_eq hn', heq]
  have hposition := Model.position?_of_nodup h.wellWired.distinctIds hn
  rw [hid, Model.position?_of_nodup h.wellWired.distinctIds hn'] at hposition
  exact (Option.some.inj hposition).symm

/-- The ids from which edges lead to a node are those of its inputs. -/
theorem joined_idAt (h : c.Faithful) (hi : i < c.size) {a : String} :
    Joined c.model.edges a (c.idAt i) ↔ ∃ j, Feeds c.model.links j i ∧ c.idAt j = a := by
  constructor
  · intro hjoined
    obtain ⟨n, hn⟩ := exists_node hi
    have hposition := Model.position?_of_nodup h.wellWired.distinctIds hn
    have ha : a ∈ c.model.ids := by
      obtain ⟨e, he, rfl, -⟩ := hjoined
      exact (h.wellWired.edgesJoinNodes e he).1
    obtain ⟨j, hj⟩ := Model.exists_position? ha
    obtain ⟨k, hk, hfeeds⟩ := Model.feeds_of_joined h.wellWired.edgesJoinNodes hj hjoined
    rw [idAt_eq hn, hposition] at hk
    obtain rfl := Option.some.inj hk
    exact ⟨j, hfeeds, Model.idAt_position? hj⟩
  · rintro ⟨j, hfeeds, rfl⟩
    exact Model.joined_of_feeds hfeeds

/-- Between nodes, the paths of edges are the paths of links. -/
theorem leads_idAt (h : c.Faithful) (hi : i < c.size) (hj : j < c.size) :
    Leads c.model.edges (c.idAt i) (c.idAt j) ↔
      Relation.ReflTransGen (Feeds c.model.links) i j := by
  constructor
  · intro hleads
    obtain ⟨n, hn⟩ := exists_node hi
    obtain ⟨n', hn'⟩ := exists_node hj
    have hd := h.wellWired.distinctIds
    rw [idAt_eq hn, idAt_eq hn'] at hleads
    obtain ⟨k, hk, hpath⟩ := Model.feeds_of_leads h.wellWired.edgesJoinNodes
      (Model.position?_of_nodup hd hn) hleads
    rw [Model.position?_of_nodup hd hn'] at hk
    exact Option.some.inj hk ▸ hpath
  · exact Model.leads_of_feeds

/-! ## Tables and links -/

theorem sink?_eq (h : c.Faithful) :
    ∃ s, c.model.sink? = some s ∧ c.model.nodes[c.sink]? = some s := by
  obtain ⟨s, k, hs, hk, hsk⟩ := h.wellWired.exists_sink
  rw [h.sinks] at hk
  obtain rfl : c.sink = k := List.head_eq_of_cons_eq hk
  exact ⟨s, hs, hsk⟩

theorem inputsOf_eq (h : c.Faithful) (i : Nat) :
    c.inputsOf i = Link.inputs c.model.links i := by
  unfold inputsOf
  rw [h.inputs]
  refine Model.getD_range_map _ fun k hk => ?_
  unfold Link.inputs
  rw [Model.into_eq_nil hk]
  rfl

theorem dependentsOf_eq (h : c.Faithful) (i : Nat) :
    c.dependentsOf i = Link.dependents c.model.links i := by
  unfold dependentsOf
  rw [h.dependents]
  refine Model.getD_range_map _ fun k hk => ?_
  unfold Link.dependents
  rw [Model.outOf_eq_nil hk]
  rfl

theorem mem_inputsOf (h : c.Faithful) :
    j ∈ (c.inputsOf i).map (·.2) ↔ Feeds c.model.links j i := by
  rw [inputsOf_eq h]
  unfold Link.inputs Feeds
  simp only [List.mem_map, mem_sortBy, Model.mem_into]
  constructor
  · rintro ⟨-, ⟨l, ⟨hl, ht⟩, rfl⟩, rfl⟩
    exact ⟨l, hl, rfl, ht⟩
  · rintro ⟨l, hl, rfl, ht⟩
    exact ⟨(l.edge.slot, l.source), ⟨l, ⟨hl, ht⟩, rfl⟩, rfl⟩

theorem mem_dependentsOf (h : c.Faithful) :
    j ∈ c.dependentsOf i ↔ Feeds c.model.links i j := by
  rw [dependentsOf_eq h]
  unfold Link.dependents Feeds
  simp only [List.mem_map, mem_sortBy, Model.mem_outOf]
  constructor
  · rintro ⟨l, ⟨hl, hs⟩, rfl⟩
    exact ⟨l, hl, hs, rfl⟩
  · rintro ⟨l, hl, hs, rfl⟩
    exact ⟨l, ⟨hl, hs⟩, rfl⟩

/-- Both tables count the links between two nodes. -/
theorem count_dependentsOf (h : c.Faithful) (i j : Nat) :
    (c.dependentsOf i).count j = ((c.inputsOf j).map (·.2)).count i := by
  rw [inputsOf_eq h, dependentsOf_eq h]
  unfold Link.inputs Link.dependents Link.into Link.outOf
  rw [(sortBy_perm _ _).count_eq, ((sortBy_perm _ _).map _).count_eq, List.map_map]
  rw [List.count_eq_countP, List.count_eq_countP, List.countP_map, List.countP_map,
    List.countP_filter, List.countP_filter]
  refine List.countP_congr fun l _ => ?_
  simp [and_comm]

/-- A node contributes if and only if a path of links leads from it to the sink. -/
theorem contributes_iff_leads (h : c.Faithful) (hn : c.model.nodes[i]? = some n) :
    c.model.Contributes n.id ↔ Relation.ReflTransGen (Feeds c.model.links) i c.sink := by
  rw [← Model.contributes_iff h.wellWired hn, Model.mem_contributors, h.sinks]
  simp

/-! ## Inputs and edges -/

/-- The links into a node are its edges, in the order of the model. -/
theorem into_eq_edges (h : c.Faithful) (hn : c.model.nodes[i]? = some n) :
    (Link.into c.model.links i).map (fun l => (l.edge.slot, some l.source)) =
      (c.model.edges.filter fun e => e.target = n.id).map
        fun e => (e.slot, c.model.position? e.source) := by
  have hi := Model.position?_of_nodup h.wellWired.distinctIds hn
  rw [← Model.edges_into h.wellWired.edgesJoinNodes hi]
  unfold Link.edgesInto
  rw [List.map_map]
  refine List.map_congr_left fun l hl => ?_
  obtain ⟨-, hs, -⟩ := Model.mem_links.1 (Model.mem_into.1 hl).1
  show (l.edge.slot, some l.source) = (l.edge.slot, c.model.position? l.edge.source)
  rw [hs]

/-- The edges into a node have distinct slots. -/
theorem slots_nodup (h : c.Faithful) (hn : c.model.nodes[i]? = some n) :
    ((c.model.edges.filter fun e => e.target = n.id).map (·.slot)).Nodup :=
  (Model.distinctSlots_iff h.wellWired.edgesJoinNodes).1 h.wellWired.distinctSlots n.id
    (Model.mem_ids.2 ⟨n, List.mem_of_getElem? hn, rfl⟩)

theorem incoming_ascending (h : c.Faithful) (hn : c.model.nodes[i]? = some n) :
    (c.model.incoming n.id).Pairwise fun e f => e.slot < f.slot := by
  show (sortBy (lexLe Edge.slot Edge.id) _).Pairwise _
  exact sortBy_lexLe_key_lt (slots_nodup h hn)

theorem inputsOf_ascending (h : c.Faithful) (hn : c.model.nodes[i]? = some n) :
    (c.inputsOf i).Pairwise fun a b => a.1 < b.1 := by
  have hslots : ((Link.into c.model.links i).map fun l => (l.edge.slot, l.source)).map (·.1) =
      (c.model.edges.filter fun e => e.target = n.id).map (·.slot) := by
    have heq := congrArg (List.map (·.1)) (into_eq_edges h hn)
    rw [List.map_map, List.map_map] at heq
    rw [List.map_map]
    exact heq
  rw [inputsOf_eq h]
  show (sortBy (lexLe (fun a : Slot × Nat => a.1) fun a => a.2) _).Pairwise _
  refine sortBy_lexLe_key_lt ?_
  rw [hslots]
  exact slots_nodup h hn

/-- The inputs of a node are its incoming edges, slot by slot. -/
theorem inputsOf_eq_incoming (h : c.Faithful) (hn : c.model.nodes[i]? = some n) :
    (c.inputsOf i).map (fun a => (a.1, some a.2)) =
      (c.model.incoming n.id).map fun e => (e.slot, c.model.position? e.source) := by
  refine @List.Perm.eq_of_pairwise _ (fun a b => a.1 < b.1) _ _ ?_ ?_ ?_ ?_
  · intro a b _ _ hab hba
    exact absurd (Std.lt_trans hab hba) (Std.lt_irrefl)
  · exact List.pairwise_map.2 (inputsOf_ascending h hn)
  · exact List.pairwise_map.2 (incoming_ascending h hn)
  · have hinputs : (c.inputsOf i).Perm
        ((Link.into c.model.links i).map fun l => (l.edge.slot, l.source)) := by
      rw [inputsOf_eq h]
      exact sortBy_perm _ _
    have hincoming : (c.model.incoming n.id).Perm
        (c.model.edges.filter fun e => e.target = n.id) := sortBy_perm _ _
    refine (hinputs.map _).trans (List.Perm.trans ?_ (hincoming.map _).symm)
    rw [← into_eq_edges h hn, List.map_map]
    exact List.Perm.refl _

/-- The ids of the inputs of a node, slot by slot. -/
theorem inputsOf_ids (h : c.Faithful) (hn : c.model.nodes[i]? = some n) :
    (c.inputsOf i).map (fun a => c.idAt a.2) = (c.model.incoming n.id).map (·.source) := by
  have heq := congrArg (List.map fun a : Slot × Option Nat => a.2.map c.idAt)
    (inputsOf_eq_incoming h hn)
  rw [List.map_map, List.map_map] at heq
  refine List.map_injective_iff.2 (Option.some_injective String) ?_
  rw [List.map_map, List.map_map]
  refine Eq.trans heq (List.map_congr_left fun e he => ?_)
  have hedge := (List.mem_filter.1 (mem_sortBy.1 he)).1
  obtain ⟨j, hj⟩ := Model.exists_position? (h.wellWired.edgesJoinNodes e hedge).1
  show (c.model.position? e.source).map c.idAt = some e.source
  rw [hj]
  exact congrArg some (Model.idAt_position? hj)

/-- The slots of the inputs of a node are the wired ones. -/
theorem wired_iff (h : c.Faithful) (hn : c.model.nodes[i]? = some n) {slot : Slot} :
    c.model.Wired n.id slot ↔ slot ∈ (c.inputsOf i).map (·.1) := by
  have hslots := congrArg (List.map (·.1)) (inputsOf_eq_incoming h hn)
  rw [List.map_map, List.map_map] at hslots
  rw [show (c.inputsOf i).map (·.1) = _ from hslots, List.mem_map]
  unfold Model.Wired Model.incoming
  simp only [mem_sortBy, List.mem_filter, decide_eq_true_eq, and_assoc]
  rfl

/-- A node with slot `0` alone has one input. -/
theorem inputsOf_single (h : c.Faithful) (hn : c.model.nodes[i]? = some n)
    (hslots : ∀ slot, c.model.Wired n.id slot ↔ slot = 0) : ∃ j, c.inputsOf i = [(0, j)] := by
  have hslot : ∀ a ∈ c.inputsOf i, a.1 = 0 := fun a ha =>
    (hslots a.1).1 ((wired_iff h hn).2 (List.mem_map.2 ⟨a, ha, rfl⟩))
  have hascending := inputsOf_ascending h hn
  match hinputs : c.inputsOf i with
  | [] =>
    have hzero := (wired_iff h hn).1 ((hslots 0).2 rfl)
    rw [hinputs] at hzero
    exact absurd hzero List.not_mem_nil
  | [a] =>
    rw [hinputs] at hslot
    exact ⟨a.2, by rw [← hslot a List.mem_cons_self]⟩
  | a :: b :: rest =>
    rw [hinputs] at hslot hascending
    have hlt := (List.pairwise_cons.1 hascending).1 b List.mem_cons_self
    rw [hslot a List.mem_cons_self, hslot b (by simp)] at hlt
    exact absurd hlt (Std.lt_irrefl)

/-- Nothing leads into a source. -/
theorem not_feeds_source (h : c.Faithful) (hn : c.model.nodes[i]? = some n)
    (hk : n.kind = .source) (j : Nat) : ¬ Feeds c.model.links j i := by
  intro hfeeds
  obtain ⟨s, hs⟩ := Node.kind_eq_source_iff.1 hk
  have htakes := h.wellWired.takes n (List.mem_of_getElem? hn)
  rw [hs] at htakes
  obtain ⟨a, ha, -⟩ := List.mem_map.1 ((mem_inputsOf h).2 hfeeds)
  exact htakes a.1 ((wired_iff h hn).2 (List.mem_map.2 ⟨a, ha, rfl⟩))

/-! ## No circles -/

theorem not_feeds_circle (h : c.Faithful) (i : Nat) :
    ¬ Relation.TransGen (Feeds c.model.links) i i :=
  (Model.acyclic_iff h.wellWired.edgesJoinNodes).2 h.wellWired.acyclic i

/-- Going back from a node to its inputs, over and over, comes to an end. -/
theorem feeds_wellFounded (h : c.Faithful) : WellFounded (Feeds c.model.links) := by
  let before (a b : Fin c.size) : Prop := Relation.TransGen (Feeds c.model.links) a b
  have : IsTrans (Fin c.size) before := ⟨fun _ _ _ => Relation.TransGen.trans⟩
  have : Std.Irrefl before := ⟨fun a => not_feeds_circle h a⟩
  have hwf : WellFounded before := Finite.wellFounded_of_trans_of_irrefl before
  have hacc : ∀ a : Fin c.size, Acc (Feeds c.model.links) a := by
    intro a
    induction a using hwf.induction with
    | _ a ih =>
      refine ⟨_, fun j hj => ?_⟩
      exact ih ⟨j, (Model.feeds_lt hj).1⟩ (Relation.TransGen.single hj)
  exact ⟨fun i => ⟨i, fun j hj => hacc ⟨j, (Model.feeds_lt hj).1⟩⟩⟩

end Checked

end Grading
