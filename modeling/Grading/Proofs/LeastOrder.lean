import Mathlib.Data.List.Lex
import Grading.Number.Double
import Grading.Proofs.Scheduling

/-!
# The evaluation order is the least one

Said by ids: an order is topological if it holds every id once and the source of every edge before
its target, and it is taken least first if at every place stands the least of the ids that could
come there.  Scheduling makes such an order, node by node, and it is the lexicographically least
of all that are topological: where another one first departs from it, the other one has a larger
id, since that id could have come there as well.

    c.Ready pre i ↔ the id of `i` could come after the ids of `pre`     (ready_iff_available)
    order least first, ids topological → ids = order ∨ Lex order ids    (LeastFirst.eq_or_lex)

No wait is ended that is not there, and the nodes are placed in as many steps as there are nodes
(`order_lexicographically_least`).
-/

namespace Grading

variable {α : Type}

/-! ## Orders of ids -/

/-- The id could come next: it is not placed, and all ids from which edges lead to it are. -/
structure Model.Available (m : Model α) (placed : List String) (id : String) : Prop where
  mem : id ∈ m.ids
  unplaced : id ∉ placed
  inputs : ∀ a, Joined m.edges a id → a ∈ placed

/-- Every id once, and the source of every edge before its target. -/
structure Model.Topological (m : Model α) (ids : List String) : Prop where
  perm : ids.Perm m.ids
  before : ∀ a b, Joined m.edges a b → ids.idxOf a < ids.idxOf b

/-- At every place stands the least of the ids that could come there. -/
def Model.LeastFirst (m : Model α) (ids : List String) : Prop :=
  ∀ pre id post, ids = pre ++ id :: post →
    m.Available pre id ∧ ∀ other, m.Available pre other → id ≤ other

variable {m : Model α} {ids order pre post : List String} {id : String}

theorem Model.Topological.nodup (h : m.Topological ids) (hd : m.ids.Nodup) : ids.Nodup :=
  h.perm.nodup_iff.2 hd

/-- In a topological order every id could come where it stands. -/
theorem Model.Topological.available (h : m.Topological ids) (hd : m.ids.Nodup)
    (hsplit : ids = pre ++ id :: post) : m.Available pre id := by
  have hnodup := h.nodup hd
  rw [hsplit, List.nodup_append] at hnodup
  have hunplaced : id ∉ pre := fun hmem => hnodup.2.2 id hmem id List.mem_cons_self rfl
  refine ⟨h.perm.mem_iff.1 (by simp [hsplit]), hunplaced, fun a ha => ?_⟩
  have hbefore := h.before a id ha
  by_contra hnot
  rw [hsplit, List.idxOf_append_of_notMem hunplaced, List.idxOf_append_of_notMem hnot,
    List.idxOf_cons_self] at hbefore
  omega

/-- An order that is taken least first has the source of every edge before its target. -/
theorem Model.LeastFirst.topological (h : m.LeastFirst ids) (hperm : ids.Perm m.ids)
    (hends : ∀ a b, Joined m.edges a b → b ∈ m.ids) : m.Topological ids := by
  refine ⟨hperm, fun a b hab => ?_⟩
  obtain ⟨pre, post, rfl, hb⟩ := List.eq_append_cons_of_mem (hperm.mem_iff.2 (hends a b hab))
  have ha : a ∈ pre := (h pre b post rfl).1.inputs a hab
  rw [List.idxOf_append_of_mem ha, List.idxOf_append_of_notMem hb, List.idxOf_cons_self]
  have := List.idxOf_lt_length_of_mem ha
  omega

/-- After a common beginning, an order that is taken least first goes on like any topological
order, or less than that. -/
theorem Model.LeastFirst.eq_or_lex {s t : List String} (h : m.LeastFirst order)
    (hids : m.Topological ids) (hd : m.ids.Nodup) (hlength : s.length = t.length)
    (horder : order = pre ++ s) (hsplit : ids = pre ++ t) :
    t = s ∨ List.Lex (· < ·) s t := by
  induction s generalizing pre t with
  | nil => exact .inl (List.length_eq_zero_iff.1 hlength.symm)
  | cons a s ih =>
    match t with
    | b :: t =>
      by_cases hab : a = b
      · subst hab
        have hrest := @ih (pre ++ [a]) t (by simpa using hlength) (by simpa using horder)
          (by simpa using hsplit)
        rcases hrest with rfl | hlex
        · exact .inl rfl
        · exact .inr (.cons hlex)
      · -- The id at which the other order departs could have come here as well.
        have hle := (h pre a s horder).2 b (hids.available hd hsplit)
        exact .inr (.rel (lt_of_le_of_ne hle hab))

/-! ## Positions and ids -/

namespace Checked

variable {c : Checked α} {placed : List Nat} {i : Nat}

/-- A node is ready if and only if its id could come next. -/
theorem ready_iff_available (hc : c.Faithful) (hplaced : ∀ j ∈ placed, j < c.size)
    (hi : i < c.size) :
    c.Ready placed i ↔ c.model.Available (placed.map c.idAt) (c.idAt i) := by
  have hmem : ∀ j < c.size, c.idAt j ∈ placed.map c.idAt ↔ j ∈ placed := by
    intro j hj
    rw [List.mem_map]
    constructor
    · rintro ⟨k, hk, heq⟩
      exact idAt_inj hc (hplaced k hk) hj heq ▸ hk
    · exact fun hj => ⟨j, hj, rfl⟩
  constructor
  · rintro ⟨-, hunplaced, hinputs⟩
    obtain ⟨n, hn⟩ := exists_node hi
    refine ⟨?_, mt (hmem i hi).1 hunplaced, fun a ha => ?_⟩
    · exact Model.mem_ids.2 ⟨n, List.mem_of_getElem? hn, (idAt_eq hn).symm⟩
    · obtain ⟨j, hj, rfl⟩ := (joined_idAt hc hi).1 ha
      exact List.mem_map_of_mem (hinputs j hj)
  · rintro ⟨-, hunplaced, hinputs⟩
    refine ⟨hi, mt (hmem i hi).2 hunplaced, fun j hj => ?_⟩
    exact (hmem j (Model.feeds_lt hj).1).1 (hinputs _ (Model.joined_of_feeds hj))

theorem orderIds_perm (hc : c.Faithful) : c.orderIds.Perm c.model.ids := by
  have hids : (List.range c.size).map c.idAt = c.model.ids := by
    refine List.ext_getElem? fun i => ?_
    unfold Model.ids
    rw [List.getElem?_map, List.getElem?_map]
    by_cases hi : i < c.size
    · obtain ⟨n, hn⟩ := exists_node hi
      rw [List.getElem?_range hi, hn]
      exact congrArg some (idAt_eq hn)
    · rw [List.getElem?_eq_none (by rw [List.length_range]; omega),
        List.getElem?_eq_none (Nat.le_of_not_lt hi)]
      rfl
  exact hids ▸ (order_topological hc).perm.map c.idAt

theorem orderIds_leastFirst (hc : c.Faithful) : c.model.LeastFirst c.orderIds := by
  intro pre id post hsplit
  have hgreedy := order_greedy hc
  obtain ⟨before, after, horder, rfl, hafter⟩ := List.map_eq_append_iff.1 hsplit
  obtain ⟨i, rest, rfl, rfl, rfl⟩ := List.map_eq_cons_iff.1 hafter
  obtain ⟨hready, hleast⟩ := hgreedy.at_split horder
  have hbefore : ∀ j ∈ before, j < c.size :=
    fun j hj => hgreedy.lt j (horder ▸ List.mem_append_left _ hj)
  refine ⟨(ready_iff_available hc hbefore hready.lt).1 hready, fun other hother => ?_⟩
  obtain ⟨n, hn, rfl⟩ := Model.mem_ids.1 hother.mem
  obtain ⟨j, hj⟩ := List.getElem?_of_mem hn
  rw [← idAt_eq hj] at hother ⊢
  exact hleast j ((ready_iff_available hc hbefore (lt_size hj)).2 hother)

end Checked

/-! ## Waits -/

namespace Frontier

variable {c : Checked α} {f : Frontier}

/-- Whenever placing the first ready node ends a wait of another node, there is one to end. -/
def EndsWaits (c : Checked α) (f : Frontier) : Prop :=
  ∀ p ready done j rest, f.ready = p :: ready → c.dependentsOf p.2 = done ++ j :: rest →
    0 < (done.foldl (release c)
      { f with ready := ready, placed := f.placed ++ [p.2] }).waiting.getD j 0

theorem Invariant.endsWaits (hc : c.Faithful) (hf : Invariant c f) : EndsWaits c f := by
  rintro ⟨id, i⟩ ready done j rest hready hsplit
  have hi : c.Ready f.placed i := ((hf.ready (id, i)).1 (hready ▸ List.mem_cons_self)).2
  have hdone : ∀ k ∈ done, k < f.waiting.length := by
    intro k hk
    have hmem : k ∈ c.dependentsOf i := hsplit ▸ List.mem_append_left _ hk
    rw [hf.length]
    exact (Model.feeds_lt ((Checked.mem_dependentsOf hc).1 hmem)).2
  have hcount := Checked.openInputs_snoc hc hi.unplaced j
  rw [hsplit, List.count_append, List.count_cons_self, ← hf.waiting] at hcount
  rw [(fold_release (f := { f with ready := ready, placed := f.placed ++ [i] }) hdone).waiting]
  show 0 < f.waiting.getD j 0 - done.count j
  omega

end Frontier

/-! ## Top theorem -/

/-- Scheduling places one node in every step, as long as there are nodes, and never ends a wait
that is not there; what it makes is the lexicographically least topological order. -/
theorem order_lexicographically_least [Number α] {c : Checked α} {strict : Bool}
    (h : validate strict m = .ok c) :
    (∀ count, (Frontier.run c count (Frontier.start c)).placed.length = min count m.nodes.length ∧
      ((Frontier.run c count (Frontier.start c)).ready = [] ↔ m.nodes.length ≤ count) ∧
      (Frontier.run c count (Frontier.start c)).EndsWaits c) ∧
    c.order.Perm (List.range m.nodes.length) ∧
    m.Topological c.orderIds ∧
    m.LeastFirst c.orderIds ∧
    ∀ ids, m.Topological ids → ids = c.orderIds ∨ List.Lex (· < ·) c.orderIds ids := by
  obtain ⟨hc, rfl⟩ := faithful_of_validate h
  have hleast := Checked.orderIds_leastFirst hc
  have hperm := Checked.orderIds_perm hc
  refine ⟨fun count => ?_, (Checked.order_topological hc).perm,
    hleast.topological hperm fun a b => ?_, hleast, fun ids hids => ?_⟩
  · obtain ⟨hf, hlength⟩ := Frontier.run_spec hc count (Frontier.invariant_start hc)
    have hlength : (Frontier.run c count (Frontier.start c)).placed.length = min count c.size := by
      rw [hlength]
      exact congrArg (min · c.size) (Nat.zero_add count)
    refine ⟨hlength, ?_, hf.endsWaits hc⟩
    rw [hf.ready_eq_nil_iff hc, hlength]
    exact min_eq_right_iff
  · rintro ⟨e, he, -, rfl⟩
    exact (hc.wellWired.edgesJoinNodes e he).2
  · exact hleast.eq_or_lex hids hc.wellWired.distinctIds
      (hperm.trans hids.perm.symm).length_eq (List.nil_append _).symm (List.nil_append _).symm

/-- A quiz that counts twice, homework, and a talk that does not count. -/
def twiceModel : Model Float where
  nodes :=
    [⟨"grade", .sink⟩, ⟨"sum", .addition⟩, ⟨"talk", .source ⟨none, .ignore⟩⟩,
      ⟨"quiz", .source ⟨none, .ignore⟩⟩, ⟨"homework", .source ⟨none, .ignore⟩⟩]
  edges :=
    [Edge.join "quiz" "sum" 0, Edge.join "quiz" "sum" 1, Edge.join "homework" "sum" 2,
      Edge.join "sum" "grade" 0]

theorem order_lexicographically_least_twice :
    validate false twiceModel = .ok (twiceModel.accepted 0) ∧
      (twiceModel.accepted 0).orderIds = ["homework", "quiz", "sum", "grade", "talk"] ∧
      ∀ ids, twiceModel.Topological ids → ids = ["homework", "quiz", "sum", "grade", "talk"] ∨
        List.Lex (· < ·) ["homework", "quiz", "sum", "grade", "talk"] ids := by
  have hvalid : validate false twiceModel = .ok (twiceModel.accepted 0) := rfl
  have horder : (twiceModel.accepted 0).orderIds =
      ["homework", "quiz", "sum", "grade", "talk"] := by decide +kernel
  refine ⟨hvalid, horder, ?_⟩
  have hleast := (order_lexicographically_least hvalid).2.2.2.2
  rwa [horder] at hleast

end Grading
