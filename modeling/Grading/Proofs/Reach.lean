import Grading.Check.Reach
import Grading.Proofs.Links
import Grading.Proofs.Sorted

/-!
# The search for contributing nodes finds all paths

The backward search of `Model.contributors` finds exactly the positions from which a path of
links, possibly empty, leads to a sink:

    i ∈ m.contributors m.links ↔ ∃ s ∈ m.sinks, a path of links leads from i to s
                                                                          (mem_contributors)

`spread` is first seen over any table of predecessors that stays below `n`.  What it has found is
distinct, so no more than `n` rounds are needed, and whatever has left the queue has all its
predecessors among the found nodes; that is the invariant of `spread_closed`.  So it is not the
number of rounds that ends the search, but its queue, which every node enters once (`Drains`).
-/

namespace Grading

variable {α : Type}

/-! ## The search -/

/-- The nodes that are queued when the search goes on from a node. -/
def newlyFound (previous : Nat → List Nat) (found : List Nat) (i : Nat) : List Nat :=
  (previous i).eraseDups.filter fun j => !found.contains j

/-- Going on from a queue until it is empty takes that many rounds and ends with those nodes
found.  A node is found when it is queued. -/
inductive Drains (previous : Nat → List Nat) : Nat → List Nat → List Nat → List Nat → Prop where
  | empty (found : List Nat) : Drains previous 0 [] found found
  | round {rounds i : Nat} {queue found result : List Nat} :
      Drains previous rounds (queue ++ newlyFound previous found i)
        (found ++ newlyFound previous found i) result →
      Drains previous (rounds + 1) (i :: queue) found result

section

variable {previous : Nat → List Nat} {found : List Nat} {i j : Nat}

theorem mem_newlyFound : j ∈ newlyFound previous found i ↔ j ∈ previous i ∧ j ∉ found := by
  unfold newlyFound
  rw [List.mem_filter, List.mem_eraseDups]
  simp

/-- Nothing that was found is queued again, and nothing is queued twice at once. -/
theorem nodup_append_newlyFound (hd : found.Nodup) :
    (found ++ newlyFound previous found i).Nodup := by
  rw [List.nodup_append]
  refine ⟨hd, (nodup_eraseDups _).filter _, ?_⟩
  rintro a ha b hb rfl
  exact (mem_newlyFound.1 hb).2 ha

theorem newlyFound_lt {n : Nat} (hp : ∀ i, ∀ j ∈ previous i, j < n) (hn : ∀ i ∈ found, i < n) :
    ∀ j ∈ found ++ newlyFound previous found i, j < n := by
  intro j hj
  rcases List.mem_append.1 hj with hj | hj
  · exact hn j hj
  · exact hp i j (mem_newlyFound.1 hj).1

theorem mem_spread_of_found {i : Nat} (fuel : Nat) (queue found : List Nat) (h : i ∈ found) :
    i ∈ spread previous fuel queue found := by
  induction fuel generalizing queue found with
  | zero => exact h
  | succ fuel ih =>
    cases queue with
    | nil => exact h
    | cons k queue => exact ih _ _ (List.mem_append_left _ h)

/-- What holds of the found nodes and carries over to predecessors holds of all. -/
theorem spread_sound {P : Nat → Prop} (hp : ∀ i, P i → ∀ j ∈ previous i, P j) (fuel : Nat)
    (queue found : List Nat) (hq : ∀ i ∈ queue, P i) (hf : ∀ i ∈ found, P i) :
    ∀ i ∈ spread previous fuel queue found, P i := by
  induction fuel generalizing queue found with
  | zero => exact hf
  | succ fuel ih =>
    cases queue with
    | nil => exact hf
    | cons k queue =>
      have hnew : ∀ i ∈ (previous k).eraseDups.filter fun j => !found.contains j, P i := by
        intro i hi
        exact hp k (hq k List.mem_cons_self) i (List.mem_eraseDups.1 (List.mem_filter.1 hi).1)
      refine ih _ _ (fun i hi => ?_) (fun i hi => ?_)
      · rcases List.mem_append.1 hi with hi | hi
        · exact hq i (List.mem_cons_of_mem _ hi)
        · exact hnew i hi
      · rcases List.mem_append.1 hi with hi | hi
        · exact hf i hi
        · exact hnew i hi

theorem spread_closed {n : Nat} (hp : ∀ i, ∀ j ∈ previous i, j < n) (fuel : Nat)
    (queue found : List Nat) (hd : found.Nodup) (hn : ∀ i ∈ found, i < n)
    (hfuel : n + queue.length ≤ fuel + found.length)
    (hdone : ∀ i ∈ found, i ∉ queue → ∀ j ∈ previous i, j ∈ found) :
    ∀ i ∈ spread previous fuel queue found, ∀ j ∈ previous i,
      j ∈ spread previous fuel queue found := by
  induction fuel generalizing queue found with
  | zero =>
    have hlen := length_le_of_nodup_lt hd hn
    have hq : queue = [] := List.eq_nil_of_length_eq_zero (by omega)
    subst hq
    exact fun i hi => hdone i hi List.not_mem_nil
  | succ fuel ih =>
    cases queue with
    | nil => exact fun i hi => hdone i hi List.not_mem_nil
    | cons k queue =>
      refine ih _ _ (nodup_append_newlyFound hd) (newlyFound_lt hp hn) ?_ ?_
      · simp only [List.length_append, List.length_cons] at hfuel ⊢
        omega
      · intro i hi hnot j hj
        rw [List.mem_append] at hi hnot ⊢
        have hi : i ∈ found := hi.resolve_right fun h => hnot (Or.inr h)
        by_cases hik : i = k
        · subst hik
          by_cases hjf : j ∈ found
          · exact Or.inl hjf
          · exact Or.inr (mem_newlyFound.2 ⟨hj, hjf⟩)
        · have hiq : i ∉ k :: queue := by
            rw [List.mem_cons]
            exact not_or.2 ⟨hik, fun h => hnot (Or.inl h)⟩
          exact Or.inl (hdone i hi hiq j hj)

/-- With rounds for all nodes below `n` the search goes on until its queue is empty; each node is
queued once, and each round takes one out. -/
theorem spread_drains {n : Nat} (hp : ∀ i, ∀ j ∈ previous i, j < n) (fuel : Nat)
    (queue found : List Nat) (hd : found.Nodup) (hn : ∀ i ∈ found, i < n)
    (hfuel : n + queue.length ≤ fuel + found.length) :
    ∃ rounds ≤ fuel, Drains previous rounds queue found (spread previous fuel queue found) ∧
      (spread previous fuel queue found).Nodup ∧
      rounds + found.length = (spread previous fuel queue found).length + queue.length := by
  induction fuel generalizing queue found with
  | zero =>
    have hlen := length_le_of_nodup_lt hd hn
    have hq : queue = [] := List.eq_nil_of_length_eq_zero (by omega)
    subst hq
    exact ⟨0, Nat.le_refl 0, .empty found, hd, by simp [spread]⟩
  | succ fuel ih =>
    cases queue with
    | nil => exact ⟨0, by omega, .empty found, hd, by simp [spread]⟩
    | cons k queue =>
      have hfuel' : n + (queue ++ newlyFound previous found k).length ≤
          fuel + (found ++ newlyFound previous found k).length := by
        simp only [List.length_append, List.length_cons] at hfuel ⊢
        omega
      obtain ⟨rounds, hle, hdrains, hnodup, hlength⟩ :=
        ih _ _ (nodup_append_newlyFound hd) (newlyFound_lt hp hn) hfuel'
      refine ⟨rounds + 1, by omega, .round hdrains, hnodup, ?_⟩
      show rounds + 1 + found.length = (spread previous fuel
        (queue ++ newlyFound previous found k) (found ++ newlyFound previous found k)).length +
          (queue.length + 1)
      simp only [List.length_append] at hlength
      omega

end

/-! ## The contributing nodes of a model -/

namespace Model

variable {m : Model α} {i j : Nat}

theorem sinks_sorted (m : Model α) : m.sinks.Pairwise (· < ·) := by
  have h : (m.nodes.zipIdx.map (·.2)).Pairwise (· < ·) := by
    rw [List.zipIdx_map_snd]
    exact List.pairwise_lt_range'
  exact h.sublist ((List.filter_sublist.trans List.filter_sublist).map _)

theorem sinks_nodup (m : Model α) : m.sinks.Nodup := m.sinks_sorted.imp Nat.ne_of_lt

theorem sinks_lt (h : i ∈ m.sinks) : i < m.nodes.length := by
  obtain ⟨n, hn, -⟩ := mem_sinks.1 h
  exact (List.getElem?_eq_some_iff.1 hn).1

/-- The nodes that lead into a node, as the search looks them up. -/
def predecessors (m : Model α) (i : Nat) : List Nat :=
  ((List.range m.nodes.length).map fun i => (Link.into m.links i).map (·.source)).getD i []

theorem contributors_eq (m : Model α) :
    m.contributors m.links = spread m.predecessors m.nodes.length m.sinks m.sinks := rfl

theorem mem_predecessors : j ∈ m.predecessors i ↔ Feeds m.links j i := by
  unfold predecessors
  rw [getD_range_map _ fun k hk => by rw [into_eq_nil hk]; rfl, List.mem_map]
  unfold Feeds
  constructor
  · rintro ⟨l, hl, hs⟩
    obtain ⟨hl, ht⟩ := mem_into.1 hl
    exact ⟨l, hl, hs, ht⟩
  · rintro ⟨l, hl, hs, ht⟩
    exact ⟨l, mem_into.2 ⟨hl, ht⟩, hs⟩

theorem predecessors_lt (i : Nat) : ∀ j ∈ m.predecessors i, j < m.nodes.length :=
  fun _ hj => (feeds_lt (mem_predecessors.1 hj)).1

/-- On every model, whatever circles its links make, the search ends with an empty queue: every
contributing node is queued once and taken from the queue once. -/
theorem contributors_drain (m : Model α) :
    Drains m.predecessors (m.contributors m.links).length m.sinks m.sinks
        (m.contributors m.links) ∧
      (m.contributors m.links).Nodup ∧ (m.contributors m.links).length ≤ m.nodes.length := by
  obtain ⟨rounds, hle, hdrains, hnodup, hlength⟩ := spread_drains (n := m.nodes.length)
    predecessors_lt m.nodes.length m.sinks m.sinks m.sinks_nodup (fun _ => sinks_lt) (Nat.le_refl _)
  rw [← contributors_eq] at hdrains hnodup hlength
  obtain rfl : rounds = (m.contributors m.links).length := by omega
  exact ⟨hdrains, hnodup, hle⟩

/-- The search finds the positions from which a path of links leads to a sink, and no others. -/
theorem mem_contributors : i ∈ m.contributors m.links ↔
    ∃ s ∈ m.sinks, Relation.ReflTransGen (Feeds m.links) i s := by
  rw [contributors_eq]
  constructor
  · refine spread_sound (P := fun i => ∃ s ∈ m.sinks, Relation.ReflTransGen (Feeds m.links) i s)
      (fun k hk j hj => ?_) _ _ _ ?_ ?_ i
    · obtain ⟨s, hs, hks⟩ := hk
      exact ⟨s, hs, hks.head (mem_predecessors.1 hj)⟩
    · exact fun s hs => ⟨s, hs, .refl⟩
    · exact fun s hs => ⟨s, hs, .refl⟩
  · rintro ⟨s, hs, his⟩
    induction his using Relation.ReflTransGen.head_induction_on with
    | refl => exact mem_spread_of_found _ _ _ hs
    | head hjk _ ih =>
      refine spread_closed predecessors_lt _ _ _ m.sinks_nodup ?_ (Nat.le_refl _) ?_ _ ih _
        (mem_predecessors.2 hjk)
      · exact fun k hk => sinks_lt hk
      · exact fun k hk hnot => absurd hk hnot

end Model

end Grading
