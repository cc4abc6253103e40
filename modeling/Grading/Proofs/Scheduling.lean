import Mathlib.Order.WellFounded
import Grading.Schedule
import Grading.Proofs.Tables

/-!
# The evaluation order

A list of nodes is greedy if it was made by placing, over and over, the ready node with the
least id.  Scheduling keeps that true of the nodes placed so far; with no circles some node is
always ready until all are placed, so the order holds every node, each after all that it reads
from:

    c.Faithful → c.Greedy c.order                                           (order_greedy)
    c.Faithful → c.Topological c.order                                      (order_topological)
-/

namespace Grading

variable {α : Type}

namespace Checked

/-! ## Orders of nodes -/

/-- The node is not placed, and all nodes that it reads from are. -/
structure Ready (c : Checked α) (placed : List Nat) (i : Nat) : Prop where
  lt : i < c.size
  unplaced : i ∉ placed
  inputs : ∀ j, Feeds c.model.links j i → j ∈ placed

/-- Lists made by placing a ready node of least id, over and over. -/
inductive Greedy (c : Checked α) : List Nat → Prop where
  | nil : Greedy c []
  | snoc {placed : List Nat} {i : Nat} : Greedy c placed → c.Ready placed i →
      (∀ j, c.Ready placed j → c.idAt i ≤ c.idAt j) → Greedy c (placed ++ [i])

/-- Every node once, and none before a node that it reads from. -/
structure Topological (c : Checked α) (order : List Nat) : Prop where
  perm : order.Perm (List.range c.size)
  inputsFirst : order.Pairwise fun a b => ¬ Feeds c.model.links b a

variable {c : Checked α} {placed pre post : List Nat} {i j : Nat}

namespace Greedy

theorem lt (h : c.Greedy placed) : ∀ i ∈ placed, i < c.size := by
  induction h with
  | nil => exact fun _ h => absurd h List.not_mem_nil
  | snoc _ hready _ ih =>
    intro i hi
    rcases List.mem_append.1 hi with hi | hi
    · exact ih i hi
    · rw [List.mem_singleton.1 hi]
      exact hready.lt

theorem nodup (h : c.Greedy placed) : placed.Nodup := by
  induction h with
  | nil => exact List.nodup_nil
  | snoc _ hready _ ih =>
    rw [List.nodup_append]
    refine ⟨ih, List.nodup_singleton _, fun a ha b hb hab => ?_⟩
    rw [hab, List.mem_singleton.1 hb] at ha
    exact hready.unplaced ha

/-- With a node, all nodes that it reads from are placed. -/
theorem inputs (h : c.Greedy placed) (hj : j ∈ placed) (hij : Feeds c.model.links i j) :
    i ∈ placed := by
  induction h with
  | nil => exact absurd hj List.not_mem_nil
  | snoc _ hready _ ih =>
    rw [List.mem_append] at hj ⊢
    rcases hj with hj | hj
    · exact .inl (ih hj)
    · rw [List.mem_singleton.1 hj] at hij
      exact .inl (hready.inputs i hij)

theorem inputsFirst (h : c.Greedy placed) :
    placed.Pairwise fun a b => ¬ Feeds c.model.links b a := by
  induction h with
  | nil => exact List.Pairwise.nil
  | snoc hplaced hready _ ih =>
    rw [List.pairwise_append]
    refine ⟨ih, List.pairwise_singleton _ _, fun a ha b hb hba => ?_⟩
    rw [List.mem_singleton.1 hb] at hba
    exact hready.unplaced (hplaced.inputs ha hba)

/-- At every place of a greedy list stands a ready node, and one of least id. -/
theorem at_split (h : c.Greedy placed) (hsplit : placed = pre ++ i :: post) :
    c.Ready pre i ∧ ∀ j, c.Ready pre j → c.idAt i ≤ c.idAt j := by
  induction h generalizing post with
  | nil => simp at hsplit
  | snoc _ hready hleast ih =>
    rcases List.eq_nil_or_concat post with rfl | ⟨post, k, rfl⟩
    · obtain ⟨rfl, hlast⟩ := List.append_inj' hsplit rfl
      obtain rfl := List.head_eq_of_cons_eq hlast
      exact ⟨hready, hleast⟩
    · rw [List.concat_eq_append, ← List.cons_append, ← List.append_assoc] at hsplit
      exact ih (List.append_inj' hsplit rfl).1

end Greedy

/-- After a ready node is placed, ready are the others that were, and the nodes that read from it
and from no node that is not placed. -/
theorem ready_snoc (hc : c.Faithful) (h : c.Greedy placed) (hi : c.Ready placed i) :
    c.Ready (placed ++ [i]) j ↔ c.Ready placed j ∧ j ≠ i ∨
      Feeds c.model.links i j ∧ ∀ k, Feeds c.model.links k j → k ∈ placed ++ [i] := by
  have hmem : ∀ k, k ∈ placed ++ [i] ↔ k ∈ placed ∨ k = i := by simp
  constructor
  · intro hj
    by_cases hfeeds : Feeds c.model.links i j
    · exact .inr ⟨hfeeds, hj.inputs⟩
    · have hunplaced := not_or.1 (mt (hmem j).2 hj.unplaced)
      refine .inl ⟨⟨hj.lt, hunplaced.1, fun k hk => ?_⟩, hunplaced.2⟩
      refine ((hmem k).1 (hj.inputs k hk)).resolve_right ?_
      rintro rfl
      exact hfeeds hk
  · rintro (⟨hj, hne⟩ | ⟨hfeeds, hinputs⟩)
    · refine ⟨hj.lt, ?_, fun k hk => (hmem k).2 (.inl (hj.inputs k hk))⟩
      rw [hmem]
      exact not_or.2 ⟨hj.unplaced, hne⟩
    · refine ⟨(Model.feeds_lt hfeeds).2, ?_, hinputs⟩
      rw [hmem, not_or]
      refine ⟨fun hj => hi.unplaced (h.inputs hj hfeeds), fun hj => ?_⟩
      exact not_feeds_circle hc i (.single (hj ▸ hfeeds))

/-- The number of links into a node from nodes that are not placed. -/
def openInputs (c : Checked α) (placed : List Nat) (i : Nat) : Nat :=
  ((c.inputsOf i).map (·.2)).countP fun j => j ∉ placed

theorem openInputs_nil (i : Nat) : c.openInputs [] i = (c.inputsOf i).length := by
  unfold openInputs
  rw [List.countP_eq_length.2 (by simp), List.length_map]

theorem openInputs_eq_zero (h : c.Faithful) : c.openInputs placed i = 0 ↔
    ∀ j, Feeds c.model.links j i → j ∈ placed := by
  unfold openInputs
  rw [List.countP_eq_zero]
  simp only [mem_inputsOf h, decide_eq_true_eq, not_not]

/-- Placing a node closes all links out of it. -/
theorem openInputs_snoc (h : c.Faithful) (hi : i ∉ placed) (j : Nat) :
    c.openInputs (placed ++ [i]) j + (c.dependentsOf i).count j = c.openInputs placed j := by
  rw [count_dependentsOf h]
  unfold openInputs
  induction (c.inputsOf j).map (·.2) with
  | nil => rfl
  | cons k ks ih =>
    rw [List.countP_cons, List.countP_cons, List.count_cons]
    by_cases hk : k = i
    · rw [if_neg (by simp [hk]), if_pos (by simp [hk]), if_pos (by simp [hk, hi])]
      omega
    · rw [if_neg (show ¬ (k == i) = true by simpa using hk)]
      by_cases hplaced : k ∈ placed
      · rw [if_neg (by simp [hplaced]), if_neg (by simp [hplaced])]
        omega
      · rw [if_pos (by simp [hk, hplaced]), if_pos (by simp [hplaced])]
        omega

end Checked

namespace Frontier

variable {c : Checked α} {f g : Frontier} {p : String × Nat} {i j : Nat}

/-! ## Releasing -/

theorem comesBefore_total (a b : String × Nat) (h : comesBefore a b = false) :
    comesBefore b a = true := lexLe_total a b h

theorem comesBefore_trans (a b d : String × Nat) (hab : comesBefore a b = true)
    (hbd : comesBefore b d = true) : comesBefore a d = true := lexLe_trans a b d hab hbd

theorem fst_le_of_comesBefore {a b : String × Nat} (h : comesBefore a b = true) : a.1 ≤ b.1 :=
  key_le_of_lexLe h

/-- What one wait less for each entry of `js` makes of a frontier. -/
structure Released (c : Checked α) (js : List Nat) (f g : Frontier) : Prop where
  placed : g.placed = f.placed
  length : g.waiting.length = f.waiting.length
  waiting : ∀ j, g.waiting.getD j 0 = f.waiting.getD j 0 - js.count j
  ready : ∀ p, p ∈ g.ready ↔
    p ∈ f.ready ∨ p.1 = c.idAt p.2 ∧ p.2 ∈ js ∧ g.waiting.getD p.2 0 = 0
  sorted : (f.ready.Pairwise fun a b => comesBefore a b = true) →
    g.ready.Pairwise fun a b => comesBefore a b = true
  nodup : f.ready.Nodup → (∀ j ∈ js, (c.idAt j, j) ∉ f.ready) →
    (∀ j, js.count j ≤ f.waiting.getD j 0) → g.ready.Nodup

theorem waiting_release (hj : j < f.waiting.length) (k : Nat) :
    (f.release c j).waiting.getD k 0 =
      if k = j then f.waiting.getD j 0 - 1 else f.waiting.getD k 0 := by
  unfold release
  simp only [List.getD_eq_getElem?_getD, List.getElem?_set]
  by_cases hk : k = j
  · rw [if_pos hk.symm, if_pos hj, if_pos hk]
    rfl
  · rw [if_neg (Ne.symm hk), if_neg hk]

theorem mem_ready_release : p ∈ (f.release c j).ready ↔
    p ∈ f.ready ∨ p = (c.idAt j, j) ∧ f.waiting.getD j 0 - 1 = 0 := by
  show p ∈ (if f.waiting.getD j 0 - 1 = 0 then insertBy comesBefore (c.idAt j, j) f.ready
    else f.ready) ↔ _
  by_cases h : f.waiting.getD j 0 - 1 = 0
  · rw [if_pos h, (insertBy_perm _ _ _).mem_iff, List.mem_cons, or_comm, and_iff_left h]
  · rw [if_neg h]
    exact ⟨.inl, fun hmem => hmem.resolve_right fun hnew => h hnew.2⟩

theorem sorted_release (h : f.ready.Pairwise fun a b => comesBefore a b = true) :
    (f.release c j).ready.Pairwise fun a b => comesBefore a b = true := by
  unfold release
  by_cases hleft : f.waiting.getD j 0 - 1 = 0
  · simp only [if_pos hleft]
    exact insertBy_pairwise comesBefore_total comesBefore_trans _ h
  · simp only [if_neg hleft]
    exact h

theorem nodup_release (h : f.ready.Nodup) (hj : (c.idAt j, j) ∉ f.ready) :
    (f.release c j).ready.Nodup := by
  unfold release
  by_cases hleft : f.waiting.getD j 0 - 1 = 0
  · simp only [if_pos hleft]
    exact (insertBy_perm _ _ _).nodup_iff.2 (List.nodup_cons.2 ⟨hj, h⟩)
  · simp only [if_neg hleft]
    exact h

theorem fold_release {js : List Nat} (hjs : ∀ j ∈ js, j < f.waiting.length) :
    Released c js f (js.foldl (release c) f) := by
  induction js generalizing f with
  | nil => exact ⟨rfl, rfl, fun _ => rfl, fun p => by simp, fun h => h, fun h _ _ => h⟩
  | cons j js ih =>
    have hj := hjs j List.mem_cons_self
    have hlength : (f.release c j).waiting.length = f.waiting.length := List.length_set
    have hw := @waiting_release _ c f j hj
    have hr : Released c js (f.release c j) (js.foldl (release c) (f.release c j)) :=
      ih fun k hk => hlength ▸ hjs k (List.mem_cons_of_mem j hk)
    have hwaiting : ∀ k, (js.foldl (release c) (f.release c j)).waiting.getD k 0 =
        f.waiting.getD k 0 - (j :: js).count k := by
      intro k
      rw [hr.waiting, hw]
      by_cases hk : k = j
      · rw [if_pos hk, hk, List.count_cons_self]
        omega
      · rw [if_neg hk, List.count_cons_of_ne (Ne.symm hk)]
    refine ⟨hr.placed, hr.length.trans hlength, hwaiting, fun p => ?_,
      fun h => hr.sorted (sorted_release h), fun hd hfresh hcap => ?_⟩
    · rw [List.foldl_cons, hr.ready, mem_ready_release, List.mem_cons]
      constructor
      · rintro ((h | ⟨rfl, hleft⟩) | ⟨hid, hmem, hzero⟩)
        · exact .inl h
        · refine .inr ⟨rfl, .inl rfl, ?_⟩
          rw [hwaiting]
          show f.waiting.getD j 0 - (j :: js).count j = 0
          rw [List.count_cons_self]
          omega
        · exact .inr ⟨hid, .inr hmem, hzero⟩
      · rintro (h | ⟨hid, hmem, hzero⟩)
        · exact .inl (.inl h)
        · by_cases hlater : p.2 ∈ js
          · exact .inr ⟨hid, hlater, hzero⟩
          · have hp : p.2 = j := hmem.resolve_right hlater
            rw [hwaiting, hp, List.count_cons_self,
              List.count_eq_zero_of_not_mem (hp ▸ hlater)] at hzero
            exact .inl (.inr ⟨Prod.ext (hp ▸ hid) hp, by omega⟩)
    · -- A node that became ready has no wait left to end.
      refine hr.nodup (nodup_release hd (hfresh j List.mem_cons_self)) ?_ ?_
      · intro k hk hmem
        rcases mem_ready_release.1 hmem with hmem | ⟨heq, hleft⟩
        · exact hfresh k (List.mem_cons_of_mem j hk) hmem
        · obtain rfl : k = j := congrArg Prod.snd heq
          have := hcap k
          have := List.count_pos_iff.2 hk
          rw [List.count_cons_self] at *
          omega
      · intro k
        have := hcap k
        rw [hw]
        by_cases hk : k = j
        · rw [if_pos hk]
          rw [hk, List.count_cons_self] at this
          rw [hk]
          omega
        · rw [if_neg hk]
          rwa [List.count_cons_of_ne (Ne.symm hk)] at this

/-! ## The invariant of scheduling -/

/-- The placed nodes are a greedy list, every node waits for its inputs that are not placed, and
the ready nodes are listed in order. -/
structure Invariant (c : Checked α) (f : Frontier) : Prop where
  greedy : c.Greedy f.placed
  length : f.waiting.length = c.size
  waiting : ∀ i, f.waiting.getD i 0 = c.openInputs f.placed i
  ready : ∀ p, p ∈ f.ready ↔ p.1 = c.idAt p.2 ∧ c.Ready f.placed p.2
  sorted : f.ready.Pairwise fun a b => comesBefore a b = true
  nodup : f.ready.Nodup

theorem invariant_start (h : c.Faithful) : Invariant c (start c) := by
  have hwaiting : ∀ i, (start c).waiting.getD i 0 = c.openInputs [] i := by
    intro i
    rw [Checked.openInputs_nil]
    unfold start
    simp only [List.getD_eq_getElem?_getD, List.getElem?_map]
    by_cases hi : i < c.size
    · rw [List.getElem?_range hi]
      rfl
    · rw [List.getElem?_eq_none (by rw [List.length_range]; omega)]
      have hnone : (c.inputsOf i).map (·.2) = [] := by
        rw [List.eq_nil_iff_forall_not_mem]
        intro j hj
        have : i < c.size := (Model.feeds_lt ((Checked.mem_inputsOf h).1 hj)).2
        omega
      rw [List.map_eq_nil_iff.1 hnone]
      rfl
  have hready : ∀ p, p ∈ (start c).ready ↔ p.1 = c.idAt p.2 ∧ c.Ready [] p.2 := by
    rintro ⟨id, i⟩
    show (id, i) ∈ sortBy comesBefore ((c.model.nodes.zipIdx.filter fun p =>
      (start c).waiting.getD p.2 0 = 0).map fun p => (p.1.id, p.2)) ↔ _
    simp only [mem_sortBy, List.mem_map, List.mem_filter, decide_eq_true_eq, Prod.mk.injEq]
    constructor
    · rintro ⟨⟨n, j⟩, ⟨hn, hzero⟩, rfl, rfl⟩
      have hn := List.mk_mem_zipIdx_iff_getElem?.1 hn
      rw [hwaiting, Checked.openInputs_eq_zero h] at hzero
      exact ⟨(Model.idAt_eq hn).symm, (List.getElem?_eq_some_iff.1 hn).1, List.not_mem_nil, hzero⟩
    · rintro ⟨rfl, hi⟩
      obtain ⟨n, hn⟩ := Checked.exists_node hi.lt
      refine ⟨(n, i), ⟨List.mk_mem_zipIdx_iff_getElem?.2 hn, ?_⟩, (Model.idAt_eq hn).symm, rfl⟩
      rw [hwaiting, Checked.openInputs_eq_zero h]
      exact hi.inputs
  refine ⟨.nil, ?_, hwaiting, hready, sortBy_pairwise comesBefore_total comesBefore_trans _, ?_⟩
  · unfold start
    rw [List.length_map, List.length_range]
  · refine (sortBy_perm _ _).nodup_iff.2 (List.Nodup.map_on ?_ ?_)
    · rintro ⟨n, i⟩ hn ⟨n', i'⟩ hn' heq
      obtain rfl : i = i' := congrArg Prod.snd heq
      have hn := List.mk_mem_zipIdx_iff_getElem?.1 (List.mem_filter.1 hn).1
      have hn' := List.mk_mem_zipIdx_iff_getElem?.1 (List.mem_filter.1 hn').1
      rw [hn] at hn'
      rw [Option.some.inj hn']
    · refine List.Nodup.filter _ (List.Nodup.of_map (·.2) ?_)
      rw [List.zipIdx_map_snd]
      exact List.nodup_range'

/-- Placing the first ready node keeps the invariant. -/
theorem Invariant.place {ready : List (String × Nat)} (hc : c.Faithful) (hf : Invariant c f)
    (hready : f.ready = p :: ready) :
    let g := (c.dependentsOf p.2).foldl (release c)
      { f with ready := ready, placed := f.placed ++ [p.2] }
    Invariant c g ∧ g.placed = f.placed ++ [p.2] := by
  obtain ⟨id, i⟩ := p
  let opened : Frontier := { f with ready := ready, placed := f.placed ++ [i] }
  obtain ⟨hid, hhead⟩ : id = c.idAt i ∧ c.Ready f.placed i :=
    (hf.ready (id, i)).1 (hready ▸ List.mem_cons_self)
  have htail : ∀ p ∈ ready, p.1 = c.idAt p.2 ∧ c.Ready f.placed p.2 :=
    fun p hp => (hf.ready p).1 (hready ▸ List.mem_cons_of_mem _ hp)
  have hnodup := List.nodup_cons.1 (hready ▸ hf.nodup)
  have hsorted := List.pairwise_cons.1 (hready ▸ hf.sorted)
  have hne : ∀ p ∈ ready, p.2 ≠ i := by
    intro p hp hpi
    have heq : p = (id, i) := Prod.ext (by rw [(htail p hp).1, hid, hpi]) hpi
    exact hnodup.1 (heq ▸ hp)
  have hcount := Checked.openInputs_snoc hc hhead.unplaced
  have hr : Released c (c.dependentsOf i) opened ((c.dependentsOf i).foldl (release c) opened) := by
    refine fold_release fun j hj => ?_
    show j < f.waiting.length
    rw [hf.length]
    exact (Model.feeds_lt ((Checked.mem_dependentsOf hc).1 hj)).2
  have hwaiting : ∀ j, ((c.dependentsOf i).foldl (release c) opened).waiting.getD j 0 =
      c.openInputs (f.placed ++ [i]) j := by
    intro j
    rw [hr.waiting]
    show f.waiting.getD j 0 - _ = _
    rw [hf.waiting, ← hcount j]
    omega
  refine ⟨⟨?_, hr.length.trans hf.length, ?_, fun p => ?_, hr.sorted hsorted.2, ?_⟩, hr.placed⟩
  · rw [hr.placed]
    refine .snoc hf.greedy hhead fun j hj => ?_
    have hj' : (c.idAt j, j) ∈ f.ready := (hf.ready _).2 ⟨rfl, hj⟩
    rw [hready, List.mem_cons] at hj'
    rcases hj' with heq | hj'
    · rw [show j = i from congrArg Prod.snd heq]
    · exact hid ▸ fst_le_of_comesBefore (hsorted.1 _ hj')
  · intro j
    rw [hwaiting, hr.placed]
  · rw [hr.ready, hwaiting, Checked.openInputs_eq_zero hc, hr.placed,
      Checked.mem_dependentsOf hc]
    show p ∈ ready ∨ _ ↔ _ ∧ c.Ready (f.placed ++ [i]) p.2
    rw [Checked.ready_snoc hc hf.greedy hhead, and_or_left]
    refine or_congr ⟨fun hp => ?_, fun ⟨hid, hp, hpi⟩ => ?_⟩ Iff.rfl
    · exact ⟨(htail p hp).1, (htail p hp).2, hne p hp⟩
    · have hp := (hf.ready p).2 ⟨hid, hp⟩
      rw [hready, List.mem_cons] at hp
      exact hp.resolve_left fun heq => hpi (congrArg Prod.snd heq)
  · refine hr.nodup hnodup.2 (fun j hj hmem => ?_) fun j => ?_
    · have hinputs := (htail _ hmem).2.inputs
      exact hhead.unplaced (hinputs i ((Checked.mem_dependentsOf hc).1 hj))
    · show _ ≤ f.waiting.getD j 0
      have := hcount j
      rw [hf.waiting]
      omega

/-- Some node is ready until all are placed. -/
theorem Invariant.ready_ne_nil (hc : c.Faithful) (hf : Invariant c f)
    (hlt : f.placed.length < c.size) : f.ready ≠ [] := by
  have hunplaced : ∃ i, i < c.size ∧ i ∉ f.placed := by
    by_contra hall
    have hle := length_le_of_nodup (List.nodup_range (n := c.size)) (u := f.placed) fun i hi => by
      by_contra hi'
      exact hall ⟨i, List.mem_range.1 hi, hi'⟩
    rw [List.length_range] at hle
    omega
  obtain ⟨i, ⟨hi, hi'⟩, hmin⟩ := (Checked.feeds_wellFounded hc).has_min
    {i | i < c.size ∧ i ∉ f.placed} hunplaced
  have hready : c.Ready f.placed i := by
    refine ⟨hi, hi', fun j hj => ?_⟩
    by_contra hj'
    exact hmin j ⟨(Model.feeds_lt hj).1, hj'⟩ hj
  exact List.ne_nil_of_mem ((hf.ready (c.idAt i, i)).2 ⟨rfl, hready⟩)

theorem Invariant.step (hc : c.Faithful) (hf : Invariant c f) (hlt : f.placed.length < c.size) :
    Invariant c (f.step c) ∧ (f.step c).placed.length = f.placed.length + 1 := by
  have hne := hf.ready_ne_nil hc hlt
  unfold Frontier.step
  match hready : f.ready with
  | [] => exact absurd hready hne
  | p :: ready =>
    obtain ⟨hg, hplaced⟩ := hf.place hc hready
    refine ⟨hg, (congrArg List.length hplaced).trans ?_⟩
    rw [List.length_append, List.length_singleton]

theorem Invariant.placed_le (hf : Invariant c f) : f.placed.length ≤ c.size :=
  length_le_of_nodup_lt hf.greedy.nodup hf.greedy.lt

/-- Nothing is ready if and only if everything is placed. -/
theorem Invariant.ready_eq_nil_iff (hc : c.Faithful) (hf : Invariant c f) :
    f.ready = [] ↔ f.placed.length = c.size := by
  constructor
  · intro hready
    by_contra hlength
    exact hf.ready_ne_nil hc (lt_of_le_of_ne hf.placed_le hlength) hready
  · intro hlength
    rw [List.eq_nil_iff_forall_not_mem]
    intro p hp
    obtain ⟨hlt, hunplaced, -⟩ := ((hf.ready p).1 hp).2
    -- With one more node there would be more of them than positions.
    have hle := length_le_of_nodup_lt (List.nodup_cons.2 ⟨hunplaced, hf.greedy.nodup⟩)
      (List.forall_mem_cons.2 ⟨hlt, hf.greedy.lt⟩)
    rw [List.length_cons] at hle
    omega

theorem step_of_ready_nil (h : f.ready = []) : f.step c = f := by
  unfold Frontier.step
  rw [h]

/-- Every step places a node until all are placed, and then nothing happens any more. -/
theorem run_spec (hc : c.Faithful) (count : Nat) (hf : Invariant c f) :
    Invariant c (run c count f) ∧
      (run c count f).placed.length = min (f.placed.length + count) c.size := by
  induction count generalizing f with
  | zero => exact ⟨hf, (Nat.min_eq_left hf.placed_le).symm⟩
  | succ count ih =>
    unfold run
    by_cases hready : f.ready = []
    · have hlength := (hf.ready_eq_nil_iff hc).1 hready
      rw [step_of_ready_nil hready]
      exact ⟨(ih hf).1, by rw [(ih hf).2]; omega⟩
    · have hle := hf.placed_le
      have hne := mt (hf.ready_eq_nil_iff hc).2 hready
      obtain ⟨hstep, hlength⟩ := hf.step hc (by omega)
      exact ⟨(ih hstep).1, by rw [(ih hstep).2]; omega⟩

end Frontier

/-! ## Top theorems -/

namespace Checked

variable {c : Checked α}

theorem order_spec (hc : c.Faithful) : c.Greedy c.order ∧ c.order.length = c.size := by
  obtain ⟨hf, hlength⟩ := Frontier.run_spec hc c.size (Frontier.invariant_start hc)
  refine ⟨hf.greedy, hlength.trans ?_⟩
  show min (0 + c.size) c.size = c.size
  omega

theorem order_greedy (hc : c.Faithful) : c.Greedy c.order := (order_spec hc).1

/-- The evaluation order holds every node once, each after all that it reads from. -/
theorem order_topological (hc : c.Faithful) : c.Topological c.order := by
  obtain ⟨hgreedy, hlength⟩ := order_spec hc
  have hsub : c.order.Subperm (List.range c.size) :=
    List.subperm_of_subset hgreedy.nodup fun i hi => List.mem_range.2 (hgreedy.lt i hi)
  exact ⟨hsub.perm_of_length_le (by rw [hlength, List.length_range]), hgreedy.inputsFirst⟩

end Checked

end Grading
