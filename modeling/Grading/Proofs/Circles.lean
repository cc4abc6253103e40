import Mathlib.Data.List.Chain
import Mathlib.Logic.Relation
import Grading.Check.Cycles
import Grading.Proofs.ClosedWalks
import Grading.Proofs.Colouring
import Grading.Proofs.Links
import Grading.Proofs.Sorted

/-!
# The search for circles is sound and complete

The depth-first search of `Model.circles` finds a circle exactly if there is one:

    what is noted are circles, no two with the same nodes
                                                        (circle_of_mem_circles, circles_pairwise)
    no path without a link inside a noted circle leads back to its start  (acyclic_leftOver)
    m.circles m.links = [] ↔ no path of links leads from a position back to it
                                                                          (circles_eq_nil_iff)

`Search.Invariant` is what every state of the search satisfies: it is well coloured, what has been
noted are circles, and every black node is accessible against the direction of the successors that
no noted circle joins it to.  The last part makes the search complete: a node turns black when each
of its successors is black or on a noted circle with it, so there is no endless walk from a black
node but along noted circles.
-/

namespace Grading

variable {α : Type}

namespace Search

variable {next : Nat → List Nat} {n : Nat} {s t : Search} {i j : Nat} {js : List Nat}

/-! ## The invariant -/

/-- What every state of the search satisfies. -/
structure Invariant (next : Nat → List Nat) (n : Nat) (s : Search) : Prop where
  size : s.colours.length = n
  grey : ∀ i, s.colour i = .grey ↔ i ∈ s.path
  nodup : s.path.Nodup
  walk : s.path.IsChain fun a b => b ∈ next a
  circles : ∀ c ∈ s.circles, IsCircle (fun a b => b ∈ next a) c
  settled : ∀ i, s.colour i = .black →
    Acc (fun a b => LeftOver (fun a b => b ∈ next a) s.circles b a) i

theorem Invariant.wellColoured (hs : Invariant next n s) : WellColoured next n s :=
  ⟨hs.size, hs.grey, hs.nodup, hs.walk⟩

/-- The colours and the path have their part of the invariant, the circles and the black nodes
theirs. -/
theorem WellColoured.invariant (hs : WellColoured next n s)
    (hcircles : ∀ c ∈ s.circles, IsCircle (fun a b => b ∈ next a) c)
    (hsettled : ∀ i, s.colour i = .black →
      Acc (fun a b => LeftOver (fun a b => b ∈ next a) s.circles b a) i) : Invariant next n s :=
  ⟨hs.size, hs.grey, hs.nodup, hs.walk, hcircles, hsettled⟩

/-- What a visit leaves as it was, and that it takes no colour or circle back. -/
structure Later (s t : Search) : Prop where
  path : t.path = s.path
  black : ∀ i, s.colour i = .black → t.colour i = .black
  circles : s.circles <+: t.circles

theorem Later.refl (s : Search) : Later s s := ⟨rfl, fun _ h => h, List.prefix_refl _⟩

theorem Later.trans {u : Search} (h : Later s t) (h' : Later t u) : Later s u :=
  ⟨h'.path.trans h.path, fun i hi => h'.black i (h.black i hi), h.circles.trans h'.circles⟩

/-- The search is done with a link once its end is black or a circle that holds it is noted. -/
def Done (s : Search) (i j : Nat) : Prop := s.colour j = .black ∨ ∃ c ∈ s.circles, i ∈ c ∧ j ∈ c

theorem Done.later (h : Done s i j) (hst : Later s t) : Done t i j :=
  h.imp (hst.black j) fun ⟨c, hc, hboth⟩ => ⟨c, hst.circles.subset hc, hboth⟩

/-! ## Entering, closing and leaving -/

theorem Invariant.enter (hs : Invariant next n s) (hi : s.colour i = .white)
    (hlast : ∀ a ∈ s.path.getLast?, i ∈ next a) : Invariant next n (s.enter i) := by
  refine (hs.wellColoured.enter hi hlast).invariant hs.circles fun j hj => ?_
  rw [colour_enter hi] at hj
  by_cases hji : j = i
  · rw [if_pos hji] at hj
    cases hj
  · rw [if_neg hji] at hj
    exact hs.settled j hj

theorem Invariant.close (hs : Invariant next n s) (hj : s.colour j = .grey)
    (hlast : ∀ a ∈ s.path.getLast?, j ∈ next a) : Invariant next n (s.close j) := by
  refine (hs.wellColoured.close j).invariant (fun c hc => ?_) fun i hi => ?_
  · rcases List.mem_append.1 (show c ∈ s.circles ++ [_] from hc) with hc | hc
    · exact hs.circles c hc
    · rw [List.mem_singleton.1 hc]
      exact hs.wellColoured.circle hj hlast
  · exact Subrelation.accessible
      (fun h => h.of_covered fun c hc => ⟨c, List.mem_append_left _ hc, fun _ hx => hx⟩)
      (hs.settled i hi)

/-- The circle that a link back closes holds both of its ends. -/
theorem mem_close (hi : i ∈ s.path.getLast?) (hj : j ∈ s.path) :
    ∃ c ∈ (s.close j).circles, i ∈ c ∧ j ∈ c := by
  obtain ⟨front, back, hcut, -, hcircle⟩ := exists_cut hj
  refine ⟨_, List.mem_append_right _ List.mem_cons_self, ?_⟩
  rw [hcircle]
  refine ⟨?_, List.mem_cons_self⟩
  -- the circle is the end of the path, so it ends where the path does
  rw [hcut, List.getLast?_append_of_ne_nil _ (List.cons_ne_nil _ _)] at hi
  exact List.mem_of_getLast? hi

theorem later_close (s : Search) (j : Nat) : Later s (s.close j) :=
  ⟨rfl, fun _ h => h, List.prefix_append _ _⟩

/-- A node is left when it is the last one on the path and the search is done with all links out
of it. -/
theorem Invariant.leave {path : List Nat} (ht : Invariant next n t) (hpath : t.path = path ++ [i])
    (hdone : ∀ j ∈ next i, Done t i j) : Invariant next n (t.leave i) := by
  refine (ht.wellColoured.leave hpath).invariant ht.circles fun j hj => ?_
  rw [colour_leave] at hj
  by_cases hji : j = i
  · subst hji
    refine Acc.intro j fun k hk => ?_
    rcases hdone k hk.1 with hblack | ⟨c, hc, hj, hk'⟩
    · exact ht.settled k hblack
    · exact absurd hk' (hk.2 c hc hj)
  · rw [if_neg hji] at hj
    exact ht.settled j hj

/-- All that a visit does happens between entering its node and leaving it. -/
theorem Later.visit (h : Later (s.enter i) t) (hi : s.colour i = .white) : Later s (t.leave i) := by
  refine ⟨leave_path h.path, fun j hj => ?_, h.circles⟩
  rw [colour_leave]
  by_cases hji : j = i
  · rw [if_pos hji]
  · rw [if_neg hji]
    refine h.black j ?_
    rw [colour_enter hi, if_neg hji]
    exact hj

/-! ## Going through a list of nodes -/

/-- Going through successors of the last node on the path keeps the invariant, and the search is
done with the links to them. -/
theorem Explores.invariant {visits : List Visit} (h : Explores next js s t visits)
    (hs : Invariant next n s) (hlast : ∀ j ∈ js, ∀ a ∈ s.path.getLast?, j ∈ next a) :
    Invariant next n t ∧ Later s t ∧
      ∀ j ∈ js, t.colour j = .black ∨ ∃ a ∈ s.path.getLast?, Done t a j := by
  induction h with
  | done s => exact ⟨hs, Later.refl s, fun j hj => absurd hj List.not_mem_nil⟩
  | @white i js s t u _ _ hc _ _ ihinner ihlater =>
    rw [List.forall_mem_cons] at hlast
    obtain ⟨ht, hst, hdone⟩ := ihinner (hs.enter hc hlast.1) (successors_of_enter next _ _)
    have hlater := hst.visit hc
    have hleave : Invariant next n (t.leave i) := by
      refine ht.leave hst.path fun j hj => (hdone j hj).elim .inl ?_
      rintro ⟨a, ha, hboth⟩
      rw [enter_path, List.getLast?_concat, Option.mem_some_iff] at ha
      exact ha ▸ hboth
    obtain ⟨hu, htu, hrest⟩ := ihlater hleave (by rw [hlater.path]; exact hlast.2)
    rw [hlater.path] at hrest
    refine ⟨hu, hlater.trans htu, List.forall_mem_cons.2 ⟨.inl (htu.black i ?_), hrest⟩⟩
    rw [colour_leave, if_pos rfl]
  | @grey i js s u _ hc _ ih =>
    rw [List.forall_mem_cons] at hlast
    obtain ⟨hu, hsu, hrest⟩ := ih (hs.close hc hlast.1) hlast.2
    refine ⟨hu, (later_close s i).trans hsu, List.forall_mem_cons.2 ⟨?_, hrest⟩⟩
    have hmem := (hs.grey i).1 hc
    have hlastmem := List.getLast?_eq_some_getLast (List.ne_nil_of_mem hmem)
    exact .inr ⟨_, hlastmem, Done.later (.inr (mem_close hlastmem hmem)) hsu⟩
  | black hc _ ih =>
    rw [List.forall_mem_cons] at hlast
    obtain ⟨hu, hsu, hrest⟩ := ih hs hlast.2
    exact ⟨hu, hsu, List.forall_mem_cons.2 ⟨.inl (hsu.black _ hc), hrest⟩⟩

/-! ## The whole search -/

theorem invariant_start (hnext : ∀ i, ∀ j ∈ next i, i < n) : Invariant next n (start n) := by
  refine (wellColoured_start next n).invariant (fun c hc => absurd hc List.not_mem_nil)
    fun i hi => ?_
  rw [colour_start] at hi
  by_cases hlt : i < n
  · rw [if_pos hlt] at hi
    cases hi
  · exact Acc.intro i fun j hj => absurd (hnext i j hj.1) hlt

/-- At the end the path is empty again and all roots are black. -/
theorem run_spec (hnext : ∀ i, ∀ j ∈ next i, i < n) (roots : List Nat) :
    Invariant next n (run next n roots) ∧ (run next n roots).path = [] ∧
      ∀ i ∈ roots, (run next n roots).colour i = .black := by
  obtain ⟨visits, hvisits⟩ := run_explores next n roots
  obtain ⟨hinv, hlater, hdone⟩ :=
    hvisits.invariant (invariant_start hnext) (successors_of_nil rfl roots)
  refine ⟨hinv, hlater.path, fun i hi => (hdone i hi).elim id ?_⟩
  rintro ⟨a, ha, -⟩
  cases ha

/-- Over all nodes as roots, a walk that leads back to its start has a link inside a noted
circle. -/
theorem run_acyclic_leftOver (hnext : ∀ i, ∀ j ∈ next i, i < n) {roots : List Nat}
    (hroots : ∀ i < n, i ∈ roots) (i : Nat) :
    ¬ Relation.TransGen (LeftOver (fun a b => b ∈ next a) (run next n roots).circles) i i := by
  obtain ⟨hinv, -, hblack⟩ := run_spec hnext roots
  intro hcycle
  have hacc : ∀ i, Acc (fun a b => LeftOver (fun a b => b ∈ next a)
      (run next n roots).circles b a) i := by
    intro i
    by_cases hi : i < n
    · exact hinv.settled i (hblack i (hroots i hi))
    · exact Acc.intro i fun j hj => absurd (hnext i j hj.1) hi
  have hwf := WellFounded.transGen ⟨hacc⟩
  have hback := Relation.transGen_swap.1 hcycle
  exact hwf.asymmetric i i hback hback

end Search

/-! ## Circles of a model -/

/-- Keeps an entry unless one with the same key has been kept. -/
def keepNew (kept : List (List Nat × List Nat)) (entry : List Nat × List Nat) :
    List (List Nat × List Nat) :=
  if kept.any fun other => other.1 = entry.1 then kept else kept ++ [entry]

section

variable {kept l : List (List Nat × List Nat)} {entry e : List Nat × List Nat}

theorem mem_keepNew (h : e ∈ keepNew kept entry) : e ∈ kept ∨ e = entry := by
  unfold keepNew at h
  split at h
  · exact .inl h
  · simpa using h

theorem subset_keepNew : kept ⊆ keepNew kept entry := by
  unfold keepNew
  split
  · exact List.Subset.refl _
  · exact List.subset_append_left _ _

/-- The key of the new entry is among those kept. -/
theorem exists_mem_keepNew : ∃ e ∈ keepNew kept entry, e.1 = entry.1 := by
  unfold keepNew
  split
  · next h => simpa using h
  · exact ⟨entry, by simp, rfl⟩

theorem keepNew_pairwise (h : kept.Pairwise fun e e' => e.1 ≠ e'.1) :
    (keepNew kept entry).Pairwise fun e e' => e.1 ≠ e'.1 := by
  unfold keepNew
  split
  · exact h
  · next hnew =>
    refine List.pairwise_append.2 ⟨h, List.pairwise_singleton _ _, fun e he e' he' heq => hnew ?_⟩
    rw [List.any_eq_true]
    exact ⟨e, he, by simpa [List.mem_singleton.1 he'] using heq⟩

theorem mem_fold_keepNew (h : e ∈ l.foldl keepNew kept) : e ∈ kept ∨ e ∈ l := by
  induction l generalizing kept with
  | nil => exact .inl h
  | cons entry l ih =>
    rcases ih h with h | h
    · rcases mem_keepNew h with h | rfl
      · exact .inl h
      · exact .inr List.mem_cons_self
    · exact .inr (List.mem_cons_of_mem _ h)

theorem subset_fold_keepNew : kept ⊆ l.foldl keepNew kept := by
  induction l generalizing kept with
  | nil => exact List.Subset.refl _
  | cons entry l ih => exact List.Subset.trans subset_keepNew ih

theorem exists_mem_fold_keepNew (h : entry ∈ l) : ∃ e ∈ l.foldl keepNew kept, e.1 = entry.1 := by
  induction l generalizing kept with
  | nil => cases h
  | cons first l ih =>
    rcases List.mem_cons.1 h with rfl | h
    · obtain ⟨e, he, hkey⟩ := exists_mem_keepNew
      exact ⟨e, subset_fold_keepNew (l := l) he, hkey⟩
    · exact ih h

theorem fold_keepNew_pairwise (h : kept.Pairwise fun e e' => e.1 ≠ e'.1) :
    (l.foldl keepNew kept).Pairwise fun e e' => e.1 ≠ e'.1 := by
  induction l generalizing kept with
  | nil => exact h
  | cons entry l ih => exact ih (keepNew_pairwise h)

end

section

variable {circles : List (List Nat)} {c : List Nat}

/-- The nodes of a circle in order, by which circles are told apart. -/
def circleKey (circle : List Nat) : List Nat := sortBy (fun a b => decide (a ≤ b)) circle

theorem circleKey_perm (c : List Nat) : (circleKey c).Perm c := sortBy_perm _ c

theorem circleKey_eq_iff {c' : List Nat} (hc : c.Nodup) (hc' : c'.Nodup) :
    circleKey c = circleKey c' ↔ ∀ i, i ∈ c ↔ i ∈ c' := by
  constructor
  · intro heq i
    rw [← (circleKey_perm c).mem_iff, heq, (circleKey_perm c').mem_iff]
  · intro hmem
    have hsorted : ∀ c : List Nat, (circleKey c).Pairwise (· ≤ ·) := sortBy_key_pairwise id
    have hperm : c.Perm c' := (List.perm_ext_iff_of_nodup hc hc').2 hmem
    exact (((circleKey_perm c).trans hperm).trans (circleKey_perm c').symm).eq_of_pairwise
      (fun a b _ _ => Nat.le_antisymm) (hsorted c) (hsorted c')

/-- What the circles that stay are kept as. -/
theorem eq_of_mem_kept {e : List Nat × List Nat}
    (h : e ∈ (circles.map fun c => (circleKey c, c)).foldl keepNew []) :
    e.1 = circleKey e.2 ∧ e.2 ∈ circles := by
  rcases mem_fold_keepNew h with h | h
  · cases h
  · obtain ⟨c, hc, rfl⟩ := List.mem_map.1 h
    exact ⟨rfl, hc⟩

theorem mem_of_mem_distinctCircles (h : c ∈ distinctCircles circles) : c ∈ circles := by
  obtain ⟨e, he, rfl⟩ := List.mem_map.1 h
  exact (eq_of_mem_kept he).2

/-- Every circle is covered by one that stays. -/
theorem exists_mem_distinctCircles (h : c ∈ circles) :
    ∃ c' ∈ distinctCircles circles, ∀ i ∈ c, i ∈ c' := by
  obtain ⟨e, he, hkey⟩ : ∃ e ∈ (circles.map fun c => (circleKey c, c)).foldl keepNew [],
      e.1 = circleKey c := exists_mem_fold_keepNew (List.mem_map_of_mem h)
  refine ⟨e.2, List.mem_map_of_mem he, fun i hi => ?_⟩
  rwa [← (circleKey_perm e.2).mem_iff, ← (eq_of_mem_kept he).1, hkey, (circleKey_perm c).mem_iff]

/-- No two of the circles that stay have the same nodes. -/
theorem distinctCircles_pairwise (hd : ∀ c ∈ circles, c.Nodup) :
    (distinctCircles circles).Pairwise fun c c' => ¬ ∀ i, i ∈ c ↔ i ∈ c' := by
  refine List.pairwise_map.2 (List.Pairwise.imp_of_mem ?_ (fold_keepNew_pairwise List.Pairwise.nil))
  intro e e' he he' hne hmem
  obtain ⟨hkey, hc⟩ := eq_of_mem_kept he
  obtain ⟨hkey', hc'⟩ := eq_of_mem_kept he'
  exact hne (hkey.trans (((circleKey_eq_iff (hd _ hc) (hd _ hc')).2 hmem).trans hkey'.symm))

end

namespace Model

variable {m : Model α} {i j : Nat}

theorem mem_successors {links : List Link} : j ∈ Link.successors links i ↔ Feeds links i j := by
  unfold Link.successors Feeds
  rw [List.mem_eraseDups, List.mem_map]
  constructor
  · rintro ⟨l, hl, rfl⟩
    obtain ⟨hl, hs⟩ := mem_outOf.1 (mem_sortBy.1 hl)
    exact ⟨l, hl, hs, rfl⟩
  · rintro ⟨l, hl, hs, rfl⟩
    exact ⟨l, mem_sortBy.2 (mem_outOf.2 ⟨hl, hs⟩), rfl⟩

theorem mem_positionsById : i ∈ m.positionsById ↔ i < m.nodes.length := by
  unfold positionsById
  rw [List.mem_map]
  constructor
  · rintro ⟨p, hp, rfl⟩
    exact (List.getElem?_eq_some_iff.1 (List.mem_zipIdx_iff_getElem?.1 (mem_sortBy.1 hp))).1
  · intro hi
    exact ⟨(m.nodes[i], i), mem_sortBy.2 (List.mk_mem_zipIdx_iff_getElem?.2
      (List.getElem?_eq_getElem hi)), rfl⟩

/-- The table of successors by position. -/
theorem mem_successorTable : j ∈ ((List.range m.nodes.length).map
    (Link.successors m.links)).getD i [] ↔ Feeds m.links i j := by
  rw [getD_range_map _ fun k hk => ?_, mem_successors]
  unfold Link.successors
  rw [outOf_eq_nil hk]
  rfl

/-- The search that the circles of a model come from. -/
theorem exists_circles (m : Model α) : ∃ next roots,
    m.circles m.links = distinctCircles (Search.run next m.nodes.length roots).circles ∧
      (∀ i j, j ∈ next i ↔ Feeds m.links i j) ∧ ∀ i, i < m.nodes.length → i ∈ roots :=
  ⟨_, _, rfl, fun _ _ => mem_successorTable, fun _ => mem_positionsById.2⟩

/-- The circles that the search of a model notes are circles of links. -/
theorem circle_of_mem_circles {c : List Nat} (h : c ∈ m.circles m.links) :
    IsCircle (Feeds m.links) c := by
  obtain ⟨next, roots, heq, hnext, -⟩ := m.exists_circles
  rw [heq] at h
  have hinv := (Search.run_spec (fun i j hj => (feeds_lt ((hnext i j).1 hj)).1) roots).1
  exact (hinv.circles c (mem_of_mem_distinctCircles h)).mono fun a b _ _ => (hnext a b).1

/-- No two circles of a model have the same nodes. -/
theorem circles_pairwise (m : Model α) :
    (m.circles m.links).Pairwise fun c c' => ¬ ∀ i, i ∈ c ↔ i ∈ c' := by
  obtain ⟨next, roots, heq, hnext, -⟩ := m.exists_circles
  have hinv := (Search.run_spec (fun i j hj => (feeds_lt ((hnext i j).1 hj)).1) roots).1
  rw [heq]
  exact distinctCircles_pairwise fun c hc => (hinv.circles c hc).nodup

/-- A path of links that leads back to its start has a link inside one of the circles. -/
theorem acyclic_leftOver (m : Model α) (i : Nat) :
    ¬ Relation.TransGen (LeftOver (Feeds m.links) (m.circles m.links)) i i := by
  obtain ⟨next, roots, heq, hnext, hroots⟩ := m.exists_circles
  have hrun := Search.run_acyclic_leftOver (fun i j hj => (feeds_lt ((hnext i j).1 hj)).1) hroots i
  rw [heq]
  refine fun hcycle => hrun (Relation.TransGen.mono (fun a b hab => ?_) _ _ hcycle)
  obtain ⟨hfeeds, hapart⟩ := hab.of_covered fun c hc => exists_mem_distinctCircles hc
  exact ⟨(hnext a b).2 hfeeds, hapart⟩

/-- A model has no circles if and only if no path of links leads back to where it starts. -/
theorem circles_eq_nil_iff :
    m.circles m.links = [] ↔ ∀ i, ¬ Relation.TransGen (Feeds m.links) i i := by
  constructor
  · intro h i hcycle
    refine m.acyclic_leftOver i (Relation.TransGen.mono (fun a b hab => ?_) _ _ hcycle)
    rw [h]
    exact leftOver_nil.2 hab
  · intro h
    refine List.eq_nil_iff_forall_not_mem.2 fun c hc => ?_
    obtain ⟨i, hi⟩ := (circle_of_mem_circles hc).cyclic
    exact h i hi

end Model

end Grading
