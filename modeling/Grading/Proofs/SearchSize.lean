import Grading.Proofs.Colouring

/-!
# A node without successors changes nothing in the search

With fuel for the white nodes a visit does not depend on it, so the search may be run over one node
more.  If that node has no successors and is one of nobody else, it is entered and left again,
wherever it stands among the roots:

    (run next (n + 1) roots).circles = (run next n (roots.filter (· ≠ n))).circles
                                                                            (run_succ_circles)

`Padded` relates the states of the two searches.
-/

namespace Grading.Search

variable {next : Nat → List Nat} {n fuel : Nat} {s s' : Search} {i : Nat}

/-! ## One node more -/

/-- The state of a search over `n` nodes and one over a node more, which differ in the colour of
that node alone. -/
structure Padded (n : Nat) (s s' : Search) : Prop where
  size : s.colours.length = n
  colours : ∃ c, s'.colours = s.colours ++ [c]
  path : s'.path = s.path
  circles : s'.circles = s.circles

namespace Padded

theorem colour (h : Padded n s s') (hi : i < n) : s'.colour i = s.colour i := by
  obtain ⟨c, hc⟩ := h.colours
  have hlt : i < s.colours.length := h.size ▸ hi
  unfold Search.colour
  rw [hc, List.getD_eq_getElem?_getD, List.getElem?_append_left hlt, List.getD_eq_getElem?_getD]

theorem set (h : Padded n s s') (hi : i < n) (c : Colour) {path : List Nat} :
    Padded n { s with colours := s.colours.set i c, path := path }
      { s' with colours := s'.colours.set i c, path := path } where
  size := by rw [List.length_set, h.size]
  colours := by
    obtain ⟨c', hc'⟩ := h.colours
    have hlt : i < s.colours.length := h.size ▸ hi
    exact ⟨c', by rw [hc', List.set_append_left _ _ hlt]⟩
  path := rfl
  circles := h.circles

theorem enter (h : Padded n s s') (hi : i < n) : Padded n (s.enter i) (s'.enter i) := by
  unfold Search.enter
  rw [h.path]
  exact h.set hi .grey

theorem leave (h : Padded n s s') (hi : i < n) : Padded n (s.leave i) (s'.leave i) := by
  unfold Search.leave
  rw [h.path]
  exact h.set hi .black

theorem close (h : Padded n s s') (i : Nat) : Padded n (s.close i) (s'.close i) where
  size := h.size
  colours := h.colours
  path := h.path
  circles := by
    unfold Search.close
    rw [h.path, h.circles]

/-- Visits see the first `n` nodes only. -/
theorem visit (hnext : ∀ i, ∀ j ∈ next i, j < n) (h : Padded n s s') (hi : i < n) :
    Padded n (visit next fuel i s) (visit next fuel i s') := by
  induction fuel generalizing s s' i with
  | zero => exact h
  | succ fuel ih =>
    rw [visit_succ, visit_succ]
    refine Padded.leave ?_ hi
    refine List.foldl_rel (h.enter hi) fun j hj t t' ht => ?_
    have hlt := hnext i j hj
    unfold look
    rw [ht.colour hlt]
    cases t.colour j with
    | white => exact ih ht hlt
    | grey => exact ht.close j
    | black => exact ht

/-- The node more is entered and left again. -/
theorem visit_last (h : Padded n s s') (hlast : next n = []) :
    Padded n s (Search.visit next (fuel + 1) n s') := by
  obtain ⟨c, hc⟩ := h.colours
  rw [visit_succ, hlast]
  refine ⟨h.size, ⟨.black, ?_⟩, ?_, h.circles⟩
  · show (s'.colours.set n .grey).set n .black = _
    rw [List.set_set, hc, List.set_append_right _ _ (Nat.le_of_eq h.size), h.size, Nat.sub_self]
    rfl
  · show (s'.path ++ [n]).dropLast = _
    rw [List.dropLast_concat, h.path]

theorem start (n : Nat) : Padded n (start n) (start (n + 1)) where
  size := List.length_replicate
  colours := ⟨.white, List.replicate_succ'⟩
  path := rfl
  circles := rfl

/-! ## Roots -/

theorem begin (hnext : ∀ i, ∀ j ∈ next i, j < n) (h : Padded n s s') (hi : i < n) :
    Padded n (begin next n s i) (begin next (n + 1) s' i) := by
  unfold Search.begin
  rw [h.colour hi]
  cases hc : s.colour i with
  | white =>
    have hle : s.whiteCount ≤ n := h.size ▸ List.count_le_length
    have hfuel := visit_fuel next hc hle (Nat.le_succ_of_le hle)
    show Padded n (Search.visit next n i s) _
    rw [hfuel]
    exact h.visit hnext hi
  | grey => exact h
  | black => exact h

theorem begin_last (h : Padded n s s') (hlast : next n = []) :
    Padded n s (Search.begin next (n + 1) s' n) := by
  unfold Search.begin
  cases s'.colour n with
  | white => exact h.visit_last hlast
  | grey => exact h
  | black => exact h

theorem fold_begin (hnext : ∀ i, ∀ j ∈ next i, i < n ∧ j < n) (h : Padded n s s')
    {roots : List Nat} (hroots : ∀ i ∈ roots, i ≤ n) :
    Padded n ((roots.filter fun i => i ≠ n).foldl (Search.begin next n) s)
      (roots.foldl (Search.begin next (n + 1)) s') := by
  induction roots generalizing s s' with
  | nil => exact h
  | cons i roots ih =>
    rw [List.forall_mem_cons] at hroots
    rw [List.foldl_cons]
    by_cases hi : i = n
    · subst hi
      have hlast : next i = [] := List.eq_nil_iff_forall_not_mem.2 fun j hj =>
        Nat.lt_irrefl i (hnext i j hj).1
      rw [List.filter_cons_of_neg (by simp)]
      exact ih (h.begin_last hlast) hroots.2
    · have hlt := Nat.lt_of_le_of_ne hroots.1 hi
      rw [List.filter_cons_of_pos (by simpa using hi), List.foldl_cons]
      exact ih (h.begin (fun i j hj => (hnext i j hj).2) hlt) hroots.2

end Padded

/-- A search over one node more that has no successors and is nobody's successor notes the same
circles. -/
theorem run_succ_circles (hnext : ∀ i, ∀ j ∈ next i, i < n ∧ j < n) {roots : List Nat}
    (hroots : ∀ i ∈ roots, i ≤ n) :
    (run next (n + 1) roots).circles = (run next n (roots.filter fun i => i ≠ n)).circles :=
  (Padded.fold_begin hnext (Padded.start n) hroots).circles

end Grading.Search
