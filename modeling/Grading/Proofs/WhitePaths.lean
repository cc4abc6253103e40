import Grading.Proofs.Circles

/-!
# A visit turns the white paths out of its node black

From any well coloured state, a visit of a white successor of the last node on the path ends.  It
gives the path and the grey nodes back as they were, enters every node once that a path of white
nodes leads to, and no other, and leaves those nodes black; what it notes are circles:

    t.colour k = .black ↔ s.colour k = .black ∨ LeadsThroughWhite next s i k
                                                              (visit_turns_white_paths_black)

`Search.Explored` is carried along the recursion.  It does not follow the white paths of the state
before, which visits of earlier siblings cut off; it says of the state after that a node that
turned black has no white successor.  So a white path of the state before cannot leave the black
nodes, whatever way the search took to its members.
-/

namespace Grading

namespace Search

variable {next : Nat → List Nat} {n : Nat} {s t u : Search} {i j k : Nat} {js js' : List Nat}
variable {visits inner later : List Visit}

/-! ## White paths -/

/-- A walk of successors leads from `i` to `j` that meets white nodes only, its ends included. -/
def LeadsThroughWhite (next : Nat → List Nat) (s : Search) (i j : Nat) : Prop :=
  s.colour i = .white ∧ Relation.ReflTransGen (fun a b => b ∈ next a ∧ s.colour b = .white) i j

theorem LeadsThroughWhite.mono (h : LeadsThroughWhite next t i j)
    (hwhite : ∀ k, t.colour k = .white → s.colour k = .white) : LeadsThroughWhite next s i j :=
  ⟨hwhite i h.1, Relation.ReflTransGen.mono (fun _ b hab => ⟨hab.1, hwhite b hab.2⟩) _ _ h.2⟩

/-- A white path from a successor, after its node has been entered. -/
theorem LeadsThroughWhite.of_enter (hi : s.colour i = .white) (hj : j ∈ next i)
    (h : LeadsThroughWhite next (s.enter i) j k) : LeadsThroughWhite next s i k := by
  have hwhite : ∀ k, (s.enter i).colour k = .white → s.colour k = .white := by
    intro k hk
    rw [colour_enter hi] at hk
    by_cases hki : k = i
    · rw [hki, hi]
    · rwa [if_neg hki] at hk
  obtain ⟨hjwhite, hpath⟩ := h.mono hwhite
  exact ⟨hi, .head ⟨hj, hjwhite⟩ hpath⟩

/-! ## What going through a list of nodes comes to -/

/-- A node is white before and black after. -/
def TurnsBlack (s t : Search) (k : Nat) : Prop := s.colour k = .white ∧ t.colour k = .black

/-- What going through a list of nodes does to the colours, and which nodes it enters. -/
structure Explored (next : Nat → List Nat) (js : List Nat) (s t : Search) (visits : List Visit) :
    Prop where
  grey : ∀ k, t.colour k = .grey ↔ s.colour k = .grey
  black : ∀ k, s.colour k = .black → t.colour k = .black
  through : ∀ j ∈ js, t.colour j ≠ .white
  onward : ∀ k, TurnsBlack s t k → ∀ j ∈ next k, t.colour j ≠ .white
  reached : ∀ k, TurnsBlack s t k → ∃ j ∈ js, LeadsThroughWhite next s j k
  entered : ∀ k, k ∈ visits.map (·.node) ↔ TurnsBlack s t k
  once : (visits.map (·.node)).Nodup

namespace Explored

/-- No node turns white. -/
theorem white (h : Explored next js s t visits) (hk : t.colour k = .white) :
    s.colour k = .white := by
  cases hc : s.colour k with
  | white => rfl
  | grey => exact absurd (hk.symm.trans ((h.grey k).2 hc)) Colour.noConfusion
  | black => exact absurd (hk.symm.trans (h.black k hc)) Colour.noConfusion

/-- A white node stays white or turns black. -/
theorem turnsBlack (h : Explored next js s t visits) (hs : s.colour k = .white)
    (ht : t.colour k ≠ .white) : TurnsBlack s t k := by
  refine ⟨hs, ?_⟩
  cases hc : t.colour k with
  | white => exact absurd hc ht
  | grey => exact absurd (hs.symm.trans ((h.grey k).1 hc)) Colour.noConfusion
  | black => rfl

theorem refl (next : Nat → List Nat) (s : Search) : Explored next [] s s [] := by
  have hnone : ∀ k, ¬ TurnsBlack s s k := fun k hk =>
    absurd (hk.1.symm.trans hk.2) Colour.noConfusion
  exact ⟨fun _ => Iff.rfl, fun _ h => h, fun _ hj => absurd hj List.not_mem_nil,
    fun k hk => absurd hk (hnone k), fun k hk => absurd hk (hnone k),
    fun k => iff_of_false List.not_mem_nil (hnone k), List.nodup_nil⟩

/-- Noting a circle changes no colour. -/
theorem of_close (h : Explored next js (s.close i) t visits) : Explored next js s t visits :=
  ⟨h.grey, h.black, h.through, h.onward, h.reached, h.entered, h.once⟩

/-- A node that is not white is passed. -/
theorem pass (h : Explored next js s t visits) (hi : s.colour i ≠ .white) :
    Explored next (i :: js) s t visits where
  grey := h.grey
  black := h.black
  through := List.forall_mem_cons.2 ⟨fun hc => hi (h.white hc), h.through⟩
  onward := h.onward
  reached k hk := by
    obtain ⟨j, hj, hpath⟩ := h.reached k hk
    exact ⟨j, List.mem_cons_of_mem i hj, hpath⟩
  entered := h.entered
  once := h.once

theorem turnsBlack_trans (h : Explored next js s t visits) (h' : Explored next js' t u later) :
    TurnsBlack s u k ↔ TurnsBlack s t k ∨ TurnsBlack t u k := by
  constructor
  · rintro ⟨hs, hu⟩
    by_cases hk : t.colour k = .white
    · exact .inr ⟨hk, hu⟩
    · exact .inl (h.turnsBlack hs hk)
  · rintro (⟨hs, ht⟩ | ⟨ht, hu⟩)
    · exact ⟨hs, h'.black k ht⟩
    · exact ⟨h.white ht, hu⟩

/-- One list after another: what has turned black stays so, and white paths of the state between
are white paths of the state before. -/
theorem append (h : Explored next js s t visits) (h' : Explored next js' t u later) :
    Explored next (js ++ js') s u (visits ++ later) where
  grey k := (h'.grey k).trans (h.grey k)
  black k hk := h'.black k (h.black k hk)
  through := by
    rw [List.forall_mem_append]
    exact ⟨fun j hj hc => h.through j hj (h'.white hc), h'.through⟩
  onward k hk := by
    rcases (h.turnsBlack_trans h').1 hk with hk | hk
    · exact fun j hj hc => h.onward k hk j hj (h'.white hc)
    · exact h'.onward k hk
  reached k hk := by
    rcases (h.turnsBlack_trans h').1 hk with hk | hk
    · obtain ⟨j, hj, hpath⟩ := h.reached k hk
      exact ⟨j, List.mem_append_left _ hj, hpath⟩
    · obtain ⟨j, hj, hpath⟩ := h'.reached k hk
      exact ⟨j, List.mem_append_right _ hj, hpath.mono fun _ => h.white⟩
  entered k := by
    rw [List.map_append, List.mem_append, h.entered, h'.entered, h.turnsBlack_trans h']
  once := by
    rw [List.map_append, List.nodup_append]
    refine ⟨h.once, h'.once, ?_⟩
    rintro k hk l hl rfl
    exact absurd (((h.entered k).1 hk).2.symm.trans ((h'.entered k).1 hl).1) Colour.noConfusion

/-- All nodes that turn black in a visit do so inside, but for its own node at the end. -/
theorem turnsBlack_leave (hi : s.colour i = .white) :
    TurnsBlack s (t.leave i) k ↔ k = i ∨ TurnsBlack (s.enter i) t k := by
  unfold TurnsBlack
  rw [colour_leave, colour_enter hi]
  by_cases hki : k = i
  · simp [hki, hi]
  · simp [hki]

theorem visit (hi : s.colour i = .white) (h : Explored next (next i) (s.enter i) t inner) :
    Explored next [i] s (t.leave i) (⟨i, s, t.leave i⟩ :: inner) := by
  have hleave : ∀ k, t.colour k ≠ .white → (t.leave i).colour k ≠ .white := by
    intro k hk
    rw [colour_leave]
    split
    · exact Colour.noConfusion
    · exact hk
  refine ⟨fun k => ?_, fun k hk => ?_, fun j hj => ?_, fun k hk => ?_, fun k hk => ?_,
    fun k => ?_, ?_⟩
  · by_cases hki : k = i
    · simp [colour_leave, hki, hi]
    · simpa [colour_leave, hki, colour_enter hi] using h.grey k
  · by_cases hki : k = i
    · simp [colour_leave, hki]
    · simpa [colour_leave, hki] using h.black k (by simpa [colour_enter hi, hki] using hk)
  · rw [List.mem_singleton.1 hj, colour_leave, if_pos rfl]
    exact Colour.noConfusion
  · rcases (turnsBlack_leave hi).1 hk with rfl | hk
    · exact fun j hj => hleave j (h.through j hj)
    · exact fun j hj => hleave j (h.onward k hk j hj)
  · refine ⟨i, List.mem_singleton_self i, ?_⟩
    rcases (turnsBlack_leave hi).1 hk with rfl | hk
    · exact ⟨hi, .refl⟩
    · obtain ⟨j, hj, hpath⟩ := h.reached k hk
      exact hpath.of_enter hi hj
  · rw [List.map_cons, List.mem_cons, h.entered, turnsBlack_leave hi]
  · rw [List.map_cons, List.nodup_cons, h.entered]
    refine ⟨fun hk => ?_, h.once⟩
    have hgrey : (s.enter i).colour i = .grey := by rw [colour_enter hi, if_pos rfl]
    exact absurd (hk.1.symm.trans hgrey) Colour.noConfusion

/-- A white path from one of the nodes gone through has turned black. -/
theorem complete (h : Explored next js s t visits) (hj : j ∈ js)
    (hpath : LeadsThroughWhite next s j k) : TurnsBlack s t k := by
  obtain ⟨hwhite, hpath⟩ := hpath
  induction hpath with
  | refl => exact h.turnsBlack hwhite (h.through j hj)
  | tail _ hstep ih => exact h.turnsBlack hstep.2 (h.onward _ ih _ hstep.1)

theorem turnsBlack_iff (h : Explored next js s t visits) :
    TurnsBlack s t k ↔ ∃ j ∈ js, LeadsThroughWhite next s j k :=
  ⟨h.reached k, fun ⟨_, hj, hpath⟩ => h.complete hj hpath⟩

theorem black_iff (h : Explored next js s t visits) :
    t.colour k = .black ↔ s.colour k = .black ∨ ∃ j ∈ js, LeadsThroughWhite next s j k := by
  rw [← h.turnsBlack_iff]
  constructor
  · intro ht
    cases hc : s.colour k with
    | white => exact .inr ⟨hc, ht⟩
    | grey => exact absurd (ht.symm.trans ((h.grey k).2 hc)) Colour.noConfusion
    | black => exact .inl rfl
  · exact fun hk => hk.elim (h.black k) (·.2)

end Explored

/-! ## Along the recursion -/

theorem Explores.explored (h : Explores next js s t visits) : Explored next js s t visits := by
  induction h with
  | done s => exact .refl next s
  | white hc _ _ ihinner ihlater => exact (ihinner.visit hc).append ihlater
  | grey hc _ ih =>
    refine ih.of_close.pass ?_
    rw [hc]
    exact Colour.noConfusion
  | black hc _ ih =>
    refine ih.pass ?_
    rw [hc]
    exact Colour.noConfusion

/-- A visit begins at a white successor of the last node on the path in a well coloured state, and
ends in one with the same path. -/
structure Visit.Proper (next : Nat → List Nat) (n : Nat) (v : Visit) : Prop where
  white : v.before.colour v.node = .white
  last : ∀ a ∈ v.before.path.getLast?, v.node ∈ next a
  before : WellColoured next n v.before
  after : WellColoured next n v.after
  path : v.after.path = v.before.path
  run : ∃ inner, Explores next [v.node] v.before v.after inner

/-- All visits are proper, those inside others as well, and what is noted are circles. -/
theorem Explores.proper (h : Explores next js s t visits) (hs : WellColoured next n s)
    (hlast : ∀ j ∈ js, ∀ a ∈ s.path.getLast?, j ∈ next a) :
    (∀ v ∈ visits, v.Proper next n) ∧ ∃ noted, t.circles = s.circles ++ noted ∧
      ∀ c ∈ noted, IsCircle (fun a b => b ∈ next a) c := by
  induction h with
  | done s =>
    exact ⟨fun v hv => absurd hv List.not_mem_nil, [], (List.append_nil _).symm,
      fun c hc => absurd hc List.not_mem_nil⟩
  | @white i js s t u _ _ hc hinner _ ihinner ihlater =>
    rw [List.forall_mem_cons] at hlast
    have he := hs.enter hc hlast.1
    have hsucc := successors_of_enter next s i
    obtain ⟨ht, hpath⟩ := hinner.wellColoured he hsucc
    have hleft : (t.leave i).path = s.path := leave_path hpath
    obtain ⟨hproper, noted, hnoted, hcircles⟩ := ihinner he hsucc
    obtain ⟨hproper', noted', hnoted', hcircles'⟩ :=
      ihlater (ht.leave hpath) (by rw [hleft]; exact hlast.2)
    refine ⟨?_, noted ++ noted', ?_, List.forall_mem_append.2 ⟨hcircles, hcircles'⟩⟩
    · rw [List.forall_mem_cons, List.forall_mem_append]
      exact ⟨⟨hc, hlast.1, hs, ht.leave hpath, hleft, _, .white hc hinner (.done _)⟩, hproper,
        hproper'⟩
    · rw [hnoted', ← List.append_assoc]
      exact congrArg (· ++ noted') hnoted
  | @grey i js s u _ hc _ ih =>
    rw [List.forall_mem_cons] at hlast
    obtain ⟨hproper, noted, hnoted, hcircles⟩ := ih (hs.close i) hlast.2
    refine ⟨hproper, s.path.dropWhile (· ≠ i) :: noted, ?_, ?_⟩
    · rw [hnoted]
      exact (List.append_cons _ _ _).symm
    · exact List.forall_mem_cons.2 ⟨hs.circle hc hlast.1, hcircles⟩
  | black _ _ ih =>
    rw [List.forall_mem_cons] at hlast
    exact ih hs hlast.2

/-! ## The whole search -/

/-- Over all nodes as roots, the search enters every node once and ends with all nodes black and
an empty path. -/
theorem run_all {roots : List Nat} (hroots : ∀ i < n, i ∈ roots) :
    (run next n roots).path = [] ∧ (∀ i, (run next n roots).colour i = .black) ∧
      ∃ visits, Explores next roots (start n) (run next n roots) visits ∧
        (visits.map (·.node)).Perm (List.range n) := by
  obtain ⟨visits, h⟩ := run_explores next n roots
  have hblack : ∀ i, (run next n roots).colour i = .black := by
    intro i
    by_cases hi : i < n
    · refine (h.explored.turnsBlack ?_ (h.explored.through i (hroots i hi))).2
      rw [colour_start, if_pos hi]
    · refine h.explored.black i ?_
      rw [colour_start, if_neg hi]
  refine ⟨?_, hblack, visits, h, ?_⟩
  · exact (h.wellColoured (wellColoured_start next n) (successors_of_nil rfl roots)).2
  · refine (List.perm_ext_iff_of_nodup h.explored.once List.nodup_range).2 fun i => ?_
    rw [h.explored.entered, List.mem_range]
    unfold TurnsBlack
    rw [colour_start, and_iff_left (hblack i)]
    by_cases hi : i < n <;> simp [hi]

end Search

/-! ## Top theorem -/

/-- The successors by position that the search of a model goes by. -/
def Model.successorsAt {α : Type} (m : Model α) (links : List Link) (i : Nat) : List Nat :=
  ((List.range m.nodes.length).map (Link.successors links)).getD i []

/-- The search that the circles of a model come from. -/
def Model.search {α : Type} (m : Model α) (links : List Link) : Search :=
  Search.run (m.successorsAt links) m.nodes.length m.positionsById

open Search

/-- A visit of a white successor of the last node on the path ends, in one way, with the path and
the grey nodes as they were, with the nodes black that white paths lead to, having entered each of
them once; the colouring is kept by all visits inside; and what is noted are circles.  The search
of a model ends with all nodes black, having entered each once, and an empty path. -/
theorem visit_turns_white_paths_black :
    (∀ (next : Nat → List Nat) (n : Nat) (s : Search) (i : Nat), WellColoured next n s →
      s.colour i = .white → (∀ a ∈ s.path.getLast?, i ∈ next a) →
        ∃ t visits, Explores next [i] s t visits ∧
          (∀ t' visits', Explores next [i] s t' visits' → t' = t ∧ visits' = visits) ∧
          (∀ fuel, s.whiteCount ≤ fuel → visit next fuel i s = t) ∧ s.whiteCount ≤ n ∧
          WellColoured next n t ∧ t.path = s.path ∧
          (∀ k, t.colour k = .grey ↔ s.colour k = .grey) ∧
          (∀ k, t.colour k = .black ↔ s.colour k = .black ∨ LeadsThroughWhite next s i k) ∧
          (∀ k, k ∈ visits.map (·.node) ↔ LeadsThroughWhite next s i k) ∧
          (visits.map (·.node)).Nodup ∧ (∀ v ∈ visits, v.Proper next n) ∧
          ∃ noted, t.circles = s.circles ++ noted ∧
            ∀ c ∈ noted, IsCircle (fun a b => b ∈ next a) c) ∧
    ∀ {α : Type} (m : Model α) (links : List Link),
      m.circles links = distinctCircles (m.search links).circles ∧
        (m.search links).path = [] ∧ (∀ i, (m.search links).colour i = .black) ∧
        ∃ visits, Explores (m.successorsAt links) m.positionsById (start m.nodes.length)
            (m.search links) visits ∧
          (visits.map (·.node)).Perm (List.range m.nodes.length) := by
  refine ⟨fun next n s i hs hi hlast => ?_, fun m links => ⟨rfl, ?_⟩⟩
  · obtain ⟨visits, h⟩ := explores_visit next hi (Nat.le_refl s.whiteCount)
    have hready : ∀ j ∈ [i], ∀ a ∈ s.path.getLast?, j ∈ next a := by
      simpa using hlast
    obtain ⟨ht, hpath⟩ := h.wellColoured hs hready
    obtain ⟨hproper, hnoted⟩ := h.proper hs hready
    refine ⟨_, visits, h, fun t' visits' h' => h.unique h',
      fun fuel hfuel => visit_fuel next hi hfuel (Nat.le_refl _), hs.whiteCount_le, ht, hpath,
      h.explored.grey, fun k => ?_, fun k => ?_, h.explored.once, hproper, hnoted⟩
    · simpa using h.explored.black_iff
    · rw [h.explored.entered, h.explored.turnsBlack_iff]
      simp
  · exact run_all fun i hi => (Model.mem_positionsById (m := m)).2 hi

/-- A node that leads to itself and to a circle of two others, one of which leads back to the node
before; the last node leads nowhere. -/
def tangled : Nat → List Nat
  | 0 => [1]
  | 1 => [1, 2]
  | 2 => [3, 0]
  | 3 => [2, 1]
  | _ => []

theorem visit_turns_white_paths_black_tangled :
    ∃ s : Search, s.path = [0] ∧ WellColoured tangled 5 s ∧ s.whiteCount = 4 ∧
      (visit tangled 4 1 s).colours = [.grey, .black, .black, .black, .white] ∧
      (visit tangled 4 1 s).circles = [[1], [2, 3], [1, 2, 3], [0, 1, 2]] ∧
      LeadsThroughWhite tangled s 1 3 ∧ ¬ LeadsThroughWhite tangled s 1 4 ∧
      ¬ LeadsThroughWhite tangled s 1 0 := by
  have hs : WellColoured tangled 5 ((start 5).enter 0) :=
    (wellColoured_start tangled 5).enter rfl (by simp [start])
  obtain ⟨t, visits, -, -, hfuel, -, -, -, -, hblack, -⟩ :=
    visit_turns_white_paths_black.1 tangled 5 ((start 5).enter 0) 1 hs rfl
      (by simp [enter, start, tangled])
  obtain rfl := hfuel 4 (by decide)
  refine ⟨(start 5).enter 0, rfl, hs, by decide, by decide, by decide, ?_, ?_, ?_⟩
  · exact ((hblack 3).1 (by decide)).resolve_left (by decide)
  · exact fun h => absurd ((hblack 4).2 (.inr h)) (by decide)
  · exact fun h => absurd ((hblack 0).2 (.inr h)) (by decide)

end Grading
