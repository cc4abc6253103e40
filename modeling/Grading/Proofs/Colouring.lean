import Mathlib.Data.List.Chain
import Grading.Check.Cycles
import Grading.Proofs.ClosedWalks
import Grading.Proofs.Sorted

/-!
# The colouring of the search, and its recursion without fuel

`Search.WellColoured` ties the colours and the path of a search together: the grey nodes are those
on the path, and the path is a walk that meets no node twice.  Each move keeps it, and the part of
the path from a grey successor of its last node on is a circle (`WellColoured.circle`).

`Search.Explores` is the recursion of the search with no bound on its depth.  It says of a list of
nodes in which state going through it ends, and which visits it makes on the way:

    Explores next js s t visits, Explores next js s t' visits' → t' = t ∧ visits' = visits
                                                                              (Explores.unique)
    s.whiteCount ≤ fuel → ∃ visits, Explores next [i] s (visit next fuel i s) visits
                                                                              (explores_visit)
    ∃ visits, Explores next roots (start n) (run next n roots) visits            (run_explores)

Fuel for the white nodes is enough because a visit takes a node from them, and no move gives one
back.
-/

namespace Grading.Search

variable {next : Nat → List Nat} {n fuel fuel' : Nat} {s t u : Search} {i j : Nat}
variable {path js : List Nat}

/-! ## Single moves -/

/-- What the search does about a successor of the node it is at. -/
def look (next : Nat → List Nat) (fuel : Nat) (s : Search) (j : Nat) : Search :=
  match s.colour j with
  | .white => visit next fuel j s
  | .grey => s.close j
  | .black => s

theorem visit_succ (next : Nat → List Nat) (fuel i : Nat) (s : Search) :
    visit next (fuel + 1) i s = ((next i).foldl (look next fuel) (s.enter i)).leave i := rfl

theorem look_white (h : s.colour j = .white) :
    look next (fuel + 1) s j = ((next j).foldl (look next fuel) (s.enter j)).leave j := by
  rw [← visit_succ]
  unfold look
  rw [h]

theorem look_grey (h : s.colour j = .grey) : look next fuel s j = s.close j := by
  unfold look
  rw [h]

theorem look_black (h : s.colour j = .black) : look next fuel s j = s := by
  unfold look
  rw [h]

theorem lt_of_colour (h : s.colour i ≠ .black) : i < s.colours.length := by
  by_contra hge
  apply h
  unfold colour
  rw [List.getD_eq_getElem?_getD, List.getElem?_eq_none (by omega)]
  rfl

theorem lt_of_white (h : s.colour i = .white) : i < s.colours.length := by
  refine lt_of_colour ?_
  rw [h]
  exact Colour.noConfusion

theorem colour_set (s : Search) (i j : Nat) (c : Colour) (h : i < s.colours.length) :
    (s.colours.set i c).getD j .black = if j = i then c else s.colour j := by
  unfold colour
  rw [List.getD_eq_getElem?_getD, List.getElem?_set, List.getD_eq_getElem?_getD]
  by_cases hij : i = j
  · subst hij
    simp [h]
  · simp [hij, Ne.symm hij]

theorem colour_enter (h : s.colour i = .white) :
    (s.enter i).colour j = if j = i then .grey else s.colour j :=
  colour_set s i j .grey (lt_of_white h)

/-- A node beyond the list is black as it is. -/
theorem colour_leave : (t.leave i).colour j = if j = i then .black else t.colour j := by
  by_cases hi : i < t.colours.length
  · exact colour_set t i j .black hi
  · have hleave : (t.leave i).colour j = t.colour j := by
      show (t.colours.set i .black).getD j .black = _
      rw [List.set_eq_of_length_le (by omega)]
      rfl
    rw [hleave]
    by_cases hj : j = i
    · rw [if_pos hj, hj]
      by_contra hblack
      exact hi (lt_of_colour hblack)
    · rw [if_neg hj]

theorem enter_path (s : Search) (i : Nat) : (s.enter i).path = s.path ++ [i] := rfl

/-- The node just entered is the last one on the path. -/
theorem successors_of_enter (next : Nat → List Nat) (s : Search) (i : Nat) :
    ∀ j ∈ next i, ∀ a ∈ (s.enter i).path.getLast?, j ∈ next a := by
  intro j hj a ha
  rw [enter_path, List.getLast?_concat, Option.mem_some_iff] at ha
  exact ha ▸ hj

theorem successors_of_nil (h : s.path = []) (js : List Nat) :
    ∀ j ∈ js, ∀ a ∈ s.path.getLast?, j ∈ next a := by
  intro j _ a ha
  rw [h] at ha
  cases ha

theorem leave_path (h : t.path = path ++ [i]) : (t.leave i).path = path := by
  show t.path.dropLast = path
  rw [h, List.dropLast_concat]

/-! ## Well coloured states -/

/-- The grey nodes are those on the path, which is a walk that meets no node twice. -/
structure WellColoured (next : Nat → List Nat) (n : Nat) (s : Search) : Prop where
  size : s.colours.length = n
  grey : ∀ i, s.colour i = .grey ↔ i ∈ s.path
  nodup : s.path.Nodup
  walk : s.path.IsChain fun a b => b ∈ next a

namespace WellColoured

theorem enter (hs : WellColoured next n s) (hi : s.colour i = .white)
    (hlast : ∀ a ∈ s.path.getLast?, i ∈ next a) : WellColoured next n (s.enter i) where
  size := by
    show (s.colours.set i .grey).length = n
    rw [List.length_set, hs.size]
  grey j := by
    rw [colour_enter hi, enter_path, List.mem_append, List.mem_singleton, ← hs.grey]
    by_cases hj : j = i
    · simp [hj]
    · simp [hj]
  nodup := by
    have hni : i ∉ s.path := by
      rw [← hs.grey, hi]
      exact Colour.noConfusion
    rw [enter_path, List.nodup_append]
    refine ⟨hs.nodup, List.nodup_singleton i, ?_⟩
    rintro a ha b hb rfl
    exact hni (List.mem_singleton.1 hb ▸ ha)
  walk := by
    rw [enter_path]
    refine hs.walk.append (List.isChain_singleton i) fun a ha b hb => ?_
    rw [List.head?_singleton, Option.mem_some_iff] at hb
    exact hb ▸ hlast a ha

theorem close (hs : WellColoured next n s) (j : Nat) : WellColoured next n (s.close j) :=
  ⟨hs.size, hs.grey, hs.nodup, hs.walk⟩

theorem leave (ht : WellColoured next n t) (hpath : t.path = path ++ [i]) :
    WellColoured next n (t.leave i) := by
  have hnodup : (path ++ [i]).Nodup := hpath ▸ ht.nodup
  have hni : i ∉ path := fun h => (List.nodup_append.1 hnodup).2.2 i h i (by simp) rfl
  refine ⟨?_, fun j => ?_, ?_, ?_⟩
  · show (t.colours.set i .black).length = n
    rw [List.length_set, ht.size]
  · rw [colour_leave, leave_path hpath]
    by_cases hj : j = i
    · subst hj
      simp [hni]
    · rw [if_neg hj, ht.grey, hpath]
      simp [hj]
  · rw [leave_path hpath]
    exact (List.nodup_append.1 hnodup).1
  · rw [leave_path hpath]
    exact (hpath ▸ ht.walk).left_of_append

/-- The part of the path from a grey successor of its last node on is a circle. -/
theorem circle (hs : WellColoured next n s) (hj : s.colour j = .grey)
    (hlast : ∀ a ∈ s.path.getLast?, j ∈ next a) :
    IsCircle (fun a b => b ∈ next a) (s.path.dropWhile (· ≠ j)) := by
  obtain ⟨front, back, hpath, -, hcut⟩ := exists_cut ((hs.grey j).1 hj)
  have hsuffix : j :: back <:+ s.path := ⟨front, hpath.symm⟩
  rw [hcut]
  refine ⟨List.cons_ne_nil _ _, hs.nodup.sublist hsuffix.sublist, hs.walk.suffix hsuffix, ?_⟩
  intro a ha b hb
  obtain rfl : j = b := Option.some.inj hb
  refine hlast a ?_
  rw [hpath, List.getLast?_append_of_ne_nil _ (List.cons_ne_nil _ _)]
  exact ha

end WellColoured

theorem colour_start : (start n).colour i = if i < n then .white else .black := by
  unfold colour start
  rw [List.getD_eq_getElem?_getD, List.getElem?_replicate]
  by_cases hi : i < n
  · rw [if_pos hi, if_pos hi]
    rfl
  · rw [if_neg hi, if_neg hi]
    rfl

theorem wellColoured_start (next : Nat → List Nat) (n : Nat) : WellColoured next n (start n) where
  size := List.length_replicate
  grey i := by
    rw [colour_start]
    show _ ↔ i ∈ []
    by_cases hi : i < n <;> simp [hi]
  nodup := List.nodup_nil
  walk := List.isChain_nil

/-! ## The recursion -/

/-- One visit: its node, and the states in which it begins and ends. -/
structure Visit where
  node : Nat
  before : Search
  after : Search

/-- Going through a list of nodes takes the search from one state to another.  A white node is
visited: it is entered, the search goes through its successors, and it is left.  The visits are in
the order in which they begin. -/
inductive Explores (next : Nat → List Nat) :
    List Nat → Search → Search → List Visit → Prop
  | done (s : Search) : Explores next [] s s []
  | white {i : Nat} {js : List Nat} {s t u : Search} {inner later : List Visit} :
    s.colour i = .white → Explores next (next i) (s.enter i) t inner →
    Explores next js (t.leave i) u later →
      Explores next (i :: js) s u (⟨i, s, t.leave i⟩ :: (inner ++ later))
  | grey {i : Nat} {js : List Nat} {s u : Search} {later : List Visit} :
    s.colour i = .grey → Explores next js (s.close i) u later → Explores next (i :: js) s u later
  | black {i : Nat} {js : List Nat} {s u : Search} {later : List Visit} :
    s.colour i = .black → Explores next js s u later → Explores next (i :: js) s u later

/-- There is one way through a list of nodes. -/
theorem Explores.unique {t' : Search} {visits visits' : List Visit}
    (h : Explores next js s t visits) (h' : Explores next js s t' visits') :
    t' = t ∧ visits' = visits := by
  induction h generalizing t' visits' with
  | done s =>
    cases h'
    exact ⟨rfl, rfl⟩
  | white hc _ _ ihinner ihlater =>
    cases h' with
    | white _ hinner hlater =>
      obtain ⟨rfl, rfl⟩ := ihinner hinner
      obtain ⟨rfl, rfl⟩ := ihlater hlater
      exact ⟨rfl, rfl⟩
    | grey hc' => exact absurd (hc.symm.trans hc') Colour.noConfusion
    | black hc' => exact absurd (hc.symm.trans hc') Colour.noConfusion
  | grey hc _ ih =>
    cases h' with
    | white hc' => exact absurd (hc.symm.trans hc') Colour.noConfusion
    | grey _ hlater => exact ih hlater
    | black hc' => exact absurd (hc.symm.trans hc') Colour.noConfusion
  | black hc _ ih =>
    cases h' with
    | white hc' => exact absurd (hc.symm.trans hc') Colour.noConfusion
    | grey hc' => exact absurd (hc.symm.trans hc') Colour.noConfusion
    | black _ hlater => exact ih hlater

/-- Going through one list and then through another. -/
theorem Explores.append {js' : List Nat} {visits later : List Visit}
    (h : Explores next js s t visits) (h' : Explores next js' t u later) :
    Explores next (js ++ js') s u (visits ++ later) := by
  induction h with
  | done s => exact h'
  | white hc hinner _ _ ih =>
    rw [List.cons_append, List.cons_append, List.append_assoc]
    exact .white hc hinner (ih h')
  | grey hc _ ih => exact .grey hc (ih h')
  | black hc _ ih => exact .black hc (ih h')

/-- Going through successors of the last node on the path keeps the colouring and the path. -/
theorem Explores.wellColoured {visits : List Visit} (h : Explores next js s t visits)
    (hs : WellColoured next n s) (hlast : ∀ j ∈ js, ∀ a ∈ s.path.getLast?, j ∈ next a) :
    WellColoured next n t ∧ t.path = s.path := by
  induction h with
  | done s => exact ⟨hs, rfl⟩
  | white hc _ _ ihinner ihlater =>
    rw [List.forall_mem_cons] at hlast
    obtain ⟨ht, hpath⟩ := ihinner (hs.enter hc hlast.1) (successors_of_enter next _ _)
    rw [enter_path] at hpath
    obtain ⟨hu, hlater⟩ := ihlater (ht.leave hpath) (by rw [leave_path hpath]; exact hlast.2)
    exact ⟨hu, hlater.trans (leave_path hpath)⟩
  | grey _ _ ih =>
    rw [List.forall_mem_cons] at hlast
    exact ih (hs.close _) hlast.2
  | black _ _ ih =>
    rw [List.forall_mem_cons] at hlast
    exact ih hs hlast.2

/-! ## Fuel -/

/-- How many nodes have not been entered. -/
def whiteCount (s : Search) : Nat := s.colours.count .white

theorem WellColoured.whiteCount_le (hs : WellColoured next n s) : s.whiteCount ≤ n :=
  hs.size ▸ List.count_le_length

/-- Entering takes a node from the white ones. -/
theorem whiteCount_enter (h : s.colour i = .white) : (s.enter i).whiteCount + 1 = s.whiteCount := by
  have hlt := lt_of_white h
  have hget : s.colours[i] = .white := by
    rw [← h]
    unfold colour
    rw [List.getD_eq_getElem?_getD, List.getElem?_eq_getElem hlt, Option.getD_some]
  have hpos : 0 < s.colours.count .white := List.count_pos_iff.2 (hget ▸ List.getElem_mem hlt)
  show (s.colours.set i .grey).count .white + 1 = s.colours.count .white
  rw [List.count_set hlt, hget, if_pos (by simp), if_neg (by simp)]
  omega

theorem whiteCount_leave_le (t : Search) (i : Nat) : (t.leave i).whiteCount ≤ t.whiteCount := by
  show (t.colours.set i .black).count .white ≤ t.colours.count .white
  by_cases hlt : i < t.colours.length
  · rw [List.count_set hlt, if_neg (by simp : ¬ (Colour.black == Colour.white) = true)]
    omega
  · rw [List.set_eq_of_length_le (by omega)]

/-- No move makes a node white again. -/
theorem Explores.whiteCount_le {visits : List Visit} (h : Explores next js s t visits) :
    t.whiteCount ≤ s.whiteCount := by
  induction h with
  | done s => exact Nat.le_refl _
  | white hc _ _ ihinner ihlater =>
    have henter := whiteCount_enter hc
    have hleave := ihlater.trans (whiteCount_leave_le _ _)
    omega
  | grey _ _ ih => exact ih
  | black _ _ ih => exact ih

/-- Fuel for the white nodes is enough: by induction on it for the nodes entered inside one
another, and on the list for those entered side by side. -/
theorem explores (next : Nat → List Nat) (js : List Nat) (h : s.whiteCount ≤ fuel) :
    ∃ visits, Explores next js s (js.foldl (look next fuel) s) visits := by
  induction fuel using Nat.strong_induction_on generalizing s js with
  | _ fuel ihfuel =>
    induction js generalizing s with
    | nil => exact ⟨[], .done s⟩
    | cons j js ih =>
      rw [List.foldl_cons]
      cases hc : s.colour j with
      | white =>
        have henter := whiteCount_enter hc
        obtain ⟨fuel, rfl⟩ : ∃ k, fuel = k + 1 := ⟨fuel - 1, by omega⟩
        obtain ⟨inner, hinner⟩ :=
          ihfuel fuel (Nat.lt_succ_self fuel) (next j) (s := s.enter j) (by omega)
        have hle := (whiteCount_leave_le _ j).trans hinner.whiteCount_le
        obtain ⟨later, hlater⟩ := ih (hle.trans (by omega))
        rw [look_white hc]
        exact ⟨_, .white hc hinner hlater⟩
      | grey =>
        rw [look_grey hc]
        obtain ⟨later, hlater⟩ := ih (s := s.close j) h
        exact ⟨later, .grey hc hlater⟩
      | black =>
        rw [look_black hc]
        obtain ⟨later, hlater⟩ := ih h
        exact ⟨later, .black hc hlater⟩

/-- A visit with fuel for the white nodes goes through its node. -/
theorem explores_visit (next : Nat → List Nat) (hi : s.colour i = .white)
    (h : s.whiteCount ≤ fuel) : ∃ visits, Explores next [i] s (visit next fuel i s) visits := by
  obtain ⟨visits, hvisits⟩ := explores next [i] h
  rw [List.foldl_cons, List.foldl_nil] at hvisits
  unfold look at hvisits
  rw [hi] at hvisits
  exact ⟨visits, hvisits⟩

/-- Fuel for the white nodes is as good as any more. -/
theorem visit_fuel (next : Nat → List Nat) (hi : s.colour i = .white) (h : s.whiteCount ≤ fuel)
    (h' : s.whiteCount ≤ fuel') : visit next fuel i s = visit next fuel' i s := by
  obtain ⟨visits, hvisits⟩ := explores_visit next hi h
  obtain ⟨visits', hvisits'⟩ := explores_visit next hi h'
  exact (hvisits'.unique hvisits).1

/-! ## Roots -/

/-- What the search does about a root. -/
def begin (next : Nat → List Nat) (n : Nat) (s : Search) (root : Nat) : Search :=
  match s.colour root with
  | .white => visit next n root s
  | _ => s

/-- Between two roots the path is empty, so no node is grey, and the search goes through the roots
as it goes through successors. -/
theorem explores_roots (hs : WellColoured next n s) (hp : s.path = []) (roots : List Nat) :
    ∃ visits, Explores next roots s (roots.foldl (begin next n) s) visits := by
  induction roots generalizing s with
  | nil => exact ⟨[], .done s⟩
  | cons root roots ih =>
    rw [List.foldl_cons]
    cases hc : s.colour root with
    | white =>
      have hbegin : begin next n s root = visit next n root s := by
        unfold begin
        rw [hc]
      obtain ⟨visits, hvisits⟩ := explores_visit next hc hs.whiteCount_le
      obtain ⟨ht, hpath⟩ := hvisits.wellColoured hs (successors_of_nil hp _)
      obtain ⟨later, hlater⟩ := ih ht (hpath.trans hp)
      rw [hbegin]
      exact ⟨_, hvisits.append hlater⟩
    | grey =>
      rw [hs.grey, hp] at hc
      cases hc
    | black =>
      have hbegin : begin next n s root = s := by
        unfold begin
        rw [hc]
      obtain ⟨later, hlater⟩ := ih hs hp
      rw [hbegin]
      exact ⟨later, .black hc hlater⟩

/-- The whole search goes through its roots. -/
theorem run_explores (next : Nat → List Nat) (n : Nat) (roots : List Nat) :
    ∃ visits, Explores next roots (start n) (run next n roots) visits :=
  explores_roots (wellColoured_start next n) rfl roots

end Grading.Search
