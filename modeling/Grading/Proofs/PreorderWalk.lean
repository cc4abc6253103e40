import Grading.Proofs.Correspondence

/-!
# The walk back from the sink is depth first

The walk keeps a stack, on which a node may stand several times before it is visited.  What it
comes to is said here by recursion and by ids (`Walks`): a list of ids is walked through from left
to right; an id that did not fail or was met before is passed; at a failed source, or a failed gate
without failed inputs, a cause may be noted; and every other failed node is left for its failed
inputs, lower slots first, before the rest of the list.

    a recursive walk over ids is a run over their positions, whatever is below on the stack
                                                                                      (walk_run)
    every list of ids of nodes is walked through                                   (exists_walk)

So the run over the stack notes the causes of the one recursive walk from the sink, in its order
(`causes_in_preorder`).  This is so for every list of outcomes, whether or not an evaluation gives
it: nothing is asked of a failed node but that it failed.
-/

namespace Grading

open Evaluator

variable {α : Type}

/-! ## The recursive walk -/

namespace Model

/-- What a list of outcomes by position says of an id. -/
def valueOf (m : Model α) (v : List (Outcome α)) (id : String) : Outcome α :=
  ((m.position? id).map (valueAt v)).getD .unknown

/-- The failed nodes that a node reads from, lowest slot first. -/
def failedSources (m : Model α) (value : String → Outcome α) (id : String) : List String :=
  ((m.incoming id).map (·.source)).filter fun source => (value source).isFail

/-- The walk goes no further from a failed source or gate without failed inputs. -/
def StopsAt (m : Model α) (value : String → Outcome α) (n : Node α) : Prop :=
  n.kind = .source ∨ n.kind = .minPoints ∧ m.failedSources value n.id = []

/-- The cause where the walk stops: at a source with a minimum and points, or at a gate whose input
is a number. -/
def causeAt? (m : Model α) (value : String → Outcome α) (points : Points α) (n : Node α) :
    Option (Cause α) :=
  match n.settings with
  | .source s =>
    match points n.id, s.minPoints with
    | some x, some least => some ⟨n.id, .source, x, least⟩
    | _, _ => none
  | .minPoints s =>
    match (m.incoming n.id).map fun e => value e.source with
    | [.number x] => some ⟨n.id, .minPoints, x, s.minPoints⟩
    | _ => none
  | _ => none

end Model

/-- From the ids seen so far, walking through a list of ids ends with those ids seen and has met
those causes. -/
inductive Walks (m : Model α) (value : String → Outcome α) (points : Points α) :
    List String → List String → List String → List (Cause α) → Prop where
  | done (seen : List String) : Walks m value points seen [] seen []
  | passes {seen ids seen' : List String} {id : String} {found : List (Cause α)} :
      value id ≠ .fail ∨ id ∈ seen →
      Walks m value points seen ids seen' found →
      Walks m value points seen (id :: ids) seen' found
  | stops {seen ids seen' : List String} {n : Node α} {found : List (Cause α)} :
      n ∈ m.nodes → value n.id = .fail → n.id ∉ seen → m.StopsAt value n →
      Walks m value points (n.id :: seen) ids seen' found →
      Walks m value points seen (n.id :: ids) seen' ((m.causeAt? value points n).toList ++ found)
  | descends {seen ids seen₁ seen₂ : List String} {n : Node α} {found₁ found₂ : List (Cause α)} :
      n ∈ m.nodes → value n.id = .fail → n.id ∉ seen → ¬ m.StopsAt value n →
      Walks m value points (n.id :: seen) (m.failedSources value n.id) seen₁ found₁ →
      Walks m value points seen₁ ids seen₂ found₂ →
      Walks m value points seen (n.id :: ids) seen₂ (found₁ ++ found₂)

theorem Walks.append {m : Model α} {value : String → Outcome α} {points : Points α}
    {seen seen₁ seen₂ ids ids' : List String} {found₁ found₂ : List (Cause α)}
    (h : Walks m value points seen ids seen₁ found₁)
    (h' : Walks m value points seen₁ ids' seen₂ found₂) :
    Walks m value points seen (ids ++ ids') seen₂ (found₁ ++ found₂) := by
  induction h with
  | done seen => exact h'
  | passes hpass _ ih => exact .passes hpass (ih h')
  | stops hn hfail hnew hstops _ ih =>
    rw [List.append_assoc]
    exact .stops hn hfail hnew hstops (ih h')
  | descends hn hfail hnew hstops hinner _ _ ih =>
    rw [List.append_assoc]
    exact .descends hn hfail hnew hstops hinner (ih h')

/-! ## Ids and positions -/

section

variable {c : Checked α} {v : List (Outcome α)} {points : Points α} {i j : Nat} {n : Node α}

theorem valueOf_eq (hc : c.Faithful) (hn : c.model.nodes[i]? = some n) :
    c.model.valueOf v n.id = valueAt v i := by
  unfold Model.valueOf
  rw [Model.position?_of_nodup hc.wellWired.distinctIds hn]
  rfl

theorem valueOf_idAt (hc : c.Faithful) (hi : i < c.size) :
    c.model.valueOf v (c.idAt i) = valueAt v i := by
  obtain ⟨n, hn⟩ := Checked.exists_node hi
  rw [Checked.idAt_eq hn, valueOf_eq hc hn]

/-- The failed inputs of a node are its failed sources, in the same order. -/
theorem failedInputs_ids (hc : c.Faithful) (hn : c.model.nodes[i]? = some n) :
    (failedInputs c v i).map c.idAt = c.model.failedSources (c.model.valueOf v) n.id := by
  unfold failedInputs Model.failedSources
  rw [← Checked.inputsOf_ids hc hn, List.filter_map, List.filter_map, List.map_map]
  refine congrArg _ (List.filter_congr fun a ha => ?_)
  have hfeeds := (Checked.mem_inputsOf hc).1 (List.mem_map.2 ⟨a, ha, rfl⟩)
  show (valueAt v a.2).isFail = (c.model.valueOf v (c.idAt a.2)).isFail
  rw [valueOf_idAt hc (Model.feeds_lt hfeeds).1]

theorem failedInputs_eq_nil_iff (hc : c.Faithful) (hn : c.model.nodes[i]? = some n) :
    failedInputs c v i = [] ↔ c.model.failedSources (c.model.valueOf v) n.id = [] := by
  rw [← failedInputs_ids hc hn, List.map_eq_nil_iff]

/-- Where the recursive walk stops, the stack gets nothing. -/
theorem failedInputs_of_stopsAt (hc : c.Faithful) (hn : c.model.nodes[i]? = some n)
    (h : c.model.StopsAt (c.model.valueOf v) n) : failedInputs c v i = [] := by
  rcases h with hk | ⟨-, hnone⟩
  · rw [List.eq_nil_iff_forall_not_mem]
    intro j hj
    exact Checked.not_feeds_source hc hn hk j ((mem_failedInputs hc).1 hj).1
  · exact (failedInputs_eq_nil_iff hc hn).2 hnone

theorem sourceCause?_eq (points : Points α) (n : Node α) (s : SourceSettings α) :
    sourceCause? points n s =
      match points n.id, s.minPoints with
      | some x, some least => some ⟨n.id, .source, x, least⟩
      | _, _ => none := by
  unfold sourceCause?
  cases points n.id with
  | none => rfl
  | some x => cases s.minPoints <;> rfl

/-- The causes noted where the recursive walk stops. -/
theorem causesAt_of_stopsAt (hc : c.Faithful) (hn : c.model.nodes[i]? = some n)
    (hfail : valueAt v i = .fail) (h : c.model.StopsAt (c.model.valueOf v) n) :
    causesAt c v points i = (c.model.causeAt? (c.model.valueOf v) points n).toList := by
  have hempty : (failedInputs c v i).isEmpty = true :=
    List.isEmpty_iff.2 (failedInputs_of_stopsAt hc hn h)
  unfold causesAt Model.causeAt?
  simp only [hn, hfail]
  cases hs : n.settings with
  | source s =>
    exact congrArg Option.toList (sourceCause?_eq points n s)
  | minPoints s =>
    -- the one input of the gate, by position and by id
    have htakes := hc.wellWired.takes n (List.mem_of_getElem? hn)
    rw [hs] at htakes
    obtain ⟨j, hj⟩ := Checked.inputsOf_single hc hn htakes
    have hfeeds : Feeds c.model.links j i := (Checked.mem_inputsOf hc).1 (by simp [hj])
    have hvalues := congrArg (List.map (c.model.valueOf v)) (Checked.inputsOf_ids hc hn)
    rw [hj, List.map_singleton, List.map_singleton, List.map_map,
      valueOf_idAt hc (Model.feeds_lt hfeeds).1] at hvalues
    have hvalues : ((c.model.incoming n.id).map fun e => c.model.valueOf v e.source) =
        [valueAt v j] := hvalues.symm
    simp only [if_pos hempty, hvalues]
    unfold gateCause?
    rw [hj]
    cases hvalue : valueAt v j <;> simp [hvalue]
  | _ => rfl

/-- Where the recursive walk goes on, no cause is noted. -/
theorem causesAt_of_not_stopsAt (hc : c.Faithful) (hn : c.model.nodes[i]? = some n)
    (hfail : valueAt v i = .fail) (h : ¬ c.model.StopsAt (c.model.valueOf v) n) :
    causesAt c v points i = [] := by
  unfold causesAt
  simp only [hn, hfail]
  cases hs : n.settings with
  | source s => exact absurd (.inl (Node.kind_eq_source_iff.2 ⟨s, hs⟩)) h
  | minPoints s =>
    have hkind : n.kind = .minPoints := by
      unfold Node.kind
      rw [hs]
      rfl
    have hsome : ¬ (failedInputs c v i).isEmpty = true := by
      rw [List.isEmpty_iff, failedInputs_eq_nil_iff hc hn]
      exact fun hnone => h (.inr ⟨hkind, hnone⟩)
    exact if_neg hsome
  | _ => rfl

/-! ## The stack follows the recursion -/

/-- The failed nodes that were visited are those whose ids were seen. -/
def Tracks (c : Checked α) (v : List (Outcome α)) (visited : List Nat) (seen : List String) :
    Prop :=
  ∀ i < c.size, valueAt v i = .fail → (i ∈ visited ↔ c.idAt i ∈ seen)

variable {visited todo : List Nat} {seen seen' ids : List String} {found : List (Cause α)}

theorem Tracks.visit (hc : c.Faithful) (h : Tracks c v visited seen) (hi : i < c.size) :
    Tracks c v (i :: visited) (c.idAt i :: seen) := by
  intro j hj hfail
  rw [List.mem_cons, List.mem_cons, h j hj hfail]
  refine or_congr ⟨fun heq => by rw [heq], fun heq => ?_⟩ Iff.rfl
  exact Checked.idAt_inj hc hj hi heq

theorem Tracks.pass (h : Tracks c v visited seen) (hi : valueAt v i ≠ .fail) :
    Tracks c v (i :: visited) seen := by
  intro j hj hfail
  have hne : j ≠ i := by
    rintro rfl
    exact hi hfail
  rw [List.mem_cons, or_iff_right hne, h j hj hfail]

/-- Passing a node takes one step. -/
theorem step_pass (hc : c.Faithful) (h : Tracks c v visited seen) (hi : i < c.size)
    (hpass : valueAt v i ≠ .fail ∨ c.idAt i ∈ seen) :
    ∃ visited', Tracks c v visited' seen ∧ ∀ (stack : List Nat) (causes : List (Cause α)),
      Trail.step c v points ⟨i :: stack, visited, causes⟩ = ⟨stack, visited', causes⟩ := by
  by_cases hvisited : i ∈ visited
  · exact ⟨visited, h, fun stack causes => step_visited rfl hvisited⟩
  · have hfail : valueAt v i ≠ .fail := by
      intro hfail
      exact hpass.elim (· hfail) fun hseen => hvisited ((h i hi hfail).2 hseen)
    have hbefore : failedBefore c v i = [] := if_neg (mt isFail_iff.1 hfail)
    have hcauses : causesAt c v points i = [] := by
      rw [List.eq_nil_iff_forall_not_mem]
      exact fun k hk => hfail (fail_of_mem_causesAt hc hk).1
    refine ⟨i :: visited, h.pass hfail, fun stack causes => ?_⟩
    rw [step_fresh hc rfl hvisited, hbefore, hcauses]
    show (⟨stack, i :: visited, causes ++ []⟩ : Trail α) = _
    rw [List.append_nil]

/-- Visiting a failed node notes its causes and puts its failed inputs on the stack. -/
theorem step_failed (hc : c.Faithful) (hfail : valueAt v i = .fail) (hnew : i ∉ visited)
    (stack : List Nat) (causes : List (Cause α)) :
    Trail.step c v points ⟨i :: stack, visited, causes⟩ =
      ⟨failedInputs c v i ++ stack, i :: visited, causes ++ causesAt c v points i⟩ := by
  have hbefore : failedBefore c v i = failedInputs c v i := if_pos (isFail_iff.2 hfail)
  rw [step_fresh hc rfl hnew, hbefore]

/-- The node at the position of an id. -/
theorem node_of_idAt (hc : c.Faithful) (hi : i < c.size) (hmem : n ∈ c.model.nodes)
    (hid : c.idAt i = n.id) : c.model.nodes[i]? = some n := by
  obtain ⟨n', hn'⟩ := Checked.exists_node hi
  rw [Checked.idAt_eq hn'] at hid
  have hmem' := List.mem_of_getElem? hn'
  obtain rfl := List.inj_on_of_nodup_map hc.wellWired.distinctIds hmem' hmem hid
  exact hn'

/-- Where the recursion comes to a failed node for the first time, the stack does as well. -/
theorem exists_fresh (hc : c.Faithful) (htodo : ∀ i ∈ todo, i < c.size)
    (hids : todo.map c.idAt = n.id :: ids) (htracks : Tracks c v visited seen)
    (hmem : n ∈ c.model.nodes) (hfail : c.model.valueOf v n.id = .fail) (hnew : n.id ∉ seen) :
    ∃ i later, todo = i :: later ∧ later.map c.idAt = ids ∧ (∀ j ∈ later, j < c.size) ∧
      c.model.nodes[i]? = some n ∧ valueAt v i = .fail ∧ i ∉ visited ∧
      Tracks c v (i :: visited) (n.id :: seen) := by
  obtain ⟨i, later, rfl, hid, hlater⟩ := List.map_eq_cons_iff.1 hids
  rw [List.forall_mem_cons] at htodo
  obtain ⟨hi, htodo⟩ := htodo
  have hn := node_of_idAt hc hi hmem hid
  rw [valueOf_eq hc hn] at hfail
  have hvisited : i ∉ visited := by
    rw [htracks i hi hfail, hid]
    exact hnew
  have hvisit := htracks.visit hc hi
  rw [hid] at hvisit
  exact ⟨i, later, rfl, hlater, htodo, hn, hfail, hvisited, hvisit⟩

/-- By the recursion of the walk: however much is below on the stack, the run comes to that point
with what the recursive walk has seen and found. -/
theorem walk_run (hc : c.Faithful)
    (h : Walks c.model (c.model.valueOf v) points seen ids seen' found) :
    ∀ (todo visited : List Nat), (∀ i ∈ todo, i < c.size) → todo.map c.idAt = ids →
      Tracks c v visited seen →
        ∃ count visited', Tracks c v visited' seen' ∧
          ∀ (rest : List Nat) (causes : List (Cause α)),
            Trail.run c v points count ⟨todo ++ rest, visited, causes⟩ =
              ⟨rest, visited', causes ++ found⟩ := by
  induction h with
  | done seen =>
    intro todo visited htodo hids htracks
    obtain rfl := List.map_eq_nil_iff.1 hids
    refine ⟨0, visited, htracks, fun rest causes => ?_⟩
    rw [List.append_nil]
    rfl
  | passes hpass _ ih =>
    intro todo visited htodo hids htracks
    obtain ⟨i, todo, rfl, rfl, hrest⟩ := List.map_eq_cons_iff.1 hids
    rw [List.forall_mem_cons] at htodo
    obtain ⟨hi, htodo⟩ := htodo
    rw [valueOf_idAt hc hi] at hpass
    obtain ⟨visited₁, htracks₁, hstep⟩ := @step_pass _ c v points i visited _ hc htracks hi hpass
    obtain ⟨count, visited', htracks', hrun⟩ := ih todo visited₁ htodo hrest htracks₁
    refine ⟨count + 1, visited', htracks', fun rest causes => ?_⟩
    show Trail.run c v points count
      (Trail.step c v points ⟨i :: (todo ++ rest), visited, causes⟩) = _
    rw [hstep, hrun]
  | stops hmem hfail hnew hstops _ ih =>
    intro todo visited htodo hids htracks
    obtain ⟨i, later, rfl, hlater, htodo, hn, hfail, hvisited, htracks₁⟩ :=
      exists_fresh hc htodo hids htracks hmem hfail hnew
    obtain ⟨count, visited', htracks', hrun⟩ := ih later (i :: visited) htodo hlater htracks₁
    refine ⟨count + 1, visited', htracks', fun rest causes => ?_⟩
    show Trail.run c v points count
      (Trail.step c v points ⟨i :: (later ++ rest), visited, causes⟩) = _
    rw [step_failed hc hfail hvisited, failedInputs_of_stopsAt hc hn hstops,
      causesAt_of_stopsAt hc hn hfail hstops, List.nil_append, hrun, List.append_assoc]
  | descends hmem hfail hnew hstops _ _ ihinner ih =>
    intro todo visited htodo hids htracks
    obtain ⟨i, later, rfl, hlater, htodo, hn, hfail, hvisited, htracks₁⟩ :=
      exists_fresh hc htodo hids htracks hmem hfail hnew
    have hinner : ∀ j ∈ failedInputs c v i, j < c.size :=
      fun j hj => (Model.feeds_lt ((mem_failedInputs hc).1 hj).1).1
    obtain ⟨count₁, visited₁, htracks₂, hrun₁⟩ :=
      ihinner (failedInputs c v i) (i :: visited) hinner (failedInputs_ids hc hn) htracks₁
    obtain ⟨count₂, visited₂, htracks', hrun₂⟩ := ih later visited₁ htodo hlater htracks₂
    refine ⟨count₁ + count₂ + 1, visited₂, htracks', fun rest causes => ?_⟩
    show Trail.run c v points (count₁ + count₂)
      (Trail.step c v points ⟨i :: (later ++ rest), visited, causes⟩) = _
    rw [step_failed hc hfail hvisited, causesAt_of_not_stopsAt hc hn hfail hstops,
      List.append_nil, Trail.run_add, hrun₁, hrun₂, List.append_assoc]

/-! ## Every list is walked through -/

theorem exists_walk_list {m : Model α} {value : String → Outcome α}
    (h : ∀ id ∈ ids, ∀ seen, ∃ seen' found, Walks m value points seen [id] seen' found)
    (seen : List String) : ∃ seen' found, Walks m value points seen ids seen' found := by
  induction ids generalizing seen with
  | nil => exact ⟨seen, [], .done seen⟩
  | cons id ids ih =>
    rw [List.forall_mem_cons] at h
    obtain ⟨seen₁, found₁, hfirst⟩ := h.1 seen
    obtain ⟨seen₂, found₂, hrest⟩ := ih h.2 seen₁
    exact ⟨seen₂, found₁ ++ found₂, hfirst.append hrest⟩

/-- The recursion ends, because no path of links comes back to its start. -/
theorem exists_walk (hc : c.Faithful) (v : List (Outcome α)) (points : Points α) (hi : i < c.size)
    (seen : List String) : ∃ seen' found,
      Walks c.model (c.model.valueOf v) points seen [c.idAt i] seen' found := by
  induction i using (Checked.feeds_wellFounded hc).induction generalizing seen with
  | _ i ih =>
    obtain ⟨n, hn⟩ := Checked.exists_node hi
    have hmem := List.mem_of_getElem? hn
    rw [Checked.idAt_eq hn]
    by_cases hpass : c.model.valueOf v n.id ≠ .fail ∨ n.id ∈ seen
    · exact ⟨seen, [], .passes hpass (.done seen)⟩
    · rw [not_or, not_not] at hpass
      obtain ⟨hfail, hnew⟩ := hpass
      by_cases hstops : c.model.StopsAt (c.model.valueOf v) n
      · exact ⟨_, _, .stops hmem hfail hnew hstops (.done _)⟩
      · have hinner : ∀ id ∈ c.model.failedSources (c.model.valueOf v) n.id, ∀ seen,
            ∃ seen' found, Walks c.model (c.model.valueOf v) points seen [id] seen' found := by
          rw [← failedInputs_ids hc hn, List.forall_mem_map]
          intro j hj
          have hfeeds := ((mem_failedInputs hc).1 hj).1
          exact ih j hfeeds (Model.feeds_lt hfeeds).1
        obtain ⟨seen₁, found₁, hwalk⟩ := exists_walk_list hinner (n.id :: seen)
        exact ⟨_, _, .descends hmem hfail hnew hstops hwalk (.done seen₁)⟩

/-- Whatever the recursive walk from the sink finds is noted by the run. -/
theorem causes_of_walk (hc : c.Faithful) (hn : c.model.nodes[c.sink]? = some n)
    (h : Walks c.model (c.model.valueOf v) points [] [n.id] seen found) :
    found = c.causes v points := by
  have hsink : ∀ i ∈ [c.sink], i < c.size :=
    fun i hi => List.mem_singleton.1 hi ▸ Checked.lt_size hn
  have hids : [c.sink].map c.idAt = [n.id] := by
    rw [List.map_singleton, Checked.idAt_eq hn]
  have hstart : Tracks c v [] [] :=
    fun i _ _ => iff_of_false List.not_mem_nil List.not_mem_nil
  obtain ⟨count, visited, -, hrun⟩ := walk_run hc h [c.sink] [] hsink hids hstart
  have hrun : Trail.run c v points count ⟨[c.sink], [], []⟩ = ⟨[], visited, found⟩ := hrun [] []
  -- with more steps than either run needs, both are the same run
  have hmore : c.causes v points =
      (Trail.run c v points (count + (c.inputs.flatten.length + 1)) ⟨[c.sink], [], []⟩).causes :=
    causes_eq_run hc (Nat.le_add_left _ count)
  rw [Trail.run_add, hrun, Trail.run_nil _ rfl] at hmore
  exact hmore.symm

end

/-! ## Top theorem -/

/-- The walk over the stack empties it, and notes the causes of the one recursive walk from the
sink, in its order and each node once; and this for any outcomes at all. -/
theorem causes_in_preorder [Number α] {m : Model α} {strict : Bool} {c : Checked α}
    (h : validate strict m = .ok c) (v : List (Outcome α)) (points : Points α) :
    (∃ s, m.sink? = some s ∧
      (∃ seen, Walks m (m.valueOf v) points [] [s.id] seen (c.causes v points)) ∧
      ∀ seen found, Walks m (m.valueOf v) points [] [s.id] seen found →
        found = c.causes v points) ∧
    ((c.causes v points).map (·.node)).Nodup ∧
    ∀ count, c.inputs.flatten.length + 1 ≤ count →
      (Trail.run c v points count ⟨[c.sink], [], []⟩).stack = [] ∧
      (Trail.run c v points count ⟨[c.sink], [], []⟩).causes = c.causes v points := by
  obtain ⟨hc, rfl⟩ := faithful_of_validate h
  refine ⟨?walk, causes_nodup hc v points, fun count hcount => ⟨?_, (causes_eq_run hc hcount).symm⟩⟩
  case walk =>
    obtain ⟨s, hs, hi⟩ := Checked.sink?_eq hc
    obtain ⟨seen, found, hwalk⟩ := exists_walk hc v points (Checked.lt_size hi) []
    rw [Checked.idAt_eq hi] at hwalk
    refine ⟨s, hs, ⟨seen, ?_⟩, fun seen found => causes_of_walk hc hi⟩
    rwa [← causes_of_walk hc hi hwalk]
  · obtain ⟨more, rfl⟩ := Nat.exists_eq_add_of_le hcount
    have hends := (walk_ends hc v points).2
    rw [Trail.run_add, Trail.run_nil more hends, hends]

/-- Two sums share an exam that failed; the one of them that counts first reads from a gate that
failed before it reads from the exam. -/
def sharedModel : Model Float where
  nodes :=
    [⟨"exam", .source ⟨some 5, .courseFail⟩⟩, ⟨"quiz", .source ⟨none, .ignore⟩⟩,
      ⟨"gate", .minPoints ⟨5, .courseFail⟩⟩, ⟨"right", .addition⟩, ⟨"left", .addition⟩,
      ⟨"total", .addition⟩, ⟨"grade", .sink⟩]
  edges :=
    [Edge.join "exam" "right" 0, Edge.join "exam" "left" 7, Edge.join "gate" "left" 2,
      Edge.join "quiz" "gate" 0, Edge.join "right" "total" 9, Edge.join "left" "total" 4,
      Edge.join "total" "grade" 0]

def sharedPoints : Points Float := Points.ofList [("exam", 3), ("quiz", 2)]

theorem causes_in_preorder_shared :
    validate true sharedModel = .ok (sharedModel.accepted 6) ∧
      ∃ v seen, (Evaluator.ofChecked (sharedModel.accepted 6)).run sharedPoints = .ok v ∧
        Walks sharedModel (sharedModel.valueOf v) sharedPoints [] ["grade"] seen
          [⟨"gate", .minPoints, 2, 5⟩, ⟨"exam", .source, 3, 5⟩] := by
  have hvalid : validate true sharedModel = .ok (sharedModel.accepted 6) := rfl
  obtain ⟨v, hv, hcauses⟩ : ∃ v,
      (Evaluator.ofChecked (sharedModel.accepted 6)).run sharedPoints = .ok v ∧
        (sharedModel.accepted 6).causes v sharedPoints =
          [⟨"gate", .minPoints, 2, 5⟩, ⟨"exam", .source, 3, 5⟩] := ⟨_, rfl, rfl⟩
  obtain ⟨s, hs, ⟨seen, hwalk⟩, -⟩ := (causes_in_preorder hvalid v sharedPoints).1
  obtain rfl : (⟨"grade", .sink⟩ : Node Float) = s := Option.some.inj hs
  rw [hcauses] at hwalk
  exact ⟨hvalid, v, seen, hv, hwalk⟩

end Grading
