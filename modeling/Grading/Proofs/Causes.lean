import Mathlib.Algebra.GroupWithZero.Nat
import Grading.Proofs.Classification
import Grading.Proofs.Origins

/-!
# The causes of a failed grade

The walk back from the sink goes over failed outcomes only.  `Trail.Invariant` says what is true
of it at any time: what it has visited leads to the sink, the failed inputs of what it has visited
are visited or still on the stack, and the causes are those of the visited nodes, in order.  The
stack with the links into the nodes not yet visited shrinks with every step (`potential_step`), so
in the end the stack is empty, the visited nodes are all the failed ones that lead to the sink
through failed ones, and every failed origin that leads to the sink does so:

    k ∈ c.causes v points ↔ k is an origin that leads to the sink               (mem_causes)
    the grade failed → c.causes v points ≠ []                                   (causes_ne_nil)

`failure_explained` says so by ids.
-/

namespace Grading

open Evaluator

variable {α : Type} {c : Checked α} {v : List (Outcome α)} {points : Points α} {i j : Nat}
variable {t : Trail α} {stack : List Nat} {k : Cause α} {n : Node α}

/-! ## One step -/

/-- The nodes that the walk goes on to from a node. -/
def failedBefore (c : Checked α) (v : List (Outcome α)) (i : Nat) : List Nat :=
  if (valueAt v i).isFail then failedInputs c v i else []

/-- The causes that the walk notes at a node. -/
def causesAt (c : Checked α) (v : List (Outcome α)) (points : Points α) (i : Nat) :
    List (Cause α) :=
  match c.model.nodes[i]?, valueAt v i with
  | some n, .fail =>
    match n.settings with
    | .source s => (sourceCause? points n s).toList
    | .minPoints s =>
      if (failedInputs c v i).isEmpty then (gateCause? c v n s i).toList else []
    | _ => []
  | _, _ => []

theorem isFail_iff {out : Outcome α} : out.isFail = true ↔ out = .fail := by
  cases out <;> simp [Outcome.isFail]

theorem mem_failedInputs (hc : c.Faithful) : j ∈ failedInputs c v i ↔
    Feeds c.model.links j i ∧ valueAt v j = .fail := by
  unfold failedInputs
  rw [List.mem_filter, Checked.mem_inputsOf hc, isFail_iff]

theorem mem_failedBefore (hc : c.Faithful) : j ∈ failedBefore c v i ↔
    valueAt v i = .fail ∧ Feeds c.model.links j i ∧ valueAt v j = .fail := by
  unfold failedBefore
  by_cases hi : valueAt v i = .fail
  · rw [if_pos (isFail_iff.2 hi), mem_failedInputs hc, and_iff_right hi]
  · rw [if_neg (mt isFail_iff.1 hi)]
    simp [hi]

theorem failedBefore_length (c : Checked α) (v : List (Outcome α)) (i : Nat) :
    (failedBefore c v i).length ≤ (c.inputsOf i).length := by
  unfold failedBefore failedInputs
  split
  · exact (List.length_filter_le _ _).trans (List.length_map _).le
  · exact Nat.zero_le _

theorem step_nil (h : t.stack = []) : t.step c v points = t := by
  unfold Trail.step
  rw [h]

theorem step_visited (h : t.stack = i :: stack) (hi : i ∈ t.visited) :
    t.step c v points = { t with stack := stack } := by
  unfold Trail.step
  rw [h]
  exact if_pos (List.contains_iff_mem.2 hi)

/-- Entering a node notes its causes and puts its failed inputs on the stack. -/
theorem enter_eq (hc : c.Faithful) (hn : c.model.nodes[i]? = some n) (hi : valueAt v i = .fail) :
    t.enter c v points n i = { t with stack := failedBefore c v i ++ t.stack,
                                      causes := t.causes ++ causesAt c v points i } := by
  have hbefore : failedBefore c v i = failedInputs c v i := if_pos (isFail_iff.2 hi)
  unfold Trail.enter causesAt
  rw [hbefore]
  simp only [hn, hi]
  cases hs : n.settings with
  | source s =>
    have hnone : failedInputs c v i = [] := by
      rw [List.eq_nil_iff_forall_not_mem]
      intro j hj
      have hk : n.kind = .source := Node.kind_eq_source_iff.2 ⟨s, hs⟩
      exact Checked.not_feeds_source hc hn hk j ((mem_failedInputs hc).1 hj).1
    simp only [hnone, List.nil_append]
  | minPoints s =>
    cases failedInputs c v i with
    | nil => simp
    | cons j failed => simp
  | _ => simp only [List.append_nil]

theorem step_fresh (hc : c.Faithful) (h : t.stack = i :: stack) (hi : i ∉ t.visited) :
    t.step c v points = { stack := failedBefore c v i ++ stack, visited := i :: t.visited,
                          causes := t.causes ++ causesAt c v points i } := by
  have hcontains : ¬ t.visited.contains i = true := mt List.contains_iff_mem.1 hi
  unfold Trail.step
  rw [h]
  refine (if_neg hcontains).trans ?_
  by_cases hfail : valueAt v i = .fail
  · cases hn : c.model.nodes[i]? with
    | some n =>
      simp only [hfail]
      rw [enter_eq hc hn hfail]
    | none =>
      have hbefore : failedBefore c v i = [] := by
        rw [List.eq_nil_iff_forall_not_mem]
        intro j hj
        obtain ⟨n, hn'⟩ := Checked.exists_node (Model.feeds_lt ((mem_failedBefore hc).1 hj).2.1).2
        rw [hn] at hn'
        exact nomatch hn'
      have hcauses : causesAt c v points i = [] := by
        unfold causesAt
        simp only [hn]
      rw [hbefore, hcauses]
      simp
  · have hbefore : failedBefore c v i = [] := if_neg (mt isFail_iff.1 hfail)
    have hcauses : causesAt c v points i = [] := by
      unfold causesAt
      cases hn : c.model.nodes[i]? <;> cases hvalue : valueAt v i <;> simp_all
    rw [hbefore, hcauses]
    cases hn : c.model.nodes[i]? <;> cases hvalue : valueAt v i <;> simp_all

/-! ## The walk -/

/-- What is true of the walk at any time. -/
structure Trail.Invariant (c : Checked α) (v : List (Outcome α)) (points : Points α)
    (t : Trail α) : Prop where
  nodup : t.visited.Nodup
  causes : t.causes = t.visited.reverse.flatMap (causesAt c v points)
  sink : c.sink ∈ t.visited ∨ c.sink ∈ t.stack
  closed : ∀ i ∈ t.visited, ∀ j ∈ failedBefore c v i, j ∈ t.visited ∨ j ∈ t.stack
  leads : ∀ i, i ∈ t.visited ∨ i ∈ t.stack →
    Relation.ReflTransGen (Feeds c.model.links) i c.sink

theorem Trail.Invariant.step (hc : c.Faithful) (ht : t.Invariant c v points) :
    (t.step c v points).Invariant c v points := by
  match hstack : t.stack with
  | [] =>
    rw [step_nil hstack]
    exact ht
  | i :: stack =>
    obtain ⟨hnodup, hcauses, hsink, hclosed, hleads⟩ := ht
    simp only [hstack, List.mem_cons] at hsink hclosed hleads
    by_cases hi : i ∈ t.visited
    · -- Nothing is lost with a node that was visited before.
      have hkept : ∀ j, j ∈ t.visited ∨ j = i ∨ j ∈ stack → j ∈ t.visited ∨ j ∈ stack := by
        rintro j (hj | rfl | hj)
        · exact .inl hj
        · exact .inl hi
        · exact .inr hj
      rw [step_visited hstack hi]
      exact ⟨hnodup, hcauses, hkept _ hsink, fun j hj k hk => hkept k (hclosed j hj k hk),
        fun j hj => hleads j (hj.imp_right .inr)⟩
    · have hkept : ∀ j, j ∈ t.visited ∨ j = i ∨ j ∈ stack →
          j ∈ i :: t.visited ∨ j ∈ failedBefore c v i ++ stack := by
        rintro j (hj | rfl | hj)
        · exact .inl (List.mem_cons_of_mem i hj)
        · exact .inl List.mem_cons_self
        · exact .inr (List.mem_append_right _ hj)
      rw [step_fresh hc hstack hi]
      refine ⟨List.nodup_cons.2 ⟨hi, hnodup⟩, ?_, hkept _ hsink, fun j hj k hk => ?_,
        fun j hj => ?_⟩
      · rw [List.reverse_cons, List.flatMap_append, ← hcauses, List.flatMap_singleton]
      · rcases List.mem_cons.1 hj with rfl | hj
        · exact .inr (List.mem_append_left _ hk)
        · exact hkept k (hclosed j hj k hk)
      · rcases hj with hj | hj
        · rcases List.mem_cons.1 hj with rfl | hj
          · exact hleads j (.inr (.inl rfl))
          · exact hleads j (.inl hj)
        · rcases List.mem_append.1 hj with hj | hj
          · exact .head ((mem_failedBefore hc).1 hj).2.1 (hleads i (.inr (.inl rfl)))
          · exact hleads j (.inr (.inr hj))

/-- The number of links into nodes that are not visited. -/
def linksAhead (c : Checked α) (visited : List Nat) : Nat :=
  (((List.range c.size).filter fun i => i ∉ visited).map fun i => (c.inputsOf i).length).sum

/-- The stack with the links that may yet be put on it: no more steps are left than that. -/
def Trail.potential (c : Checked α) (t : Trail α) : Nat :=
  t.stack.length + linksAhead c t.visited

/-- Visiting a node takes its share out of a sum over the nodes not yet visited. -/
theorem sum_visit (weight : Nat → Nat) (nodes : List Nat) {visited : List Nat}
    (hnew : i ∉ visited) : ((nodes.filter fun j => j ∉ i :: visited).map weight).sum +
        (if i ∈ nodes then weight i else 0) ≤
      ((nodes.filter fun j => j ∉ visited).map weight).sum := by
  induction nodes with
  | nil => simp
  | cons j nodes ih =>
    by_cases hj : j = i
    · subst hj
      rw [List.filter_cons_of_neg (by simp), List.filter_cons_of_pos (by simpa using hnew),
        List.map_cons, List.sum_cons, if_pos List.mem_cons_self]
      omega
    · have hmem : i ∈ j :: nodes ↔ i ∈ nodes := by simp [Ne.symm hj]
      rw [if_congr hmem rfl rfl]
      by_cases hvisited : j ∈ visited
      · rw [List.filter_cons_of_neg (by simp [hvisited]),
          List.filter_cons_of_neg (by simpa using hvisited)]
        exact ih
      · rw [List.filter_cons_of_pos (by simp [hj, hvisited]),
          List.filter_cons_of_pos (by simpa using hvisited), List.map_cons, List.map_cons,
          List.sum_cons, List.sum_cons]
        omega

theorem linksAhead_visit (hc : c.Faithful) {visited : List Nat} (hi : i ∉ visited) :
    linksAhead c (i :: visited) + (failedBefore c v i).length ≤ linksAhead c visited := by
  have hsum := sum_visit (fun i => (c.inputsOf i).length) (List.range c.size) hi
  have hlength := failedBefore_length c v i
  unfold linksAhead
  by_cases hsize : i < c.size
  · rw [if_pos (List.mem_range.2 hsize)] at hsum
    omega
  · have hnone : failedBefore c v i = [] := by
      rw [List.eq_nil_iff_forall_not_mem]
      intro j hj
      exact hsize (Model.feeds_lt ((mem_failedBefore hc).1 hj).2.1).2
    rw [hnone, List.length_nil]
    omega

theorem potential_step (hc : c.Faithful) (h : t.stack = i :: stack) :
    (t.step c v points).potential c + 1 ≤ t.potential c := by
  unfold Trail.potential
  by_cases hi : i ∈ t.visited
  · rw [step_visited h hi, h, List.length_cons]
    show stack.length + linksAhead c t.visited + 1 ≤ _
    omega
  · have hahead := @linksAhead_visit _ c v i hc t.visited hi
    rw [step_fresh hc h hi, h, List.length_cons]
    show (failedBefore c v i ++ stack).length + linksAhead c (i :: t.visited) + 1 ≤ _
    rw [List.length_append]
    omega

theorem Trail.run_nil (count : Nat) (h : t.stack = []) : Trail.run c v points count t = t := by
  induction count with
  | zero => rfl
  | succ count ih =>
    unfold Trail.run
    rw [step_nil h, ih]

/-- As many steps as the potential says empty the stack. -/
theorem Trail.run_spec (hc : c.Faithful) (count : Nat) (ht : t.Invariant c v points)
    (hcount : t.potential c ≤ count) :
    (Trail.run c v points count t).Invariant c v points ∧
      (Trail.run c v points count t).stack = [] := by
  induction count generalizing t with
  | zero =>
    refine ⟨ht, List.length_eq_zero_iff.1 ?_⟩
    unfold Trail.potential at hcount
    show t.stack.length = 0
    omega
  | succ count ih =>
    match hstack : t.stack with
    | [] =>
      rw [Trail.run_nil _ hstack]
      exact ⟨ht, hstack⟩
    | i :: stack =>
      have := @potential_step _ c v points i t stack hc hstack
      exact ih (ht.step hc) (by omega)

/-- The walk ends with an empty stack. -/
theorem walk_ends (hc : c.Faithful) (v : List (Outcome α)) (points : Points α) :
    (Trail.run c v points (c.inputs.flatten.length + 1) ⟨[c.sink], [], []⟩).Invariant c v points ∧
      (Trail.run c v points (c.inputs.flatten.length + 1) ⟨[c.sink], [], []⟩).stack = [] := by
  have hstart : Trail.Invariant c v points ⟨[c.sink], [], []⟩ := by
    refine ⟨List.nodup_nil, rfl, .inr List.mem_cons_self, fun _ h => absurd h List.not_mem_nil, ?_⟩
    rintro i (hi | hi)
    · exact absurd hi List.not_mem_nil
    · rw [List.mem_singleton.1 hi]
  have hsteps : Trail.potential c ⟨[c.sink], [], []⟩ ≤ c.inputs.flatten.length + 1 := by
    have hall : ((List.range c.size).filter fun i => i ∉ ([] : List Nat)) = List.range c.size :=
      List.filter_eq_self.2 (by simp)
    unfold Trail.potential linksAhead
    rw [hall, List.length_flatten, hc.inputs, List.map_map]
    simp only [Checked.inputsOf_eq hc]
    show 1 + _ ≤ _
    rw [Nat.add_comm]
    exact Nat.le_refl _
  exact Trail.run_spec hc _ hstart hsteps

/-- What the whole walk visits: the sink, with a node all its failed inputs, and only nodes that
lead to the sink. -/
theorem exists_visited (hc : c.Faithful) (v : List (Outcome α)) (points : Points α) :
    ∃ visited : List Nat, visited.Nodup ∧ c.sink ∈ visited ∧
      (∀ i ∈ visited, ∀ j ∈ failedBefore c v i, j ∈ visited) ∧
      (∀ i ∈ visited, Relation.ReflTransGen (Feeds c.model.links) i c.sink) ∧
      c.causes v points = visited.flatMap (causesAt c v points) := by
  obtain ⟨⟨hnodup, hcauses, hsink, hclosed, hleads⟩, hstack⟩ := walk_ends hc v points
  rw [hstack] at hsink hclosed hleads
  simp only [List.not_mem_nil, or_false] at hsink hclosed hleads
  refine ⟨_, List.nodup_reverse.2 hnodup, List.mem_reverse.2 hsink, ?_, ?_, hcauses⟩
  · intro i hi j hj
    exact List.mem_reverse.2 (hclosed i (List.mem_reverse.1 hi) j hj)
  · exact fun i hi => hleads i (List.mem_reverse.1 hi)

/-! ## Causes and origins -/

theorem toList_nodes {cause : Option (Cause α)} {id : String}
    (h : ∀ k, cause = some k → k.node = id) :
    cause.toList.map (·.node) = [] ∨ cause.toList.map (·.node) = [id] := by
  cases cause with
  | none => exact .inl rfl
  | some k => exact .inr (congrArg (fun id => [id]) (h k rfl))

/-- At a node the walk notes one cause at most, and it names that node. -/
theorem causesAt_nodes (c : Checked α) (v : List (Outcome α)) (points : Points α) (i : Nat) :
    (causesAt c v points i).map (·.node) = [] ∨
      (causesAt c v points i).map (·.node) = [c.idAt i] := by
  unfold causesAt
  split
  · next n hn _ =>
    have hid : c.idAt i = n.id := Model.idAt_eq hn
    split
    · refine toList_nodes fun k hk => ?_
      unfold sourceCause? at hk
      obtain ⟨x, -, hk⟩ := Option.bind_eq_some_iff.1 hk
      obtain ⟨least, -, hk⟩ := Option.bind_eq_some_iff.1 hk
      rw [hid, ← Option.some.inj hk]
    · split
      · refine toList_nodes fun k hk => ?_
        unfold gateCause? at hk
        obtain ⟨⟨slot, j⟩, -, hk⟩ := Option.bind_eq_some_iff.1 hk
        cases hvalue : valueAt v j with
        | number x =>
          simp only [hvalue] at hk
          rw [hid, ← Option.some.inj hk]
        | fail => simp [hvalue] at hk
        | unknown => simp [hvalue] at hk
      · exact .inl rfl
    · exact .inl rfl
  · exact .inl rfl

theorem lt_of_leads_sink (hc : c.Faithful)
    (h : Relation.ReflTransGen (Feeds c.model.links) i c.sink) : i < c.size := by
  rcases Relation.ReflTransGen.cases_head h with rfl | ⟨j, hj, -⟩
  · obtain ⟨s, -, hs⟩ := Checked.sink?_eq hc
    exact (List.getElem?_eq_some_iff.1 hs).1
  · exact (Model.feeds_lt hj).1

/-- No node is named twice. -/
theorem causes_nodup (hc : c.Faithful) (v : List (Outcome α)) (points : Points α) :
    ((c.causes v points).map (·.node)).Nodup := by
  obtain ⟨visited, hnodup, -, -, hleads, hcauses⟩ := exists_visited hc v points
  rw [hcauses, List.map_flatMap, List.nodup_flatMap]
  constructor
  · intro i _
    rcases causesAt_nodes c v points i with h | h
    · rw [h]
      exact List.nodup_nil
    · rw [h]
      exact List.nodup_singleton _
  · refine List.Pairwise.imp_of_mem ?_ hnodup
    intro i j hi hj hne id hid hid'
    have hmem : ∀ i, id ∈ (causesAt c v points i).map (·.node) → id = c.idAt i := by
      intro i hid
      rcases causesAt_nodes c v points i with h | h
      · rw [h] at hid
        exact absurd hid List.not_mem_nil
      · rw [h] at hid
        exact List.mem_singleton.1 hid
    exact hne (Checked.idAt_inj hc (lt_of_leads_sink hc (hleads i hi)) (lt_of_leads_sink hc (hleads j hj))
      ((hmem i hid).symm.trans (hmem j hid')))

variable [Number α] {causes : List (Cause α)}

/-- At an origin the walk notes that origin. -/
theorem causesAt_of_originAt (hc : c.Faithful) (hv : Stable c points v)
    (h : c.OriginAt points v i k) : causesAt c v points i = [k] := by
  have hfail := fail_of_originAt hc hv h
  unfold causesAt
  cases h with
  | source hn hs hp hleast _ _ =>
    simp only [hn, hfail, hs]
    unfold sourceCause?
    rw [hp, hleast]
    rfl
  | @gate n s j x hn hs hfeeds hx _ _ =>
    have hinputs := gate_inputsOf_of_feeds hc hn hs hfeeds
    have hempty : (failedInputs c v i).isEmpty = true := by
      unfold failedInputs
      rw [hinputs]
      simp [hx, Outcome.isFail]
    simp only [hn, hfail, hs, if_pos hempty]
    unfold gateCause?
    rw [hinputs]
    simp [hx]

omit [Number α] in
/-- The walk notes causes only at failures without failed inputs. -/
theorem fail_of_mem_causesAt (hc : c.Faithful) (h : k ∈ causesAt c v points i) :
    valueAt v i = .fail ∧ .fail ∉ inputOutcomes c v i ∧ ∃ n, c.model.nodes[i]? = some n := by
  rw [mem_inputOutcomes hc]
  unfold causesAt at h
  split at h
  · next n hn hfail =>
    refine ⟨hfail, ?_, n, hn⟩
    rintro ⟨j, hfeeds, hj⟩
    split at h
    · next s hs =>
      exact Checked.not_feeds_source hc hn (Node.kind_eq_source_iff.2 ⟨s, hs⟩) j hfeeds
    · split at h
      · next hempty =>
        have hmem := (mem_failedInputs hc).2 ⟨hfeeds, hj⟩
        rw [List.isEmpty_iff.1 hempty] at hmem
        exact absurd hmem List.not_mem_nil
      · exact absurd h List.not_mem_nil
    · exact absurd h List.not_mem_nil
  · exact absurd h List.not_mem_nil

theorem mem_causesAt (hc : c.Faithful) (hv : Stable c points v) :
    k ∈ causesAt c v points i ↔ c.OriginAt points v i k := by
  constructor
  · intro h
    obtain ⟨hfail, hinputs, n, hn⟩ := fail_of_mem_causesAt hc h
    obtain ⟨k', hk'⟩ := originAt_of_fail hc hv hn hfail hinputs
    rw [causesAt_of_originAt hc hv hk', List.mem_singleton] at h
    exact h ▸ hk'
  · intro h
    rw [causesAt_of_originAt hc hv h]
    exact List.mem_cons_self

/-- The causes of a failed grade are the origins that lead to the sink. -/
theorem mem_causes (hc : c.Faithful) (hv : Stable c points v) : k ∈ c.causes v points ↔
    ∃ i, c.OriginAt points v i k ∧ Relation.ReflTransGen (Feeds c.model.links) i c.sink := by
  obtain ⟨visited, -, hsink, hclosed, hleads, hcauses⟩ := exists_visited hc v points
  rw [hcauses, List.mem_flatMap]
  constructor
  · rintro ⟨i, hi, hk⟩
    exact ⟨i, (mem_causesAt hc hv).1 hk, hleads i hi⟩
  · rintro ⟨i, hk, hi⟩
    refine ⟨i, ?_, (mem_causesAt hc hv).2 hk⟩
    have horigin := fail_of_originAt hc hv hk
    clear hk
    -- From the sink back along the path, every node failed and is therefore visited.
    induction hi using Relation.ReflTransGen.head_induction_on with
    | refl => exact hsink
    | head hfeeds _ ih =>
      have hnext := fail_of_feeds hc hv hfeeds horigin
      exact hclosed _ (ih hnext) _ ((mem_failedBefore hc).2 ⟨hnext, hfeeds, horigin⟩)

theorem causes_ne_nil (hc : c.Faithful) (hv : Stable c points v)
    (hfail : valueAt v c.sink = .fail) : c.causes v points ≠ [] := by
  obtain ⟨i, k, hk, hi⟩ := exists_originAt hc hv (lt_of_leads_sink hc .refl) hfail
  exact List.ne_nil_of_mem ((mem_causes hc hv).2 ⟨i, hk, hi⟩)

/-! ## Text -/

/-- Every cause in words has a bracket. -/
theorem bracket_mem_text (k : Cause α) : '(' ∈ k.text.toList := by
  unfold Cause.text
  simp

/-- Causes in words are not the words for none. -/
theorem explain_ne (h : causes ≠ []) : explain causes ≠ "unknown cause" := by
  intro heq
  have hmem : '(' ∈ (explain causes).toList := by
    unfold explain
    cases causes with
    | nil => exact absurd rfl h
    | cons k rest =>
      cases rest with
      | nil => simpa using bracket_mem_text k
      | cons k' rest => simp [bracket_mem_text k]
  rw [heq] at hmem
  exact absurd hmem (by decide)

/-! ## Top theorem -/

/-- The explanation of a failed grade names exactly the origins that lead to the sink, each once
and with the numbers that were compared, and there is one. -/
theorem failure_explained {m : Model α} {strict : Bool} {r : Evaluation α}
    (h : validate strict m = .ok c) (hr : (Evaluator.ofChecked c).evaluate points = .ok r)
    (hfail : r.grade = .fail) :
    ∃ v, (Evaluator.ofChecked c).run points = .ok v ∧
      c.causes v points ≠ [] ∧ ((c.causes v points).map (·.node)).Nodup ∧
      (∀ k, k ∈ c.causes v points ↔
        m.Origin points (fun id x => (id, .number x) ∈ r.nodes) k ∧ m.Contributes k.node) ∧
      (∀ k ∈ c.causes v points, Number.lt k.value k.minPoints = true) ∧
      r.reason = "Failed: " ++ explain (c.causes v points) ∧
      r.reason ≠ "Failed: unknown cause" := by
  obtain ⟨hc, rfl⟩ := faithful_of_validate h
  obtain ⟨-, v, hrun, hgrade, hnodes, hreason⟩ := evaluate_ok_spec hc hr
  have hv := run_stable hc hrun
  have hsink : valueAt v c.sink = .fail := by rw [hgrade, hfail]; rfl
  have hreason : r.reason = "Failed: " ++ explain (c.causes v points) := by
    rw [hreason, hfail]
    rfl
  have hne := causes_ne_nil hc hv hsink
  have horigin : ∀ k, c.model.Origin points (fun id x => (id, .number x) ∈ r.nodes) k ↔
      ∃ i, c.OriginAt points v i k := by
    intro k
    refine origin_iff hc fun id x => ?_
    rw [hnodes, mem_knownValues hv.length]
    rfl
  have hmem : ∀ k, k ∈ c.causes v points ↔
      c.model.Origin points (fun id x => (id, .number x) ∈ r.nodes) k ∧
        c.model.Contributes k.node := by
    intro k
    rw [mem_causes hc hv, horigin]
    constructor
    · rintro ⟨i, hk, hi⟩
      exact ⟨⟨i, hk⟩, (contributes_node_iff hc hk).2 hi⟩
    · rintro ⟨⟨i, hk⟩, hi⟩
      exact ⟨i, hk, (contributes_node_iff hc hk).1 hi⟩
  refine ⟨v, hrun, hne, causes_nodup hc v points, hmem, fun k hk => ((hmem k).1 hk).1.lt,
    hreason, ?_⟩
  rw [hreason]
  exact fun heq => explain_ne hne ((String.append_right_inj _).1 heq)

theorem failure_explained_quiz :
    validate true quizModel = .ok (quizModel.accepted 2) ∧
      ∃ r, (Evaluator.ofChecked (quizModel.accepted 2)).evaluate quizPoints = .ok r ∧
        r.grade = .fail ∧ ∃ v, (quizModel.accepted 2).causes v quizPoints =
          [⟨"gate", .minPoints, 3, 5⟩] ∧ r.reason ≠ "Failed: unknown cause" := by
  have hvalid : validate true quizModel = .ok (quizModel.accepted 2) := rfl
  obtain ⟨r, hr, hgrade⟩ : ∃ r, (Evaluator.ofChecked (quizModel.accepted 2)).evaluate quizPoints =
      .ok r ∧ r.grade = .fail := ⟨_, rfl, rfl⟩
  obtain ⟨v, hv, -, -, -, -, -, hreason⟩ := failure_explained hvalid hr hgrade
  refine ⟨hvalid, r, hr, hgrade, v, ?_, hreason⟩
  obtain rfl := Except.ok.inj hv
  rfl

end Grading
