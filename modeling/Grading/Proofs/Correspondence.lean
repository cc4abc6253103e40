import Mathlib.Data.List.Forall2
import Grading.Proofs.Causes

/-!
# Walks that correspond

Two walks back from the sink, perhaps in two models or with different points, go in step if their
positions correspond: related positions hold the same node with the same outcome, their inputs are
related slot by slot, and no position is related to two.  Then the stacks and the visited nodes of
both walks are related entry by entry at any time, and what has been noted is the same:

    Matches R t t' → Matches R (t.step …) (t'.step …)                 (Matches.step)
    R c.sink c'.sink → c.causes v points = c'.causes v' points'          (causes_eq)
-/

namespace Grading

variable {α : Type}

/-- Lists with the same images are related entry by entry, if entries with the same image are. -/
theorem forall₂_of_map_eq {β γ δ : Type} {f : β → δ} {g : γ → δ} {R : β → γ → Prop}
    {l : List β} {k : List γ} (h : l.map f = k.map g)
    (hR : ∀ a ∈ l, ∀ b ∈ k, f a = g b → R a b) : List.Forall₂ R l k := by
  induction l generalizing k with
  | nil =>
    rw [List.map_nil, eq_comm, List.map_eq_nil_iff] at h
    exact h ▸ .nil
  | cons a l ih =>
    rw [List.map_cons, eq_comm, List.map_eq_cons_iff] at h
    obtain ⟨b, k, rfl, hb, hk⟩ := h
    refine .cons (hR a List.mem_cons_self b List.mem_cons_self hb.symm) (ih hk.symm ?_)
    exact fun a' ha' b' hb' =>
      hR a' (List.mem_cons_of_mem a ha') b' (List.mem_cons_of_mem b hb')

/-! ## Correspondence -/

/-- Related positions look alike, and so do the positions before them. -/
structure Corresponds (c c' : Checked α) (v v' : List (Outcome α)) (points points' : Points α)
    (R : Nat → Nat → Prop) : Prop where
  node : ∀ {i j}, R i j → c.model.nodes[i]? = c'.model.nodes[j]?
  value : ∀ {i j}, R i j → valueAt v i = valueAt v' j
  given : ∀ {i j n}, R i j → c.model.nodes[i]? = some n → n.kind = .source →
    points n.id = points' n.id
  inputs : ∀ {i j}, R i j →
    List.Forall₂ R ((c.inputsOf i).map (·.2)) ((c'.inputsOf j).map (·.2))
  unique : Relator.BiUnique R

/-- Two walks that have gone the same way. -/
structure Matches (R : Nat → Nat → Prop) (t t' : Trail α) : Prop where
  stack : List.Forall₂ R t.stack t'.stack
  visited : List.Forall₂ R t.visited t'.visited
  causes : t.causes = t'.causes

variable {c c' : Checked α} {v v' : List (Outcome α)} {points points' : Points α}
variable {R : Nat → Nat → Prop} {i j : Nat} {t t' : Trail α}

namespace Corresponds

theorem failedInputs (h : Corresponds c c' v v' points points' R) (hij : R i j) :
    List.Forall₂ R (failedInputs c v i) (failedInputs c' v' j) := by
  refine List.rel_filter (fun k l hkl => ?_) (h.inputs hij)
  show (valueAt v k).isFail = true ↔ (valueAt v' l).isFail = true
  rw [h.value hkl]

theorem failedBefore (h : Corresponds c c' v v' points points' R) (hij : R i j) :
    List.Forall₂ R (failedBefore c v i) (failedBefore c' v' j) := by
  unfold Grading.failedBefore
  rw [h.value hij]
  split
  · exact h.failedInputs hij
  · exact .nil

/-- A gate compares the same number. -/
theorem gateCause? (h : Corresponds c c' v v' points points' R) (hij : R i j) (n : Node α)
    (s : GateSettings α) : gateCause? c v n s i = gateCause? c' v' n s j := by
  have hinputs := h.inputs hij
  unfold Grading.gateCause?
  cases hi : c.inputsOf i with
  | nil =>
    rw [hi, List.map_nil, List.forall₂_nil_left_iff] at hinputs
    rw [List.map_eq_nil_iff.1 hinputs]
    rfl
  | cons a rest =>
    rw [hi, List.map_cons, List.forall₂_cons_left_iff] at hinputs
    obtain ⟨k, rest', hak, -, hj⟩ := hinputs
    obtain ⟨b, tail, hb, rfl, -⟩ := List.map_eq_cons_iff.1 hj
    have hvalue : valueAt v a.2 = valueAt v' b.2 := h.value hak
    simp only [hb, List.head?_cons, Option.bind_eq_bind, Option.bind_some, hvalue]

theorem causesAt (h : Corresponds c c' v v' points points' R) (hij : R i j) :
    causesAt c v points i = causesAt c' v' points' j := by
  have hempty : (Grading.failedInputs c v i).isEmpty = (Grading.failedInputs c' v' j).isEmpty := by
    rw [Bool.eq_iff_iff, List.isEmpty_iff_length_eq_zero, List.isEmpty_iff_length_eq_zero,
      (h.failedInputs hij).length_eq]
  unfold Grading.causesAt
  rw [h.node hij, h.value hij]
  cases hn : c'.model.nodes[j]? with
  | none => rfl
  | some n =>
    cases valueAt v' j with
    | number x => rfl
    | unknown => rfl
    | fail =>
      cases hs : n.settings with
      | source s =>
        have hgiven := h.given hij ((h.node hij).trans hn) (Node.kind_eq_source_iff.2 ⟨s, hs⟩)
        simp only [hs, sourceCause?, hgiven]
      | minPoints s => simp only [hs, hempty, h.gateCause? hij]
      | _ => simp only [hs]

end Corresponds

/-! ## Walks -/

theorem Matches.visited_iff (hR : Relator.BiUnique R) (h : Matches R t t') (hij : R i j) :
    i ∈ t.visited ↔ j ∈ t'.visited := List.rel_mem hR hij h.visited

/-- Walks that match still do after a step of both. -/
theorem Matches.step (hc : c.Faithful) (hc' : c'.Faithful)
    (h : Corresponds c c' v v' points points' R) (ht : Matches R t t') :
    Matches R (t.step c v points) (t'.step c' v' points') := by
  have hstacks := ht.stack
  cases hstack : t.stack with
  | nil =>
    rw [hstack, List.forall₂_nil_left_iff] at hstacks
    rw [step_nil hstack, step_nil hstacks]
    exact ht
  | cons i stack =>
    rw [hstack, List.forall₂_cons_left_iff] at hstacks
    obtain ⟨j, stack', hij, hrest, hstack'⟩ := hstacks
    by_cases hi : i ∈ t.visited
    · have hj := (ht.visited_iff h.unique hij).1 hi
      rw [step_visited hstack hi, step_visited hstack' hj]
      exact ⟨hrest, ht.visited, ht.causes⟩
    · have hj := mt (ht.visited_iff h.unique hij).2 hi
      rw [step_fresh hc hstack hi, step_fresh hc' hstack' hj]
      refine ⟨List.rel_append (h.failedBefore hij) hrest, .cons hij ht.visited, ?_⟩
      rw [ht.causes, h.causesAt hij]

theorem Matches.run (hc : c.Faithful) (hc' : c'.Faithful)
    (h : Corresponds c c' v v' points points' R) (count : Nat) (ht : Matches R t t') :
    Matches R (Trail.run c v points count t) (Trail.run c' v' points' count t') := by
  induction count generalizing t t' with
  | zero => exact ht
  | succ count ih => exact ih (ht.step hc hc' h)

theorem Trail.run_add (count more : Nat) (t : Trail α) : Trail.run c v points (count + more) t =
    Trail.run c v points more (Trail.run c v points count t) := by
  induction count generalizing t with
  | zero => rw [Nat.zero_add]; rfl
  | succ count ih =>
    rw [Nat.succ_add]
    exact ih _

/-- More steps than the walk takes change nothing. -/
theorem causes_eq_run (hc : c.Faithful) {count : Nat}
    (hcount : c.inputs.flatten.length + 1 ≤ count) :
    c.causes v points = (Trail.run c v points count ⟨[c.sink], [], []⟩).causes := by
  obtain ⟨more, rfl⟩ := Nat.exists_eq_add_of_le hcount
  rw [Trail.run_add, Trail.run_nil more (walk_ends hc v points).2]
  rfl

/-- Walks from related sinks note the same causes, in the same order. -/
theorem causes_eq (hc : c.Faithful) (hc' : c'.Faithful)
    (h : Corresponds c c' v v' points points' R) (hsink : R c.sink c'.sink) :
    c.causes v points = c'.causes v' points' := by
  have hstart : Matches R (⟨[c.sink], [], []⟩ : Trail α) ⟨[c'.sink], [], []⟩ :=
    ⟨.cons hsink .nil, .nil, rfl⟩
  -- The models may differ in links that neither walk meets, and so in the steps they allow.
  let count := max (c.inputs.flatten.length + 1) (c'.inputs.flatten.length + 1)
  rw [causes_eq_run hc (le_max_left _ _ : _ ≤ count),
    causes_eq_run hc' (le_max_right _ _ : _ ≤ count)]
  exact (hstart.run hc hc' h count).causes

/-- The same causes are the same reason. -/
theorem reason_eq [Number α] (h : c.causes v points = c'.causes v' points') (grade : Value α) :
    (Evaluator.ofChecked c).reason points v grade =
      (Evaluator.ofChecked c').reason points' v' grade := by
  cases grade with
  | number x => rfl
  | fail =>
    show "Failed: " ++ explain (c.causes v points) = "Failed: " ++ explain (c'.causes v' points')
    rw [h]

end Grading
