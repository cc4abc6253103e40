import Mathlib.Data.List.Chain
import Mathlib.Data.List.Nodup
import Mathlib.Logic.Relation

/-!
# Circles in a relation

A circle is a closed walk that meets nothing twice, written as the list of what it meets.  Where
the list starts makes no difference:

    front ++ back is a circle → back ++ front is a circle                     (IsCircle.rotate)
    a circle in R is mapped to a circle in S where f keeps the steps and is one-to-one on it
                                                                              (IsCircle.map)
    on a circle everything leads back to itself                               (IsCircle.cyclic)

`LeftOver` is a relation without the steps between two members of the same circle.
-/

namespace Grading

variable {α β : Type} {R S : α → α → Prop}

/-! ## Circles -/

/-- A closed walk that meets nothing twice. -/
structure IsCircle (R : α → α → Prop) (circle : List α) : Prop where
  nonempty : circle ≠ []
  nodup : circle.Nodup
  walk : circle.IsChain R
  closed : ∀ a ∈ circle.getLast?, ∀ b ∈ circle.head?, R a b

namespace IsCircle

theorem mono {circle : List α} (h : IsCircle R circle)
    (hRS : ∀ a b, a ∈ circle → b ∈ circle → R a b → S a b) : IsCircle S circle where
  nonempty := h.nonempty
  nodup := h.nodup
  walk := h.walk.imp_of_mem_imp hRS
  closed a ha b hb :=
    hRS a b (List.mem_of_getLast? ha) (List.mem_of_head? hb) (h.closed a ha b hb)

/-- On a circle everything leads back to itself. -/
theorem cyclic {circle : List α} (h : IsCircle R circle) : ∃ a, Relation.TransGen R a a := by
  obtain ⟨hne, -, hwalk, hclosed⟩ := h
  cases circle with
  | nil => exact absurd rfl hne
  | cons a rest =>
    have hlast := List.getLast?_eq_some_getLast (List.cons_ne_nil a rest)
    have hback := hclosed _ hlast a rfl
    have hforth := List.relationReflTransGen_of_exists_isChain_cons rest hwalk rfl
    exact ⟨_, Relation.TransGen.tail' hforth hback⟩

/-- A circle may be written from any of its members on. -/
theorem rotate {front back : List α} (h : IsCircle R (front ++ back)) :
    IsCircle R (back ++ front) := by
  cases hfront : front with
  | nil => simpa [hfront] using h
  | cons a front' =>
    cases hback : back with
    | nil => simpa [hfront, hback] using h
    | cons b back' =>
      rw [← hfront, ← hback]
      have hfne : front ≠ [] := hfront ▸ List.cons_ne_nil a front'
      have hbne : back ≠ [] := hback ▸ List.cons_ne_nil b back'
      obtain ⟨hwf, hwb, hjoin⟩ := List.isChain_append.1 h.walk
      have hclosed := h.closed
      rw [List.getLast?_append_of_ne_nil _ hbne, List.head?_append_of_ne_nil _ hfne] at hclosed
      refine ⟨by simp [hbne], List.nodup_append_comm.1 h.nodup,
        List.isChain_append.2 ⟨hwb, hwf, hclosed⟩, ?_⟩
      rwa [List.getLast?_append_of_ne_nil _ hfne, List.head?_append_of_ne_nil _ hbne]

/-- The image of a circle under a function that is one-to-one on it and keeps its steps. -/
theorem map {T : β → β → Prop} {circle : List α} {f : α → β} (h : IsCircle R circle)
    (hinj : ∀ a ∈ circle, ∀ b ∈ circle, f a = f b → a = b)
    (hstep : ∀ {a b}, R a b → T (f a) (f b)) : IsCircle T (circle.map f) where
  nonempty := by simpa using h.nonempty
  nodup := h.nodup.map_on fun a ha b hb => hinj a ha b hb
  walk := (List.isChain_map f).2 (h.walk.imp fun _ _ => hstep)
  closed a ha b hb := by
    rw [List.getLast?_map] at ha
    rw [List.head?_map] at hb
    obtain ⟨a', ha', rfl⟩ := Option.map_eq_some_iff.1 ha
    obtain ⟨b', hb', rfl⟩ := Option.map_eq_some_iff.1 hb
    exact hstep (h.closed a' ha' b' hb')

/-- Every member of a circle has a step to another one. -/
theorem exists_step {circle : List α} (h : IsCircle R circle) {a : α} (ha : a ∈ circle) :
    ∃ b, R a b := by
  obtain ⟨front, back, rfl⟩ := List.append_of_mem ha
  have hrot := h.rotate
  cases hrest : back ++ front with
  | nil =>
    obtain ⟨rfl, rfl⟩ := List.append_eq_nil_iff.1 hrest
    exact ⟨a, h.closed a rfl a rfl⟩
  | cons b rest =>
    rw [List.cons_append, hrest] at hrot
    exact ⟨b, (List.isChain_cons_cons.1 hrot.walk).1⟩

end IsCircle

/-! ## What circles leave over -/

/-- A step that does not join two members of one of the circles. -/
def LeftOver (R : α → α → Prop) (circles : List (List α)) (a b : α) : Prop :=
  R a b ∧ ∀ c ∈ circles, a ∈ c → b ∉ c

/-- The more circles, the less is left over. -/
theorem LeftOver.of_covered {few many : List (List α)} {a b : α} (h : LeftOver R many a b)
    (hcovered : ∀ c ∈ few, ∃ c' ∈ many, ∀ x ∈ c, x ∈ c') : LeftOver R few a b := by
  refine ⟨h.1, fun c hc ha hb => ?_⟩
  obtain ⟨c', hc', hsub⟩ := hcovered c hc
  exact h.2 c' hc' (hsub a ha) (hsub b hb)

theorem leftOver_nil {a b : α} : LeftOver R [] a b ↔ R a b :=
  and_iff_left fun _ hc => absurd hc List.not_mem_nil

end Grading
