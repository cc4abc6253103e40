/-!
# Ordered lists

Stable insertion into an ordered list, and the stable sort made of it.  The order is a Boolean
test `le`, so one definition serves node names, slots and list positions.

    (insertBy le a l).Perm (a :: l)                                        (insertBy_perm)
    (sortBy le l).Perm l                                                   (sortBy_perm)
    le total and transitive → (sortBy le l).Pairwise (le · ·)              (sortBy_pairwise)
-/

namespace Grading

variable {α : Type}

/-! ## Algorithm -/

/-- Puts `a` before the first entry that it does not come after. -/
def insertBy (le : α → α → Bool) (a : α) : List α → List α
  | [] => [a]
  | b :: l => if le a b then a :: b :: l else b :: insertBy le a l

/-- Sorts by `le`; entries that compare alike keep their order. -/
def sortBy (le : α → α → Bool) (l : List α) : List α :=
  l.foldr (insertBy le) []

/-- Ascending order of texts by code points. -/
def sortTexts (l : List String) : List String :=
  sortBy (fun a b => decide (a ≤ b)) l

/-! ## Lemmas -/

theorem insertBy_perm (le : α → α → Bool) (a : α) (l : List α) :
    (insertBy le a l).Perm (a :: l) := by
  induction l with
  | nil => exact List.Perm.refl _
  | cons b l ih =>
    unfold insertBy
    split
    · exact List.Perm.refl _
    · exact (ih.cons b).trans (List.Perm.swap a b l)

theorem sortBy_perm (le : α → α → Bool) (l : List α) : (sortBy le l).Perm l := by
  induction l with
  | nil => exact List.Perm.refl _
  | cons a l ih => exact (insertBy_perm le a _).trans (ih.cons a)

/-- An ordered list stays ordered when an entry is put in its place. -/
theorem insertBy_pairwise {le : α → α → Bool} (total : ∀ a b, le a b = false → le b a = true)
    (trans : ∀ a b c, le a b = true → le b c = true → le a c = true) (a : α) {l : List α}
    (h : l.Pairwise fun x y => le x y = true) :
    (insertBy le a l).Pairwise fun x y => le x y = true := by
  induction l with
  | nil => simp [insertBy]
  | cons b l ih =>
    have hb := List.pairwise_cons.1 h
    unfold insertBy
    split
    · next hab =>
      refine List.pairwise_cons.2 ⟨fun x hx => ?_, h⟩
      rcases List.mem_cons.1 hx with rfl | hx
      · exact hab
      · exact trans a b x hab (hb.1 x hx)
    · next hab =>
      refine List.pairwise_cons.2 ⟨fun x hx => ?_, ih hb.2⟩
      rcases List.mem_cons.1 ((insertBy_perm le a l).mem_iff.1 hx) with rfl | hx
      · exact total x b (by simpa using hab)
      · exact hb.1 x hx

theorem sortBy_pairwise {le : α → α → Bool} (total : ∀ a b, le a b = false → le b a = true)
    (trans : ∀ a b c, le a b = true → le b c = true → le a c = true) (l : List α) :
    (sortBy le l).Pairwise fun x y => le x y = true := by
  induction l with
  | nil => exact List.Pairwise.nil
  | cons a l ih => exact insertBy_pairwise total trans a ih

end Grading
