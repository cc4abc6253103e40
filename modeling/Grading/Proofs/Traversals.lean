import Mathlib.Data.List.Forall2

/-!
# Lists read item by item

Going through a list with a function that may fail gives a list of the same length, entry for
entry, or the failure of the first entry that has one:

    l.mapM f = some k ↔ l and k agree entry by entry under f            (mapM_eq_some_iff)
    l.mapM f = .ok k ↔ l and k agree entry by entry under f               (mapM_eq_ok_iff)
    l.mapM f = .error e ↔ the first entry on which f fails fails with e
                                                                       (mapM_eq_error_iff)
-/

namespace Grading

variable {α β γ : Type}

theorem mapM_eq_some_iff {f : α → Option β} {l : List α} {k : List β} :
    l.mapM f = some k ↔ List.Forall₂ (fun a b => f a = some b) l k := by
  induction l generalizing k with
  | nil => simp [eq_comm]
  | cons a l ih =>
    rw [List.mapM_cons, List.forall₂_cons_left_iff]
    simp only [bind, pure, Option.bind_eq_some_iff, Option.some.injEq]
    constructor
    · rintro ⟨b, hb, bs, hbs, rfl⟩
      exact ⟨b, bs, hb, ih.1 hbs, rfl⟩
    · rintro ⟨b, bs, hb, hbs, rfl⟩
      exact ⟨b, hb, bs, ih.2 hbs, rfl⟩

/-- What is read from a list of which every entry can be read. -/
theorem mapM_eq_some_filterMap_iff {f : α → Option β} {l : List α} {k : List β} :
    l.mapM f = some k ↔ (∀ a ∈ l, (f a).isSome) ∧ l.filterMap f = k := by
  rw [mapM_eq_some_iff]
  constructor
  · intro h
    induction h with
    | nil => simp
    | cons hab _ ih =>
      refine ⟨List.forall_mem_cons.2 ⟨?_, ih.1⟩, ?_⟩
      · rw [hab]
        rfl
      · rw [List.filterMap_cons_some hab, ih.2]
  · rintro ⟨hall, rfl⟩
    induction l with
    | nil => exact .nil
    | cons a l ih =>
      rw [List.forall_mem_cons] at hall
      obtain ⟨b, hb⟩ := Option.isSome_iff_exists.1 hall.1
      rw [List.filterMap_cons_some hb]
      exact .cons hb (ih hall.2)

/-- Where every entry is read as what it was made from, so is the list. -/
theorem mapM_map_eq_some {f : γ → Option β} {g : α → γ} {k : α → β} {l : List α}
    (h : ∀ a ∈ l, f (g a) = some (k a)) : (l.map g).mapM f = some (l.map k) := by
  rw [mapM_eq_some_iff, List.forall₂_map_left_iff, List.forall₂_map_right_iff, List.forall₂_same]
  exact h

/-! ## Failures with a reason -/

section

variable {ε : Type} {x : Except ε α} {e : ε}

theorem bind_eq_ok_iff {f : α → Except ε β} {b : β} :
    x >>= f = .ok b ↔ ∃ a, x = .ok a ∧ f a = .ok b := by
  cases x <;> simp [bind, Except.bind]

theorem bind_eq_error_iff {f : α → Except ε β} :
    x >>= f = .error e ↔ x = .error e ∨ ∃ a, x = .ok a ∧ f a = .error e := by
  cases x <;> simp [bind, Except.bind]

theorem map_eq_ok_iff {f : α → β} {b : β} : f <$> x = .ok b ↔ ∃ a, x = .ok a ∧ f a = b := by
  cases x <;> simp

theorem map_eq_error_iff {f : α → β} : f <$> x = .error e ↔ x = .error e := by
  cases x <;> simp

/-- Some entry fails, and all before it do not. -/
def FirstFailure (succeeds fails : α → Prop) (l : List α) : Prop :=
  ∃ before a after, l = before ++ a :: after ∧ (∀ b ∈ before, succeeds b) ∧ fails a

theorem firstFailure_nil {succeeds fails : α → Prop} : ¬ FirstFailure succeeds fails [] := by
  rintro ⟨before, a, after, h, -⟩
  cases before <;> cases h

theorem firstFailure_cons {succeeds fails : α → Prop} {a : α} {l : List α} :
    FirstFailure succeeds fails (a :: l) ↔
      fails a ∨ succeeds a ∧ FirstFailure succeeds fails l := by
  constructor
  · rintro ⟨before, b, after, h, hbefore, hb⟩
    cases before with
    | nil =>
      obtain ⟨rfl, -⟩ := List.cons.inj h
      exact .inl hb
    | cons c before =>
      obtain ⟨rfl, rfl⟩ := List.cons.inj h
      rw [List.forall_mem_cons] at hbefore
      exact .inr ⟨hbefore.1, before, b, after, rfl, hbefore.2, hb⟩
  · rintro (ha | ⟨ha, before, b, after, rfl, hbefore, hb⟩)
    · exact ⟨[], a, l, rfl, fun _ h => absurd h List.not_mem_nil, ha⟩
    · exact ⟨a :: before, b, after, rfl, List.forall_mem_cons.2 ⟨ha, hbefore⟩, hb⟩

theorem FirstFailure.congr {succeeds succeeds' fails fails' : α → Prop} {l : List α}
    (hs : ∀ a ∈ l, succeeds a ↔ succeeds' a) (hf : ∀ a ∈ l, fails a ↔ fails' a) :
    FirstFailure succeeds fails l ↔ FirstFailure succeeds' fails' l := by
  induction l with
  | nil => exact iff_of_false firstFailure_nil firstFailure_nil
  | cons a l ih =>
    rw [List.forall_mem_cons] at hs hf
    rw [firstFailure_cons, firstFailure_cons, hs.1, hf.1, ih hs.2 hf.2]

theorem mapM_congr {f g : α → Except ε β} {l : List α} (h : ∀ a ∈ l, f a = g a) :
    l.mapM f = l.mapM g := by
  induction l with
  | nil => rfl
  | cons a l ih =>
    rw [List.forall_mem_cons] at h
    rw [List.mapM_cons, List.mapM_cons, h.1, ih h.2]

theorem mapM_eq_ok_iff {f : α → Except ε β} {l : List α} {k : List β} :
    l.mapM f = .ok k ↔ List.Forall₂ (fun a b => f a = .ok b) l k := by
  induction l generalizing k with
  | nil => simp [pure, Except.pure, eq_comm]
  | cons a l ih =>
    rw [List.mapM_cons, List.forall₂_cons_left_iff]
    simp only [bind_eq_ok_iff, ih]
    constructor
    · rintro ⟨b, hb, bs, hbs, h⟩
      exact ⟨b, bs, hb, hbs, (Except.ok.inj h).symm⟩
    · rintro ⟨b, bs, hb, hbs, rfl⟩
      exact ⟨b, hb, bs, hbs, rfl⟩

theorem mapM_eq_error_iff {f : α → Except ε β} {l : List α} : l.mapM f = .error e ↔
    FirstFailure (fun a => ∃ b, f a = .ok b) (fun a => f a = .error e) l := by
  induction l with
  | nil => exact iff_of_false (by simp [pure, Except.pure]) firstFailure_nil
  | cons a l ih =>
    rw [List.mapM_cons, firstFailure_cons, ← ih]
    simp only [bind_eq_error_iff]
    refine or_congr_right ?_
    constructor
    · rintro ⟨b, hb, h | ⟨bs, -, h⟩⟩
      · exact ⟨⟨b, hb⟩, h⟩
      · cases h
    · rintro ⟨⟨b, hb⟩, h⟩
      exact ⟨b, hb, .inl h⟩

/-- If every entry succeeds, so does the list. -/
theorem exists_mapM_eq_ok_iff {f : α → Except ε β} {l : List α} :
    (∃ k, l.mapM f = .ok k) ↔ ∀ a ∈ l, ∃ b, f a = .ok b := by
  induction l with
  | nil => simp [pure, Except.pure]
  | cons a l ih =>
    rw [List.mapM_cons, List.forall_mem_cons, ← ih]
    simp only [bind_eq_ok_iff]
    constructor
    · rintro ⟨k, b, hb, bs, hbs, -⟩
      exact ⟨⟨b, hb⟩, bs, hbs⟩
    · rintro ⟨⟨b, hb⟩, bs, hbs⟩
      exact ⟨b :: bs, b, hb, bs, hbs, rfl⟩

end

end Grading
