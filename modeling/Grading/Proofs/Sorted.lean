import Mathlib.Data.List.Sort
import Mathlib.Data.String.Basic
import Grading.Order

/-!
# Sorted and distinct lists

What proofs need of the sorts and of lists without repetitions:

    (l.eraseDups).Nodup                                                  (nodup_eraseDups)
    l distinct, within U → l.length ≤ U.length                           (length_le_of_nodup)
    what is found under a key is what is listed with it              (find?_key_eq_some_iff)
    (sortTexts l).Pairwise (· ≤ ·)                                       (sortTexts_pairwise)
    l, l' the same entries of distinct keys → they are sorted alike  (sortBy_key_eq_of_perm)
    (sortBy le l).filter p = sortBy le (l.filter p)                           (filter_sortBy)
    the groups of equal keys make up the sorted list               (flatMap_filter_eq_sortBy)
    (sortBy (lexLe key sub) l).Pairwise fun a b => key a ≤ key b          (sortBy_lexLe_key)
-/

namespace Grading

variable {α : Type}

/-! ## Distinct entries -/

theorem nodup_eraseDups [BEq α] [LawfulBEq α] (l : List α) : l.eraseDups.Nodup := by
  induction h : l.length using Nat.strong_induction_on generalizing l with
  | _ k ih =>
    cases l with
    | nil => simp
    | cons a l =>
      rw [List.eraseDups_cons, List.nodup_cons]
      constructor
      · rw [List.mem_eraseDups, List.mem_filter]
        simp
      · refine ih _ ?_ _ rfl
        have := List.length_filter_le (fun b => !b == a) l
        simp only [List.length_cons] at h
        omega

theorem eraseDups_sublist [BEq α] [LawfulBEq α] (l : List α) : l.eraseDups.Sublist l := by
  induction h : l.length using Nat.strong_induction_on generalizing l with
  | _ k ih =>
    cases l with
    | nil => simp
    | cons a l =>
      rw [List.eraseDups_cons]
      have hlength := List.length_filter_le (fun b => !b == a) l
      simp only [List.length_cons] at h
      exact ((ih _ (by omega) _ rfl).trans List.filter_sublist).cons_cons a

/-- Distinct entries of a list are no more than the list is long. -/
theorem length_le_of_nodup {l u : List α} (hd : l.Nodup) (h : ∀ a ∈ l, a ∈ u) :
    l.length ≤ u.length :=
  (List.subperm_of_subset hd h).length_le

theorem length_le_of_nodup_lt {l : List Nat} {n : Nat} (hd : l.Nodup) (h : ∀ i ∈ l, i < n) :
    l.length ≤ n := by
  have := length_le_of_nodup hd (u := List.range n) fun i hi => List.mem_range.2 (h i hi)
  rwa [List.length_range] at this

/-- A list cut where an entry first occurs. -/
theorem exists_cut [DecidableEq α] {l : List α} {a : α} (h : a ∈ l) : ∃ front back,
    l = front ++ a :: back ∧ (l.takeWhile fun b => decide (b ≠ a)) = front ∧
      (l.dropWhile fun b => decide (b ≠ a)) = a :: back := by
  induction l with
  | nil => cases h
  | cons b l ih =>
    by_cases hb : b = a
    · subst hb
      exact ⟨[], l, rfl, by simp, by simp⟩
    · obtain ⟨front, back, hl, htake, hdrop⟩ := ih ((List.mem_cons.1 h).resolve_left (Ne.symm hb))
      exact ⟨b :: front, back, by rw [hl, List.cons_append], by simpa [hb] using htake,
        by simpa [hb] using hdrop⟩

/-- Where keys are distinct, what is found under a key is what is listed with it. -/
theorem find?_key_eq_some_iff {β κ : Type} [BEq κ] [LawfulBEq κ] {l : List (κ × β)}
    (hd : (l.map (·.1)).Nodup) {key : κ} {b : β} :
    (l.find? fun e => e.1 == key).map (·.2) = some b ↔ (key, b) ∈ l := by
  rw [Option.map_eq_some_iff]
  constructor
  · rintro ⟨⟨key', b'⟩, hfind, rfl⟩
    have hkey := List.find?_some hfind
    obtain rfl : key' = key := eq_of_beq hkey
    exact List.mem_of_find?_eq_some hfind
  · intro hmem
    have hsome : (l.find? fun e => e.1 == key).isSome :=
      List.find?_isSome.2 ⟨(key, b), hmem, beq_self_eq_true key⟩
    obtain ⟨⟨key', b'⟩, hfind⟩ := Option.isSome_iff_exists.1 hsome
    have hkey := List.find?_some hfind
    obtain rfl : key' = key := eq_of_beq hkey
    have heq := List.inj_on_of_nodup_map hd (List.mem_of_find?_eq_some hfind) hmem rfl
    exact ⟨_, hfind, congrArg Prod.snd heq⟩

/-- Where keys are distinct, an entry is the only one of its key. -/
theorem filter_key_eq_singleton {β κ : Type} [DecidableEq κ] {l : List (κ × β)}
    (hd : (l.map (·.1)).Nodup) {e : κ × β} (he : e ∈ l) :
    (l.filter fun k => k.1 = e.1) = [e] := by
  induction l with
  | nil => exact absurd he List.not_mem_nil
  | cons k l ih =>
    obtain ⟨hk, hl⟩ := List.nodup_cons.1 hd
    rcases List.mem_cons.1 he with rfl | he
    · rw [List.filter_cons_of_pos (by simp), List.filter_eq_nil_iff.2]
      intro k' hk' heq
      exact hk (List.mem_map.2 ⟨k', hk', of_decide_eq_true heq⟩)
    · rw [List.filter_cons_of_neg, ih hl he]
      intro heq
      exact hk (List.mem_map.2 ⟨e, he, (of_decide_eq_true heq).symm⟩)

/-! ## Sorted entries -/

theorem mem_sortBy {le : α → α → Bool} {l : List α} {a : α} : a ∈ sortBy le l ↔ a ∈ l :=
  (sortBy_perm le l).mem_iff

theorem mem_sortTexts {l : List String} {s : String} : s ∈ sortTexts l ↔ s ∈ l := mem_sortBy

section

variable {κ : Type} [LE κ] [DecidableLE κ] [Std.IsLinearOrder κ] (key : α → κ)

theorem keyLe_total (a b : α) (h : decide (key a ≤ key b) = false) :
    decide (key b ≤ key a) = true :=
  decide_eq_true ((Std.le_total).resolve_left (of_decide_eq_false h))

theorem keyLe_trans (a b c : α) (hab : decide (key a ≤ key b) = true)
    (hbc : decide (key b ≤ key c) = true) : decide (key a ≤ key c) = true :=
  decide_eq_true (Std.le_trans (of_decide_eq_true hab) (of_decide_eq_true hbc))

/-- Sorting by keys makes them ascend. -/
theorem sortBy_key_pairwise (l : List α) :
    (sortBy (fun a b => decide (key a ≤ key b)) l).Pairwise fun a b => key a ≤ key b :=
  (sortBy_pairwise (keyLe_total key) (keyLe_trans key) l).imp of_decide_eq_true

variable [LT κ] [Std.LawfulOrderLT κ]

/-- Distinct keys are sorted strictly. -/
theorem sortBy_key_pairwise_lt {l : List α} (hd : (l.map key).Nodup) :
    (sortBy (fun a b => decide (key a ≤ key b)) l).Pairwise fun a b => key a < key b := by
  have hd' := ((sortBy_perm (fun a b => decide (key a ≤ key b)) l).map key).nodup_iff.2 hd
  have hne := List.pairwise_map.1 hd'
  exact ((sortBy_key_pairwise key l).and hne).imp fun h => Std.lt_of_le_of_ne h.1 h.2

/-- Where keys are distinct, lists of the same entries are sorted into the same list. -/
theorem sortBy_key_eq_of_perm {l l' : List α} (hd : (l.map key).Nodup) (h : l'.Perm l) :
    sortBy (fun a b => decide (key a ≤ key b)) l' =
      sortBy (fun a b => decide (key a ≤ key b)) l := by
  have hperm := ((sortBy_perm (fun a b => decide (key a ≤ key b)) l').trans h).trans
    (sortBy_perm (fun a b => decide (key a ≤ key b)) l).symm
  refine hperm.eq_of_pairwise
    (fun a b _ _ (hlt : key a < key b) hgt => absurd hgt (Std.not_gt_of_lt hlt)) ?_ ?_
  · exact sortBy_key_pairwise_lt key ((h.map key).nodup_iff.2 hd)
  · exact sortBy_key_pairwise_lt key hd

end

theorem sortTexts_pairwise (l : List String) : (sortTexts l).Pairwise (· ≤ ·) :=
  sortBy_key_pairwise id l

/-- Distinct texts are sorted strictly. -/
theorem sortTexts_pairwise_lt {l : List String} (hd : l.Nodup) :
    (sortTexts l).Pairwise (· < ·) :=
  sortBy_key_pairwise_lt id (by rwa [List.map_id])

/-- A strictly ascending list that has one member more is the same list with that member put in
somewhere. -/
theorem exists_insertion {κ : Type} [LinearOrder κ] {l l' : List κ} {a : κ}
    (h : l.Pairwise (· < ·)) (h' : l'.Pairwise (· < ·)) (hmem : ∀ b, b ∈ l' ↔ b = a ∨ b ∈ l)
    (ha : a ∉ l) : ∃ front back, l = front ++ back ∧ l' = front ++ a :: back := by
  obtain ⟨front, back, rfl⟩ := List.append_of_mem ((hmem a).2 (.inl rfl))
  refine ⟨front, back, h.eq_of_mem_iff ?_ fun b => ?_, rfl⟩
  · exact h'.sublist ((List.sublist_cons_self a back).append_left front)
  · have hnot : a ∉ front ++ back :=
      (List.nodup_cons.1 (List.nodup_middle.1 (h'.imp ne_of_lt))).1
    have hb := hmem b
    rw [List.mem_append, List.mem_cons] at hb
    rw [List.mem_append] at hnot ⊢
    by_cases hba : b = a
    · subst hba
      exact iff_of_false ha hnot
    · tauto

section

variable {le : α → α → Bool} {p : α → Bool} {a : α} {l : List α}

theorem insertBy_eq_cons (h : ∀ b ∈ l, le a b = true) : insertBy le a l = a :: l := by
  cases l with
  | nil => rfl
  | cons b l => exact if_pos (h b List.mem_cons_self)

theorem sortBy_eq_self (h : l.Pairwise fun a b => le a b = true) : sortBy le l = l := by
  induction l with
  | nil => rfl
  | cons a l ih =>
    obtain ⟨ha, hl⟩ := List.pairwise_cons.1 h
    show insertBy le a (sortBy le l) = a :: l
    rw [ih hl, insertBy_eq_cons ha]

theorem filter_insertBy (trans : ∀ a b c, le a b = true → le b c = true → le a c = true)
    (h : l.Pairwise fun x y => le x y = true) : (insertBy le a l).filter p =
      if p a then insertBy le a (l.filter p) else l.filter p := by
  induction l with
  | nil => simp [insertBy, List.filter_cons]
  | cons b l ih =>
    obtain ⟨hb, hl⟩ := List.pairwise_cons.1 h
    rw [insertBy]
    by_cases hab : le a b = true
    · rw [if_pos hab, List.filter_cons]
      have hfirst : ∀ c ∈ (b :: l).filter p, le a c = true := by
        intro c hc
        rcases List.mem_cons.1 (List.mem_filter.1 hc).1 with rfl | hc
        · exact hab
        · exact trans a b c hab (hb c hc)
      rw [insertBy_eq_cons hfirst]
    · rw [if_neg hab, List.filter_cons, ih hl, List.filter_cons]
      by_cases hpb : p b = true
      · rw [if_pos hpb, if_pos hpb, insertBy, if_neg hab]
        split <;> rfl
      · rw [if_neg hpb, if_neg hpb]

/-- Entries may be left out before the others are sorted or after it. -/
theorem filter_sortBy (total : ∀ a b, le a b = false → le b a = true)
    (trans : ∀ a b c, le a b = true → le b c = true → le a c = true) (l : List α) :
    (sortBy le l).filter p = sortBy le (l.filter p) := by
  induction l with
  | nil => rfl
  | cons a l ih =>
    show (insertBy le a (sortBy le l)).filter p = _
    rw [filter_insertBy trans (sortBy_pairwise total trans l), ih, List.filter_cons]
    split <;> rfl

end

/-! ## Groups -/

theorem insertBy_append {le : α → α → Bool} {a : α} {front l : List α}
    (h : ∀ b ∈ front, le a b = false) : insertBy le a (front ++ l) = front ++ insertBy le a l := by
  induction front with
  | nil => rfl
  | cons b front ih =>
    rw [List.forall_mem_cons] at h
    rw [List.cons_append, insertBy, if_neg (by simp [h.1]), ih h.2, List.cons_append]

section

variable {κ : Type} [LE κ] [DecidableLE κ] [LT κ] [DecidableEq κ] [Std.IsLinearOrder κ]
  [Std.LawfulOrderLT κ] {key : α → κ}

/-- The groups of equal keys, each in the order of the list, follow one another in the sorted
list. -/
theorem flatMap_filter_eq_sortBy {keys : List κ} {l : List α} (hasc : keys.Pairwise (· < ·))
    (hkeys : ∀ a ∈ l, key a ∈ keys) : (keys.flatMap fun k => l.filter fun a => key a = k) =
      sortBy (fun a b => decide (key a ≤ key b)) l := by
  induction l with
  | nil => simp [sortBy]
  | cons a l ih =>
    rw [List.forall_mem_cons] at hkeys
    obtain ⟨front, back, rfl⟩ := List.append_of_mem hkeys.1
    obtain ⟨-, hright, hcross⟩ := List.pairwise_append.1 hasc
    rw [List.pairwise_cons] at hright
    have hfront : ∀ k ∈ front, k < key a := fun k hk => hcross k hk (key a) List.mem_cons_self
    -- only the group of `a` changes with `a`
    have hother : ∀ ks : List κ, (∀ k ∈ ks, key a ≠ k) →
        (ks.flatMap fun k => (a :: l).filter fun a => key a = k) =
          ks.flatMap fun k => l.filter fun a => key a = k := by
      intro ks hne
      refine List.flatMap_congr fun k hk => ?_
      rw [List.filter_cons_of_neg (by simpa using hne k hk)]
    show _ = insertBy _ a (sortBy _ l)
    rw [← ih hkeys.2, List.flatMap_append, List.flatMap_append, List.flatMap_cons,
      List.flatMap_cons, hother front fun k hk => (Std.ne_of_lt (hfront k hk)).symm,
      hother back fun k hk => Std.ne_of_lt (hright.1 k hk), insertBy_append, insertBy_eq_cons,
      List.filter_cons_of_pos (by simp), List.cons_append]
    · intro b hb
      rcases List.mem_append.1 hb with hb | hb
      · rw [of_decide_eq_true (List.mem_filter.1 hb).2]
        exact decide_eq_true (Std.le_refl _)
      · obtain ⟨k, hk, hb⟩ := List.mem_flatMap.1 hb
        rw [of_decide_eq_true (List.mem_filter.1 hb).2]
        exact decide_eq_true (Std.le_of_lt (hright.1 k hk))
    · intro b hb
      obtain ⟨k, hk, hb⟩ := List.mem_flatMap.1 hb
      rw [of_decide_eq_true (List.mem_filter.1 hb).2]
      exact decide_eq_false (Std.not_le.2 (hfront k hk))

end

/-! ## Two keys -/

section

variable {κ ι : Type} [LT κ] [DecidableLT κ] [DecidableEq κ] [LE ι] [DecidableLE ι]
variable {key : α → κ} {sub : α → ι} {a b : α}

/-- By one key, and by a second one where the first ones are the same. -/
def lexLe (key : α → κ) (sub : α → ι) (a b : α) : Bool :=
  decide (key a < key b) || (key a = key b && decide (sub a ≤ sub b))

theorem lexLe_iff : lexLe key sub a b = true ↔
    key a < key b ∨ key a = key b ∧ sub a ≤ sub b := by
  unfold lexLe
  rw [Bool.or_eq_true, Bool.and_eq_true, decide_eq_true_eq, decide_eq_true_eq, decide_eq_true_eq]

variable [LE κ] [Std.IsLinearOrder κ] [Std.LawfulOrderLT κ]

theorem key_le_of_lexLe (h : lexLe key sub a b = true) : key a ≤ key b := by
  rcases lexLe_iff.1 h with hlt | ⟨heq, -⟩
  · exact Std.le_of_lt hlt
  · exact heq ▸ Std.le_refl _

variable [Std.IsLinearOrder ι]

theorem lexLe_total (a b : α) (h : lexLe key sub a b = false) : lexLe key sub b a = true := by
  rw [← Bool.not_eq_true, lexLe_iff, not_or, not_and] at h
  rw [lexLe_iff]
  obtain ⟨hkey, hsub⟩ := h
  by_cases heq : key a = key b
  · exact .inr ⟨heq.symm, (Std.le_total).resolve_left (hsub heq)⟩
  · exact .inl (Std.lt_of_le_of_ne (Std.not_lt.1 hkey) (Ne.symm heq))

theorem lexLe_trans (a b c : α) (hab : lexLe key sub a b = true) (hbc : lexLe key sub b c = true) :
    lexLe key sub a c = true := by
  rw [lexLe_iff] at hab hbc ⊢
  rcases hab with hab | ⟨hab, hab'⟩
  · rcases hbc with hbc | ⟨hbc, -⟩
    · exact .inl (Std.lt_trans hab hbc)
    · exact .inl (hbc ▸ hab)
  · rcases hbc with hbc | ⟨hbc, hbc'⟩
    · exact .inl (hab ▸ hbc)
    · exact .inr ⟨hab.trans hbc, Std.le_trans hab' hbc'⟩

theorem sortBy_lexLe (l : List α) :
    (sortBy (lexLe key sub) l).Pairwise fun a b => lexLe key sub a b = true :=
  sortBy_pairwise lexLe_total lexLe_trans l

/-- Sorted by two keys, a list is sorted by the first. -/
theorem sortBy_lexLe_key (l : List α) :
    (sortBy (lexLe key sub) l).Pairwise fun a b => key a ≤ key b :=
  (sortBy_lexLe l).imp key_le_of_lexLe

/-- Where the first keys are distinct, the list is sorted strictly by them. -/
theorem sortBy_lexLe_key_lt {l : List α} (hd : (l.map key).Nodup) :
    (sortBy (lexLe key sub) l).Pairwise fun a b => key a < key b := by
  have hd' : ((sortBy (lexLe key sub) l).map key).Nodup :=
    ((sortBy_perm _ l).map key).nodup_iff.2 hd
  exact ((sortBy_lexLe_key l).and (List.pairwise_map.1 hd')).imp
    fun h => Std.lt_of_le_of_ne h.1 h.2

end

end Grading
