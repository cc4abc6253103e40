import Grading.Proofs.ImportRules
import Grading.Proofs.Sorted
import Grading.Proofs.StoredForm

/-!
# Weights by handle become weights by slot

The editor keeps the weights of an average by handle.  `assignSlots` goes through them in ascending
order of the handles, and `Assigned` is what its tables hold after some of them:

    averageSettings id w = .ok s ↔ Weighs id w s                  (averageSettings_eq_ok_iff)
    averageSettings id w = .error err ↔ WeightsFail id w err   (averageSettings_eq_error_iff)
    the handles name pairwise different slots → there are settings
                                                            (exists_averageSettings_eq_ok)
-/

namespace Grading

/-! ## Tables by slot -/

namespace SlotMap

variable {β : Type} {slot : Slot} {a : β} {es : List (Slot × β)} {m m' : SlotMap β}

theorem insertEntry_perm (h : ∀ e ∈ es, e.1 ≠ slot) :
    (insertEntry slot a es).Perm ((slot, a) :: es) := by
  induction es with
  | nil => exact .refl _
  | cons e es ih =>
    rw [List.forall_mem_cons] at h
    unfold insertEntry
    rw [if_neg h.1.symm]
    split
    · exact .refl _
    · exact ((ih h.2).cons e).trans (.swap _ _ _)

theorem mem_insert_of_free (h : ∀ e ∈ m.entries, e.1 ≠ slot) {e : Slot × β} :
    e ∈ (m.insert slot a).entries ↔ e = (slot, a) ∨ e ∈ m.entries := by
  rw [← List.mem_cons]
  exact (insertEntry_perm h).mem_iff

/-- A table is known by its entries in any order. -/
theorem eq_of_mem_iff (h : ∀ e, e ∈ m.entries ↔ e ∈ m'.entries) : m = m' := by
  have hdistinct : ∀ m : SlotMap β, m.entries.Nodup := fun m =>
    m.ascending.imp fun hlt heq => UInt32.ne_of_lt hlt (congrArg Prod.fst heq)
  have hperm := (List.perm_ext_iff_of_nodup (hdistinct m) (hdistinct m')).2 h
  exact eq_of_entries (hperm.eq_of_pairwise
    (fun e e' _ _ hlt hgt => absurd hgt (UInt32.lt_asymm hlt)) m.ascending m'.ascending)

end SlotMap

namespace Editor

/-! ## Weights by handle -/

section

variable {id key : String} {x : Float} {slot : Slot} {w : HandleWeights} {s : AverageSettings Float}
  {before rest weights : List (String × Float)} {done : List (String × Slot)}
  {table : SlotMap Float} {err : ImportError}

theorem KeysAreSlots.perm {weights' : List (String × Float)} (h : KeysAreSlots id weights)
    (hperm : weights.Perm weights') : KeysAreSlots id weights' :=
  ⟨fun e he => h.1 e (hperm.mem_iff.2 he), (hperm.map _).nodup_iff.1 h.2⟩

/-- With a key that fails, the keys are no handles of different slots any more. -/
theorem KeyFails.not_keysAreSlots (h : KeyFails id before key err) :
    ¬ KeysAreSlots id (before ++ (key, x) :: rest) := by
  rintro ⟨hslots, hdistinct⟩
  cases h with
  | foreign hnone =>
    obtain ⟨slot, hslot⟩ := hslots (key, x) (by simp)
    rw [hnone] at hslot
    cases hslot
  | repeated hearlier hfirst hkey =>
    rw [List.map_append, List.nodup_append'] at hdistinct
    refine hdistinct.2.2 (List.mem_map_of_mem hearlier) ?_
    rw [hfirst, ← hkey]
    exact List.mem_map.2 ⟨(key, x), List.mem_cons_self, rfl⟩

/-- What has been assigned after some of the weights. -/
structure Assigned (id : String) (before : List (String × Float)) (done : List (String × Slot))
    (table : SlotMap Float) : Prop where
  keys : KeysAreSlots id before
  done : ∀ key slot, (key, slot) ∈ done ↔
    ∃ x, (key, x) ∈ before ∧ targetSlot? id key = some slot
  table : ∀ slot x, (slot, x) ∈ table.entries ↔
    ∃ key, (key, x) ∈ before ∧ targetSlot? id key = some slot

theorem Assigned.start (id : String) : Assigned id [] [] SlotMap.empty where
  keys := ⟨fun _ h => absurd h List.not_mem_nil, List.nodup_nil⟩
  done := by simp
  table := by simp [SlotMap.empty]

theorem Assigned.step (h : Assigned id before done table) (hslot : targetSlot? id key = some slot)
    (hnew : ∀ d ∈ done, d.2 ≠ slot) :
    Assigned id (before ++ [(key, x)]) ((key, slot) :: done) (table.insert slot x) where
  keys := by
    refine ⟨?_, ?_⟩
    · rw [List.forall_mem_append]
      exact ⟨h.keys.1, by simp [hslot]⟩
    · rw [List.map_append, List.nodup_append']
      refine ⟨h.keys.2, List.nodup_singleton _, fun o ho ho' => ?_⟩
      obtain ⟨e, he, rfl⟩ := List.mem_map.1 ho
      have heq : targetSlot? id e.1 = some slot := by simpa [hslot] using ho'
      exact hnew (e.1, slot) ((h.done e.1 slot).2 ⟨e.2, he, heq⟩) rfl
  done k t := by
    rw [List.mem_cons, h.done]
    constructor
    · rintro (heq | ⟨y, hy, hk⟩)
      · obtain ⟨rfl, rfl⟩ := Prod.mk.inj heq
        exact ⟨x, by simp, hslot⟩
      · exact ⟨y, List.mem_append_left _ hy, hk⟩
    · rintro ⟨y, hy, hk⟩
      rcases List.mem_append.1 hy with hy | hy
      · exact .inr ⟨y, hy, hk⟩
      · obtain ⟨rfl, -⟩ := Prod.mk.inj (List.mem_singleton.1 hy)
        rw [hslot] at hk
        exact .inl (by rw [Option.some.inj hk])
  table t y := by
    have hfree : ∀ e ∈ table.entries, e.1 ≠ slot := by
      intro e he heq
      obtain ⟨k, hk, hkslot⟩ := (h.table e.1 e.2).1 he
      exact hnew (k, e.1) ((h.done k e.1).2 ⟨e.2, hk, hkslot⟩) heq
    rw [SlotMap.mem_insert_of_free hfree, h.table]
    constructor
    · rintro (heq | ⟨k, hk, hkt⟩)
      · obtain ⟨rfl, rfl⟩ := Prod.mk.inj heq
        exact ⟨key, by simp, hslot⟩
      · exact ⟨k, List.mem_append_left _ hk, hkt⟩
    · rintro ⟨k, hk, hkt⟩
      rcases List.mem_append.1 hk with hk | hk
      · exact .inr ⟨k, hk, hkt⟩
      · obtain ⟨rfl, rfl⟩ := Prod.mk.inj (List.mem_singleton.1 hk)
        rw [hslot] at hkt
        exact .inl (by rw [Option.some.inj hkt])

/-- The slot of a key that is taken is that of an earlier key, and of no other earlier key. -/
theorem Assigned.taken (h : Assigned id before done table) {earlier : String}
    (hearlier : (earlier, slot) ∈ done) (hslot : targetSlot? id key = some slot) :
    KeyFails id before key err ↔ err = .repeatedWeight id earlier key slot := by
  obtain ⟨x, hx, hxslot⟩ := (h.done earlier slot).1 hearlier
  constructor
  · intro hfails
    cases hfails with
    | foreign hnone =>
      rw [hnone] at hslot
      cases hslot
    | @repeated first y slot' hfirst hfirstslot hkey =>
      obtain rfl : slot' = slot := Option.some.inj (hkey.symm.trans hslot)
      have heq := List.inj_on_of_nodup_map h.keys.2 hfirst hx (hfirstslot.trans hxslot.symm)
      rw [(Prod.mk.inj heq).1]
  · rintro rfl
    exact .repeated hx hxslot hslot

/-- One step: the key is no handle, or its slot is taken, or its slot is new. -/
theorem assignSlots_cons (done : List (String × Slot)) (id key : String) (x : Float)
    (table : SlotMap Float) (rest : List (String × Float)) :
    (targetSlot? id key = none ∧ assignSlots id done table ((key, x) :: rest) =
        .error (.foreignWeight id key)) ∨
      (∃ earlier slot, targetSlot? id key = some slot ∧ (earlier, slot) ∈ done ∧
        assignSlots id done table ((key, x) :: rest) =
          .error (.repeatedWeight id earlier key slot)) ∨
      ∃ slot, targetSlot? id key = some slot ∧ (∀ d ∈ done, d.2 ≠ slot) ∧
        assignSlots id done table ((key, x) :: rest) =
          assignSlots id ((key, slot) :: done) (table.insert slot x) rest := by
  cases hslot : targetSlot? id key with
  | none => exact .inl ⟨rfl, by simp only [assignSlots, hslot]⟩
  | some slot =>
    cases hfind : done.find? fun d => decide (d.2 = slot) with
    | some d =>
      have hd : d.2 = slot := by simpa using List.find?_some hfind
      refine .inr (.inl ⟨d.1, slot, rfl, hd ▸ List.mem_of_find?_eq_some hfind, ?_⟩)
      simp only [assignSlots, hslot, hfind]
    | none =>
      refine .inr (.inr ⟨slot, rfl, fun d hd heq => ?_, ?_⟩)
      · exact List.find?_eq_none.1 hfind d hd (decide_eq_true heq)
      · simp only [assignSlots, hslot, hfind]

/-- Either the next key is the first to fail, or a later one is. -/
theorem keyFailsAfter_cons (h : KeysAreSlots id before) :
    KeyFailsAfter id before ((key, x) :: rest) err ↔
      KeyFails id before key err ∨ KeyFailsAfter id (before ++ [(key, x)]) rest err := by
  constructor
  · rintro ⟨mid, k, y, after, heq, hkeys, hfails⟩
    cases mid with
    | nil =>
      obtain ⟨he, -⟩ := List.cons.inj heq
      obtain ⟨rfl, -⟩ := Prod.mk.inj he
      exact .inl (by simpa using hfails)
    | cons e mid =>
      obtain ⟨rfl, hrest⟩ := List.cons.inj heq
      exact .inr ⟨mid, k, y, after, hrest, by simpa using hkeys, by simpa using hfails⟩
  · rintro (hfails | ⟨mid, k, y, after, rfl, hkeys, hfails⟩)
    · exact ⟨[], key, x, rest, rfl, by simpa using h, by simpa using hfails⟩
    · exact ⟨(key, x) :: mid, k, y, after, rfl, by simpa using hkeys, by simpa using hfails⟩

/-- A key that fails leaves no room for a later one. -/
theorem KeyFails.not_keyFailsAfter {err' : ImportError} (h : KeyFails id before key err') :
    ¬ KeyFailsAfter id (before ++ [(key, x)]) rest err := by
  rintro ⟨mid, k, y, after, -, hkeys, -⟩
  rw [List.append_assoc] at hkeys
  exact h.not_keysAreSlots hkeys

/-- The error of the weights is that of the first key that fails. -/
theorem assignSlots_eq_error_iff (h : Assigned id before done table) :
    assignSlots id done table rest = .error err ↔ KeyFailsAfter id before rest err := by
  induction rest generalizing before done table with
  | nil =>
    refine iff_of_false (fun herr => nomatch herr) ?_
    rintro ⟨mid, key, x, after, hsplit, -⟩
    cases mid <;> cases hsplit
  | cons e rest ih =>
    obtain ⟨key, x⟩ := e
    rw [keyFailsAfter_cons h.keys]
    rcases assignSlots_cons done id key x table rest with
      ⟨hslot, heq⟩ | ⟨earlier, slot, hslot, htaken, heq⟩ | ⟨slot, hslot, hnew, heq⟩
    · have hfails : KeyFails id before key err ↔ err = .foreignWeight id key := by
        constructor
        · rintro (_ | ⟨-, -, hkey⟩)
          · rfl
          · rw [hslot] at hkey
            cases hkey
        · rintro rfl
          exact .foreign hslot
      rw [heq, hfails, or_iff_left (KeyFails.foreign hslot).not_keyFailsAfter, Except.error.injEq,
        eq_comm]
    · have hfails := (h.taken htaken hslot).2 rfl
      rw [heq, h.taken htaken hslot, or_iff_left hfails.not_keyFailsAfter, Except.error.injEq,
        eq_comm]
    · have hstep := h.step (x := x) hslot hnew
      rw [heq, ih hstep, or_iff_right]
      exact fun hfails => hfails.not_keysAreSlots hstep.keys

/-- Where weights can be assigned, all keys are handles of slots of their own. -/
theorem assigned_of_eq_ok {m : SlotMap Float} (h : Assigned id before done table)
    (hok : assignSlots id done table rest = .ok m) :
    ∃ done', Assigned id (before ++ rest) done' m := by
  induction rest generalizing before done table with
  | nil =>
    obtain rfl := Except.ok.inj hok
    exact ⟨done, by rwa [List.append_nil]⟩
  | cons e rest ih =>
    obtain ⟨key, x⟩ := e
    rcases assignSlots_cons done id key x table rest with
      ⟨_, heq⟩ | ⟨_, _, _, _, heq⟩ | ⟨slot, hslot, hnew, heq⟩
    · rw [heq] at hok
      cases hok
    · rw [heq] at hok
      cases hok
    · rw [heq] at hok
      obtain ⟨done', hdone'⟩ := ih (h.step hslot hnew) hok
      exact ⟨done', by rwa [List.append_assoc] at hdone'⟩

/-! ## Settings of averages -/

theorem averageSettings_eq_error_iff : averageSettings id w = .error err ↔
    WeightsFail id w err := by
  unfold averageSettings
  simp only [bind_eq_error_iff, assignSlots_eq_error_iff (Assigned.start id)]
  exact or_iff_left fun ⟨_, _, h⟩ => nomatch h

theorem weighs_of_eq_ok (h : averageSettings id w = .ok s) : Weighs id w s := by
  unfold averageSettings at h
  obtain ⟨m, hm, hs⟩ := bind_eq_ok_iff.1 h
  obtain rfl := Except.ok.inj hs
  obtain ⟨done, hassigned⟩ := assigned_of_eq_ok (Assigned.start id) hm
  have hperm := sortBy_perm (fun a b => decide (a.1 ≤ b.1)) w.weights
  refine ⟨rfl, hassigned.keys.perm hperm, fun slot x => ?_⟩
  simp only [hassigned.table, List.nil_append, hperm.mem_iff]

theorem Weighs.unique {s' : AverageSettings Float} (h : Weighs id w s) (h' : Weighs id w s') :
    s = s' := by
  have hmode := h.percentageMode.trans h'.percentageMode.symm
  have hweights : s.weights = s'.weights :=
    SlotMap.eq_of_mem_iff fun e => (h.weights e.1 e.2).trans (h'.weights e.1 e.2).symm
  cases s
  cases s'
  cases hmode
  cases hweights
  rfl

theorem WeightsFail.not_keysAreSlots (h : WeightsFail id w err) : ¬ KeysAreSlots id w.weights := by
  obtain ⟨before, key, x, after, hsorted, -, hfails⟩ := h
  have hnone : ¬ KeysAreSlots id ([] ++ before ++ (key, x) :: after) := hfails.not_keysAreSlots
  rw [List.nil_append, ← hsorted] at hnone
  exact fun hkeys => hnone (hkeys.perm (sortBy_perm _ _).symm)

theorem exists_averageSettings_eq_ok (h : KeysAreSlots id w.weights) :
    ∃ s, averageSettings id w = .ok s := by
  cases hs : averageSettings id w with
  | ok s => exact ⟨s, rfl⟩
  | error err => exact absurd h (averageSettings_eq_error_iff.1 hs).not_keysAreSlots

theorem averageSettings_eq_ok_iff : averageSettings id w = .ok s ↔ Weighs id w s := by
  refine ⟨weighs_of_eq_ok, fun h => ?_⟩
  obtain ⟨s', hs'⟩ := exists_averageSettings_eq_ok h.keys
  rw [hs', h.unique (weighs_of_eq_ok hs')]

end

end Editor

end Grading
