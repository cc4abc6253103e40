import Grading.Model.Form
import Grading.Proofs.Numerals
import Grading.Proofs.Sorted
import Grading.Proofs.Spelling
import Grading.Proofs.Traversals

/-!
# Stored models are read back

The stored form of a model of finite numbers is read back as the same model, and whatever is read
has finite numbers only.  So reading what was read and stored again changes nothing, whichever
names and forms the first text used.

`ReadsBack` says both of a type, its writer and its reader; each type of a model has it because
its parts have it.

    every number of m is finite → Model.ofJson? m.toJson = some m     (ReadsBack.model)
    a record of distinct names has these fields                       (fields?_record)
    a table by slot has these entries                                 (slotTable?_record)
    filling a table with its own entries gives it back                (SlotMap.ofList_entries)
-/

namespace Grading

/-! ## Parts of a stored form -/

namespace Json

variable {β : Type}

theorem finite?_of_isFinite {x : Float} (h : x.isFinite = true) : finite? x = some x := if_pos h

theorem isFinite_of_finite? {x y : Float} (h : finite? x = some y) : y.isFinite = true := by
  unfold finite? at h
  split at h
  · next hx => exact Option.some.inj h ▸ hx
  · cases h

theorem uint32?_ofUInt32 (n : UInt32) : (ofUInt32 n).uint32? = some n := by
  have hlt : (0 ≤ (n.toNat : Int) && (n.toNat : Int).toNat < UInt32.size) = true := by
    rw [Int.toNat_natCast, Bool.and_eq_true]
    exact ⟨decide_eq_true (Int.natCast_nonneg _), decide_eq_true n.toNat_lt⟩
  unfold ofUInt32 uint32?
  dsimp only
  rw [if_pos hlt, Int.toNat_natCast, UInt32.ofNat_toNat]

/-- Where names are distinct, one member carries each of them. -/
theorem membersNamed_record {members : List (String × Json)} {m : String × Json}
    (hd : (members.map (·.1)).Nodup) (hm : m ∈ members) :
    membersNamed [m.1] (members.map fun m => (Name.plain m.1, m.2)) = [(Name.plain m.1, m.2)] := by
  unfold membersNamed
  rw [List.filter_map]
  have hsame : ((fun k : Name × Json => k.1.text?.any [m.1].contains) ∘
      fun k : String × Json => (Name.plain k.1, k.2)) = fun k => decide (k.1 = m.1) := by
    funext k
    simp [Name.text?]
  rw [hsame, filter_key_eq_singleton hd hm]
  rfl

/-- A record has the fields that it was made of, where their names are distinct. -/
theorem fields?_record {members : List (String × Json)} (hd : (members.map (·.1)).Nodup) :
    (record members).fields? (members.map fun m => [m.1]) =
      some (members.map fun m => some m.2) := by
  unfold record fields?
  have hplain : (members.map fun m => (Name.plain m.1, m.2)).all (fun m => m.1.text?.isSome) := by
    rw [List.all_map, List.all_eq_true]
    exact fun _ _ => rfl
  dsimp only
  rw [if_pos hplain]
  refine mapM_map_eq_some fun m hm => ?_
  rw [membersNamed_record hd hm]

/-- Slots are written as numerals, which name them. -/
theorem slotName?_slotName (slot : Slot) :
    slotName? (.plain (AverageSettings.slotName slot)) = some slot := by
  have hdigits : (AverageSettings.slotName slot).toList = Nat.toDigits 10 slot.toNat :=
    Digits.toList_repr slot.toNat
  unfold slotName?
  dsimp only
  rw [hdigits, Digits.isEmpty_toDigits, Digits.all_isDigit_toDigits, Digits.toNat_toDigits,
    if_neg (by simp), if_neg, if_pos slot.toNat_lt, UInt32.ofNat_toNat]
  rw [Bool.and_eq_true, decide_eq_true_eq, decide_eq_true_eq]
  rintro ⟨hlen, hzero⟩
  exact (Digits.head?_toDigits slot.toNat).elim hlen (absurd hzero)

/-- A table by slot has the entries that it was made of. -/
theorem slotTable?_record {f : Json → Option β} {g : β → Json} {entries : List (Slot × β)}
    (h : ∀ e ∈ entries, f (g e.2) = some e.2) :
    (record (entries.map fun e => (AverageSettings.slotName e.1, g e.2))).slotTable? f =
      some entries := by
  unfold record slotTable?
  dsimp only
  rw [List.map_map]
  have hread := mapM_map_eq_some (k := fun e : Slot × β => e)
    (g := fun e : Slot × β => (Name.plain (AverageSettings.slotName e.1), g e.2))
    (f := fun m : Name × Json => do
      let slot ← slotName? m.1
      return (slot, ← f m.2)) (l := entries) fun e he => by
        rw [slotName?_slotName, h e he]
        rfl
  rwa [List.map_id'] at hread

end Json

/-! ## Tables by slot -/

namespace SlotMap

variable {β : Type}

theorem insertEntry_of_lt {slot : Slot} {a : β} {es : List (Slot × β)}
    (h : ∀ e ∈ es, e.1 < slot) : insertEntry slot a es = es ++ [(slot, a)] := by
  induction es with
  | nil => rfl
  | cons e es ih =>
    have he := h e List.mem_cons_self
    unfold insertEntry
    rw [if_neg (UInt32.lt_asymm he), if_neg (UInt32.ne_of_lt he).symm,
      ih fun e' he' => h e' (List.mem_cons_of_mem e he')]
    rfl

theorem entries_foldl_insert {m : SlotMap β} {es : List (Slot × β)}
    (h : (m.entries ++ es).Pairwise fun a b => a.1 < b.1) :
    (es.foldl (fun m e => m.insert e.1 e.2) m).entries = m.entries ++ es := by
  induction es generalizing m with
  | nil => exact (List.append_nil _).symm
  | cons e es ih =>
    have hlast : (m.insert e.1 e.2).entries = m.entries ++ [e] :=
      insertEntry_of_lt fun e' he' =>
        (List.pairwise_append.1 h).2.2 e' he' e List.mem_cons_self
    have hrest := ih (m := m.insert e.1 e.2) (by rw [hlast, List.append_assoc]; exact h)
    rw [hlast, List.append_assoc] at hrest
    exact hrest

theorem eq_of_entries {m m' : SlotMap β} (h : m.entries = m'.entries) : m = m' := by
  cases m
  cases m'
  cases h
  rfl

/-- Filling a table with the entries of a table gives that table. -/
theorem ofList_entries (m : SlotMap β) : ofList m.entries = m :=
  eq_of_entries (entries_foldl_insert (m := empty) m.ascending)

theorem mem_foldl_insert {m : SlotMap β} {es : List (Slot × β)} {e : Slot × β}
    (h : e ∈ (es.foldl (fun m e => m.insert e.1 e.2) m).entries) : e ∈ m.entries ∨ e ∈ es := by
  induction es generalizing m with
  | nil => exact .inl h
  | cons e' es ih =>
    rcases ih h with h | h
    · rcases mem_insertEntry h with rfl | h
      · exact .inr List.mem_cons_self
      · exact .inl h
    · exact .inr (List.mem_cons_of_mem e' h)

/-- A table has no entries but those that it was filled with. -/
theorem mem_of_mem_ofList {es : List (Slot × β)} {e : Slot × β} (h : e ∈ (ofList es).entries) :
    e ∈ es :=
  (mem_foldl_insert h).resolve_left List.not_mem_nil

end SlotMap

/-! ## Reading back -/

/-- What is written is read back if its numbers are finite, and the numbers of what is read are
finite. -/
structure ReadsBack {β : Type} (write : β → Json) (read? : Json → Option β)
    (numbers : β → List Float) : Prop where
  back : ∀ x, (∀ y ∈ numbers x, y.isFinite = true) → read? (write x) = some x
  finite : ∀ j x, read? j = some x → ∀ y ∈ numbers x, y.isFinite = true

/-- Where there are no numbers, only reading back is to be shown. -/
theorem ReadsBack.ofBack {β : Type} {write : β → Json} {read? : Json → Option β}
    (h : ∀ x, read? (write x) = some x) : ReadsBack write read? fun _ => [] :=
  ⟨fun x _ => h x, fun _ _ _ _ hy => absurd hy List.not_mem_nil⟩

namespace ReadsBack

theorem float : ReadsBack Json.ofFloat Json.float? fun x => [x] where
  back x h := by
    have hx := h x List.mem_cons_self
    unfold Json.ofFloat
    rw [if_pos hx]
    exact Json.finite?_of_isFinite hx
  finite j x h y hy := by
    rw [List.mem_singleton.1 hy]
    unfold Json.float? at h
    split at h
    · exact Json.isFinite_of_finite? h
    · exact Json.isFinite_of_finite? h
    · cases h

theorem list {β : Type} {write : β → Json} {read? : Json → Option β} {numbers : β → List Float}
    (h : ReadsBack write read? numbers) :
    ReadsBack (Json.ofList write) (Json.list? read?) fun xs => xs.flatMap numbers where
  back xs hxs := by
    have hread := mapM_map_eq_some (f := read?) (g := write) (k := fun x => x) (l := xs)
      fun x hx => h.back x fun y hy => hxs y (List.mem_flatMap.2 ⟨x, hx, hy⟩)
    rwa [List.map_id'] at hread
  finite j xs hxs y hy := by
    unfold Json.list? at hxs
    split at hxs
    · obtain ⟨x, hx, hy⟩ := List.mem_flatMap.1 hy
      obtain ⟨item, -, hitem⟩ := exists_left_of_forall₂ (mapM_eq_some_iff.1 hxs) hx
      exact h.finite item x hitem y hy
    · cases hxs

/-! ## Settings -/

theorem failPolicy : ReadsBack FailPolicy.toJson FailPolicy.ofJson? fun _ => [] :=
  .ofBack fun policy => by cases policy <;> rfl

theorem rounding : ReadsBack Rounding.toJson Rounding.ofJson? fun _ => [] :=
  .ofBack fun mode => by cases mode <;> rfl

theorem back_limit {o : Option Float} (h : ∀ y ∈ o.toList, y.isFinite = true) :
    Json.optional? Json.float? (some ((o.map Json.ofFloat).getD .null)) = some o := by
  match o with
  | none => rfl
  | some x =>
    have hx : x.isFinite = true := h x List.mem_cons_self
    show Json.optional? Json.float? (some (Json.ofFloat x)) = some (some x)
    have hback := float.back x fun y hy => List.mem_singleton.1 hy ▸ hx
    unfold Json.ofFloat at hback ⊢
    rw [if_pos hx] at hback ⊢
    exact congrArg (Option.map some) hback

theorem finite_limit {field : Option Json} {o : Option Float}
    (h : Json.optional? Json.float? field = some o) : ∀ y ∈ o.toList, y.isFinite = true := by
  intro y hy
  obtain rfl := Option.mem_toList.1 hy
  unfold Json.optional? at h
  split at h
  · cases h
  · cases h
  · obtain ⟨x, hx, heq⟩ := Option.map_eq_some_iff.1 h
    exact float.finite _ _ hx y (List.mem_singleton.2 (Option.some.inj heq).symm)

theorem sourceSettings : ReadsBack SourceSettings.toJson SourceSettings.ofJson?
    fun s => s.minPoints.toList where
  back s h := by
    have hfields : s.toJson.fields? [["minPoints"], ["onFailSetting"]] =
        some [some _, some _] := Json.fields?_record (by simp)
    unfold SourceSettings.ofJson?
    simp only [hfields, bind, Option.bind, back_limit h, failPolicy.back s.onFail (by simp)]
    rfl
  finite j s h := by
    unfold SourceSettings.ofJson? at h
    simp only [bind, Option.bind_eq_some_iff] at h
    obtain ⟨fields, -, h⟩ := h
    split at h
    · simp only [Option.bind_eq_some_iff, pure, Option.some.injEq] at h
      obtain ⟨least, hleast, policy, -, rfl⟩ := h
      exact finite_limit hleast
    · cases h

theorem averageSettings : ReadsBack AverageSettings.toJson AverageSettings.ofJson?
    fun s => s.weights.entries.flatMap fun e => [e.2] where
  back s h := by
    have hfields : s.toJson.fields? [["weights"], ["percentageMode"]] =
        some [some _, some _] := Json.fields?_record (by simp)
    have hweights : ∀ e ∈ s.weights.entries, Json.float? (Json.ofFloat e.2) = some e.2 :=
      fun e he => float.back e.2 fun y hy => h y (List.mem_flatMap.2 ⟨e, he, hy⟩)
    have htable := Json.slotTable?_record hweights
    unfold AverageSettings.ofJson?
    simp only [hfields, bind, Option.bind, htable, SlotMap.ofList_entries]
    rfl
  finite j s h y hy := by
    unfold AverageSettings.ofJson? at h
    simp only [bind, Option.bind_eq_some_iff] at h
    obtain ⟨fields, -, h⟩ := h
    split at h
    · simp only [Option.bind_eq_some_iff, pure, Option.some.injEq] at h
      obtain ⟨entries, hentries, mode, -, rfl⟩ := h
      obtain ⟨e, he, hy⟩ := List.mem_flatMap.1 hy
      unfold Json.slotTable? at hentries
      split at hentries
      · obtain ⟨member, -, hmember⟩ :=
          exists_left_of_forall₂ (mapM_eq_some_iff.1 hentries) (SlotMap.mem_of_mem_ofList he)
        simp only [bind, Option.bind_eq_some_iff, pure, Option.some.injEq] at hmember
        obtain ⟨slot, -, x, hx, rfl⟩ := hmember
        exact float.finite _ _ hx y hy
      · cases hentries
    · cases h

theorem stepOutput : ReadsBack StepOutput.toJson StepOutput.ofJson? fun o => o.number?.toList where
  back o h := by
    cases o with
    | value x =>
      show StepOutput.ofJson? (Json.ofFloat x) = some (.value x)
      unfold StepOutput.ofJson?
      rw [float.back x h]
    | same => rfl
  finite j o h := by
    unfold StepOutput.ofJson? at h
    split at h
    · next x hx =>
      obtain rfl := Option.some.inj h
      exact float.finite _ _ hx
    · split at h
      · obtain rfl := Option.some.inj h
        exact fun y hy => absurd hy List.not_mem_nil
      · cases h

theorem stepperSettings : ReadsBack StepperSettings.toJson StepperSettings.ofJson?
    fun s => (s.outputs.flatMap fun o => o.number?.toList) ++ s.middlePoints where
  back s h := by
    have hfields : s.toJson.fields? [["numSteps"], ["outputValues"], ["middlePoints"]] =
        some [some _, some _, some _] := Json.fields?_record (by simp)
    have houtputs := stepOutput.list.back s.outputs fun y hy => h y (List.mem_append_left _ hy)
    have hmiddle := float.list.back s.middlePoints fun y hy =>
      h y (List.mem_append_right _ (by rwa [List.flatMap_singleton'] at hy))
    unfold StepperSettings.ofJson?
    simp only [hfields, bind, Option.bind, Json.uint32?_ofUInt32, houtputs, hmiddle]
    rfl
  finite j s h y hy := by
    unfold StepperSettings.ofJson? at h
    simp only [bind, Option.bind_eq_some_iff] at h
    obtain ⟨fields, -, h⟩ := h
    split at h
    · simp only [Option.bind_eq_some_iff, pure, Option.some.injEq] at h
      obtain ⟨steps, -, outputs, houtputs, middlePoints, hmiddle, rfl⟩ := h
      rcases List.mem_append.1 hy with hy | hy
      · exact stepOutput.list.finite _ _ houtputs y hy
      · exact float.list.finite _ _ hmiddle y (by rwa [List.flatMap_singleton'])
    · cases h

theorem gateSettings : ReadsBack GateSettings.toJson GateSettings.ofJson?
    fun s => [s.minPoints] where
  back s h := by
    have hfields : s.toJson.fields? [["minPoints"], ["onFailSetting"]] =
        some [some _, some _] := Json.fields?_record (by simp)
    unfold GateSettings.ofJson?
    simp only [hfields, bind, Option.bind, float.back s.minPoints h,
      failPolicy.back s.onFail (by simp)]
    rfl
  finite j s h := by
    unfold GateSettings.ofJson? at h
    simp only [bind, Option.bind_eq_some_iff] at h
    obtain ⟨fields, -, h⟩ := h
    split at h
    · simp only [Option.bind_eq_some_iff, pure, Option.some.injEq] at h
      obtain ⟨least, hleast, policy, -, rfl⟩ := h
      exact float.finite _ _ hleast
    · cases h

theorem back_max {x : Float} (h : ∀ y ∈ [x], y.isFinite = true) :
    Settings.maxOfJson? (.record [("minValue", Json.ofFloat x)]) = some (.max x) := by
  have hfields : (Json.record [("minValue", Json.ofFloat x)]).fields? [["minValue"]] =
      some [some _] := Json.fields?_record (by simp)
  unfold Settings.maxOfJson?
  simp only [hfields, bind, Option.bind, float.back x h]
  rfl

theorem back_round (mode : Rounding) :
    Settings.roundOfJson? (.record [("roundingSetting", mode.toJson)]) = some (.round mode) := by
  have hfields : (Json.record [("roundingSetting", mode.toJson)]).fields? [["roundingSetting"]] =
      some [some _] := Json.fields?_record (by simp)
  unfold Settings.roundOfJson?
  simp only [hfields, bind, Option.bind, rounding.back mode (by simp)]
  rfl

theorem maxOfJson?_eq_some {j : Json} {s : Settings Float} (h : Settings.maxOfJson? j = some s) :
    ∃ x, s = .max x ∧ x.isFinite = true := by
  unfold Settings.maxOfJson? at h
  simp only [bind, Option.bind_eq_some_iff] at h
  obtain ⟨fields, -, h⟩ := h
  split at h
  · simp only [Option.bind_eq_some_iff, pure, Option.some.injEq] at h
    obtain ⟨x, hx, rfl⟩ := h
    exact ⟨x, rfl, float.finite _ _ hx x List.mem_cons_self⟩
  · cases h

theorem roundOfJson?_eq_some {j : Json} {s : Settings Float}
    (h : Settings.roundOfJson? j = some s) : ∃ mode, s = .round mode := by
  unfold Settings.roundOfJson? at h
  simp only [bind, Option.bind_eq_some_iff] at h
  obtain ⟨fields, -, h⟩ := h
  split at h
  · simp only [Option.bind_eq_some_iff, pure, Option.some.injEq] at h
    obtain ⟨mode, -, rfl⟩ := h
    exact ⟨mode, rfl⟩
  · cases h

theorem variant?_record (name : String) (content : Json) :
    (Json.record [(name, content)]).variant? = some (name, some content) := rfl

theorem settings : ReadsBack Settings.toJson Settings.ofJson? Settings.numbers where
  back s h := by
    cases s with
    | source s =>
      simp only [Settings.toJson, Settings.ofJson?, variant?_record, bind, Option.bind,
        sourceSettings.back s h]
      rfl
    | addition => rfl
    | average s =>
      simp only [Settings.toJson, Settings.ofJson?, variant?_record, bind, Option.bind,
        averageSettings.back s h]
      rfl
    | stepper s =>
      simp only [Settings.toJson, Settings.ofJson?, variant?_record, bind, Option.bind,
        stepperSettings.back s h]
      rfl
    | sink => rfl
    | minPoints s =>
      simp only [Settings.toJson, Settings.ofJson?, variant?_record, bind, Option.bind,
        gateSettings.back s h]
      rfl
    | max x => exact back_max h
    | round mode => exact back_round mode
  finite j s h := by
    unfold Settings.ofJson? at h
    simp only [bind, Option.bind_eq_some_iff] at h
    obtain ⟨variant, -, h⟩ := h
    split at h
    · simp only [Option.bind_eq_some_iff, pure, Option.some.injEq] at h
      obtain ⟨s, hs, rfl⟩ := h
      exact sourceSettings.finite _ _ hs
    · split at h
      · obtain rfl := Option.some.inj h
        exact fun y hy => absurd hy List.not_mem_nil
      · cases h
    · simp only [Option.bind_eq_some_iff, pure, Option.some.injEq] at h
      obtain ⟨s, hs, rfl⟩ := h
      exact averageSettings.finite _ _ hs
    · simp only [Option.bind_eq_some_iff, pure, Option.some.injEq] at h
      obtain ⟨s, hs, rfl⟩ := h
      exact stepperSettings.finite _ _ hs
    · split at h
      · obtain rfl := Option.some.inj h
        exact fun y hy => absurd hy List.not_mem_nil
      · cases h
    · simp only [Option.bind_eq_some_iff, pure, Option.some.injEq] at h
      obtain ⟨s, hs, rfl⟩ := h
      exact gateSettings.finite _ _ hs
    · obtain ⟨x, rfl, hx⟩ := maxOfJson?_eq_some h
      exact fun y hy => List.mem_singleton.1 hy ▸ hx
    · obtain ⟨mode, rfl⟩ := roundOfJson?_eq_some h
      exact fun y hy => absurd hy List.not_mem_nil
    · cases h

/-! ## Models -/

theorem node : ReadsBack Node.toJson Node.ofJson? fun n => n.settings.numbers where
  back n h := by
    have hfields : n.toJson.fields? [["id"], ["settings"]] = some [some _, some _] :=
      Json.fields?_record (by simp)
    unfold Node.ofJson?
    simp only [hfields, bind, Option.bind, settings.back n.settings h]
    rfl
  finite j n h := by
    unfold Node.ofJson? at h
    simp only [bind, Option.bind_eq_some_iff] at h
    obtain ⟨fields, -, h⟩ := h
    split at h
    · simp only [Option.bind_eq_some_iff, pure, Option.some.injEq] at h
      obtain ⟨id, -, s, hs, rfl⟩ := h
      exact settings.finite _ _ hs
    · cases h

theorem edge : ReadsBack Edge.toJson Edge.ofJson? fun _ => [] := .ofBack fun e => by
  have hfields : e.toJson.fields?
      [["id"], ["source"], ["sourceOutput"], ["target"], ["targetSlot"]] =
        some [some _, some _, some _, some _, some _] := Json.fields?_record (by simp)
  unfold Edge.ofJson?
  simp only [hfields, bind, Option.bind, Json.orElse?, Json.uint32?_ofUInt32]
  rfl

theorem model : ReadsBack Model.toJson Model.ofJson? Model.numbers where
  back m h := by
    have hfields : m.toJson.fields? [["nodes"], ["edges"]] = some [some _, some _] :=
      Json.fields?_record (by simp)
    unfold Model.ofJson?
    simp only [hfields, bind, Option.bind, node.list.back m.nodes h,
      edge.list.back m.edges (by simp)]
    rfl
  finite j m h := by
    unfold Model.ofJson? at h
    simp only [bind, Option.bind_eq_some_iff] at h
    obtain ⟨fields, -, h⟩ := h
    split at h
    · simp only [Option.bind_eq_some_iff, pure, Option.some.injEq] at h
      obtain ⟨nodes, hnodes, edges, -, rfl⟩ := h
      exact node.list.finite _ _ hnodes
    · cases h

end ReadsBack

/-! ## Top theorems -/

/-- A model of finite numbers is read back from its stored form as it was, down to the bits of its
numbers; and so is every model that was read from anything, in whatever form that was written. -/
theorem stored_models_read_back (m : Model Float) :
    ((∀ x ∈ m.numbers, x.isFinite = true) → Model.ofJson? m.toJson = some m) ∧
      ∀ j, Model.ofJson? j = some m → Model.ofJson? m.toJson = some m :=
  ⟨ReadsBack.model.back m, fun j h => ReadsBack.model.back m (ReadsBack.model.finite j m h)⟩

/-- A node of every type, a negative zero and the last of all slots. -/
def everyKindModel : Model Float where
  nodes :=
    [⟨"exam", .source ⟨some (-0), .courseFail⟩⟩, ⟨"talk", .source ⟨none, .ignore⟩⟩,
      ⟨"sum", .addition⟩, ⟨"mean", .average ⟨.ofList [(10, 0.25), (4294967295, 1)], true⟩⟩,
      ⟨"steps", .stepper ⟨2, [.value 1.5, .same], [5.5]⟩⟩, ⟨"gate", .minPoints ⟨5, .ignore⟩⟩,
      ⟨"best", .max 1⟩, ⟨"whole", .round .closest⟩, ⟨"grade", .sink⟩]
  edges :=
    [Edge.join "exam" "mean" 10, Edge.join "talk" "mean" 4294967295,
      { Edge.join "mean" "grade" 0 with output := 1 }]

/-- A model in other words: arrays for records, a whole number for a double, an older name for a
policy and no output. -/
def olderDocument : Json :=
  .arr
    [.arr
        [.arr [.str "exam", .record [("source", .arr [.int 5, .record [("fullfail", .null)]])]],
          .record [("settings", .record [("sink", .null)]), ("id", .str "grade")]],
      .arr
        [.record
          [("target", .str "grade"), ("targetSlot", .int 0), ("title", .bool true),
            ("source", .str "exam"), ("id", .str "only")]]]

theorem stored_models_read_back_everyKind :
    ((∀ x ∈ everyKindModel.numbers, x.isFinite = true) ∧
        Model.ofJson? everyKindModel.toJson = some everyKindModel) ∧
      ∃ m, Model.ofJson? olderDocument = some m ∧ Model.ofJson? m.toJson = some m := by
  have hfinite : ∀ x ∈ everyKindModel.numbers, x.isFinite = true := by decide
  have holder : Model.ofJson? olderDocument = some
      ⟨[⟨"exam", .source ⟨some 5, .courseFail⟩⟩, ⟨"grade", .sink⟩],
        [⟨"only", "exam", 0, "grade", 0⟩]⟩ := rfl
  exact ⟨⟨hfinite, (stored_models_read_back everyKindModel).1 hfinite⟩, _, holder,
    (stored_models_read_back _).2 olderDocument holder⟩

end Grading
