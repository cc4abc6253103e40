import Grading.Proofs.Handles
import Grading.Proofs.KeptValues

/-!
# The weights of an average are imported exactly

An average of the editor keeps its weights under handles of its own.  Of the keys alone it is said
which of them can be imported together (`Fit`) and which key stands in the way (`FirstBadKey`), and
that is what an import goes by:

    something becomes of the node ↔ Fit id keys                    (ImportsWeights.imported_iff)
    the import fails with err ↔ FirstBadKey id keys err             (ImportsWeights.refused_iff)

What becomes of it has the weight of every key, at the slot of the edges with that handle, and the
order in which the weights are written decides nothing.  Of the value that is read it is needed
that no key is in it twice, as it is with values that are kept.
-/

namespace Grading.Editor

/-! ## Rules -/

/-- An edge into the node with the handle gets the slot, whatever else there is to the edge. -/
def GetsSlot (id handle : String) (slot : Slot) : Prop :=
  ∀ e : Edge, e.target = id → e.targetHandle = some handle →
    (∀ h, e.sourceHandle = some h → ∃ output, NamesOutput e.source h output) →
      ∃ e', importEdge e = .ok e' ∧ e'.slot = slot

/-- The keys are handles of the node, and different keys name different slots. -/
structure Fit (id : String) (keys : List String) : Prop where
  slots : ∀ key ∈ keys, ∃ slot, NamesSlot id key slot
  distinct : ∀ key ∈ keys, ∀ key' ∈ keys, ∀ slot,
    NamesSlot id key slot → NamesSlot id key' slot → key = key'

/-- What is wrong with a key: it is no handle of the node, or a smaller key names its slot. -/
inductive BadKey (id : String) (keys : List String) (key : String) : ImportError → Prop
  | foreign (no_slot : ∀ slot, ¬ NamesSlot id key slot) : BadKey id keys key (.foreignWeight id key)
  | repeated {earlier : String} {slot : Slot} (mem : earlier ∈ keys) (lt : earlier < key)
      (names_earlier : NamesSlot id earlier slot) (names_key : NamesSlot id key slot) :
      BadKey id keys key (.repeatedWeight id earlier key slot)

/-- The error of the least key with which something is wrong. -/
def FirstBadKey (id : String) (keys : List String) (err : ImportError) : Prop :=
  ∃ key ∈ keys, BadKey id keys key err ∧
    ∀ key' ∈ keys, key' < key → ∀ err', ¬ BadKey id keys key' err'

section

variable {id key handle : String} {slot : Slot} {keys front : List String}
  {w w' : HandleWeights} {s : AverageSettings Float} {err : ImportError}
  {weights mid after : List (String × Float)} {x : Float}

/-! ## Keys -/

theorem targetSlot?_eq_none_iff : targetSlot? id key = none ↔ ∀ slot, ¬ NamesSlot id key slot := by
  rw [Option.eq_none_iff_forall_ne_some]
  simp only [ne_eq, targetSlot?_eq_some_iff]

/-- Keys that are no larger than some key fit if nothing is wrong with them. -/
theorem fit_iff (hfront : ∀ key ∈ front, key ∈ keys)
    (hlower : ∀ key ∈ front, ∀ key' ∈ keys, key' < key → key' ∈ front) :
    Fit id front ↔ ∀ key ∈ front, ∀ err, ¬ BadKey id keys key err := by
  constructor
  · rintro ⟨hslots, hdistinct⟩ key hkey err hbad
    cases hbad with
    | foreign hno =>
      obtain ⟨slot, hslot⟩ := hslots key hkey
      exact hno slot hslot
    | repeated hmem hlt hearlier hslot =>
      have hmem' := hlower key hkey _ hmem hlt
      exact hlt.ne (hdistinct _ hmem' key hkey _ hearlier hslot)
  · intro h
    refine ⟨fun key hkey => ?_, fun key hkey key' hkey' slot hslot hslot' => ?_⟩
    · by_contra hno
      exact h key hkey _ (.foreign (not_exists.1 hno))
    · -- of two keys for one slot the larger one would be bad
      rcases lt_trichotomy key key' with hlt | heq | hlt
      · exact absurd (.repeated (hfront key hkey) hlt hslot hslot') (h key' hkey' _)
      · exact heq
      · exact absurd (.repeated (hfront key' hkey') hlt hslot' hslot) (h key hkey _)

/-- Where no key is written twice, the keys fit if each has a slot of its own. -/
theorem keysAreSlots_iff_fit (hkeys : (weights.map (·.1)).Nodup) :
    KeysAreSlots id weights ↔ Fit id (weights.map (·.1)) := by
  constructor
  · rintro ⟨hslots, hdistinct⟩
    refine ⟨?_, ?_⟩
    · rw [List.forall_mem_map]
      intro e he
      obtain ⟨slot, hslot⟩ := hslots e he
      exact ⟨slot, targetSlot?_eq_some_iff.1 hslot⟩
    · rw [List.forall_mem_map]
      intro e he
      rw [List.forall_mem_map]
      intro e' he' slot hslot hslot'
      rw [← targetSlot?_eq_some_iff] at hslot hslot'
      rw [List.inj_on_of_nodup_map hdistinct he he' (hslot.trans hslot'.symm)]
  · rintro ⟨hslots, hdistinct⟩
    rw [List.forall_mem_map] at hslots
    have hread : ∀ e ∈ weights, ∃ slot, targetSlot? id e.1 = some slot := by
      intro e he
      obtain ⟨slot, hslot⟩ := hslots e he
      exact ⟨slot, targetSlot?_eq_some_iff.2 hslot⟩
    refine ⟨hread, List.Nodup.map_on (fun e he e' he' heq => ?_) (List.Nodup.of_map _ hkeys)⟩
    obtain ⟨slot, hslot⟩ := hread e he
    have hslot' := heq.symm.trans hslot
    rw [targetSlot?_eq_some_iff] at hslot hslot'
    refine List.inj_on_of_nodup_map hkeys he he' ?_
    exact hdistinct _ (List.mem_map_of_mem he) _ (List.mem_map_of_mem he') slot hslot hslot'

/-! ## The first bad key -/

/-- A key fails after the smaller ones if something is wrong with it. -/
theorem keyFails_iff_badKey (hmid : ∀ k, k ∈ mid.map (·.1) ↔ k ∈ keys ∧ k < key) :
    KeyFails id mid key err ↔ BadKey id keys key err := by
  constructor
  · intro h
    cases h with
    | foreign hnone => exact .foreign (targetSlot?_eq_none_iff.1 hnone)
    | repeated hearlier hfirst hkey =>
      obtain ⟨hmem, hlt⟩ := (hmid _).1 (List.mem_map_of_mem hearlier)
      rw [targetSlot?_eq_some_iff] at hfirst hkey
      exact .repeated hmem hlt hfirst hkey
  · intro h
    cases h with
    | foreign hno => exact .foreign (targetSlot?_eq_none_iff.2 hno)
    | repeated hmem hlt hearlier hkey =>
      obtain ⟨e, he, rfl⟩ := List.mem_map.1 ((hmid _).2 ⟨hmem, hlt⟩)
      rw [← targetSlot?_eq_some_iff] at hearlier hkey
      exact .repeated he hearlier hkey

/-- In front of an entry of a strictly ascending list there are the entries of smaller keys. -/
theorem mem_front_iff (hasc : (mid ++ (key, x) :: after).Pairwise fun e e' => e.1 < e'.1)
    (hkeys : ∀ k, k ∈ (mid ++ (key, x) :: after).map (·.1) ↔ k ∈ keys) (k : String) :
    k ∈ mid.map (·.1) ↔ k ∈ keys ∧ k < key := by
  obtain ⟨-, hright, hcross⟩ := List.pairwise_append.1 hasc
  rw [List.pairwise_cons] at hright
  rw [← hkeys, List.map_append, List.map_cons, List.mem_append, List.mem_cons]
  constructor
  · intro hk
    obtain ⟨e, he, rfl⟩ := List.mem_map.1 hk
    exact ⟨.inl hk, hcross e he (key, x) List.mem_cons_self⟩
  · rintro ⟨hk | rfl | hk, hlt⟩
    · exact hk
    · exact absurd hlt (lt_irrefl k)
    · obtain ⟨e, he, rfl⟩ := List.mem_map.1 hk
      exact absurd hlt (lt_asymm (hright.1 e he))

/-- The weights before an entry are fine and its key is not, exactly if its key is the first bad
one. -/
theorem fails_at_iff (hasc : (mid ++ (key, x) :: after).Pairwise fun e e' => e.1 < e'.1)
    (hkeys : ∀ k, k ∈ (mid ++ (key, x) :: after).map (·.1) ↔ k ∈ keys) :
    KeysAreSlots id mid ∧ KeyFails id mid key err ↔
      BadKey id keys key err ∧ ∀ key' ∈ keys, key' < key → ∀ err', ¬ BadKey id keys key' err' := by
  have hmid := mem_front_iff hasc hkeys
  have hnodup : (mid.map (·.1)).Nodup :=
    List.pairwise_map.2 ((List.pairwise_append.1 hasc).1.imp fun hlt => hlt.ne)
  have hmem : ∀ k ∈ mid.map (·.1), k ∈ keys := fun k hk => ((hmid k).1 hk).1
  have hlower : ∀ k ∈ mid.map (·.1), ∀ k' ∈ keys, k' < k → k' ∈ mid.map (·.1) := by
    intro k hk k' hk' hlt
    exact (hmid k').2 ⟨hk', hlt.trans ((hmid k).1 hk).2⟩
  rw [keyFails_iff_badKey hmid, keysAreSlots_iff_fit hnodup, and_comm, fit_iff hmem hlower]
  simp only [hmid, and_imp]

theorem weightsFail_iff_firstBadKey (hkeys : (w.weights.map (·.1)).Nodup) :
    WeightsFail id w err ↔ FirstBadKey id (w.weights.map (·.1)) err := by
  have hasc := sortBy_key_pairwise_lt (fun e : String × Float => e.1) hkeys
  have hperm := sortBy_perm (fun a b : String × Float => decide (a.1 ≤ b.1)) w.weights
  have hmem : ∀ k, k ∈ (sortBy (fun a b => decide (a.1 ≤ b.1)) w.weights).map (·.1) ↔
      k ∈ w.weights.map (·.1) := fun k => (hperm.map (·.1)).mem_iff
  unfold WeightsFail KeyFailsAfter FirstBadKey
  constructor
  · rintro ⟨mid, key, x, after, hsplit, h⟩
    rw [hsplit] at hasc hmem
    refine ⟨key, (hmem key).1 ?_, (fails_at_iff hasc hmem).1 h⟩
    rw [List.map_append, List.map_cons]
    exact List.mem_append_right _ List.mem_cons_self
  · rintro ⟨key, hkey, h⟩
    obtain ⟨e, he, rfl⟩ := List.mem_map.1 ((hmem key).2 hkey)
    obtain ⟨mid, after, hsplit⟩ := List.append_of_mem he
    rw [hsplit] at hasc hmem
    exact ⟨mid, e.1, e.2, after, hsplit, (fails_at_iff hasc hmem).2 h⟩

/-! ## Weights at slots -/

theorem NamesSlot.getsSlot (h : NamesSlot id handle slot) : GetsSlot id handle slot := by
  rintro e rfl hhandle hsource
  have hslot := targetSlot?_eq_some_iff.2 h
  have hconvertible : e.Convertible := by
    refine ⟨fun h' hh' => ?_, fun h' hh' => ?_⟩
    · obtain rfl := Option.some.inj (hhandle.symm.trans hh')
      exact ⟨slot, hslot⟩
    · obtain ⟨output, houtput⟩ := hsource h' hh'
      exact ⟨output, sourceOutput?_eq_some_iff.2 houtput⟩
  obtain ⟨e', he'⟩ := exists_importEdge_eq_ok_iff.2 hconvertible
  have hdenotes := (importEdge_eq_ok_iff.1 he').slot
  rw [hhandle] at hdenotes
  exact ⟨e', he', Option.some.inj (hdenotes.symm.trans hslot)⟩

/-- The entries by slot are the weights by handle, one for one. -/
theorem Weighs.entries (h : Weighs id w s) : ∃ entries, entries.Perm s.weights.entries ∧
    List.Forall₂ (fun e entry => NamesSlot id e.1 entry.1 ∧ entry.2 = e.2) w.weights entries := by
  obtain ⟨hslots, hdistinct⟩ := h.keys
  have hread : ∀ e ∈ w.weights, targetSlot? id e.1 = some ((targetSlot? id e.1).getD 0) := by
    intro e he
    obtain ⟨slot, hslot⟩ := hslots e he
    rw [hslot, Option.getD_some]
  refine ⟨w.weights.map fun e => ((targetSlot? id e.1).getD 0, e.2), ?_, ?_⟩
  · refine (List.perm_ext_iff_of_nodup ?_ ?_).2 fun entry => ?_
    · refine List.Nodup.map_on (fun e he e' he' heq => ?_) (List.Nodup.of_map _ hdistinct)
      refine List.inj_on_of_nodup_map hdistinct he he' ?_
      rw [hread e he, hread e' he', (Prod.mk.inj heq).1]
    · exact s.weights.ascending.imp fun hlt heq => UInt32.ne_of_lt hlt (congrArg Prod.fst heq)
    · rw [h.weights entry.1 entry.2, List.mem_map]
      constructor
      · rintro ⟨e, he, rfl⟩
        exact ⟨e.1, he, hread e he⟩
      · rintro ⟨key, hkey, hslot⟩
        refine ⟨(key, entry.2), hkey, ?_⟩
        rw [hslot, Option.getD_some]
  · rw [List.forall₂_map_right_iff, List.forall₂_same]
    exact fun e he => ⟨targetSlot?_eq_some_iff.1 (hread e he), rfl⟩

/-- The order of the weights does not matter. -/
theorem averageSettings_eq_of_perm (hkeys : (w.weights.map (·.1)).Nodup)
    (hperm : w'.weights.Perm w.weights) (hmode : w'.percentageMode = w.percentageMode) :
    averageSettings id w' = averageSettings id w := by
  unfold averageSettings
  rw [sortBy_key_eq_of_perm _ hkeys hperm, hmode]

end

/-! ## Nodes -/

section

variable {importer : Importer} {n : Node} {j : Json} {w : HandleWeights}

/-- An average is imported by way of its weights. -/
theorem importNode_average (hkind : n.type.bind importer.kind? = some .average)
    (hw : HandleWeights.ofJson? j = some w) : importNode importer n (some j) =
      (fun s => ⟨n.id, .average s⟩) <$> averageSettings n.id w := by
  unfold importNode
  rw [hkind]
  simp only [nodeSettings, readSettings, hw, bind, Except.bind]
  cases averageSettings n.id w <;> rfl

/-- What an import makes of an average whose settings hold the weights. -/
structure ImportsWeights (importer : Importer) (n : Node) (j : Json) (w : HandleWeights) :
    Prop where
  imported_iff : (∃ n', importNode importer n (some j) = .ok n') ↔ Fit n.id (w.weights.map (·.1))
  refused_iff : ∀ err,
    importNode importer n (some j) = .error err ↔ FirstBadKey n.id (w.weights.map (·.1)) err
  /-- Every key is one entry of the settings, at the slot of the edges with that handle. -/
  entries : ∀ n', importNode importer n (some j) = .ok n' → ∃ s : AverageSettings Float,
    n' = ⟨n.id, .average s⟩ ∧ s.percentageMode = w.percentageMode ∧
      ∃ entries, entries.Perm s.weights.entries ∧
        List.Forall₂ (fun e entry => GetsSlot n.id e.1 entry.1 ∧ entry.2 = e.2) w.weights entries
  unordered : ∀ j' w', HandleWeights.ofJson? j' = some w' → w'.weights.Perm w.weights →
    w'.percentageMode = w.percentageMode →
      importNode importer n (some j') = importNode importer n (some j)

/-- The weights of an average are imported without a loss, or the first bad key is named; their
order does not matter.  All settings in a graph that was read are kept (`isKept_of_recorded`). -/
theorem averageWeights_imported_exactly (hkind : n.type.bind importer.kind? = some .average)
    (hkept : j.IsKept) (hw : HandleWeights.ofJson? j = some w) :
    ImportsWeights importer n j w := by
  have hkeys := HandleWeights.nodup_of_isKept hkept hw
  have himport := importNode_average hkind hw
  refine ⟨?_, fun err => ?_, fun n' h => ?_, fun j' w' hw' hperm hmode => ?_⟩
  · rw [himport, ← keysAreSlots_iff_fit hkeys]
    simp only [map_eq_ok_iff]
    constructor
    · rintro ⟨n', s, hs, -⟩
      exact (averageSettings_eq_ok_iff.1 hs).keys
    · intro h
      obtain ⟨s, hs⟩ := exists_averageSettings_eq_ok h
      exact ⟨_, s, hs, rfl⟩
  · rw [himport, map_eq_error_iff, averageSettings_eq_error_iff,
      weightsFail_iff_firstBadKey hkeys]
  · rw [himport, map_eq_ok_iff] at h
    obtain ⟨s, hs, rfl⟩ := h
    have hweighs := averageSettings_eq_ok_iff.1 hs
    obtain ⟨entries, hentries, hread⟩ := hweighs.entries
    exact ⟨s, rfl, hweighs.percentageMode, entries, hentries,
      hread.imp fun e entry h => ⟨h.1.getsSlot, h.2⟩⟩
  · rw [himport, importNode_average hkind hw', averageSettings_eq_of_perm hkeys hperm hmode]

end

/-- Settings of an average, as they are written. -/
def meanSettings (weights : List (String × Json)) : Json :=
  .record [("weights", .record weights)]

/-- A graph of one average. -/
def meanGraph (weights : List (String × Json)) : Json :=
  .record
    [("nodes", .arr [.record [("id", .str "m"), ("type", .str "average")]]), ("edges", .arr []),
      ("nodeData", .record [("m", .record [("settings", meanSettings weights)])])]

/-- Two keys fit; of three others the bare id and the one with zeros name one slot, and that is
said before anything is said of the foreign key. -/
theorem averageWeights_imported_exactly_mean :
    ImportsWeights .standard ⟨"m", some "average"⟩
        (meanSettings [("m-1", .int 2), ("m", .int 1)]) ⟨[("m-1", 2), ("m", 1)], false⟩ ∧
      Fit "m" ["m-1", "m"] ∧
      FirstBadKey "m" ["n", "m-00", "m"] (.repeatedWeight "m" "m" "m-00" 0) := by
  have hfit : (meanSettings [("m-1", .int 2), ("m", .int 1)]).IsKept := isKept_of_recorded
    (rfl : Graph.ofJson? (meanGraph [("m-1", .int 2), ("m", .int 1)]) = some _)
    (rfl : Graph.recorded _ "m" = some _)
  have hbad : (meanSettings [("n", .int 3), ("m-00", .int 2), ("m", .int 1)]).IsKept :=
    isKept_of_recorded
      (rfl : Graph.ofJson? (meanGraph [("n", .int 3), ("m-00", .int 2), ("m", .int 1)]) = some _)
      (rfl : Graph.recorded _ "m" = some _)
  have himports : ImportsWeights .standard ⟨"m", some "average"⟩ _
      ⟨[("m-1", 2), ("m", 1)], false⟩ := averageWeights_imported_exactly rfl hfit rfl
  have hrefuses : ImportsWeights .standard ⟨"m", some "average"⟩ _
      ⟨[("n", 3), ("m-00", 2), ("m", 1)], false⟩ := averageWeights_imported_exactly rfl hbad rfl
  exact ⟨himports, himports.imported_iff.1 ⟨_, rfl⟩, (hrefuses.refused_iff _).1 rfl⟩

end Grading.Editor
