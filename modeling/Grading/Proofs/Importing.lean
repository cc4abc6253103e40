import Grading.Proofs.HandleWeights

/-!
# The import from the editor is faithful

Names mapped one after the other onto types mean what `Means` says (withMappings_kind?), and with
that the import of a node and of an edge is what the rules say of it:

    importNode .. = .ok n' ↔ Converts mappings g n n'              (importNode_eq_ok_iff)
    importNode .. = .error err ↔ Fails mappings g n err         (importNode_eq_error_iff)
    importEdge e = .ok e' ↔ e.Converts e'                          (importEdge_eq_ok_iff)
    importEdge e = .error err ↔ e.Fails err                     (importEdge_eq_error_iff)

The settings of an id are handed out once, so where ids are distinct every node gets those of its
id and a graph is imported item by item (importNodes_eq_mapM, importGraph_faithful).
-/

namespace Grading

/-! ## Names of types -/

theorem Kind.ofName?_eq_some_iff {name : String} {kind : Kind} :
    Kind.ofName? name = some kind ↔ kind.name = name := by
  constructor
  · intro h
    simpa using List.find?_some h
  · rintro rfl
    cases kind <;> decide

namespace Editor

section

variable {mappings : List (String × String)} {m : String × String} {name : String} {kind : Kind}

theorem means_concat_iff : Means (mappings ++ [m]) name kind ↔
    (m.1 = name ∧ kind.name = m.2) ∨ Unmapped [m] name ∧ Means mappings name kind := by
  constructor
  · rintro (⟨before, after, split, last⟩ | ⟨unmapped, heq⟩)
    · rcases List.eq_nil_or_concat after with rfl | ⟨after, m', rfl⟩
      · obtain ⟨rfl, hm⟩ := List.append_inj' split rfl
        rw [List.cons.injEq] at hm
        exact .inl ⟨by rw [hm.1], by rw [hm.1]⟩
      · rw [List.concat_eq_append, ← List.cons_append, ← List.append_assoc] at split
        obtain ⟨rfl, hm⟩ := List.append_inj' split rfl
        obtain rfl := List.singleton_inj.1 hm
        rw [List.concat_eq_append, Unmapped, List.forall_mem_append] at last
        exact .inr ⟨last.2, .mapped before after rfl last.1⟩
    · rw [Unmapped, List.forall_mem_append] at unmapped
      exact .inr ⟨unmapped.2, .own unmapped.1 heq⟩
  · rintro (⟨rfl, hkind⟩ | ⟨hm, ⟨before, after, rfl, last⟩ | ⟨unmapped, heq⟩⟩)
    · exact .mapped mappings [] (by rw [hkind]) fun _ h => absurd h List.not_mem_nil
    · refine .mapped before (after ++ [m]) (by simp) ?_
      exact List.forall_mem_append.2 ⟨last, hm⟩
    · exact .own (List.forall_mem_append.2 ⟨unmapped, hm⟩) heq

theorem withMapping_kind? (importer : Importer) : (importer.withMapping m.1 m.2).kind? name =
    some kind ↔ (m.1 = name ∧ kind.name = m.2) ∨
      Unmapped [m] name ∧ importer.kind? name = some kind := by
  unfold Importer.withMapping
  cases htype : Kind.ofName? m.2 with
  | none =>
    have hno : ∀ k : Kind, k.name ≠ m.2 := by
      intro k hk
      rw [Kind.ofName?_eq_some_iff.2 hk] at htype
      cases htype
    constructor
    · intro h
      refine .inr ⟨fun m' hm' _ => ?_, h⟩
      rw [List.mem_singleton.1 hm']
      exact hno
    · rintro (⟨-, hk⟩ | ⟨-, h⟩)
      · exact absurd hk (hno kind)
      · exact h
  | some k =>
    have hk : k.name = m.2 := Kind.ofName?_eq_some_iff.1 htype
    by_cases hname : name = m.1
    · subst hname
      show (if m.1 = m.1 then some k else _) = some kind ↔ _
      rw [if_pos rfl]
      constructor
      · rintro ⟨rfl⟩
        exact .inl ⟨rfl, hk⟩
      · rintro (⟨-, hkind⟩ | ⟨hun, -⟩)
        · rw [← Kind.ofName?_eq_some_iff, htype] at hkind
          exact hkind
        · exact absurd hk (hun m List.mem_cons_self rfl k)
    · simp only [if_neg hname]
      constructor
      · intro h
        refine .inr ⟨fun m' hm' heq => ?_, h⟩
        rw [List.mem_singleton.1 hm'] at heq
        exact absurd heq.symm hname
      · rintro (⟨heq, -⟩ | ⟨-, h⟩)
        · exact absurd heq.symm hname
        · exact h

/-- Names mapped one after the other mean what they are last mapped to. -/
theorem withMappings_kind? :
    (Importer.standard.withMappings mappings).kind? name = some kind ↔
      Means mappings name kind := by
  induction mappings using List.reverseRecOn with
  | nil =>
    have hnone : Unmapped [] name := fun _ h => absurd h List.not_mem_nil
    constructor
    · exact fun h => .own hnone (Kind.ofName?_eq_some_iff.1 h)
    · rintro (⟨before, after, split, -⟩ | ⟨-, heq⟩)
      · cases before <;> cases split
      · exact Kind.ofName?_eq_some_iff.2 heq
  | append_singleton l m ih =>
    have hlast : Importer.standard.withMappings (l ++ [m]) =
        (Importer.standard.withMappings l).withMapping m.1 m.2 := List.foldl_concat ..
    rw [hlast, withMapping_kind?, means_concat_iff, ih]

end

/-! ## Settings -/

section

variable {β : Type} {id : String} {settings : Option Json} {kind : Kind} {err : ImportError}

theorem readSettings_eq_ok_iff {read? : Json → Option β} (hnull : read? .null = none) {s : β} :
    readSettings id settings read? = .ok s ↔ ReadAs read? settings s := by
  unfold readSettings ReadAs
  cases settings with
  | none => simp
  | some j =>
    cases hread : read? j with
    | none => simp [hread]
    | some s' =>
      have hj : j ≠ .null := by
        rintro rfl
        rw [hnull] at hread
        cases hread
      simp [hread, hj]

theorem readSettings_eq_error_iff {read? : Json → Option β} :
    readSettings id settings read? = .error err ↔
      (settings = none ∧ err = .missingSettings id) ∨
        ∃ j, settings = some j ∧ (¬ ∃ s, read? j = some s) ∧ err = .unreadableSettings id := by
  unfold readSettings
  cases settings with
  | none => simp [eq_comm]
  | some j => cases hread : read? j <;> simp [hread, eq_comm]

/-- Settings that are kept as they are read. -/
theorem map_readSettings_eq_ok_iff {wrap : β → Settings Float} {read? : Json → Option β}
    (hnull : read? .null = none) {s : Settings Float} :
    wrap <$> readSettings id settings read? = .ok s ↔
      ∃ a, ReadAs read? settings a ∧ wrap a = s := by
  simp only [map_eq_ok_iff, readSettings_eq_ok_iff hnull]

theorem nodeSettings_eq_ok_iff {s : Settings Float} :
    nodeSettings kind id settings = .ok s ↔ s.kind = kind ∧ Configured id settings s := by
  cases kind with
  | addition | sink => cases s <;> simp [nodeSettings, Settings.kind, Configured]
  | source | stepper | minPoints =>
    refine (map_readSettings_eq_ok_iff rfl).trans ?_
    cases s <;> simp [Settings.kind, Configured]
  | max =>
    refine (readSettings_eq_ok_iff rfl).trans ?_
    constructor
    · intro h
      have hread := h
      obtain ⟨j, -, -, hread⟩ := hread
      obtain ⟨x, rfl, -⟩ := ReadsBack.maxOfJson?_eq_some hread
      exact ⟨rfl, h⟩
    · rintro ⟨hkind, h⟩
      cases s with
      | max x => exact h
      | _ => cases hkind
  | round =>
    refine (readSettings_eq_ok_iff rfl).trans ?_
    constructor
    · intro h
      have hread := h
      obtain ⟨j, -, -, hread⟩ := hread
      obtain ⟨mode, rfl⟩ := ReadsBack.roundOfJson?_eq_some hread
      exact ⟨rfl, h⟩
    · rintro ⟨hkind, h⟩
      cases s with
      | round mode => exact h
      | _ => cases hkind
  | average =>
    have hread : ∀ {w}, readSettings id settings HandleWeights.ofJson? = .ok w ↔
        ReadAs HandleWeights.ofJson? settings w := readSettings_eq_ok_iff rfl
    simp only [nodeSettings, bind_eq_ok_iff, averageSettings_eq_ok_iff, hread, pure, Except.pure,
      Except.ok.injEq]
    cases s <;> simp [Settings.kind, Configured]

/-- A node that has settings of a type has them from values of that shape. -/
theorem Configured.readable {s : Settings Float} (h : Configured id settings s)
    (htakes : TakesSettings s.kind) : ∃ j, settings = some j ∧ j ≠ .null ∧ Readable s.kind j ∧
      (s.kind = .average → ∀ w, HandleWeights.ofJson? j = some w → KeysAreSlots id w.weights) := by
  cases s with
  | addition => exact absurd rfl htakes.1
  | sink => exact absurd rfl htakes.2
  | average s =>
    obtain ⟨w, ⟨j, hj, hnull, hread⟩, hw⟩ := h
    refine ⟨j, hj, hnull, ⟨w, hread⟩, fun _ w' hread' => ?_⟩
    obtain rfl : w = w' := Option.some.inj (hread.symm.trans hread')
    exact hw.keys
  | _ =>
    obtain ⟨j, hj, hnull, hread⟩ := h
    exact ⟨j, hj, hnull, ⟨_, hread⟩, fun hkind => nomatch hkind⟩

/-- Why a node has no settings. -/
theorem nodeSettings_eq_error_iff : nodeSettings kind id settings = .error err ↔
    (TakesSettings kind ∧ settings = none ∧ err = .missingSettings id) ∨
    (∃ j, settings = some j ∧ ¬ Readable kind j ∧ err = .unreadableSettings id) ∨
    (kind = .average ∧ ∃ j w, settings = some j ∧ HandleWeights.ofJson? j = some w ∧
      WeightsFail id w err) := by
  cases kind with
  | addition | sink => simp [nodeSettings, TakesSettings, Readable]
  | source | stepper | minPoints =>
    simp only [nodeSettings, map_eq_error_iff, readSettings_eq_error_iff]
    simp [TakesSettings, Readable]
  | max | round =>
    simp only [nodeSettings, readSettings_eq_error_iff]
    simp [TakesSettings, Readable]
  | average =>
    have hread : ∀ {w}, readSettings id settings HandleWeights.ofJson? = .ok w ↔
        ∃ j, settings = some j ∧ j ≠ .null ∧ HandleWeights.ofJson? j = some w :=
      readSettings_eq_ok_iff rfl
    simp only [nodeSettings, bind_eq_error_iff, readSettings_eq_error_iff,
      averageSettings_eq_error_iff, hread]
    constructor
    · rintro ((⟨rfl, rfl⟩ | ⟨j, rfl, hunreadable, rfl⟩) |
        ⟨w, ⟨j, rfl, -, hw⟩, hfails | ⟨s, -, h⟩⟩)
      · exact .inl ⟨by simp [TakesSettings], rfl, rfl⟩
      · exact .inr (.inl ⟨j, rfl, hunreadable, rfl⟩)
      · exact .inr (.inr ⟨trivial, j, w, rfl, hw, hfails⟩)
      · cases h
    · rintro (⟨-, rfl, rfl⟩ | ⟨j, rfl, hunreadable, rfl⟩ | ⟨-, j, w, rfl, hw, hfails⟩)
      · exact .inl (.inl ⟨rfl, rfl⟩)
      · exact .inl (.inr ⟨j, rfl, hunreadable, rfl⟩)
      · refine .inr ⟨w, ⟨j, rfl, ?_, hw⟩, .inl hfails⟩
        rintro rfl
        cases hw

end

/-! ## Nodes -/

section

variable {mappings : List (String × String)} {g : Graph} {n : Node} {n' : Grading.Node Float}
  {kind : Kind} {err : ImportError}

theorem typed_iff : n.type.bind (Importer.standard.withMappings mappings).kind? = some kind ↔
    Typed mappings n kind := by
  simp only [Option.bind_eq_some_iff, withMappings_kind?]
  rfl

/-- A name means one type. -/
theorem typed_iff_eq {kind' : Kind}
    (h : n.type.bind (Importer.standard.withMappings mappings).kind? = some kind) :
    Typed mappings n kind' ↔ kind = kind' := by
  rw [← typed_iff, h, Option.some.injEq]

theorem Typed.unique {kind' : Kind} (h : Typed mappings n kind) (h' : Typed mappings n kind') :
    kind = kind' :=
  (typed_iff_eq (typed_iff.2 h)).1 h'

theorem importNode_eq_ok_iff :
    importNode (Importer.standard.withMappings mappings) n (g.recorded n.id) = .ok n' ↔
      Converts mappings g n n' := by
  unfold importNode
  cases hkind : n.type.bind (Importer.standard.withMappings mappings).kind? with
  | none =>
    refine iff_of_false (fun h => nomatch h) fun h => ?_
    have htyped := typed_iff.2 h.typed
    rw [hkind] at htyped
    cases htyped
  | some kind =>
    have htyped : ∀ {k}, Typed mappings n k ↔ kind = k := typed_iff_eq hkind
    simp only [bind_eq_ok_iff, nodeSettings_eq_ok_iff]
    constructor
    · rintro ⟨s, ⟨hs, hconfigured⟩, h⟩
      obtain rfl := Except.ok.inj h
      exact ⟨rfl, htyped.2 hs.symm, hconfigured⟩
    · intro h
      refine ⟨n'.settings, ⟨(htyped.1 h.typed).symm, h.configured⟩, ?_⟩
      rw [← h.id]
      rfl

theorem importNode_eq_error_iff :
    importNode (Importer.standard.withMappings mappings) n (g.recorded n.id) = .error err ↔
      Fails mappings g n err := by
  unfold importNode
  cases hkind : n.type.bind (Importer.standard.withMappings mappings).kind? with
  | none =>
    have hunknown : ∀ kind, ¬ Typed mappings n kind := by
      intro kind htyped
      rw [← typed_iff, hkind] at htyped
      cases htyped
    constructor
    · intro h
      obtain rfl := Except.error.inj h
      exact .unknownType hunknown
    · intro h
      cases h with
      | unknownType _ => rfl
      | missingSettings htyped _ _ => exact absurd htyped (hunknown _)
      | unreadableSettings htyped _ _ => exact absurd htyped (hunknown _)
      | weights htyped _ _ _ => exact absurd htyped (hunknown _)
  | some kind =>
    have htyped : ∀ {k}, Typed mappings n k ↔ kind = k := typed_iff_eq hkind
    simp only [bind_eq_error_iff, nodeSettings_eq_error_iff]
    constructor
    · rintro ((⟨htakes, hmissing, rfl⟩ | ⟨j, hj, hunreadable, rfl⟩ |
        ⟨rfl, j, w, hj, hw, hfails⟩) | ⟨s, -, h⟩)
      · exact .missingSettings (htyped.2 rfl) htakes hmissing
      · exact .unreadableSettings (htyped.2 rfl) hj hunreadable
      · exact .weights (htyped.2 rfl) hj hw hfails
      · cases h
    · intro h
      cases h with
      | unknownType hunknown => exact absurd (htyped.2 rfl) (hunknown kind)
      | missingSettings hk htakes hmissing =>
        obtain rfl := htyped.1 hk
        exact .inl (.inl ⟨htakes, hmissing, rfl⟩)
      | unreadableSettings hk hj hunreadable =>
        obtain rfl := htyped.1 hk
        exact .inl (.inr (.inl ⟨_, hj, hunreadable, rfl⟩))
      | weights hk hj hw hfails =>
        obtain rfl := htyped.1 hk
        exact .inl (.inr (.inr ⟨rfl, _, _, hj, hw, hfails⟩))

/-- A node that meets the conditions fails for no reason. -/
theorem Convertible.not_fails (h : Convertible mappings g n) : ¬ Fails mappings g n err := by
  obtain ⟨kind, htyped, hsettings⟩ := h
  intro hfails
  cases hfails with
  | unknownType hunknown => exact hunknown kind htyped
  | missingSettings hk htakes hmissing =>
    obtain rfl := htyped.unique hk
    obtain ⟨j, hj, -⟩ := hsettings htakes
    rw [hmissing] at hj
    cases hj
  | unreadableSettings hk hj hunreadable =>
    obtain rfl := htyped.unique hk
    have htakes : TakesSettings kind := by
      constructor <;> rintro rfl <;> exact hunreadable trivial
    obtain ⟨j', hj', -, hreadable, -⟩ := hsettings htakes
    obtain rfl := Option.some.inj (hj.symm.trans hj')
    exact hunreadable hreadable
  | weights hk hj hw hfails =>
    obtain rfl := htyped.unique hk
    obtain ⟨j', hj', -, -, hkeys⟩ := hsettings ⟨Kind.noConfusion, Kind.noConfusion⟩
    obtain rfl := Option.some.inj (hj.symm.trans hj')
    exact hfails.not_keysAreSlots (hkeys rfl _ hw)

/-- Something becomes of a node exactly if it meets the conditions. -/
theorem exists_importNode_eq_ok_iff : (∃ n', importNode (Importer.standard.withMappings mappings) n
    (g.recorded n.id) = .ok n') ↔ Convertible mappings g n := by
  constructor
  · rintro ⟨n', h⟩
    obtain ⟨-, htyped, hconfigured⟩ := importNode_eq_ok_iff.1 h
    exact ⟨n'.kind, htyped, hconfigured.readable⟩
  · intro h
    cases himport : importNode (Importer.standard.withMappings mappings) n (g.recorded n.id) with
    | ok n' => exact ⟨n', rfl⟩
    | error err => exact absurd (importNode_eq_error_iff.1 himport) h.not_fails

/-! ## The data of the nodes -/

theorem lastOf?_concat {β : Type} (entries : List (String × β)) (e : String × β) (key : String) :
    lastOf? (entries ++ [e]) key = if e.1 = key then some e.2 else lastOf? entries key :=
  List.foldl_concat ..

/-- Taking the entries of one key away leaves what other keys mean. -/
theorem lastOf?_filter_ne {β : Type} {entries : List (String × β)} {id key : String}
    (hne : key ≠ id) : lastOf? (entries.filter fun d => decide (d.1 ≠ id)) key =
      lastOf? entries key := by
  induction entries using List.reverseRecOn with
  | nil => rfl
  | append_singleton entries e ih =>
    rw [List.filter_append, lastOf?_concat]
    by_cases he : e.1 = id
    · have hkey : e.1 ≠ key := fun heq => hne (heq.symm.trans he)
      rw [if_neg hkey, ← ih]
      simp [he]
    · have hkeep : ([e].filter fun d => decide (d.1 ≠ id)) = [e] := by simp [he]
      rw [hkeep, lastOf?_concat, ih]

/-- Where ids are distinct, every node gets what is kept for its id. -/
theorem importNodes_eq_mapM {importer : Importer} {nodes : List Node}
    {data : List (String × NodeData)} (hids : (nodes.map (·.id)).Nodup) :
    importNodes importer nodes data =
      nodes.mapM fun n => importNode importer n ((lastOf? data n.id).bind (·.settings)) := by
  induction nodes generalizing data with
  | nil => rfl
  | cons n nodes ih =>
    rw [List.map_cons, List.nodup_cons] at hids
    rw [List.mapM_cons]
    unfold importNodes
    have hrest : ∀ n' ∈ nodes, lastOf? (data.filter fun d => decide (d.1 ≠ n.id)) n'.id =
        lastOf? data n'.id := fun n' hn' => lastOf?_filter_ne fun heq =>
      hids.1 (heq ▸ List.mem_map_of_mem hn')
    rw [ih hids.2, mapM_congr fun n' hn' => by rw [hrest n' hn']]

end

/-! ## Edges -/

section

variable {e : Edge} {e' : Grading.Edge} {node : String} {handle : Option String}
  {read? : String → String → Option UInt32} {number : UInt32} {err : ImportError}

theorem readHandle_eq_ok_iff :
    readHandle e node handle read? = .ok number ↔ Edge.Denotes read? node handle number := by
  unfold readHandle Edge.Denotes
  cases handle with
  | none => simp [eq_comm]
  | some h => cases hread : read? node h <;> simp [hread]

theorem readHandle_eq_error_iff : readHandle e node handle read? = .error err ↔
    ∃ h, handle = some h ∧ read? node h = none ∧ err = .invalidHandle e.shownId node h := by
  unfold readHandle
  cases handle with
  | none => simp
  | some h => cases hread : read? node h <;> simp [hread, eq_comm]

theorem importEdge_eq_ok_iff : importEdge e = .ok e' ↔ e.Converts e' := by
  unfold importEdge
  simp only [bind_eq_ok_iff, readHandle_eq_ok_iff]
  constructor
  · rintro ⟨slot, hslot, output, houtput, h⟩
    obtain rfl := Except.ok.inj h
    exact ⟨rfl, rfl, hslot, houtput, rfl⟩
  · intro h
    refine ⟨e'.slot, h.slot, e'.output, h.output, ?_⟩
    obtain ⟨hsource, htarget, -, -, hid⟩ := h
    cases e'
    dsimp only at hsource htarget hid
    subst hsource htarget hid
    rfl

theorem importEdge_eq_error_iff : importEdge e = .error err ↔ e.Fails err := by
  unfold importEdge
  simp only [bind_eq_error_iff, readHandle_eq_ok_iff, readHandle_eq_error_iff]
  constructor
  · rintro (⟨h, hhandle, hforeign, rfl⟩ | ⟨slot, hslot, ⟨h, hhandle, hforeign, rfl⟩ | ⟨_, -, h⟩⟩)
    · exact .target hhandle hforeign
    · exact .source hslot hhandle hforeign
    · cases h
  · intro h
    cases h with
    | target hhandle hforeign => exact .inl ⟨_, hhandle, hforeign, rfl⟩
    | source hslot hhandle hforeign => exact .inr ⟨_, hslot, .inl ⟨_, hhandle, hforeign, rfl⟩⟩

theorem exists_denotes_iff : (∃ number, Edge.Denotes read? node handle number) ↔
    ∀ h, handle = some h → ∃ number, read? node h = some number := by
  unfold Edge.Denotes
  cases handle <;> simp

/-- Something becomes of an edge exactly if its handles are those of its ends. -/
theorem exists_importEdge_eq_ok_iff : (∃ e', importEdge e = .ok e') ↔ e.Convertible := by
  unfold importEdge Edge.Convertible
  simp only [bind_eq_ok_iff, readHandle_eq_ok_iff, ← exists_denotes_iff]
  constructor
  · rintro ⟨e', slot, hslot, output, houtput, -⟩
    exact ⟨⟨slot, hslot⟩, output, houtput⟩
  · rintro ⟨⟨slot, hslot⟩, output, houtput⟩
    exact ⟨_, slot, hslot, output, houtput, rfl⟩

end

/-! ## Graphs -/

section

variable {mappings : List (String × String)} {g : Graph} {m : Model Float} {err : ImportError}

/-- Where ids are distinct, nodes and edges are imported one by one. -/
theorem importGraph_eq {importer : Importer} (hids : (g.nodes.map (·.id)).Nodup) :
    importer.importGraph g = do
      let nodes ← g.nodes.mapM fun n => importNode importer n (g.recorded n.id)
      let edges ← g.edges.mapM importEdge
      return { nodes, edges } := by
  unfold Importer.importGraph
  rw [importNodes_eq_mapM hids]
  rfl

end

/-- Where ids are distinct, a graph is imported exactly if something becomes of every node and
edge; then the model is what becomes of them, in order, and else the error is that of the first
node, or, if there is none, of the first edge of which nothing becomes. -/
theorem importGraph_faithful (mappings : List (String × String)) (g : Graph)
    (hids : (g.nodes.map (·.id)).Nodup) :
    ((∃ m, (Importer.standard.withMappings mappings).importGraph g = .ok m) ↔
      (∀ n ∈ g.nodes, Convertible mappings g n) ∧ ∀ e ∈ g.edges, e.Convertible) ∧
    (∀ m, (Importer.standard.withMappings mappings).importGraph g = .ok m ↔
      List.Forall₂ (Converts mappings g) g.nodes m.nodes ∧
        List.Forall₂ Edge.Converts g.edges m.edges) ∧
    ∀ err, (Importer.standard.withMappings mappings).importGraph g = .error err ↔
      FirstFailure (Convertible mappings g) (fun n => Fails mappings g n err) g.nodes ∨
        (∀ n ∈ g.nodes, Convertible mappings g n) ∧
          FirstFailure Edge.Convertible (fun e => e.Fails err) g.edges := by
  rw [importGraph_eq hids]
  refine ⟨?_, ?_, ?_⟩
  · simp only [← exists_importNode_eq_ok_iff, ← exists_importEdge_eq_ok_iff,
      ← exists_mapM_eq_ok_iff, bind_eq_ok_iff]
    constructor
    · rintro ⟨m, nodes, hnodes, edges, hedges, -⟩
      exact ⟨⟨nodes, hnodes⟩, edges, hedges⟩
    · rintro ⟨⟨nodes, hnodes⟩, edges, hedges⟩
      exact ⟨_, nodes, hnodes, edges, hedges, rfl⟩
  · intro m
    simp only [bind_eq_ok_iff, mapM_eq_ok_iff, importNode_eq_ok_iff, importEdge_eq_ok_iff]
    constructor
    · rintro ⟨nodes, hnodes, edges, hedges, h⟩
      obtain rfl := Except.ok.inj h
      exact ⟨hnodes, hedges⟩
    · rintro ⟨hnodes, hedges⟩
      exact ⟨m.nodes, hnodes, m.edges, hedges, rfl⟩
  · intro err
    rw [bind_eq_error_iff, mapM_eq_error_iff]
    refine or_congr (FirstFailure.congr (fun n _ => exists_importNode_eq_ok_iff)
      fun n _ => importNode_eq_error_iff) ?_
    have hedges : FirstFailure Edge.Convertible (fun e => e.Fails err) g.edges ↔
        g.edges.mapM importEdge = .error err :=
      (FirstFailure.congr (fun e _ => exists_importEdge_eq_ok_iff.symm)
        fun e _ => importEdge_eq_error_iff.symm).trans mapM_eq_error_iff.symm
    simp only [hedges, ← exists_importNode_eq_ok_iff, ← exists_mapM_eq_ok_iff, bind_eq_error_iff]
    constructor
    · rintro ⟨nodes, hnodes, hfails | ⟨edges, -, h⟩⟩
      · exact ⟨⟨nodes, hnodes⟩, hfails⟩
      · cases h
    · rintro ⟨⟨nodes, hnodes⟩, hfails⟩
      exact ⟨nodes, hnodes, .inl hfails⟩

/-- Nodes whose types go by their own names and by another one; the edge into the average has a
handle, the one into the sink has none. -/
def threeNodes : Graph where
  nodes := [⟨"exam", some "attainment"⟩, ⟨"mean", some "average"⟩, ⟨"grade", some "sink"⟩]
  edges :=
    [⟨none, "exam", some "exam-source", "mean", some "mean-3"⟩,
      ⟨some "last", "mean", none, "grade", none⟩]
  nodeData :=
    [("mean", ⟨some (.record [("weights", .record [("mean-3", .int 2)])])⟩),
      ("exam", ⟨some (.record [("minPoints", .null), ("onFailSetting", .str "ignore")])⟩)]

/-- What the three nodes mean where an attainment is a source. -/
def threeNodesModel : Model Float where
  nodes :=
    [⟨"exam", .source ⟨none, .ignore⟩⟩, ⟨"mean", .average ⟨.ofList [(3, 2)], false⟩⟩,
      ⟨"grade", .sink⟩]
  edges := [⟨"exam-mean:3", "exam", 0, "mean", 3⟩, ⟨"last", "mean", 0, "grade", 0⟩]

theorem importGraph_faithful_threeNodes :
    (threeNodes.nodes.map (·.id)).Nodup ∧
      (List.Forall₂ (Converts [("attainment", "source")] threeNodes) threeNodes.nodes
          threeNodesModel.nodes ∧
        List.Forall₂ Edge.Converts threeNodes.edges threeNodesModel.edges) ∧
      FirstFailure (Convertible [] threeNodes)
        (fun n => Fails [] threeNodes n (.unknownType "exam" "attainment")) threeNodes.nodes := by
  have hids : (threeNodes.nodes.map (·.id)).Nodup := by decide
  obtain ⟨-, hok, -⟩ := importGraph_faithful [("attainment", "source")] threeNodes hids
  obtain ⟨-, -, herror⟩ := importGraph_faithful [] threeNodes hids
  refine ⟨hids, (hok threeNodesModel).1 rfl, ((herror _).1 rfl).resolve_right ?_⟩
  rintro ⟨-, before, e, after, -, -, hfails⟩
  cases hfails

end Editor

end Grading
