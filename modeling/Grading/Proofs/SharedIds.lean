import Grading.Proofs.Importing

/-!
# Settings reported as missing

What the editor keeps for an id goes to the first node of the id.  A node that needs settings is
said to have none if none are kept for its id, but also if a node before it shares the id:

    importNode importer n settings = .error (.missingSettings id) ↔
      n.id = id ∧ NeedsSettings importer n ∧ settings = none  (importNode_eq_missingSettings_iff)
    importer.importGraph g = .error (.missingSettings id) ↔ the first node on which the import
      fails needs settings, and shares its id with a node before it or has none kept
                                                             (importGraph_eq_missingSettings_iff)

So a graph of distinct ids is told the truth (recorded_eq_none_of_nodup), and one with a shared id
need not be: `twoExams` keeps settings for both of its nodes of one id.
-/

namespace Grading.Editor

/-- The type of the node is known to the importer and takes settings. -/
def NeedsSettings (importer : Importer) (n : Node) : Prop :=
  ∃ kind, n.type.bind importer.kind? = some kind ∧ TakesSettings kind

section

variable {importer : Importer} {nodes : List Node} {n : Node} {data : List (String × NodeData)}
  {settings : Option Json} {g : Graph} {id : String}

/-! ## One node -/

/-- Weights fail for their keys, not for being left out. -/
theorem WeightsFail.ne_missingSettings {node : String} {w : HandleWeights} {err : ImportError}
    (h : WeightsFail node w err) : err ≠ .missingSettings id := by
  obtain ⟨mid, key, x, after, -, -, hfails⟩ := h
  cases hfails <;> exact nofun

theorem nodeSettings_eq_missingSettings_iff {kind : Kind} {node : String} :
    nodeSettings kind node settings = .error (.missingSettings id) ↔
      node = id ∧ TakesSettings kind ∧ settings = none := by
  rw [nodeSettings_eq_error_iff]
  constructor
  · rintro (⟨htakes, hnone, heq⟩ | ⟨j, -, -, heq⟩ | ⟨-, j, w, -, -, hfails⟩)
    · exact ⟨(ImportError.missingSettings.inj heq).symm, htakes, hnone⟩
    · cases heq
    · exact absurd rfl hfails.ne_missingSettings
  · rintro ⟨rfl, htakes, hnone⟩
    exact .inl ⟨htakes, hnone, rfl⟩

theorem importNode_eq_missingSettings_iff :
    importNode importer n settings = .error (.missingSettings id) ↔
      n.id = id ∧ NeedsSettings importer n ∧ settings = none := by
  unfold importNode NeedsSettings
  cases n.type.bind importer.kind? with
  | none => simp
  | some kind =>
    simp only [bind_eq_error_iff, nodeSettings_eq_missingSettings_iff, Option.some.injEq,
      exists_eq_left']
    constructor
    · rintro (h | ⟨s, -, h⟩)
      · exact h
      · cases h
    · exact .inl

/-! ## Node after node -/

/-- Nothing is left of a key whose entries are taken away. -/
theorem lastOf?_filter_self {β : Type} (entries : List (String × β)) (id : String) :
    lastOf? (entries.filter fun d => decide (d.1 ≠ id)) id = none := by
  induction entries using List.reverseRecOn with
  | nil => rfl
  | append_singleton entries e ih =>
    by_cases he : e.1 = id
    · simpa [he] using ih
    · have hkeep : ([e].filter fun d => decide (d.1 ≠ id)) = [e] := by simp [he]
      rw [List.filter_append, hkeep, lastOf?_concat, if_neg he, ih]

/-- What the nodes after `n` find kept for an id. -/
theorem lastOf?_rest_eq_none_iff :
    (lastOf? (data.filter fun d => decide (d.1 ≠ n.id)) id).bind (·.settings) = none ↔
      n.id = id ∨ (lastOf? data id).bind (·.settings) = none := by
  by_cases hid : n.id = id
  · rw [hid, lastOf?_filter_self]
    simp
  · rw [lastOf?_filter_ne (Ne.symm hid)]
    exact ⟨.inr, fun h => h.resolve_left hid⟩

theorem importNodes_cons_eq_ok_iff {imported : List (Grading.Node Float)} :
    importNodes importer (n :: nodes) data = .ok imported ↔
      ∃ first rest, importNode importer n ((lastOf? data n.id).bind (·.settings)) = .ok first ∧
        importNodes importer nodes (data.filter fun d => d.1 ≠ n.id) = .ok rest ∧
          first :: rest = imported := by
  rw [importNodes]
  simp only [bind_eq_ok_iff, pure, Except.pure, Except.ok.injEq, exists_and_left]

/-- The nodes before the one without settings are imported; it comes after a node of its id, or
nothing is kept for its id. -/
theorem importNodes_eq_missingSettings_iff :
    importNodes importer nodes data = .error (.missingSettings id) ↔
      ∃ before n after, nodes = before ++ n :: after ∧
        (∃ imported, importNodes importer before data = .ok imported) ∧
        n.id = id ∧ NeedsSettings importer n ∧
        (id ∈ before.map (·.id) ∨ (lastOf? data id).bind (·.settings) = none) := by
  induction nodes generalizing data with
  | nil =>
    refine iff_of_false nofun ?_
    rintro ⟨before, n, after, h, -⟩
    cases before <;> cases h
  | cons n nodes ih =>
    rw [importNodes]
    simp only [bind_eq_error_iff, importNode_eq_missingSettings_iff, ih, lastOf?_rest_eq_none_iff]
    constructor
    · rintro (⟨rfl, hneeds, hnone⟩ | ⟨first, hfirst, ⟨before, n', after, rfl, ⟨rest, hrest⟩, hid,
        hneeds, hwhy⟩ | ⟨_, -, h⟩⟩)
      · exact ⟨[], n, nodes, rfl, ⟨[], rfl⟩, rfl, hneeds, .inr hnone⟩
      · refine ⟨n :: before, n', after, rfl,
          ⟨_, importNodes_cons_eq_ok_iff.2 ⟨first, rest, hfirst, hrest, rfl⟩⟩, hid, hneeds, ?_⟩
        rw [List.map_cons, List.mem_cons]
        tauto
      · cases h
    · rintro ⟨before, n', after, hsplit, ⟨imported, himported⟩, hid, hneeds, hwhy⟩
      cases before with
      | nil =>
        obtain ⟨rfl, rfl⟩ := List.cons.inj hsplit
        subst hid
        exact .inl ⟨rfl, hneeds, hwhy.resolve_left List.not_mem_nil⟩
      | cons n'' before =>
        obtain ⟨rfl, rfl⟩ := List.cons.inj hsplit
        obtain ⟨first, rest, hfirst, hrest, -⟩ := importNodes_cons_eq_ok_iff.1 himported
        refine .inr ⟨first, hfirst, .inl ⟨before, n', after, rfl, ⟨rest, hrest⟩, hid, hneeds, ?_⟩⟩
        rw [List.map_cons, List.mem_cons] at hwhy
        tauto

/-! ## Graphs -/

/-- Edges do not have settings. -/
theorem Edge.Fails.ne_missingSettings {e : Edge} {err : ImportError} (h : e.Fails err) :
    err ≠ .missingSettings id := by
  cases h <;> exact nofun

theorem importGraph_missingSettings_iff_nodes :
    importer.importGraph g = .error (.missingSettings id) ↔
      importNodes importer g.nodes g.nodeData = .error (.missingSettings id) := by
  unfold Importer.importGraph
  rw [bind_eq_error_iff]
  refine or_iff_left ?_
  rintro ⟨nodes, -, h⟩
  rcases bind_eq_error_iff.1 h with hedges | ⟨edges, -, h⟩
  · obtain ⟨before, e, after, -, -, hfails⟩ := mapM_eq_error_iff.1 hedges
    exact (importEdge_eq_error_iff.1 hfails).ne_missingSettings rfl
  · cases h

/-- Where ids are distinct, settings that are said to be missing are. -/
theorem recorded_eq_none_of_nodup (hids : (g.nodes.map (·.id)).Nodup)
    (h : importer.importGraph g = .error (.missingSettings id)) : g.recorded id = none := by
  obtain ⟨before, n, after, hsplit, -, rfl, -, hwhy⟩ :=
    importNodes_eq_missingSettings_iff.1 (importGraph_missingSettings_iff_nodes.1 h)
  refine hwhy.resolve_left fun hbefore => ?_
  rw [hsplit, List.map_append, List.map_cons] at hids
  exact (List.nodup_middle.1 hids |> List.nodup_cons.1).1 (List.mem_append_left _ hbefore)

end

/-- An import that says that an id has no settings got to a node of the id that needs some: the
nodes before it are imported, and either one of them shares its id or nothing is kept for the
id. -/
theorem importGraph_eq_missingSettings_iff (importer : Importer) (g : Graph) (id : String) :
    importer.importGraph g = .error (.missingSettings id) ↔
      ∃ before n after, g.nodes = before ++ n :: after ∧
        (∃ imported, importNodes importer before g.nodeData = .ok imported) ∧
        n.id = id ∧ NeedsSettings importer n ∧
        (id ∈ before.map (·.id) ∨ g.recorded id = none) := by
  rw [importGraph_missingSettings_iff_nodes, importNodes_eq_missingSettings_iff]
  rfl

/-- Two sources of one id, for which settings are kept. -/
def twoExams : Graph where
  nodes := [⟨"exam", some "source"⟩, ⟨"exam", some "source"⟩, ⟨"grade", some "sink"⟩]
  edges := [⟨none, "exam", none, "grade", none⟩]
  nodeData := [("exam", ⟨some (.record [("onFailSetting", .str "ignore")])⟩)]

/-- The second source is said to have no settings, although they are kept for its id. -/
theorem twoExams_missingSettings :
    Importer.standard.importGraph twoExams = .error (.missingSettings "exam") ∧
      twoExams.recorded "exam" = some (.record [("onFailSetting", .str "ignore")]) :=
  ⟨rfl, rfl⟩

end Grading.Editor
