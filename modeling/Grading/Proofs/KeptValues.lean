import Grading.Proofs.Equality
import Grading.Proofs.Importing

/-!
# Values that are kept

The settings of the nodes of an editor's graph are kept as JSON values before their shape is known,
and a value that is kept holds every name of an object once, the last value that was written for
it (`KeptMembers`).  Parts of such a value are such values themselves:

    j kept → the fields of j are kept                                     (IsKept.of_mem_fields?)
    j kept → the names of a table read from j are distinct                 (IsKept.table?_nodup)
    the settings in a graph that was read are kept                          (isKept_of_recorded)
-/

namespace Grading

namespace Json

/-- What is left of some value when it is kept. -/
def IsKept (j : Json) : Prop := ∃ levels raw, generic? levels raw = some j

/-- The members of an object that is kept. -/
structure KeptMembers (members : List (Name × Json)) : Prop where
  nodup : (members.map (·.1)).Nodup
  plain : ∀ m ∈ members, ∃ text, m.1 = .plain text
  values : ∀ m ∈ members, m.2.IsKept

section

variable {levels : Nat} {name : String} {value j : Json} {m : Name × Json}
  {kept members members' : List (Name × Json)} {items items' : List Json}

/-! ## Members -/

theorem KeptMembers.nil : KeptMembers [] where
  nodup := List.nodup_nil
  plain := fun _ h => absurd h List.not_mem_nil
  values := fun _ h => absurd h List.not_mem_nil

theorem mem_insertMember (h : m ∈ insertMember name value members) :
    m = (.plain name, value) ∨ m ∈ members := by
  induction members with
  | nil => exact .inl (List.mem_singleton.1 h)
  | cons m' members ih =>
    unfold insertMember at h
    split at h
    · exact (List.mem_cons.1 h).imp_right (List.mem_cons_of_mem _)
    · rcases List.mem_cons.1 h with rfl | h
      · exact .inr List.mem_cons_self
      · exact (ih h).imp_right (List.mem_cons_of_mem _)

theorem nodup_insertMember (h : (members.map (·.1)).Nodup) :
    ((insertMember name value members).map (·.1)).Nodup := by
  induction members with
  | nil => exact List.nodup_singleton _
  | cons m members ih =>
    obtain ⟨hm, hmembers⟩ := List.nodup_cons.1 h
    unfold insertMember
    split
    · next heq =>
      rw [List.map_cons, List.nodup_cons, ← heq]
      exact ⟨hm, hmembers⟩
    · next hne =>
      rw [List.map_cons, List.nodup_cons]
      refine ⟨fun hmem => ?_, ih hmembers⟩
      obtain ⟨m', hm', hname⟩ := List.mem_map.1 hmem
      rcases mem_insertMember hm' with rfl | hm'
      · exact hne hname.symm
      · exact hm (List.mem_map.2 ⟨m', hm', hname⟩)

theorem KeptMembers.insert (h : KeptMembers kept) (hvalue : value.IsKept) :
    KeptMembers (insertMember name value kept) where
  nodup := nodup_insertMember h.nodup
  plain m hm := by
    rcases mem_insertMember hm with rfl | hm
    · exact ⟨name, rfl⟩
    · exact h.plain m hm
  values m hm := by
    rcases mem_insertMember hm with rfl | hm
    · exact hvalue
    · exact h.values m hm

theorem keptMembers_of_genericMembers? (hkept : KeptMembers kept)
    (h : genericMembers? levels kept members = some members') : KeptMembers members' := by
  induction members generalizing kept with
  | nil =>
    obtain rfl := Option.some.inj h
    exact hkept
  | cons m members ih =>
    obtain ⟨name, j⟩ := m
    unfold genericMembers? at h
    obtain ⟨text, -, h⟩ := Option.bind_eq_some_iff.1 h
    obtain ⟨value, hvalue, h⟩ := Option.bind_eq_some_iff.1 h
    exact ih (hkept.insert ⟨levels, j, hvalue⟩) h

theorem isKept_of_genericItems? (h : genericItems? levels items = some items') :
    ∀ j ∈ items', j.IsKept := by
  induction items generalizing items' with
  | nil =>
    obtain rfl := Option.some.inj h
    exact fun j hj => absurd hj List.not_mem_nil
  | cons j items ih =>
    unfold genericItems? at h
    obtain ⟨first, hfirst, h⟩ := Option.bind_eq_some_iff.1 h
    obtain ⟨rest, hrest, h⟩ := Option.bind_eq_some_iff.1 h
    obtain rfl := Option.some.inj h
    exact List.forall_mem_cons.2 ⟨⟨levels, j, hfirst⟩, ih hrest⟩

/-! ## Parts -/

/-- A value that is kept is an array of kept items, an object of kept members, or neither. -/
theorem IsKept.cases (h : j.IsKept) :
    (∃ levels written items, genericItems? levels written = some items ∧ arr items = j) ∨
    (∃ levels written members, genericMembers? levels [] written = some members ∧
      obj members = j) ∨
    (∀ items, arr items ≠ j) ∧ ∀ members, obj members ≠ j := by
  obtain ⟨levels, raw, h⟩ := h
  cases raw with
  | arr written =>
    cases levels with
    | zero => cases h
    | succ levels =>
      obtain ⟨items, hitems, heq⟩ := Option.map_eq_some_iff.1 h
      exact .inl ⟨levels, written, items, hitems, heq⟩
  | obj written =>
    cases levels with
    | zero => cases h
    | succ levels =>
      obtain ⟨members, hmembers, heq⟩ := Option.map_eq_some_iff.1 h
      exact .inr (.inl ⟨levels, written, members, hmembers, heq⟩)
  | void => cases h
  | _ =>
    obtain rfl := Option.some.inj h
    exact .inr (.inr ⟨nofun, nofun⟩)

theorem IsKept.keptMembers (h : (obj members).IsKept) : KeptMembers members := by
  rcases h.cases with ⟨_, _, _, -, heq⟩ | ⟨levels, written, _, hmembers, heq⟩ | ⟨-, hobj⟩
  · cases heq
  · obtain rfl := Json.obj.inj heq
    exact keptMembers_of_genericMembers? .nil hmembers
  · exact absurd rfl (hobj members)

theorem IsKept.of_mem_items (h : (arr items).IsKept) : ∀ j ∈ items, j.IsKept := by
  rcases h.cases with ⟨levels, written, _, hitems, heq⟩ | ⟨_, _, _, -, heq⟩ | ⟨harr, -⟩
  · obtain rfl := Json.arr.inj heq
    exact isKept_of_genericItems? hitems
  · cases heq
  · exact absurd rfl (harr items)

/-- The fields of a record that is kept are kept. -/
theorem IsKept.of_mem_fields? {names : List (List String)} {fields : List (Option Json)}
    (h : j.IsKept) (hfields : j.fields? names = some fields) (hvalue : some value ∈ fields) :
    value.IsKept := by
  cases j with
  | arr items =>
    simp only [fields?] at hfields
    split at hfields
    · obtain rfl := Option.some.inj hfields
      rcases List.mem_append.1 hvalue with hvalue | hvalue
      · obtain ⟨value', hmem, heq⟩ := List.mem_map.1 hvalue
        obtain rfl := Option.some.inj heq
        exact h.of_mem_items _ hmem
      · cases List.eq_of_mem_replicate hvalue
    · cases hfields
  | obj members =>
    simp only [fields?] at hfields
    split at hfields
    · obtain ⟨named, -, hfield⟩ := exists_left_of_forall₂ (mapM_eq_some_iff.1 hfields) hvalue
      split at hfield
      · cases hfield
      · next m hm =>
        obtain rfl := Option.some.inj (Option.some.inj hfield)
        have hmem : m ∈ membersNamed named members := hm ▸ List.mem_singleton_self m
        exact h.keptMembers.values m (List.mem_filter.1 hmem).1
      · cases hfield
    · cases hfields
  | _ => cases hfields

/-! ## Tables -/

section

variable {β : Type} {f : Json → Option β} {table : List (String × β)}

/-- A table is read member by member. -/
theorem table?_eq_some_iff : (obj members).table? f = some table ↔
    List.Forall₂ (fun m e => m.1.text? = some e.1 ∧ f m.2 = some e.2) members table := by
  refine mapM_eq_some_iff.trans ⟨?_, ?_⟩
  · refine List.Forall₂.imp fun m e h => ?_
    obtain ⟨name, hname, h⟩ := Option.bind_eq_some_iff.1 h
    obtain ⟨value, hvalue, heq⟩ := Option.bind_eq_some_iff.1 h
    obtain rfl := Option.some.inj heq
    exact ⟨hname, hvalue⟩
  · refine List.Forall₂.imp fun m e h => ?_
    rw [h.1, h.2]
    rfl

theorem exists_of_mem_table? {e : String × β} (h : j.table? f = some table) (he : e ∈ table) :
    ∃ value, f value = some e.2 := by
  cases j with
  | obj members =>
    obtain ⟨m, -, -, hvalue⟩ := exists_left_of_forall₂ (table?_eq_some_iff.1 h) he
    exact ⟨m.2, hvalue⟩
  | _ => cases h

/-- Names that are kept are plain, so different names are different texts. -/
theorem IsKept.table?_nodup (h : j.IsKept) (htable : j.table? f = some table) :
    (table.map (·.1)).Nodup := by
  cases j with
  | obj members =>
    have hkept := h.keptMembers
    have hnames : members.map (·.1) = (table.map (·.1)).map Name.plain := by
      rw [List.map_map, ← List.forall₂_eq_eq_eq, List.forall₂_map_left_iff,
        List.forall₂_map_right_iff]
      have hread := (List.forall₂_and_left _ _).2 ⟨hkept.plain, table?_eq_some_iff.1 htable⟩
      refine hread.imp fun m e h => ?_
      obtain ⟨⟨text, htext⟩, hname, -⟩ := h
      rw [htext] at hname ⊢
      exact congrArg Name.plain (Option.some.inj hname)
    exact List.Nodup.of_map Name.plain (hnames ▸ hkept.nodup)
  | _ => cases htable

end

end

end Json

namespace Editor

/-! ## Settings -/

/-- No key of an average that is kept is written twice. -/
theorem HandleWeights.nodup_of_isKept {j : Json} {w : HandleWeights} (h : j.IsKept)
    (hw : HandleWeights.ofJson? j = some w) : (w.weights.map (·.1)).Nodup := by
  unfold HandleWeights.ofJson? at hw
  obtain ⟨fields, hfields, hw⟩ := Option.bind_eq_some_iff.1 hw
  split at hw
  · obtain ⟨weights, hweights, hw⟩ := Option.bind_eq_some_iff.1 hw
    obtain ⟨mode, -, hw⟩ := Option.bind_eq_some_iff.1 hw
    obtain rfl := Option.some.inj hw
    exact (h.of_mem_fields? hfields List.mem_cons_self).table?_nodup hweights
  · cases hw

/-- The settings that the editor keeps beside a node are kept. -/
theorem NodeData.isKept_settings {j raw : Json} {data : NodeData}
    (h : NodeData.ofJson? raw = some data) (hj : data.settings = some j) : j.IsKept := by
  unfold NodeData.ofJson? at h
  obtain ⟨fields, -, h⟩ := Option.bind_eq_some_iff.1 h
  split at h
  · obtain ⟨title, -, h⟩ := Option.bind_eq_some_iff.1 h
    obtain ⟨settings, hsettings, h⟩ := Option.bind_eq_some_iff.1 h
    obtain rfl := Option.some.inj h
    obtain rfl : settings = some j := hj
    unfold Json.optional? at hsettings
    split at hsettings
    · cases hsettings
    · cases hsettings
    · obtain ⟨kept, hkept, heq⟩ := Option.map_eq_some_iff.1 hsettings
      obtain rfl := Option.some.inj heq
      exact ⟨settingsDepth, _, hkept⟩
  · cases h

theorem mem_of_lastOf? {β : Type} {entries : List (String × β)} {key : String} {b : β}
    (h : lastOf? entries key = some b) : (key, b) ∈ entries := by
  induction entries using List.reverseRecOn with
  | nil => cases h
  | append_singleton entries e ih =>
    rw [lastOf?_concat] at h
    split at h
    · next hkey =>
      obtain rfl := Option.some.inj h
      subst hkey
      exact List.mem_append_right _ (List.mem_singleton_self e)
    · exact List.mem_append_left _ (ih h)

theorem isKept_of_recorded {raw j : Json} {g : Graph} {id : String}
    (h : Graph.ofJson? raw = some g) (hj : g.recorded id = some j) : j.IsKept := by
  unfold Graph.ofJson? at h
  obtain ⟨fields, -, h⟩ := Option.bind_eq_some_iff.1 h
  split at h
  · obtain ⟨nodes, -, h⟩ := Option.bind_eq_some_iff.1 h
    obtain ⟨edges, -, h⟩ := Option.bind_eq_some_iff.1 h
    obtain ⟨entries, hentries, h⟩ := Option.bind_eq_some_iff.1 h
    obtain rfl := Option.some.inj h
    obtain ⟨data, hdata, hsettings⟩ := Option.bind_eq_some_iff.1 hj
    have hmem := mem_of_lastOf? hdata
    unfold Json.orElse? at hentries
    split at hentries
    · obtain rfl := Option.some.inj hentries
      cases hmem
    · obtain ⟨value, hvalue⟩ := Json.exists_of_mem_table? hentries hmem
      exact NodeData.isKept_settings hvalue hsettings
  · cases h

end Editor

end Grading
