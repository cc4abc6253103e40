import Grading.Cache
import Grading.Proofs.Equality
import Grading.Proofs.Previews

/-!
# Runs of a cache

A cache of evaluators is asked for models and cleared, over and over, from when it is empty.
`Cache.Sound` says what is true of it at any time: every entry stands under the key of its own
model, which was accepted, and is the evaluator of that model.  A call gives out what is kept,
refuses the model, or builds its evaluator and keeps it (`compile_cases`), and in each case the
cache stays sound:

    c.Sound keyOf → (c.compile keyOf m).2.Sound keyOf                (Sound.compile)
    ((c.compile keyOf m).1 = .ok …) ↔ m is accepted                 (compile_ok_iff)
    the keys of the entries are those of the models asked for       (mem_keys_after)
    an entry stays until another model takes its place                  (get?_after)

Nothing is assumed of the keys.  That a kept evaluator is given out without checking the model again
is right since equality keeps acceptance, and that it is found again since equality is an
equivalence among accepted models (`accepted_equalityOn`).
-/

namespace Grading

variable {α κ : Type}

/-! ## Evaluators -/

section

variable [Number α] {m : Model α} {checked : Checked α} {strict : Bool} {serial : Nat}

/-- The evaluator was built for its model, which was accepted. -/
def Compiled.Genuine (entry : Compiled α) (strict : Bool) : Prop :=
  ∃ checked, validate strict entry.model = .ok checked ∧
    entry.evaluator = Evaluator.ofChecked checked

theorem Compiled.model_of_validate (h : validate strict m = .ok checked) :
    (⟨serial, Evaluator.ofChecked checked⟩ : Compiled α).model = m :=
  (faithful_of_validate h).2

theorem Compiled.genuine_of_validate (h : validate strict m = .ok checked) :
    (⟨serial, Evaluator.ofChecked checked⟩ : Compiled α).Genuine strict := by
  refine ⟨checked, ?_, rfl⟩
  rw [model_of_validate h]
  exact h

end

namespace Cache

variable [BEq κ]

/-! ## Calls -/

/-- What a cache is asked to do. -/
inductive Call (α : Type) where
  | compile (m : Model α)
  | clear

section

variable [Number α] (keyOf : Model α → κ)

def call (c : Cache κ α) : Call α → Cache κ α
  | .compile m => (c.compile keyOf m).2
  | .clear => c.clear

/-- The cache after calls, one after the other. -/
def after (c : Cache κ α) (calls : List (Call α)) : Cache κ α := calls.foldl (call keyOf) c

/-- The models that were asked for with success since the cache was last cleared, following those
in `models`. -/
def asked (c : Cache κ α) (models : List (Model α)) : List (Call α) → List (Model α)
  | [] => models
  | .clear :: calls => asked c.clear [] calls
  | .compile m :: calls =>
    let (result, c') := c.compile keyOf m
    asked c' (if result.isOk then models ++ [m] else models) calls

/-- Some call of a run returned the evaluator. -/
def Returned (c : Cache κ α) (calls : List (Call α)) (entry : Compiled α) : Prop :=
  ∃ before m rest, calls = before ++ .compile m :: rest ∧
    ((c.after keyOf before).compile keyOf m).1 = .ok entry

end

/-! ## Entries -/

variable {keyOf : Model α → κ} {c : Cache κ α} {m g : Model α} {key : κ}
variable {entry : Compiled α} {evaluator : Evaluator α} {calls : List (Call α)}
variable {models : List (Model α)} {faults : List (Fault α)} {strict : Bool}

def keys (c : Cache κ α) : List κ := c.entries.map (·.1)

theorem get?_eq_some_iff [LawfulBEq κ] (hd : c.keys.Nodup) :
    c.get? key = some entry ↔ (key, entry) ∈ c.entries := find?_key_eq_some_iff hd

theorem mem_insert [LawfulBEq κ] {e : κ × Compiled α} : e ∈ (c.insert key evaluator).entries ↔
    e ∈ c.entries ∧ e.1 ≠ key ∨ e = (key, ⟨c.next, evaluator⟩) := by
  unfold insert
  simp only [List.mem_append, List.mem_filter, List.mem_singleton, Bool.not_eq_true',
    beq_eq_false_iff_ne]

theorem keys_insert [LawfulBEq κ] (hd : c.keys.Nodup) : (c.insert key evaluator).keys.Nodup := by
  unfold keys insert
  rw [List.map_append, List.nodup_append]
  refine ⟨List.Nodup.sublist (List.filter_sublist.map _) hd, List.nodup_singleton _, ?_⟩
  intro a ha b hb hab
  obtain ⟨e, he, rfl⟩ := List.mem_map.1 ha
  have hkey := (List.mem_filter.1 he).2
  rw [hab, List.mem_singleton.1 hb] at hkey
  simp at hkey

section

variable [Number α]

theorem lookup?_eq_some_iff : c.lookup? keyOf m = some entry ↔
    c.get? (keyOf m) = some entry ∧ (entry.model == m) = true := by
  unfold lookup?
  rw [Option.filter_eq_some_iff]

/-! ## One call -/

/-- A call gives out a kept evaluator, refuses the model, or builds its evaluator. -/
theorem compile_cases (keyOf : Model α → κ) (c : Cache κ α) (m : Model α) :
    (∃ entry, c.lookup? keyOf m = some entry ∧ c.compile keyOf m = (.ok entry, c)) ∨
    (∃ faults, validate c.strict m = .error faults ∧ c.compile keyOf m = (.error faults, c)) ∨
    ∃ checked, c.lookup? keyOf m = none ∧ validate c.strict m = .ok checked ∧
      c.compile keyOf m = (.ok ⟨c.next, Evaluator.ofChecked checked⟩,
        c.insert (keyOf m) (Evaluator.ofChecked checked)) := by
  unfold compile
  cases hlookup : c.lookup? keyOf m with
  | some entry => exact .inl ⟨entry, rfl, rfl⟩
  | none =>
    cases hvalid : validate c.strict m with
    | error faults => exact .inr (.inl ⟨faults, rfl, rfl⟩)
    | ok checked => exact .inr (.inr ⟨checked, rfl, rfl, rfl⟩)

/-- A call that succeeds gives out a kept evaluator or builds one. -/
theorem compile_ok_cases (hok : (c.compile keyOf m).1 = .ok entry) :
    c.lookup? keyOf m = some entry ∧ (c.compile keyOf m).2 = c ∨
    ∃ checked, validate c.strict m = .ok checked ∧
      entry = ⟨c.next, Evaluator.ofChecked checked⟩ ∧
      (c.compile keyOf m).2 = c.insert (keyOf m) (Evaluator.ofChecked checked) := by
  rcases compile_cases keyOf c m with ⟨entry', hlookup, hcall⟩ | ⟨faults, -, hcall⟩ |
    ⟨checked, -, hvalid, hcall⟩
  · rw [hcall] at hok ⊢
    obtain rfl := Except.ok.inj hok
    exact .inl ⟨hlookup, rfl⟩
  · rw [hcall] at hok
    exact nomatch hok
  · rw [hcall] at hok ⊢
    exact .inr ⟨checked, hvalid, (Except.ok.inj hok).symm, rfl⟩

/-- A call changes nothing, or puts the evaluator that it built in its place. -/
theorem compile_snd_cases (keyOf : Model α → κ) (c : Cache κ α) (m : Model α) :
    (c.compile keyOf m).2 = c ∨
    ∃ checked, c.lookup? keyOf m = none ∧ validate c.strict m = .ok checked ∧
      (c.compile keyOf m).2 = c.insert (keyOf m) (Evaluator.ofChecked checked) := by
  rcases compile_cases keyOf c m with ⟨entry, -, hcall⟩ | ⟨faults, -, hcall⟩ |
    ⟨checked, hlookup, hvalid, hcall⟩
  · exact .inl (by rw [hcall])
  · exact .inl (by rw [hcall])
  · exact .inr ⟨checked, hlookup, hvalid, by rw [hcall]⟩

theorem compile_of_lookup? (h : c.lookup? keyOf m = some entry) :
    c.compile keyOf m = (.ok entry, c) := by
  unfold compile
  rw [h]

theorem compile_strict (keyOf : Model α → κ) (c : Cache κ α) (m : Model α) :
    (c.compile keyOf m).2.strict = c.strict := by
  rcases compile_snd_cases keyOf c m with hsame | ⟨checked, -, -, hbuilt⟩
  · rw [hsame]
  · rw [hbuilt]
    rfl

/-- A call that refuses the model changes nothing. -/
theorem compile_of_error (h : (c.compile keyOf m).1 = .error faults) :
    (c.compile keyOf m).2 = c := by
  rcases compile_cases keyOf c m with ⟨entry, -, hcall⟩ | ⟨faults', -, hcall⟩ |
    ⟨checked, -, -, hcall⟩
  · rw [hcall]
  · rw [hcall]
  · rw [hcall] at h
    exact nomatch h

/-- What is true of a cache at any time. -/
structure Sound (keyOf : Model α → κ) (c : Cache κ α) : Prop where
  keys : c.keys.Nodup
  key : ∀ e ∈ c.entries, e.1 = keyOf e.2.model
  genuine : ∀ e ∈ c.entries, e.2.Genuine c.strict
  serial : ∀ e ∈ c.entries, e.2.serial < c.next

omit [BEq κ] in
theorem Sound.empty (keyOf : Model α → κ) (strict : Bool) :
    (Cache.empty strict : Cache κ α).Sound keyOf where
  keys := List.nodup_nil
  key _ he := absurd he List.not_mem_nil
  genuine _ he := absurd he List.not_mem_nil
  serial _ he := absurd he List.not_mem_nil

omit [BEq κ] in
theorem Sound.clear (keyOf : Model α → κ) (c : Cache κ α) : c.clear.Sound keyOf where
  keys := List.nodup_nil
  key _ he := absurd he List.not_mem_nil
  genuine _ he := absurd he List.not_mem_nil
  serial _ he := absurd he List.not_mem_nil

variable [LawfulBEq κ]

theorem Sound.insert {checked : Checked α} (h : c.Sound keyOf)
    (hm : validate c.strict m = .ok checked) :
    (c.insert (keyOf m) (Evaluator.ofChecked checked)).Sound keyOf where
  keys := keys_insert h.keys
  key e he := by
    rcases mem_insert.1 he with ⟨he, -⟩ | rfl
    · exact h.key e he
    · rw [Compiled.model_of_validate hm]
  genuine e he := by
    rcases mem_insert.1 he with ⟨he, -⟩ | rfl
    · exact h.genuine e he
    · exact Compiled.genuine_of_validate hm
  serial e he := by
    show e.2.serial < c.next + 1
    rcases mem_insert.1 he with ⟨he, -⟩ | rfl
    · have := h.serial e he
      omega
    · exact Nat.lt_succ_self _

theorem Sound.compile (h : c.Sound keyOf) (m : Model α) : (c.compile keyOf m).2.Sound keyOf := by
  rcases compile_snd_cases keyOf c m with hsame | ⟨checked, -, hvalid, hbuilt⟩
  · rw [hsame]
    exact h
  · rw [hbuilt]
    exact h.insert hvalid

/-- A kept evaluator stands under the key of the model asked for, which is equal to its own. -/
theorem Sound.of_lookup? (h : c.Sound keyOf) (hlookup : c.lookup? keyOf m = some entry) :
    (keyOf m, entry) ∈ c.entries ∧ (entry.model == m) = true := by
  obtain ⟨hget, hequal⟩ := lookup?_eq_some_iff.1 hlookup
  exact ⟨(get?_eq_some_iff h.keys).1 hget, hequal⟩

/-- What a call returns is kept under the key of the model. -/
theorem get?_of_compile_ok (h : c.Sound keyOf) (hok : (c.compile keyOf m).1 = .ok entry) :
    (c.compile keyOf m).2.get? (keyOf m) = some entry := by
  rcases compile_ok_cases hok with ⟨hlookup, hsame⟩ | ⟨checked, -, rfl, hbuilt⟩
  · rw [hsame]
    exact (lookup?_eq_some_iff.1 hlookup).1
  · rw [hbuilt, get?_eq_some_iff (keys_insert h.keys), mem_insert]
    exact .inr rfl

/-- What a call returns was built for its model. -/
theorem genuine_of_compile_ok (h : c.Sound keyOf) (hok : (c.compile keyOf m).1 = .ok entry) :
    entry.Genuine c.strict := by
  rcases compile_ok_cases hok with ⟨hlookup, -⟩ | ⟨checked, hvalid, rfl, -⟩
  · exact h.genuine (keyOf m, entry) (h.of_lookup? hlookup).1
  · exact Compiled.genuine_of_validate hvalid

/-- Where models of the same key are the same, the evaluator returned is that of the model. -/
theorem model_of_compile_ok (h : c.Sound keyOf) (hok : (c.compile keyOf m).1 = .ok entry)
    (hinj : ∀ e ∈ c.entries, keyOf e.2.model = keyOf m → e.2.model = m) : entry.model = m := by
  rcases compile_ok_cases hok with ⟨hlookup, -⟩ | ⟨checked, hvalid, rfl, -⟩
  · have hmem := (h.of_lookup? hlookup).1
    exact hinj (keyOf m, entry) hmem (h.key _ hmem).symm
  · exact Compiled.model_of_validate hvalid

section

variable [ComparableNumber α]

/-- The model of the evaluator that a call returns is equal to the one asked for. -/
theorem beq_of_compile_ok (h : c.Sound keyOf) (hok : (c.compile keyOf m).1 = .ok entry) :
    (entry.model == m) = true := by
  rcases compile_ok_cases hok with ⟨hlookup, -⟩ | ⟨checked, hvalid, rfl, -⟩
  · exact (h.of_lookup? hlookup).2
  · rw [Compiled.model_of_validate hvalid]
    exact (accepted_equalityOn c.strict).refl ⟨checked, hvalid⟩

/-- Whatever a call succeeds for is accepted, since it is equal to an accepted model. -/
theorem accepted_of_compile_ok (h : c.Sound keyOf) (hok : (c.compile keyOf m).1 = .ok entry) :
    ∃ checked, validate c.strict m = .ok checked := by
  obtain ⟨checked, hvalid, -⟩ := genuine_of_compile_ok h hok
  exact (accepted_equalityOn c.strict).keeps ⟨checked, hvalid⟩ (beq_of_compile_ok h hok)

/-- A call succeeds if and only if the model is accepted. -/
theorem compile_ok_iff (h : c.Sound keyOf) :
    (∃ entry, (c.compile keyOf m).1 = .ok entry) ↔
      ∃ checked, validate c.strict m = .ok checked := by
  refine ⟨fun ⟨entry, hok⟩ => accepted_of_compile_ok h hok, fun ⟨checked, hvalid⟩ => ?_⟩
  rcases compile_cases keyOf c m with ⟨entry, -, hcall⟩ | ⟨faults, hvalid', -⟩ |
    ⟨checked, -, -, hcall⟩
  · exact ⟨entry, by rw [hcall]⟩
  · rw [hvalid] at hvalid'
    exact nomatch hvalid'
  · exact ⟨_, by rw [hcall]⟩

/-- A call fails with the faults of the model. -/
theorem compile_error_iff (h : c.Sound keyOf) :
    (c.compile keyOf m).1 = .error faults ↔ validate c.strict m = .error faults := by
  cases hresult : (c.compile keyOf m).1 with
  | ok entry =>
    obtain ⟨checked, hvalid⟩ := accepted_of_compile_ok h hresult
    rw [hvalid]
    exact iff_of_false (fun h => nomatch h) (fun h => nomatch h)
  | error faults' =>
    rcases compile_cases keyOf c m with ⟨entry, -, hcall⟩ | ⟨faults'', hvalid, hcall⟩ |
      ⟨checked, -, -, hcall⟩
    · rw [hcall] at hresult
      exact nomatch hresult
    · rw [hcall] at hresult
      obtain rfl := Except.error.inj hresult
      rw [hvalid, Except.error.injEq, Except.error.injEq]
    · rw [hcall] at hresult
      exact nomatch hresult

/-- A call for another model leaves an entry in its place, unless that model has the same key and is
not equal. -/
theorem get?_compile (h : c.Sound keyOf) (hentry : c.get? (keyOf g) = some entry)
    (hg : (entry.model == g) = true)
    (hm : keyOf m = keyOf g → (m == g) = true) :
    (c.compile keyOf m).2.get? (keyOf g) = some entry := by
  rcases compile_snd_cases keyOf c m with hsame | ⟨checked, hlookup, hvalid, hbuilt⟩
  · rw [hsame]
    exact hentry
  · have hmem := (get?_eq_some_iff h.keys).1 hentry
    by_cases hkey : keyOf m = keyOf g
    · -- Equal models with the same key are served by one entry, so nothing is built.
      have hgm := (accepted_equalityOn c.strict).symm ⟨checked, hvalid⟩ (hm hkey)
      obtain ⟨kept, hkept, -⟩ := h.genuine _ hmem
      have hequal : (entry.model == m) = true :=
        (accepted_equalityOn c.strict).trans ⟨kept, hkept⟩ hg hgm
      rw [lookup?_eq_some_iff.2 ⟨hkey ▸ hentry, hequal⟩] at hlookup
      exact nomatch hlookup
    · rw [hbuilt, get?_eq_some_iff (keys_insert h.keys), mem_insert]
      exact .inl ⟨hmem, Ne.symm hkey⟩

end

/-! ## Runs -/

theorem Sound.after (h : c.Sound keyOf) (calls : List (Call α)) :
    (c.after keyOf calls).Sound keyOf := by
  induction calls generalizing c with
  | nil => exact h
  | cons call calls ih =>
    cases call with
    | compile m => exact ih (h.compile m)
    | clear => exact ih (Sound.clear keyOf c)

omit [LawfulBEq κ] in
theorem after_strict (keyOf : Model α → κ) (c : Cache κ α) (calls : List (Call α)) :
    (c.after keyOf calls).strict = c.strict := by
  induction calls generalizing c with
  | nil => rfl
  | cons call calls ih =>
    cases call with
    | compile m => exact (ih _).trans (compile_strict keyOf c m)
    | clear => exact ih _

theorem mem_compile {e : κ × Compiled α} (he : e ∈ (c.compile keyOf m).2.entries) :
    e ∈ c.entries ∨ e.2.model = m := by
  rcases compile_snd_cases keyOf c m with hsame | ⟨checked, -, hvalid, hbuilt⟩
  · rw [hsame] at he
    exact .inl he
  · rw [hbuilt, mem_insert] at he
    rcases he with ⟨he, -⟩ | rfl
    · exact .inl he
    · exact .inr (Compiled.model_of_validate hvalid)

/-- The models of the entries were asked for. -/
theorem mem_after {e : κ × Compiled α} (he : e ∈ (c.after keyOf calls).entries) :
    e ∈ c.entries ∨ .compile e.2.model ∈ calls := by
  induction calls generalizing c with
  | nil => exact .inl he
  | cons call calls ih =>
    rcases ih he with he | he
    · cases call with
      | compile m =>
        rcases mem_compile he with he | rfl
        · exact .inl he
        · exact .inr List.mem_cons_self
      | clear => exact absurd he List.not_mem_nil
    · exact .inr (List.mem_cons_of_mem _ he)

omit [LawfulBEq κ] in
theorem asked_compile_ok (hok : (c.compile keyOf m).1 = .ok entry) :
    asked keyOf c models (.compile m :: calls) =
      asked keyOf (c.compile keyOf m).2 (models ++ [m]) calls := by
  show asked keyOf (c.compile keyOf m).2
    (if (c.compile keyOf m).1.isOk then models ++ [m] else models) calls = _
  rw [hok]
  rfl

omit [LawfulBEq κ] in
theorem asked_compile_error (herror : (c.compile keyOf m).1 = .error faults) :
    asked keyOf c models (.compile m :: calls) = asked keyOf c models calls := by
  show asked keyOf (c.compile keyOf m).2
    (if (c.compile keyOf m).1.isOk then models ++ [m] else models) calls = _
  rw [herror, compile_of_error herror]
  rfl

omit [LawfulBEq κ] in
theorem mem_asked (hclear : .clear ∉ calls) (hm : m ∈ models) : m ∈ asked keyOf c models calls := by
  induction calls generalizing c models with
  | nil => exact hm
  | cons call calls ih =>
    rw [List.mem_cons, not_or] at hclear
    cases call with
    | clear => exact absurd rfl hclear.1
    | compile m' =>
      cases hresult : (c.compile keyOf m').1 with
      | ok entry =>
        rw [asked_compile_ok hresult]
        exact ih hclear.2 (List.mem_append_left _ hm)
      | error faults =>
        rw [asked_compile_error hresult]
        exact ih hclear.2 hm

/-- An entry stays through a run in which no other model takes its place. -/
theorem get?_after [ComparableNumber α] (h : c.Sound keyOf)
    (hentry : c.get? (keyOf g) = some entry) (hg : (entry.model == g) = true)
    (hclear : .clear ∉ calls)
    (hasked : ∀ m ∈ asked keyOf c models calls, keyOf m = keyOf g → (m == g) = true) :
    (c.after keyOf calls).get? (keyOf g) = some entry := by
  induction calls generalizing c models with
  | nil => exact hentry
  | cons call calls ih =>
    rw [List.mem_cons, not_or] at hclear
    cases call with
    | clear => exact absurd rfl hclear.1
    | compile m =>
      cases hresult : (c.compile keyOf m).1 with
      | ok e =>
        rw [asked_compile_ok hresult] at hasked
        refine ih (h.compile m) (get?_compile h hentry hg ?_) hclear.2 hasked
        exact hasked m (mem_asked hclear.2 (by simp))
      | error faults =>
        rw [asked_compile_error hresult] at hasked
        show (Cache.after keyOf (c.compile keyOf m).2 calls).get? (keyOf g) = some entry
        rw [compile_of_error hresult]
        exact ih h hentry hclear.2 hasked

theorem mem_keys_compile (h : c.Sound keyOf) (hok : (c.compile keyOf m).1 = .ok entry) :
    key ∈ (c.compile keyOf m).2.keys ↔ key ∈ c.keys ∨ key = keyOf m := by
  rcases compile_ok_cases hok with ⟨hlookup, hsame⟩ | ⟨checked, -, -, hbuilt⟩
  · have hmem : keyOf m ∈ c.keys := List.mem_map_of_mem (h.of_lookup? hlookup).1
    rw [hsame]
    exact ⟨.inl, fun hkey => hkey.elim id fun heq => heq ▸ hmem⟩
  · rw [hbuilt]
    unfold keys
    simp only [List.mem_map, mem_insert]
    constructor
    · rintro ⟨e, ⟨he, -⟩ | rfl, rfl⟩
      · exact .inl ⟨e, he, rfl⟩
      · exact .inr rfl
    · rintro (⟨e, he, rfl⟩ | rfl)
      · by_cases hkey : e.1 = keyOf m
        · exact ⟨_, .inr rfl, hkey.symm⟩
        · exact ⟨e, .inl ⟨he, hkey⟩, rfl⟩
      · exact ⟨_, .inr rfl, rfl⟩

/-- The keys of the entries are those of the models that were asked for with success. -/
theorem mem_keys_after (h : c.Sound keyOf)
    (hkeys : ∀ key, key ∈ c.keys ↔ key ∈ models.map keyOf) (key : κ) :
    key ∈ (c.after keyOf calls).keys ↔ key ∈ (asked keyOf c models calls).map keyOf := by
  induction calls generalizing c models with
  | nil => exact hkeys key
  | cons call calls ih =>
    cases call with
    | clear => exact ih (Sound.clear keyOf c) fun _ => Iff.rfl
    | compile m =>
      cases hresult : (c.compile keyOf m).1 with
      | ok entry =>
        rw [asked_compile_ok hresult]
        refine ih (h.compile m) fun key => ?_
        show key ∈ (c.compile keyOf m).2.keys ↔ _
        rw [mem_keys_compile h hresult, hkeys, List.map_append, List.mem_append, List.map_singleton,
          List.mem_singleton]
      | error faults =>
        rw [asked_compile_error hresult]
        show key ∈ (Cache.after keyOf (c.compile keyOf m).2 calls).keys ↔ _
        rw [compile_of_error hresult]
        exact ih h hkeys

/-- As many entries are kept as the models that were asked for have keys. -/
theorem size_after (h : c.Sound keyOf) (hkeys : ∀ key, key ∈ c.keys ↔ key ∈ models.map keyOf) :
    (c.after keyOf calls).size = ((asked keyOf c models calls).map keyOf).eraseDups.length := by
  have hperm : (c.after keyOf calls).keys.Perm
      ((asked keyOf c models calls).map keyOf).eraseDups := by
    rw [List.perm_ext_iff_of_nodup (h.after calls).keys (nodup_eraseDups _)]
    intro key
    rw [mem_keys_after h hkeys, List.mem_eraseDups]
  rw [← hperm.length_eq]
  exact (List.length_map _).symm

theorem isEmpty_after (h : c.Sound keyOf) (hkeys : ∀ key, key ∈ c.keys ↔ key ∈ models.map keyOf) :
    (c.after keyOf calls).isEmpty = true ↔ asked keyOf c models calls = [] := by
  have hempty : (c.after keyOf calls).isEmpty = true ↔ (c.after keyOf calls).keys = [] := by
    unfold isEmpty keys
    rw [List.isEmpty_iff, List.map_eq_nil_iff]
  rw [hempty, ← List.map_eq_nil_iff (f := keyOf), List.eq_nil_iff_forall_not_mem,
    List.eq_nil_iff_forall_not_mem]
  simp only [mem_keys_after h hkeys]

/-! ## Serial numbers -/

omit [LawfulBEq κ] in
theorem next_le_compile (keyOf : Model α → κ) (c : Cache κ α) (m : Model α) :
    c.next ≤ (c.compile keyOf m).2.next := by
  rcases compile_snd_cases keyOf c m with hsame | ⟨checked, -, -, hbuilt⟩
  · rw [hsame]
  · rw [hbuilt]
    exact Nat.le_succ _

omit [LawfulBEq κ] in
theorem next_le_after (keyOf : Model α → κ) (c : Cache κ α) (calls : List (Call α)) :
    c.next ≤ (c.after keyOf calls).next := by
  induction calls generalizing c with
  | nil => exact Nat.le_refl _
  | cons call calls ih =>
    cases call with
    | compile m => exact (next_le_compile keyOf c m).trans (ih _)
    | clear => exact ih c.clear

/-- A call returns a kept evaluator, or one with the next serial number. -/
theorem serial_of_compile_ok (h : c.Sound keyOf) (hok : (c.compile keyOf m).1 = .ok entry) :
    (c.compile keyOf m).2 = c ∧ entry.serial < c.next ∨
      (c.compile keyOf m).2.next = c.next + 1 ∧ entry.serial = c.next := by
  rcases compile_ok_cases hok with ⟨hlookup, hsame⟩ | ⟨checked, -, rfl, hbuilt⟩
  · exact .inl ⟨hsame, h.serial (keyOf m, entry) (h.of_lookup? hlookup).1⟩
  · rw [hbuilt]
    exact .inr ⟨rfl, rfl⟩

/-- All evaluators that a run returned have lower serial numbers than those to come. -/
theorem Returned.serial_lt (h : c.Sound keyOf) (hentry : Returned keyOf c calls entry) :
    entry.serial < (c.after keyOf calls).next := by
  obtain ⟨before, m, rest, rfl, hok⟩ := hentry
  have hsplit : c.after keyOf (before ++ .compile m :: rest) =
      ((c.after keyOf before).compile keyOf m).2.after keyOf rest := List.foldl_append
  have hrest := next_le_after keyOf ((c.after keyOf before).compile keyOf m).2 rest
  rw [hsplit]
  rcases serial_of_compile_ok (h.after before) hok with ⟨hsame, hlt⟩ | ⟨hnext, hserial⟩
  · rw [hsame] at hrest ⊢
    omega
  · omega

end

end Cache

/-! ## Top theorems -/

open Cache

/-- Whatever a cache was asked before, and whatever keys are the same: the entries stand under the
keys of their models, which were accepted; a call succeeds if and only if the model is accepted, and
otherwise gives its faults; the evaluator it returns is that of an equal model.  If models that were
asked for have the same key only if they are the same, it is the evaluator of the model. -/
theorem cache_transparent {κ : Type} [DecidableEq κ] (keyOf : Model Float → κ) (strict : Bool)
    (calls : List (Call Float)) :
    let c := (Cache.empty strict).after keyOf calls
    (∀ e ∈ c.entries, e.1 = keyOf e.2.model ∧
      ∃ checked, validate strict e.2.model = .ok checked) ∧
    ∀ m : Model Float,
      ((∃ entry, (c.compile keyOf m).1 = .ok entry) ↔
        ∃ checked, validate strict m = .ok checked) ∧
      (∀ faults, (c.compile keyOf m).1 = .error faults ↔ validate strict m = .error faults) ∧
      (∀ entry, (c.compile keyOf m).1 = .ok entry → (entry.model == m) = true) ∧
      ((∀ a b, .compile a ∈ calls ++ [.compile m] → .compile b ∈ calls ++ [.compile m] →
          keyOf a = keyOf b → a = b) →
        ∀ entry, (c.compile keyOf m).1 = .ok entry →
          ∃ checked, validate strict m = .ok checked ∧
            entry.evaluator = Evaluator.ofChecked checked) := by
  intro c
  have hc : c.Sound keyOf := (Sound.empty keyOf strict).after calls
  have hstrict : c.strict = strict := after_strict keyOf _ calls
  refine ⟨fun e he => ?_, fun m => ⟨?_, fun faults => ?_, fun entry hok => beq_of_compile_ok hc hok,
    fun hinj entry hok => ?_⟩⟩
  · obtain ⟨checked, hvalid, -⟩ := hc.genuine e he
    exact ⟨hc.key e he, checked, hstrict ▸ hvalid⟩
  · rw [compile_ok_iff hc, hstrict]
  · rw [compile_error_iff hc, hstrict]
  · have hmodel : entry.model = m := by
      refine model_of_compile_ok hc hok fun e he hkey => ?_
      have hasked := (mem_after he).resolve_left List.not_mem_nil
      exact hinj _ _ (List.mem_append_left _ hasked) (by simp) hkey
    obtain ⟨checked, hvalid, hevaluator⟩ := genuine_of_compile_ok hc hok
    rw [hmodel, hstrict] at hvalid
    exact ⟨checked, hvalid, hevaluator⟩

/-- A key that tells few models apart. -/
def countNodes (m : Model Float) : Nat := m.nodes.length

theorem cache_transparent_quiz :
    (∀ a b, .compile a ∈ [Call.compile quizModel, .compile examModel, .compile quizModel] →
      .compile b ∈ [Call.compile quizModel, .compile examModel, .compile quizModel] →
      countNodes a = countNodes b → a = b) ∧
    ∃ entry, (((Cache.empty true).after countNodes [.compile quizModel, .compile examModel]).compile
        countNodes quizModel).1 = .ok entry ∧
      (entry.model == quizModel) = true ∧
      entry.evaluator = Evaluator.ofChecked (quizModel.accepted 2) := by
  have hinj : ∀ a b, .compile a ∈ [Call.compile quizModel, .compile examModel, .compile quizModel] →
      .compile b ∈ [Call.compile quizModel, .compile examModel, .compile quizModel] →
      countNodes a = countNodes b → a = b := by
    intro a b ha hb hkey
    simp only [List.mem_cons, List.not_mem_nil, or_false, Call.compile.injEq] at ha hb
    rcases ha with rfl | rfl | rfl <;> rcases hb with rfl | rfl | rfl
    all_goals first
      | rfl
      | exact absurd hkey (by decide)
  have hvalid : validate true quizModel = .ok (quizModel.accepted 2) := rfl
  obtain ⟨hok, -, hbeq, hsame⟩ := (cache_transparent countNodes true
    [.compile quizModel, .compile examModel]).2 quizModel
  obtain ⟨entry, hentry⟩ := hok.2 ⟨_, hvalid⟩
  obtain ⟨checked, hchecked, hevaluator⟩ := hsame hinj entry hentry
  obtain rfl := Except.ok.inj (hvalid.symm.trans hchecked)
  exact ⟨hinj, entry, hentry, hbeq entry hentry, hevaluator⟩

/-- A model that was compiled is served by the same evaluator until the cache is cleared or a model
that has its key and is not equal takes its place; an evaluator that was not kept has a serial
number above all that were returned before.  A call that fails leaves the cache as it was, and there
are as many entries as keys of models that were asked for with success since the cache was last
cleared. -/
theorem cache_reuses {κ : Type} [DecidableEq κ] (keyOf : Model Float → κ) (strict : Bool)
    (calls : List (Call Float)) :
    let c := (Cache.empty strict).after keyOf calls
    (∀ g entry between, (c.compile keyOf g).1 = .ok entry → .clear ∉ between →
      (∀ m ∈ asked keyOf (c.compile keyOf g).2 [] between,
        keyOf m = keyOf g → (m == g) = true) →
      (((c.compile keyOf g).2.after keyOf between).compile keyOf g).1 = .ok entry) ∧
    (∀ g entry, (c.compile keyOf g).1 = .ok entry → (keyOf g, entry) ∈ c.entries ∨
      ∀ e, Returned keyOf (Cache.empty strict) calls e → e.serial < entry.serial) ∧
    (∀ g faults, (c.compile keyOf g).1 = .error faults → (c.compile keyOf g).2 = c) ∧
    c.size = ((asked keyOf (Cache.empty strict) [] calls).map keyOf).eraseDups.length ∧
    (c.isEmpty = true ↔ asked keyOf (Cache.empty strict) [] calls = []) := by
  intro c
  have hempty : (Cache.empty strict : Cache κ Float).Sound keyOf := Sound.empty keyOf strict
  have hc : c.Sound keyOf := hempty.after calls
  refine ⟨fun g entry between hok hclear hasked => ?_, fun g entry hok => ?_,
    fun g faults herror => compile_of_error herror, size_after hempty fun _ => Iff.rfl,
    isEmpty_after hempty fun _ => Iff.rfl⟩
  · have hbeq := beq_of_compile_ok hc hok
    have hkept := get?_after (hc.compile g) (get?_of_compile_ok hc hok) hbeq hclear hasked
    rw [compile_of_lookup? (lookup?_eq_some_iff.2 ⟨hkept, hbeq⟩)]
  · rcases compile_ok_cases hok with ⟨hlookup, -⟩ | ⟨checked, -, rfl, -⟩
    · exact .inl (hc.of_lookup? hlookup).1
    · exact .inr fun e he => he.serial_lt hempty

theorem cache_reuses_quiz :
    let c := (Cache.empty false).after countNodes [.compile quizModel]
    ∃ entry, (c.compile countNodes quizModel).1 = .ok entry ∧
      (((c.compile countNodes quizModel).2.after countNodes [.compile examModel]).compile
        countNodes quizModel).1 = .ok entry ∧ c.size = 1 := by
  intro c
  obtain ⟨hkept, -, -, hsize, -⟩ := cache_reuses countNodes false [.compile quizModel]
  obtain ⟨entry, hok⟩ : ∃ entry, (c.compile countNodes quizModel).1 = .ok entry := ⟨_, rfl⟩
  have hasked : asked countNodes (c.compile countNodes quizModel).2 [] [.compile examModel] =
      [examModel] := rfl
  refine ⟨entry, hok, hkept quizModel entry [.compile examModel] hok (by simp) ?_, hsize⟩
  rw [hasked]
  intro m hm hkey
  obtain rfl := List.mem_singleton.1 hm
  exact absurd hkey (by decide)

end Grading
