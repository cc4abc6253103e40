import Mathlib.Data.Set.Finite.Lemmas
import Grading.Proofs.Agreement
import Grading.Proofs.ExactRules
import Grading.Proofs.Rearrangement
import Grading.Proofs.Representation

/-!
# An average is the mean of its slots

An average goes through two lists side by side: its weights in the order of their slots, and the
numbers at its inputs.  Nothing in the rule says that the lists belong together.  In an accepted
model they do, because the inputs of an average are in the order of the same slots, so every weight
meets the number at its own slot.  Over exact numbers

    the average of the numbers `x` by slot is `weights.mean x`          (weightedAverage_slots)
    the mean is between the least and the greatest number that counts              (mean_between)
    weights multiplied by a positive number give the same average     (weightedAverage_rescaled)
    and a model with them is accepted and has the same previews                (reweigh_preview)

`average_is_mean_of_slots` says so of every average in an accepted model.
-/

namespace Grading

/-! ## Means -/

namespace SlotMap

/-- The mean of numbers by slot: the sum of every weight times the number at its slot, divided by
the sum of the weights. -/
def mean (weights : SlotMap Rat) (x : Slot → Rat) : Rat :=
  (weights.entries.map fun e => e.2 * x e.1).sum / weights.values.sum

/-- The numbers at slots of positive weight. -/
def counted (weights : SlotMap Rat) (x : Slot → Rat) : Set Rat :=
  {y | ∃ e ∈ weights.entries, 0 < e.2 ∧ x e.1 = y}

variable {weights : SlotMap Rat} {x : Slot → Rat} {bound : Rat}

/-- What no counted number exceeds, the mean does not exceed. -/
theorem mean_le (hnonneg : ∀ w ∈ weights.values, 0 ≤ w) (hsum : 0 < weights.values.sum)
    (h : ∀ y ∈ weights.counted x, y ≤ bound) : weights.mean x ≤ bound := by
  have hterm : ∀ e ∈ weights.entries, e.2 * x e.1 ≤ e.2 * bound := by
    intro e he
    have hweight : 0 ≤ e.2 := hnonneg e.2 (List.mem_map_of_mem he)
    by_cases hpos : 0 < e.2
    · exact mul_le_mul_of_nonneg_left (h _ ⟨e, he, hpos, rfl⟩) hweight
    · have hzero : e.2 = 0 := le_antisymm (not_lt.1 hpos) hweight
      simp [hzero]
  have hvalues : (weights.entries.map fun e => e.2 * bound).sum = weights.values.sum * bound :=
    List.sum_map_mul_right weights.entries Prod.snd bound
  show (weights.entries.map fun e => e.2 * x e.1).sum / weights.values.sum ≤ bound
  rw [div_le_iff₀ hsum, mul_comm, ← hvalues]
  exact List.sum_le_sum hterm

theorem mean_neg : weights.mean (fun slot => -x slot) = -weights.mean x := by
  unfold mean
  rw [← neg_div, List.sum_neg, List.map_map]
  simp only [mul_neg, Function.comp_def]

theorem le_mean (hnonneg : ∀ w ∈ weights.values, 0 ≤ w) (hsum : 0 < weights.values.sum)
    (h : ∀ y ∈ weights.counted x, bound ≤ y) : bound ≤ weights.mean x := by
  have hneg : weights.mean (fun slot => -x slot) ≤ -bound := by
    apply mean_le hnonneg hsum
    rintro _ ⟨e, he, hpos, rfl⟩
    exact neg_le_neg (h _ ⟨e, he, hpos, rfl⟩)
  rw [mean_neg] at hneg
  exact neg_le_neg_iff.1 hneg

theorem counted_finite (weights : SlotMap Rat) (x : Slot → Rat) : (weights.counted x).Finite := by
  refine ((weights.entries.finite_toSet).image fun e => x e.1).subset ?_
  rintro _ ⟨e, he, -, rfl⟩
  exact ⟨e, he, rfl⟩

/-- The table with every value changed. -/
def map {α β : Type} (f : α → β) (t : SlotMap α) : SlotMap β where
  entries := t.entries.map fun e => (e.1, f e.2)
  ascending := List.pairwise_map.2 t.ascending

theorem values_map {α β : Type} (f : α → β) (t : SlotMap α) :
    (t.map f).values = t.values.map f := by
  unfold values map
  rw [List.map_map, List.map_map]
  rfl

theorem slots_map {α β : Type} (f : α → β) (t : SlotMap α) : (t.map f).slots = t.slots := by
  unfold slots map
  rw [List.map_map]
  rfl

end SlotMap

/-! ## Averages and means -/

variable {s : AverageSettings Rat} {k : Rat} {mode : Bool}

/-- With the numbers in the order of the slots, an average is the mean by slot. -/
theorem weightedAverage_slots (hs : s.Sound) (x : Slot → Rat) :
    weightedAverage s (s.weights.slots.map x) = s.weights.mean x := by
  have hpairs : s.weights.values.zip (s.weights.slots.map x) =
      s.weights.entries.map fun e => (e.2, x e.1) := by
    unfold SlotMap.values SlotMap.slots
    rw [List.map_map, List.zip_map']
    rfl
  rw [weightedAverage_eq_mean hs, hpairs, List.map_map]
  rfl

/-- The mean is between the least and the greatest of the numbers that count. -/
theorem mean_between (hs : s.Sound) (x : Slot → Rat) : ∃ least greatest,
    IsLeast (s.weights.counted x) least ∧ IsGreatest (s.weights.counted x) greatest ∧
      least ≤ s.weights.mean x ∧ s.weights.mean x ≤ greatest := by
  have hsome : (s.weights.counted x).Nonempty := by
    obtain ⟨w, hw, hpos⟩ := hs.positive
    obtain ⟨e, he, rfl⟩ := List.mem_map.1 hw
    exact ⟨_, e, he, Number.lt_iff.1 hpos, rfl⟩
  have hfinite := s.weights.counted_finite x
  obtain ⟨least, hmem, hleast⟩ := Set.exists_min_image _ id hfinite hsome
  obtain ⟨greatest, hmem', hgreatest⟩ := Set.exists_max_image _ id hfinite hsome
  have hnonneg : ∀ w ∈ s.weights.values, 0 ≤ w := fun _ => hs.nonneg
  exact ⟨least, greatest, ⟨hmem, hleast⟩, ⟨hmem', hgreatest⟩,
    SlotMap.le_mean hnonneg hs.sum_pos hleast, SlotMap.mean_le hnonneg hs.sum_pos hgreatest⟩

/-! ## Other weights -/

/-- The same average with all weights multiplied by a number, shown as the mode says. -/
def AverageSettings.rescaled (s : AverageSettings Rat) (k : Rat) (mode : Bool) :
    AverageSettings Rat := ⟨s.weights.map (k * ·), mode⟩

theorem AverageSettings.values_rescaled (s : AverageSettings Rat) (k : Rat) (mode : Bool) :
    (s.rescaled k mode).weights.values = s.weights.values.map (k * ·) :=
  SlotMap.values_map _ _

theorem AverageSettings.Sound.rescaled (hs : s.Sound) (hk : 0 < k) :
    (s.rescaled k mode).Sound := by
  refine ⟨?_, ?_⟩
  · rw [AverageSettings.values_rescaled, List.forall_mem_map]
    intro w hw
    exact ⟨rfl, Number.le_iff.2 (mul_nonneg hk.le (hs.nonneg hw))⟩
  · obtain ⟨w, hw, hpos⟩ := hs.positive
    refine ⟨k * w, ?_, Number.lt_iff.2 (mul_pos hk (Number.lt_iff.1 hpos))⟩
    rw [AverageSettings.values_rescaled]
    exact List.mem_map_of_mem hw

/-- The factor cancels out, however many numbers there are. -/
theorem weightedAverage_rescaled (hs : s.Sound) (hk : 0 < k) (xs : List Rat) :
    weightedAverage (s.rescaled k mode) xs = weightedAverage s xs := by
  have hproducts : (((s.weights.values.map (k * ·)).zip xs).map fun p => p.1 * p.2) =
      (s.weights.values.zip xs).map fun p => k * (p.1 * p.2) := by
    rw [List.zip_map_left, List.map_map]
    apply List.map_congr_left
    intro p _
    exact mul_assoc k p.1 p.2
  rw [weightedAverage_eq_mean hs, weightedAverage_eq_mean (hs.rescaled hk),
    AverageSettings.values_rescaled, hproducts, List.sum_map_mul_left, List.sum_map_mul_left,
    List.map_id']
  exact mul_div_mul_left _ _ hk.ne'

/-- The same settings but, in an average, with other weights. -/
def Settings.rescaled (k : Rat) (mode : Bool) : Settings Rat → Settings Rat
  | .average s => .average (s.rescaled k mode)
  | s => s

namespace Settings

variable {settings : Settings Rat}

theorem kind_rescaled : (settings.rescaled k mode).kind = settings.kind := by
  cases settings <;> rfl

theorem weightedSlots_rescaled :
    (settings.rescaled k mode).weightedSlots = settings.weightedSlots := by
  cases settings with
  | average s => exact SlotMap.slots_map _ _
  | _ => rfl

theorem Sound.rescaled (hs : settings.Sound) (hk : 0 < k) :
    (settings.rescaled k mode).Sound := by
  cases settings with
  | average s => exact AverageSettings.Sound.rescaled hs hk
  | _ => exact hs

theorem applyTo_rescaled (hs : settings.Sound) (hk : 0 < k) (xs : List Rat) :
    (settings.rescaled k mode).applyTo xs = settings.applyTo xs := by
  cases settings with
  | average s => exact congrArg Value.number (weightedAverage_rescaled hs hk xs)
  | _ => rfl

end Settings

/-- The same node but, if it is an average of that id, with other weights. -/
def Node.reweigh (n : Node Rat) (id : String) (k : Rat) (mode : Bool) : Node Rat where
  id := n.id
  settings := if n.id = id then n.settings.rescaled k mode else n.settings

/-- The same model, but an average of that id has its weights multiplied by a number. -/
def Model.reweigh (m : Model Rat) (id : String) (k : Rat) (mode : Bool) : Model Rat where
  nodes := m.nodes.map fun n => n.reweigh id k mode
  edges := m.edges

section

variable {n : Node Rat} {id : String} {points : Points Rat} {inputs : List (Outcome Rat)}
variable {out : Outcome Rat}

theorem shape_reweigh : (n.reweigh id k mode).shape = n.shape := by
  unfold Node.shape Node.kind Node.reweigh
  by_cases h : n.id = id
  · simp only [if_pos h, Settings.kind_rescaled, Settings.weightedSlots_rescaled]
  · simp only [if_neg h]

theorem sound_reweigh (hs : n.settings.Sound) (hk : 0 < k) :
    (n.reweigh id k mode).settings.Sound := by
  unfold Node.reweigh
  by_cases h : n.id = id
  · simp only [if_pos h]
    exact hs.rescaled hk
  · simp only [if_neg h]
    exact hs

/-- With other weights the node gives out the same. -/
theorem gives_reweigh (hs : n.settings.Sound) (hk : 0 < k) (h : n.Gives points inputs out) :
    (n.reweigh id k mode).Gives points inputs out := by
  by_cases hid : n.id = id
  · have hsettings : (n.reweigh id k mode).settings = n.settings.rescaled k mode := if_pos hid
    by_cases hkind : n.kind = .source
    · obtain ⟨s, hsource⟩ := Node.kind_eq_source_iff.1 hkind
      rw [Node.gives_source hsource] at h
      rw [hsource] at hsettings
      exact (Node.gives_source hsettings).2 h
    · rw [Node.gives_other hkind] at h
      have hkind' : (n.reweigh id k mode).kind ≠ .source := by
        show (n.reweigh id k mode).settings.kind ≠ .source
        rw [hsettings, Settings.kind_rescaled]
        exact hkind
      rw [Node.gives_other hkind', hsettings]
      refine ⟨h.failed, h.unknown, fun xs hxs => ?_⟩
      rw [h.known xs hxs, evaluate_numbers, evaluate_numbers, Settings.applyTo_rescaled hs hk]
  · have hsame : n.reweigh id k mode = n := by
      unfold Node.reweigh
      rw [if_neg hid]
    rwa [hsame]

end

namespace Model

variable {m : Model Rat} {id : String} {strict : Bool}

theorem reweigh_sameShape : m.SameShape (m.reweigh id k mode) := by
  refine ⟨?_, List.Perm.refl _⟩
  unfold reweigh
  rw [List.map_map]
  have hshapes : Node.shape ∘ (fun n : Node Rat => n.reweigh id k mode) = Node.shape :=
    funext fun n => shape_reweigh
  rw [hshapes]

theorem reweigh_accepted (hk : 0 < k) (h : ∃ c, validate strict m = .ok c) :
    ∃ c, validate strict (m.reweigh id k mode) = .ok c := by
  refine reweigh_sameShape.accepts (fun hm => ?_) h
  rw [settingsFaults_eq_nil] at hm ⊢
  unfold reweigh
  rw [List.forall_mem_map]
  exact fun n hn => sound_reweigh (hm n hn) hk

theorem reweigh_meaning {points : Points Rat} {value : String → Outcome Rat}
    (hm : ∀ n ∈ m.nodes, n.settings.Sound) (hk : 0 < k) (h : m.Meaning points value) :
    (m.reweigh id k mode).Meaning points value := by
  unfold Meaning reweigh
  rw [List.forall_mem_map]
  exact fun n hn => gives_reweigh (hm n hn) hk (h n hn)

/-- A model with other weights has the same previews. -/
theorem reweigh_preview {c c' : Checked Rat} {points : Points Rat} {p : Preview Rat}
    (h : validate strict m = .ok c) (h' : validate strict (m.reweigh id k mode) = .ok c')
    (hk : 0 < k) (hp : (Evaluator.ofChecked c).preview points = .ok p) :
    (Evaluator.ofChecked c').preview points = .ok p := by
  have hsound := (wellFormed_iff.2 (validate_eq_ok_iff.1 h).1).settings
  obtain ⟨hc, rfl⟩ := faithful_of_validate h
  obtain ⟨hc', hmodel⟩ := faithful_of_validate h'
  obtain ⟨v, hrun, -⟩ := preview_ok_iff.1 hp
  have hv := run_stable hc hrun
  obtain ⟨value, rfl⟩ := exists_value hc hv.length
  have hmeaning := (stable_iff_meaning hc hv.finitePoints).1 hv
  have hmeaning' : c'.model.Meaning points value := by
    rw [hmodel]
    exact reweigh_meaning hsound hk hmeaning
  have hshape : c.model.SameShape c'.model := by
    rw [hmodel]
    exact reweigh_sameShape
  have hids : c'.model.ids = c.model.ids := by
    rw [hmodel]
    exact List.map_map
  rw [preview_of_meaning hc hv.finitePoints hmeaning] at hp
  rw [preview_of_meaning hc' (fun _ _ _ _ _ => rfl) hmeaning', hids, ← hshape.sinkId hc hc']
  exact hp

end Model

/-! ## Inputs by slot -/

section

variable {c : Checked Rat} {v : List (Outcome Rat)} {p : Preview Rat} {n : Node Rat} {i : Nat}

/-- Every edge into an average claims a slot that has a weight, and every slot with a weight is
claimed by one edge. -/
structure Claims (m : Model Rat) (n : Node Rat) (weights : SlotMap Rat) : Prop where
  weighted : ∀ e ∈ m.edges, e.target = n.id → e.slot ∈ weights.slots
  claimed : ∀ slot ∈ weights.slots, ∃! e, e ∈ m.edges ∧ e.target = n.id ∧ e.slot = slot

theorem claims_of_faithful (hc : c.Faithful) (hn : n ∈ c.model.nodes)
    (hs : n.settings = .average s) : Claims c.model n s.weights := by
  obtain ⟨i, hi⟩ := List.getElem?_of_mem hn
  have htakes := hc.wellWired.takes n hn
  rw [hs] at htakes
  refine ⟨fun e he ht => (htakes e.slot).1 ⟨e, he, ht, rfl⟩, fun slot hslot => ?_⟩
  obtain ⟨e, he, ht, rfl⟩ := (htakes slot).2 hslot
  refine ⟨e, ⟨he, ht, rfl⟩, fun f hf => ?_⟩
  exact List.inj_on_of_nodup_map (Checked.slots_nodup hc hi)
    (List.mem_filter.2 ⟨hf.1, decide_eq_true hf.2.1⟩)
    (List.mem_filter.2 ⟨he, decide_eq_true ht⟩) hf.2.2

/-- Numbers at all inputs are numbers by slot. -/
theorem exists_numbers_by_slot (hclaims : Claims c.model n s.weights)
    (h : ∀ e ∈ c.model.edges, e.target = n.id → ∃ y, p.node? e.source = some (.number y)) :
    ∃ x : Slot → Rat, ∀ e ∈ c.model.edges, e.target = n.id →
      p.node? e.source = some (.number (x e.slot)) := by
  have hslot : ∀ slot : Slot, ∃ y : Rat, ∀ e ∈ c.model.edges, e.target = n.id → e.slot = slot →
      p.node? e.source = some (.number y) := by
    intro slot
    by_cases hmem : slot ∈ s.weights.slots
    · obtain ⟨e, ⟨he, ht, -⟩, hunique⟩ := hclaims.claimed slot hmem
      obtain ⟨y, hy⟩ := h e he ht
      refine ⟨y, fun f hf hft hfslot => ?_⟩
      rw [hunique f ⟨hf, hft, hfslot⟩]
      exact hy
    · refine ⟨0, fun e he ht heq => absurd ?_ hmem⟩
      exact heq ▸ hclaims.weighted e he ht
  choose x hx using hslot
  exact ⟨x, fun e he ht => hx e.slot e he ht rfl⟩

/-- The numbers at the inputs of an average are in the order of its weights. -/
theorem inputOutcomes_eq_slots (hc : c.Faithful) (hshows : p.Shows c v)
    (hn : c.model.nodes[i]? = some n) (hs : n.settings = .average s) {x : Slot → Rat}
    (hx : ∀ e ∈ c.model.edges, e.target = n.id → p.node? e.source = some (.number (x e.slot))) :
    inputOutcomes c v i = (s.weights.slots.map x).map .number := by
  have hreads := Checked.reads_inputsOf hc hn
  rw [hs] at hreads
  have hslots : (c.inputsOf i).map (·.1) = s.weights.slots := hreads
  rw [← hslots, List.map_map, List.map_map]
  refine List.map_congr_left fun a ha => ?_
  have hedge : (a.1, some a.2) ∈
      (c.model.incoming n.id).map fun e => (e.slot, c.model.position? e.source) := by
    rw [← Checked.inputsOf_eq_incoming hc hn]
    exact List.mem_map.2 ⟨a, ha, rfl⟩
  obtain ⟨e, he, heq⟩ := List.mem_map.1 hedge
  obtain ⟨he, ht⟩ := List.mem_filter.1 (mem_sortBy.1 he)
  obtain ⟨hslot, hposition⟩ := Prod.mk.inj heq
  obtain ⟨n', hn', hid⟩ := (Checked.position?_eq_iff hc).1 hposition
  have hvalue := hshows.node?_id hn'
  rw [hid, hx e he (of_decide_eq_true ht), hslot] at hvalue
  exact (Option.some.inj hvalue).symm

/-- The outcome of an average with numbers at its inputs is their mean by slot. -/
theorem valueAt_average (hc : c.Faithful) {points : Points Rat} (hv : Stable c points v)
    (hshows : p.Shows c v) (hn : c.model.nodes[i]? = some n) (hs : n.settings = .average s)
    (hsound : s.Sound) {x : Slot → Rat}
    (hx : ∀ e ∈ c.model.edges, e.target = n.id → p.node? e.source = some (.number (x e.slot))) :
    valueAt v i = .number (s.weights.mean x) := by
  have hother : n.kind ≠ .source := by
    unfold Node.kind
    rw [hs]
    exact fun hkind => nomatch hkind
  have hgives := (Node.gives_other hother).1 (hv.gives hn)
  rw [hgives.known _ (inputOutcomes_eq_slots hc hshows hn hs hx), evaluate_numbers, hs]
  exact congrArg Outcome.number (weightedAverage_slots hsound x)

end

/-! ## Top theorem -/

/-- What a preview says of an average with the numbers `x` at its slots. -/
structure Averages (m : Model Rat) (p : Preview Rat) (n : Node Rat) (s : AverageSettings Rat)
    (x : Slot → Rat) : Prop where
  claims : Claims m n s.weights
  /-- The number at a slot is that of the node whose edge claims the slot. -/
  inputs : ∀ e ∈ m.edges, e.target = n.id → p.node? e.source = some (.number (x e.slot))
  value : p.node? n.id = some (.number (s.weights.mean x))
  /-- The rule divides by two numbers, and neither is zero. -/
  divisors : (∀ xs, weightedAverage s xs =
    Number.sum ((s.weights.values.zip xs).map fun p => p.1 / s.largest / s.total * p.2)) ∧
      s.largest ≠ 0 ∧ s.total ≠ 0
  between : ∃ least greatest, IsLeast (s.weights.counted x) least ∧
    IsGreatest (s.weights.counted x) greatest ∧
      least ≤ s.weights.mean x ∧ s.weights.mean x ≤ greatest

/-- An average with numbers at its inputs gives out their weighted mean, slot by slot.  With its
weights multiplied by a positive number, shown in either mode, the model is accepted as well and
previews the same. -/
theorem average_is_mean_of_slots {m : Model Rat} {strict : Bool} {c : Checked Rat}
    {points : Points Rat} {p : Preview Rat} {n : Node Rat} {s : AverageSettings Rat}
    (h : validate strict m = .ok c) (hp : (Evaluator.ofChecked c).preview points = .ok p)
    (hn : n ∈ m.nodes) (hs : n.settings = .average s)
    (hnumbers : ∀ e ∈ m.edges, e.target = n.id → ∃ y, p.node? e.source = some (.number y)) :
    (∃ x : Slot → Rat, Averages m p n s x ∧
      ∀ r, (Evaluator.ofChecked c).evaluate points = .ok r →
        (n.id, .number (s.weights.mean x)) ∈ r.nodes) ∧
    ∀ k > 0, ∀ mode, ∃ c', validate strict (m.reweigh n.id k mode) = .ok c' ∧
      (Evaluator.ofChecked c').preview points = .ok p := by
  refine ⟨?_, fun k hk mode => ?_⟩
  · have hsound := (Model.wellFormed_iff.2 (validate_eq_ok_iff.1 h).1).settings n hn
    rw [hs] at hsound
    obtain ⟨hc, rfl⟩ := faithful_of_validate h
    obtain ⟨v, -, hv, hshows⟩ := preview_shows hc hp
    have hclaims := claims_of_faithful hc hn hs
    obtain ⟨x, hx⟩ := exists_numbers_by_slot hclaims hnumbers
    obtain ⟨i, hi⟩ := List.getElem?_of_mem hn
    have hnode : p.node? n.id = some (.number (s.weights.mean x)) := by
      rw [hshows.node?_id hi, valueAt_average hc hv hshows hi hs hsound hx]
    refine ⟨x, ⟨hclaims, hx, hnode, ⟨weightedAverage_of_sound hsound, hsound.largest_pos.ne',
      hsound.total_ne_zero⟩, mean_between hsound x⟩, fun r hr => ?_⟩
    exact ((evaluate_preview hc hr hp).2 n.id _).2 hnode
  · obtain ⟨c', h'⟩ := Model.reweigh_accepted hk ⟨c, h⟩
    exact ⟨c', h', Model.reweigh_preview h h' hk hp⟩

/-- A mean of three marks at slots 2, 5 and 9, of which the last has no weight.  The edges are
listed in another order. -/
def gapsModel : Model Rat where
  nodes :=
    [⟨"essay", .source ⟨none, .ignore⟩⟩, ⟨"exam", .source ⟨none, .ignore⟩⟩,
      ⟨"mean", .average ⟨.ofList [(9, 0), (2, 1), (5, 3)], true⟩⟩, ⟨"grade", .sink⟩]
  edges :=
    [Edge.join "exam" "mean" 5, Edge.join "mean" "grade" 0, Edge.join "exam" "mean" 9,
      Edge.join "essay" "mean" 2]

def gapsPoints : Points Rat := Points.ofList [("essay", 4), ("exam", 8)]

theorem average_is_mean_of_slots_gaps :
    ∃ c p, validate true gapsModel = .ok c ∧
      (Evaluator.ofChecked c).preview gapsPoints = .ok p ∧
      p.node? "essay" = some (.number 4) ∧ p.node? "exam" = some (.number 8) ∧
      p.node? "mean" = some (.number 7) ∧
      ∃ c', validate true (gapsModel.reweigh "mean" (1 / 100) false) = .ok c' ∧
        (Evaluator.ofChecked c').preview gapsPoints = .ok p := by
  have hvalid : validate true gapsModel = .ok (gapsModel.accepted 3) := rfl
  obtain ⟨p, hp, hexam, hessay⟩ : ∃ p,
      (Evaluator.ofChecked (gapsModel.accepted 3)).preview gapsPoints = .ok p ∧
        p.node? "exam" = some (.number 8) ∧ p.node? "essay" = some (.number 4) :=
    ⟨_, rfl, rfl, rfl⟩
  have hnumbers : ∀ e ∈ gapsModel.edges, e.target = "mean" →
      ∃ y, p.node? e.source = some (.number y) := by
    simp only [gapsModel, List.forall_mem_cons]
    refine ⟨fun _ => ⟨8, hexam⟩, ?_, fun _ => ⟨8, hexam⟩, fun _ => ⟨4, hessay⟩, by simp⟩
    exact fun htarget => absurd htarget (by decide)
  obtain ⟨⟨x, hx, -⟩, hreweigh⟩ := average_is_mean_of_slots hvalid hp
    (List.mem_cons_of_mem _ (List.mem_cons_of_mem _ List.mem_cons_self)) rfl hnumbers
  have hinputs := hx.inputs
  simp only [gapsModel, List.forall_mem_cons] at hinputs
  obtain ⟨hfive, -, hnine, htwo, -⟩ := hinputs
  have hfive : x 5 = 8 := Outcome.number.inj (Option.some.inj ((hfive rfl).symm.trans hexam))
  have hnine : x 9 = 8 := Outcome.number.inj (Option.some.inj ((hnine rfl).symm.trans hexam))
  have htwo : x 2 = 4 := Outcome.number.inj (Option.some.inj ((htwo rfl).symm.trans hessay))
  have hmean : (SlotMap.ofList [(9, 0), (2, 1), (5, 3)]).mean x = 7 := by
    show (1 * x 2 + (3 * x 5 + (0 * x 9 + 0))) / (1 + (3 + (0 + 0))) = 7
    rw [htwo, hfive, hnine]
    norm_num
  have hvalue := hx.value
  rw [hmean] at hvalue
  exact ⟨_, p, hvalid, hp, hessay, hexam, hvalue, hreweigh (1 / 100) (by norm_num) false⟩

end Grading
