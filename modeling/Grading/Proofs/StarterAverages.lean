import Grading.Proofs.StarterNumbers
import Grading.Proofs.Starters
import Grading.Proofs.StoredForm

/-!
# Averages of many sources

The equal weights of a starting average are one hundred percent split among its sources and rounded
to tenths.  Up to 2000 sources each of them is a tenth or more, and the model is accepted without
findings.  From 2001 sources on each of them is rounded to zero, and an average with no positive
weight is rejected:

    the slots of the equal weights are numbered from zero           (mem_slots_equalWeights)
    up to 2000 parts → the model is strictly accepted               (average_accepted)
    more than 2000 parts → the model is rejected                    (average_rejected)
-/

namespace Grading

namespace Template

variable {parts : List UInt32} {count : ℕ}

/-! ## Equal weights -/

section

variable {α : Type} [Number α]

/-- The slots are numbered as far as there are numbers for them. -/
theorem entries_equalWeights (count : ℕ) :
    (equalWeights count : AverageSettings α).weights.entries =
      (List.range (UInt32.ofNat count).toNat).map fun i => (UInt32.ofNat i, equalWeight count) := by
  have hascending : ((List.range (UInt32.ofNat count).toNat).map fun i =>
      ((UInt32.ofNat i, equalWeight count) : Slot × α)).Pairwise fun a b => a.1 < b.1 := by
    rw [List.pairwise_map]
    refine List.pairwise_lt_range.imp_of_mem fun {i j} hi hj hij => ?_
    have hlt := (UInt32.ofNat count).toNat_lt
    have hi := List.mem_range.1 hi
    have hj := List.mem_range.1 hj
    rw [UInt32.lt_iff_toNat_lt, toNat_ofNat hi hlt.le, toNat_ofNat hj hlt.le]
    exact hij
  unfold equalWeights
  dsimp only
  rw [List.map_map]
  exact SlotMap.entries_foldl_insert (m := .empty) hascending

theorem mem_values_equalWeights {w : α} :
    w ∈ (equalWeights count : AverageSettings α).weights.values ↔
      0 < (UInt32.ofNat count).toNat ∧ w = equalWeight count := by
  unfold SlotMap.values
  rw [entries_equalWeights, List.map_map, List.mem_map]
  constructor
  · rintro ⟨i, hi, rfl⟩
    exact ⟨Nat.zero_lt_of_lt (List.mem_range.1 hi), rfl⟩
  · rintro ⟨hpos, rfl⟩
    exact ⟨0, List.mem_range.2 hpos, rfl⟩

theorem mem_slots_equalWeights {slot : Slot} (hcount : count < 2 ^ 32) :
    slot ∈ (equalWeights count : AverageSettings α).weights.slots ↔ slot.toNat < count := by
  unfold SlotMap.slots
  rw [entries_equalWeights, List.map_map, List.mem_map, UInt32.toNat_ofNat_of_lt' hcount]
  constructor
  · rintro ⟨i, hi, rfl⟩
    have hi := List.mem_range.1 hi
    show (UInt32.ofNat i).toNat < count
    rwa [toNat_ofNat hi hcount.le]
  · intro hslot
    exact ⟨slot.toNat, List.mem_range.2 hslot, UInt32.ofNat_toNat⟩

end

/-! ## Few parts -/

theorem average_bridges (hd : parts.Nodup) (hlt : parts.length < 2 ^ 32) :
    Bridges "average" (.average (equalWeights parts.length) : Settings Float) parts where
  id_ne_sink := by decide
  id_ne_stepper := by decide
  id_ne_source _ := sourceId_ne (by decide)
  kind_ne_source := fun h => nomatch h
  kind_ne_sink := fun h => nomatch h
  distinct := hd
  takes _ := (mem_slots_equalWeights hlt).symm

theorem equalWeights_sound (hpos : 0 < count) (hle : count ≤ 2000) :
    (equalWeights count : AverageSettings Float).Sound := by
  obtain ⟨hfinite, hweight⟩ := equalWeight_pos hpos hle
  have hslots : 0 < (UInt32.ofNat count).toNat := by
    rwa [UInt32.toNat_ofNat_of_lt' (show count < 2 ^ 32 by omega)]
  constructor
  · intro w hw
    obtain ⟨-, rfl⟩ := mem_values_equalWeights.1 hw
    exact ⟨hfinite, OrderedNumber.le_of_lt OrderedNumber.isFinite_zero hfinite hweight⟩
  · exact ⟨_, mem_values_equalWeights.2 ⟨hslots, rfl⟩, hweight⟩

theorem averageStepper_sound : (stepper averageBreakpoints : StepperSettings Float).Sound :=
  stepper_sound rfl (by decide +kernel) (by decide +kernel) GradedSums.isFinite_grade

theorem average_model? (hne : parts ≠ []) : average.model? parts =
    some (wired "average" (.average (equalWeights parts.length)) averageBreakpoints parts :
      Model Float) :=
  if_neg (by simpa using hne)

theorem average_accepted (hne : parts ≠ []) (hd : parts.Nodup) (hle : parts.length ≤ 2000) :
    ∃ c, validate true (wired "average" (.average (equalWeights parts.length)) averageBreakpoints
      parts : Model Float) = .ok c ∧ c.warnings = [] ∧
        c.requiredSources = sortTexts (parts.map sourceId) :=
  validate_wired (average_bridges hd (by omega))
    (equalWeights_sound (List.length_pos_iff.2 hne) hle) averageStepper_sound

/-! ## Many parts -/

theorem not_isPositiveWeight_zero :
    isPositiveWeight (Float.ofInt 0 / Number.ofNat 10 : Float) = false := by decide +kernel

theorem noPositiveWeight_mem (hlt : 2000 < count) (hle : count ≤ 2 ^ 32) (node : String) :
    .noPositiveWeight node ∈ (equalWeights count : AverageSettings Float).weightFaults node := by
  have hnone : ¬ (equalWeights count : AverageSettings Float).weights.values.any
      isPositiveWeight = true := by
    rw [List.any_eq_true]
    rintro ⟨w, hw, hpositive⟩
    obtain ⟨-, rfl⟩ := mem_values_equalWeights.1 hw
    rw [equalWeight_eq_zero hlt hle, not_isPositiveWeight_zero] at hpositive
    exact Bool.false_ne_true hpositive
  unfold AverageSettings.weightFaults
  rw [if_neg hnone]
  exact List.mem_append_right _ List.mem_cons_self

theorem average_rejected (hd : parts.Nodup) (hlt : 2000 < parts.length) (strict : Bool) :
    ∃ faults, validate strict (wired "average" (.average (equalWeights parts.length))
      averageBreakpoints parts : Model Float) = .error faults ∧
        .noPositiveWeight "average" ∈ faults := by
  have hfault := noPositiveWeight_mem hlt (length_le_size hd) "average"
  have herror : .noPositiveWeight "average" ∈ (wired "average"
      (.average (equalWeights parts.length)) averageBreakpoints parts : Model Float).errors := by
    refine List.mem_append_left _ (List.mem_append_right _ (List.mem_flatMap.2
      ⟨⟨"average", .average (equalWeights parts.length)⟩, ?_, hfault⟩))
    exact mem_nodes_wired.2 (.inr (.inr (.inl rfl)))
  exact ⟨_, validate_of_mem_errors herror, List.mem_append_left _ herror⟩

/-! ## Top theorems -/

/-- An average always starts with a model, but with one that is valid only up to 2000 parts: it is
accepted strictly, without findings, and requires all its sources.  From 2001 parts on no weight is
positive, and the model is rejected. -/
theorem average_valid_up_to (parts : List UInt32) (hne : parts ≠ []) (hd : parts.Nodup) :
    ∃ m : Model Float, average.model? parts = some m ∧
      (parts.length ≤ 2000 → ∃ c, validate true m = .ok c ∧ c.warnings = [] ∧
        c.requiredSources = sortTexts (parts.map sourceId)) ∧
      (2000 < parts.length → ∀ strict, ∃ faults, validate strict m = .error faults ∧
        .noPositiveWeight "average" ∈ faults) :=
  ⟨_, average_model? hne, average_accepted hne hd, average_rejected hd⟩

/-- Parts that are numbered from zero. -/
def firstParts (count : ℕ) : List UInt32 := (List.range count).map UInt32.ofNat

theorem firstParts_nodup (hle : count ≤ 2 ^ 32) : (firstParts count).Nodup := by
  refine List.nodup_range.map_on fun i hi j hj hij => ?_
  rw [← toNat_ofNat (List.mem_range.1 hi) hle, hij, toNat_ofNat (List.mem_range.1 hj) hle]

theorem length_firstParts (count : ℕ) : (firstParts count).length = count := by
  rw [firstParts, List.length_map, List.length_range]

theorem firstParts_ne_nil (hpos : 0 < count) : firstParts count ≠ [] := by
  rw [← List.length_pos_iff, length_firstParts]
  exact hpos

theorem average_valid_up_to_three :
    (∃ (m : Model Float) (c : Checked Float), average.model? [30, 4, 200] = some m ∧
      validate true m = .ok c ∧ c.warnings = [] ∧
        c.requiredSources = ["source-200", "source-30", "source-4"]) ∧
    ∃ (m : Model Float) (faults : List (Fault Float)), average.model? (firstParts 2001) = some m ∧
      validate false m = .error faults ∧ .noPositiveWeight "average" ∈ faults := by
  obtain ⟨m, hm, haccepted, -⟩ := average_valid_up_to [30, 4, 200] (by decide) (by decide)
  obtain ⟨c, hc, hwarnings, hrequired⟩ := haccepted (by decide)
  obtain ⟨m', hm', -, hrejected⟩ := average_valid_up_to (firstParts 2001)
    (firstParts_ne_nil (by decide)) (firstParts_nodup (by decide))
  obtain ⟨faults, hfaults, hmem⟩ := hrejected (by rw [length_firstParts]; decide) false
  refine ⟨⟨m, c, hm, hc, hwarnings, ?_⟩, m', faults, hm', hfaults, hmem⟩
  rw [hrequired]
  decide

/-- The average of 2001 distinct parts is no valid model. -/
theorem average_of_2001_rejected : firstParts 2001 ≠ [] ∧ (firstParts 2001).Nodup ∧
    ∃ m : Model Float, average.model? (firstParts 2001) = some m ∧
      ∀ c, validate true m ≠ .ok c := by
  have hd : (firstParts 2001).Nodup := firstParts_nodup (by decide)
  have hne : firstParts 2001 ≠ [] := firstParts_ne_nil (by decide)
  obtain ⟨faults, hfaults, -⟩ := average_rejected hd (by rw [length_firstParts]; decide) true
  refine ⟨hne, hd, _, average_model? hne, fun c hc => ?_⟩
  rw [hfaults] at hc
  exact nomatch hc

end Template
end Grading
