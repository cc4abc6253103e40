import Mathlib.Data.List.Chain
import Grading.Evaluation.Node
import Grading.Proofs.NumberOrder
import Grading.Proofs.WellFormed

/-!
# The checks of settings find everything

A node has no faults in its settings if and only if the settings are sound:

    n.settingsFaults = [] ↔ n.settings.Sound                         (settingsFaults_eq_nil_iff)
    s sound → every number falls into a range with an output    (StepperSettings.Sound.range_lt)

The check of a stepper compares neighbours only and asks whether one is not above the other.  On
finite numbers, which are in a total order, that is the order of any two middle points.
-/

namespace Grading

variable {α : Type} [Number α]

/-! ## Lemmas -/

theorem firstDescent?_eq_none {l : List α} :
    firstDescent? l = none ↔ l.IsChain fun a b => Number.le b a = false := by
  induction l with
  | nil => simp [firstDescent?]
  | cons a l ih =>
    cases l with
    | nil => simp [firstDescent?]
    | cons b l =>
      rw [firstDescent?, List.isChain_cons_cons, ← ih]
      cases Number.le b a <;> simp

variable [OrderedNumber α]

/-- Finite numbers of which none is at most the one before it are in ascending order. -/
theorem firstDescent?_eq_none_iff {l : List α} (hf : ∀ a ∈ l, Number.isFinite a = true) :
    firstDescent? l = none ↔ l.Pairwise fun a b => Number.lt a b = true := by
  rw [firstDescent?_eq_none]
  constructor
  · intro h
    -- the order is transitive on finite numbers only, so they are part of the relation
    let R : α → α → Prop := fun a b =>
      Number.isFinite a = true ∧ Number.isFinite b = true ∧ Number.lt a b = true
    have : IsTrans α R := ⟨fun a b c hab hbc =>
      ⟨hab.1, hbc.2.1, OrderedNumber.lt_trans hab.1 hab.2.1 hbc.2.1 hab.2.2 hbc.2.2⟩⟩
    have hchain : l.IsChain R := by
      refine h.imp_of_mem_imp fun a b ha hb hab => ⟨hf a ha, hf b hb, ?_⟩
      rw [OrderedNumber.lt_eq_not_le (hf a ha) (hf b hb), hab]
      rfl
    exact hchain.pairwise.imp fun hab => hab.2.2
  · intro h
    refine (h.imp_of_mem fun ha hb hab => ?_).isChain
    rw [OrderedNumber.lt_eq_not_le (hf _ ha) (hf _ hb)] at hab
    simpa using hab

theorem isWeight_iff {w : α} :
    isWeight w = true ↔ Number.isFinite w = true ∧ Number.le Number.zero w = true := by
  unfold isWeight
  rw [Bool.and_eq_true, Bool.not_eq_true']
  refine and_congr_right fun hw => ?_
  rw [OrderedNumber.lt_eq_not_le hw OrderedNumber.isFinite_zero, Bool.not_eq_false']

omit [OrderedNumber α] in
theorem limitFaults_eq_nil {limit : Limit} {node : String} {x : α} :
    limitFaults limit node x = [] ↔ Number.isFinite x = true := by
  unfold limitFaults
  split <;> simp_all

omit [OrderedNumber α] in
theorem ite_nil_eq_nil {β : Type} {p : Prop} [Decidable p] {b : β} :
    (if p then [b] else []) = [] ↔ ¬ p := by
  split <;> simp_all

omit [OrderedNumber α] in
theorem ite_nil_eq_nil' {β : Type} {p : Prop} [Decidable p] {b : β} :
    (if p then [] else [b]) = [] ↔ p := by
  split <;> simp_all

/-! ## Steppers and averages -/

theorem flaws_eq_nil_iff {s : StepperSettings α} : s.flaws = [] ↔ s.Sound := by
  unfold StepperSettings.flaws
  simp only [List.append_eq_nil_iff, ite_nil_eq_nil, ite_nil_eq_nil', not_not, List.all_eq_true]
  constructor
  · rintro ⟨⟨⟨⟨⟨h1, h2⟩, h3⟩, h4⟩, h5⟩, h6⟩
    have hnone : firstDescent? s.middlePoints = none := by
      cases h : firstDescent? s.middlePoints with
      | none => rfl
      | some d => simp [h] at h5
    have hasc := (firstDescent?_eq_none_iff h4).1 hnone
    exact ⟨by omega, h2, by omega, h4, hasc, fun x hx => h6 _ hx⟩
  · rintro ⟨h1, h2, h3, h4, h5, h6⟩
    have hnone := (firstDescent?_eq_none_iff h4).2 h5
    refine ⟨⟨⟨⟨⟨by omega, h2⟩, by omega⟩, h4⟩, by rw [hnone]⟩, ?_⟩
    intro o ho
    cases o with
    | value x => exact h6 x ho
    | same => rfl

theorem weightFaults_eq_nil_iff {s : AverageSettings α} {node : String} :
    s.weightFaults node = [] ↔ s.Sound := by
  unfold AverageSettings.weightFaults
  rw [List.append_eq_nil_iff, List.map_eq_nil_iff, List.filter_eq_nil_iff, ite_nil_eq_nil',
    List.any_eq_true]
  have hweights : (∀ e ∈ s.weights.entries, ¬ (!isWeight e.2) = true) ↔
      ∀ w ∈ s.weights.values, Number.isFinite w = true ∧ Number.le Number.zero w = true := by
    unfold SlotMap.values
    simp only [List.forall_mem_map, Bool.not_eq_true', Bool.not_eq_false, isWeight_iff]
  rw [hweights]
  constructor
  · rintro ⟨h, w, hw, hpos⟩
    unfold isPositiveWeight at hpos
    rw [Bool.and_eq_true] at hpos
    exact ⟨h, w, hw, hpos.2⟩
  · rintro ⟨h, w, hw, hpos⟩
    refine ⟨h, w, hw, ?_⟩
    unfold isPositiveWeight
    rw [Bool.and_eq_true]
    exact ⟨(h w hw).1, hpos⟩

/-! ## Ranges -/

omit [OrderedNumber α] in
/-- The range of a number is the place of the first middle point above it. -/
theorem StepperSettings.range_eq_findIdx (s : StepperSettings α) (x : α) :
    s.range x = s.middlePoints.findIdx fun p => Number.lt x p := List.findIdx_eq_getD_findIdx?.symm

omit [OrderedNumber α] in
/-- Every number falls into a range that has an output, even one that is not finite. -/
theorem StepperSettings.Sound.range_lt {s : StepperSettings α} (hs : s.Sound) (x : α) :
    s.range x < s.outputs.length := by
  have hle : s.range x ≤ s.middlePoints.length := by
    rw [StepperSettings.range_eq_findIdx]
    exact List.findIdx_le_length
  have hsteps := hs.steps
  rw [hs.middlePoints] at hle
  rw [hs.outputs]
  omega

/-! ## Nodes -/

theorem settingsFaults_eq_nil_iff {n : Node α} : n.settingsFaults = [] ↔ n.settings.Sound := by
  unfold Node.settingsFaults Settings.Sound
  cases n.settings with
  | source s =>
    show s.minPoints.toList.flatMap _ = [] ↔ ∀ x ∈ s.minPoints, Number.isFinite x = true
    cases s.minPoints with
    | none => simp
    | some x => simp [limitFaults_eq_nil]
  | addition => simp
  | average s => exact weightFaults_eq_nil_iff
  | stepper s => simp only [List.map_eq_nil_iff, flaws_eq_nil_iff]
  | sink => simp
  | minPoints s => exact limitFaults_eq_nil
  | max minValue => exact limitFaults_eq_nil
  | round mode => simp

end Grading
