import Mathlib.Algebra.BigOperators.Ring.List
import Mathlib.Algebra.Order.BigOperators.Group.List
import Mathlib.Data.Rat.Floor
import Grading.Evaluation.Node
import Grading.Number.Exact
import Grading.Proofs.Equality

/-!
# The rules over exact numbers

Over the rationals the operations of the rules are those of mathematics, and the rules can be read
as formulas:

    Number.sum xs = xs.sum                                                      (Number.sum_eq)
    Number.roundHalfUp x = ⌊x + 1/2⌋                                    (Number.roundHalfUp_eq)
    an average is the sum of weights times numbers, divided by the sum of the weights
                                                                      (weightedAverage_eq_mean)

The largest weight, by which an average divides first, cancels out; that it is positive is true of
all kinds of number (`AverageSettings.Sound.largest_spec`).  The lemmas about operations are for
`simp`.
-/

namespace Grading

/-! ## Operations -/

namespace Number

variable {x y : Rat}

@[simp] theorem le_iff : Number.le x y = true ↔ x ≤ y := decide_eq_true_iff

@[simp] theorem lt_iff : Number.lt x y = true ↔ x < y := decide_eq_true_iff

@[simp] theorem zero_eq : (Number.zero : Rat) = 0 := rfl

@[simp] theorem sum_eq (xs : List Rat) : Number.sum xs = xs.sum := (List.sum_eq_foldl).symm

@[simp] theorem larger_eq_max (x y : Rat) : Number.larger x y = max x y := by
  unfold Number.larger
  by_cases h : y < x
  · rw [if_pos (lt_iff.2 h), max_eq_left h.le]
  · rw [if_neg (mt lt_iff.1 h), if_pos (beq_self_eq_true y), max_eq_right (not_lt.1 h)]

@[simp] theorem floor_eq (x : Rat) : Number.floor x = (⌊x⌋ : Rat) := rfl

@[simp] theorem ceil_eq (x : Rat) : Number.ceil x = (⌈x⌉ : Rat) := by
  show ((x.ceil : Int) : Rat) = ⌈x⌉
  rw [Rat.ceil_eq_neg_floor_neg]
  rfl

/-- To compare what is left with a half is to add a half first. -/
@[simp] theorem roundHalfUp_eq (x : Rat) : Number.roundHalfUp x = (⌊x + 1 / 2⌋ : Rat) := by
  have hbelow := Int.floor_le x
  have habove := Int.lt_floor_add_one x
  unfold Number.roundHalfUp
  by_cases h : (1 : Rat) / 2 ≤ x - ⌊x⌋
  · have hfloor : ⌊x + 1 / 2⌋ = ⌊x⌋ + 1 := by
      rw [Int.floor_eq_iff]
      push_cast
      constructor <;> linarith
    rw [hfloor, Int.cast_add, Int.cast_one]
    exact if_pos (le_iff.2 h)
  · have hfloor : ⌊x + 1 / 2⌋ = ⌊x⌋ := by
      rw [Int.floor_eq_iff]
      constructor <;> linarith
    rw [hfloor]
    exact if_neg (mt le_iff.1 h)

end Number

/-! ## Averages -/

section

variable {α : Type} [Number α]

/-- The largest weight, by which all weights are divided first. -/
def AverageSettings.largest (s : AverageSettings α) : α :=
  s.weights.values.foldl Number.larger Number.zero

/-- The sum of the divided weights, by which they are divided next. -/
def AverageSettings.total (s : AverageSettings α) : α :=
  Number.sum (s.weights.values.map fun w => w / s.largest)

/-- The two divisions of an average, and when there are none. -/
theorem weightedAverage_eq (s : AverageSettings α) (xs : List α) : weightedAverage s xs =
    if Number.le s.largest Number.zero then Number.zero
    else Number.sum ((s.weights.values.zip xs).map fun p => p.1 / s.largest / s.total * p.2) := rfl

/-- Of all kinds of number, the largest of sound weights is one of them, and positive. -/
theorem AverageSettings.Sound.largest_spec [ComparableNumber α] {s : AverageSettings α}
    (hs : s.Sound) : s.largest ∈ s.weights.values ∧ Number.lt Number.zero s.largest = true := by
  have hzero : Number.isFinite (Number.zero : α) = true := OrderedNumber.isFinite_zero
  have hfinite : ∀ w ∈ s.weights.values, Number.isFinite w = true := fun w hw => (hs.weights w hw).1
  have hlargest : Number.isFinite s.largest = true := isFinite_foldl_larger hzero hfinite
  have hpositive : Number.lt Number.zero s.largest = true := by
    obtain ⟨w, hw, hpos⟩ := hs.positive
    have hle := ComparableNumber.le_foldl_larger hzero hfinite w (List.mem_cons_of_mem _ hw)
    exact OrderedNumber.lt_of_lt_of_le hzero (hfinite w hw) hlargest hpos hle
  refine ⟨(List.mem_cons.1 (foldl_larger_mem _ _)).resolve_left fun heq => ?_, hpositive⟩
  have hlt : Number.lt (Number.zero : α) Number.zero = true := by
    rwa [show s.largest = Number.zero from heq] at hpositive
  exact (OrderedNumber.lt_iff_not_le hzero hzero).1 hlt (OrderedNumber.le_refl hzero)

end

section

variable {s : AverageSettings Rat}

namespace AverageSettings.Sound

theorem nonneg (hs : s.Sound) {w : Rat} (hw : w ∈ s.weights.values) : 0 ≤ w :=
  Number.le_iff.1 (hs.weights w hw).2

theorem largest_pos (hs : s.Sound) : 0 < s.largest := Number.lt_iff.1 hs.largest_spec.2

theorem sum_pos (hs : s.Sound) : 0 < s.weights.values.sum := by
  obtain ⟨w, hw, hpos⟩ := hs.positive
  exact (Number.lt_iff.1 hpos).trans_le (List.single_le_sum (fun _ => hs.nonneg) w hw)

end AverageSettings.Sound

theorem AverageSettings.total_eq (s : AverageSettings Rat) :
    s.total = s.weights.values.sum / s.largest := by
  unfold AverageSettings.total
  simp [div_eq_mul_inv, List.sum_map_mul_right]

theorem AverageSettings.Sound.total_ne_zero (hs : s.Sound) : s.total ≠ 0 := by
  rw [AverageSettings.total_eq]
  exact div_ne_zero hs.sum_pos.ne' hs.largest_pos.ne'

/-- With sound weights an average divides by the largest one and by the total. -/
theorem weightedAverage_of_sound (hs : s.Sound) (xs : List Rat) : weightedAverage s xs =
    Number.sum ((s.weights.values.zip xs).map fun p => p.1 / s.largest / s.total * p.2) := by
  have hpositive : ¬ Number.le s.largest Number.zero = true := by
    rw [Number.le_iff, not_le]
    exact hs.largest_pos
  rw [weightedAverage_eq, if_neg hpositive]

/-- The largest weight, by which all are divided, cancels out. -/
theorem weightedAverage_eq_mean (hs : s.Sound) (xs : List Rat) :
    weightedAverage s xs =
      ((s.weights.values.zip xs).map fun p => p.1 * p.2).sum / s.weights.values.sum := by
  have hterm : ∀ p : Rat × Rat,
      p.1 / s.largest / s.total * p.2 = p.1 * p.2 * s.weights.values.sum⁻¹ := by
    intro p
    rw [AverageSettings.total_eq, div_div_div_cancel_right₀ hs.largest_pos.ne',
      div_mul_eq_mul_div, div_eq_mul_inv]
  calc weightedAverage s xs
      = Number.sum ((s.weights.values.zip xs).map fun p => p.1 / s.largest / s.total * p.2) :=
        weightedAverage_of_sound hs xs
    _ = ((s.weights.values.zip xs).map fun p => p.1 * p.2 * s.weights.values.sum⁻¹).sum := by
        simp only [hterm, Number.sum_eq]
    _ = ((s.weights.values.zip xs).map fun p => p.1 * p.2).sum / s.weights.values.sum := by
        rw [List.sum_map_mul_right, div_eq_mul_inv]

end

end Grading
