import Grading.Model.Template
import Grading.Proofs.DoubleRounding
import Grading.Proofs.DoubleSums
import Grading.Proofs.ExactRules

/-!
# The numbers of starter models

Starter models round to tenths, and over doubles every step on the way there rounds as well.  How
far that leads off does not depend on the number of sources, so the numbers can be compared for all
of them at once:

    10 * x stands for v ≥ 1 → `x` is rounded to whole tenths next to v      (near_roundToTenth)
    up to 2000 sources → their equal weights are positive                   (equalWeight_pos)
    from 2001 sources on → their equal weights are zero                     (equalWeight_eq_zero)
    the middle points of a sum are finite and ascend strictly               (GradedSums)
-/

namespace Grading

open Double

namespace Template

variable {count i j : ℕ}

/-! ## Tenths -/

theorem near_ten : Near 2 10 (Number.ofNat 10 : Float) :=
  near_ofNat (n := 10) (by decide) (by decide)

theorem sized_ten : Sized 4 10 := sized_natCast (n := 10) (by decide) (by decide)

theorem sized_count (hpos : 0 < count) (hle : count ≤ 2 ^ 32) : Sized 33 (count : ℚ) :=
  sized_natCast hpos (by omega)

/-- From one tenth on, a number is rounded to a whole number of tenths next to it. -/
theorem near_roundToTenth {x : Float} {v : ℚ} (hv : Stands v (x * Number.ofNat 10)) (hone : 1 ≤ v)
    (hlt : v < 2 ^ 51) :
    ∃ w : ℤ, v - 1 < w ∧ w ≤ v + 1 ∧ Near 8 (w / 10) (roundToTenth x) := by
  obtain ⟨w, hlow, hhigh, hround⟩ := near_roundHalfUp hv hone (hlt.trans (by norm_num))
  have hpos : (0 : ℚ) < w := by linarith
  have hbound : (w : ℚ) < 2 ^ 52 := by linarith
  have hsize : Sized 52 (w : ℚ) := by
    obtain ⟨n, rfl⟩ := Int.eq_ofNat_of_zero_le (Int.cast_pos.1 hpos).le
    exact sized_natCast (by exact_mod_cast hpos) (by exact_mod_cast hbound)
  have htenths := hround.div near_ten (by decide) (by decide) (hsize.mono (by decide))
    (sized_ten.mono (by decide))
  exact ⟨w, hlow, hhigh, htenths⟩

/-! ## Equal weights -/

/-- The weight that each of so many slots is given. -/
def equalWeight {α : Type} [Number α] (count : ℕ) : α :=
  roundToTenth (Number.ofNat 100 / Number.ofNat count)

theorem near_equalShare (hpos : 0 < count) (hle : count ≤ 2 ^ 32) :
    Near 8 (1000 / count) (Number.ofNat 100 / Number.ofNat count * Number.ofNat 10 : Float) ∧
      Sized 44 (1000 / (count : ℚ)) := by
  have hhundred : Near 2 100 (Number.ofNat 100 : Float) :=
    near_ofNat (n := 100) (by decide) (by decide)
  have hshareSize : Sized 40 (100 / (count : ℚ)) :=
    (sized_natCast (n := 100) (k := 7) (by decide) (by decide)).div (sized_count hpos hle)
  have hshare := hhundred.div (near_ofNat hpos (by omega)) (by decide) (by decide)
    ((sized_natCast (n := 100) (k := 7) (by decide) (by decide)).mono (by decide))
    ((sized_count hpos hle).mono (by decide))
  have htenths := hshare.mul near_ten (by decide) (by decide) (hshareSize.mono (by decide))
    (sized_ten.mono (by decide))
  have hsize := hshareSize.mul sized_ten
  have hvalue : (100 : ℚ) / count * 10 = 1000 / count := by ring
  rw [hvalue] at htenths hsize
  exact ⟨htenths, hsize⟩

theorem stands_zero : Stands 0 (Number.zero : Float) :=
  ⟨⟨false, 0, -1074⟩, rfl, rfl, by norm_num⟩

/-- A half or more of a tenth is rounded up. -/
theorem equalWeight_pos (hpos : 0 < count) (hle : count ≤ 2000) :
    Number.isFinite (equalWeight count : Float) = true ∧
      Number.lt Number.zero (equalWeight count : Float) = true := by
  by_cases heq : count = 2000
  · -- exactly half a tenth, where no rounding may be off
    subst heq
    exact ⟨by decide +kernel, by decide +kernel⟩
  obtain ⟨hnear, hshareSize⟩ := near_equalShare hpos (by omega)
  obtain ⟨v, hv, hlow, hhigh, hsize⟩ := hnear.sized (by decide) (hshareSize.mono (by decide))
  have hpos' : (1 : ℚ) ≤ count := by exact_mod_cast hpos
  have hle' : (count : ℚ) ≤ 1999 := by exact_mod_cast (show count ≤ 1999 by omega)
  have hslack : slack ^ 8 ≤ 1 + 1 / 10000 := by norm_num [slack]
  have hvpos := hsize.pos
  have hshare : (1000 : ℚ) / 1999 ≤ 1000 / count := by gcongr
  have hshare' : (1000 : ℚ) / count ≤ 1000 := div_le_self (by norm_num) hpos'
  by_cases hone : v < 1
  · have hhalf : 1 / 2 ≤ v := by nlinarith
    have hweight : (equalWeight count : Float) =
        (Float.ofInt 0 + Number.ofNat 1) / Number.ofNat 10 := by
      unfold equalWeight roundToTenth
      rw [roundHalfUp_of_lt_one hv hsize hone, if_pos hhalf]
    rw [hweight]
    exact ⟨by decide +kernel, by decide +kernel⟩
  · have hbound : v < 2 ^ 51 := by nlinarith
    obtain ⟨w, hw, -, u, hu, hlow', -⟩ := near_roundToTenth hv (not_lt.1 hone) hbound
    have hwpos : (0 : ℚ) < w := by linarith
    have hupos : 0 < u := by
      by_contra hnot
      have := slack_pos 8
      nlinarith
    exact ⟨hu.isFinite, (stands_zero.lt_iff hu).2 hupos⟩

/-- Less than half a tenth is rounded to zero. -/
theorem equalWeight_eq_zero (hlt : 2000 < count) (hle : count ≤ 2 ^ 32) :
    (equalWeight count : Float) = Float.ofInt 0 / Number.ofNat 10 := by
  obtain ⟨hnear, hshareSize⟩ := near_equalShare (by omega) hle
  obtain ⟨v, hv, -, hhigh, hsize⟩ := hnear.sized (by decide) (hshareSize.mono (by decide))
  have hlt' : (2001 : ℚ) ≤ count := by exact_mod_cast hlt
  have hslack : slack ^ 8 ≤ 1 + 1 / 10000 := by norm_num [slack]
  have hshare : (1000 : ℚ) / count ≤ 1000 / 2001 := by gcongr
  have hhalf : v < 1 / 2 := by
    calc v ≤ 1000 / count * slack ^ 8 := hhigh
      _ ≤ 1000 / 2001 * (1 + 1 / 10000) := by gcongr
      _ < 1 / 2 := by norm_num
  unfold equalWeight roundToTenth
  rw [roundHalfUp_of_lt_one hv hsize (hhalf.trans (by norm_num)), if_neg (not_le.2 hhalf)]

/-! ## Middle points of a sum -/

/-- The middle point between a grade and the next one. -/
def middlePoint {α : Type} [Number α] (count i : ℕ) : α :=
  roundToTenth (Number.ofNat (i + 1) * Number.ofNat 10 * Number.ofNat count /
    Number.ofNat gradeSteps)

theorem additionBreakpoints_eq {α : Type} [Number α] (count : ℕ) :
    (additionBreakpoints count : List α) =
      (List.range (gradeSteps - 1)).map (middlePoint count) := rfl

/-- What one range takes up of what can be reached, in tenths. -/
def rangeSize (count : ℕ) : ℚ := 100 * count / 6

theorem near_middleTenths (hi : i < gradeSteps - 1) (hpos : 0 < count) (hle : count ≤ 2 ^ 32) :
    Near 14 ((i + 1 : ℕ) * rangeSize count)
      (Number.ofNat (i + 1) * Number.ofNat 10 * Number.ofNat count / Number.ofNat gradeSteps *
        Number.ofNat 10 : Float) := by
  have hi : i < 5 := hi
  have hcount := sized_count hpos hle
  have hgrade : Sized 4 ((i + 1 : ℕ) : ℚ) := sized_natCast (by omega) (by omega)
  have hsteps : Sized 4 6 := sized_natCast (n := 6) (by decide) (by decide)
  have hpoints := (near_ofNat (n := i + 1) (by omega) (by omega)).mul near_ten (by decide)
    (by decide) (hgrade.mono (by decide)) (sized_ten.mono (by decide))
  have hreach := hpoints.mul (near_ofNat hpos (by omega)) (by decide) (by decide)
    ((hgrade.mul sized_ten).mono (by decide)) (hcount.mono (by decide))
  have hrange := hreach.div (near_ofNat (n := gradeSteps) (by decide) (by decide)) (by decide)
    (by decide) (((hgrade.mul sized_ten).mul hcount).mono (by decide)) (hsteps.mono (by decide))
  have htenths := hrange.mul near_ten (by decide) (by decide)
    ((((hgrade.mul sized_ten).mul hcount).div hsteps).mono (by decide))
    (sized_ten.mono (by decide))
  have hvalue : ((i + 1 : ℕ) : ℚ) * 10 * count / (gradeSteps : ℕ) * 10 =
      (i + 1 : ℕ) * rangeSize count := by
    unfold rangeSize gradeSteps
    push_cast
    ring
  rwa [hvalue] at htenths

theorem rangeSize_bounds (hpos : 0 < count) (hle : count ≤ 2 ^ 32) :
    16 ≤ rangeSize count ∧ rangeSize count ≤ 2 ^ 37 := by
  have hpos' : (1 : ℚ) ≤ count := by exact_mod_cast hpos
  have hle' : (count : ℚ) ≤ 2 ^ 32 := by exact_mod_cast hle
  unfold rangeSize
  constructor <;> linarith

/-- Over doubles a middle point is off its place by no more than a thousandth and two tenths. -/
theorem middlePoint_near (hi : i < gradeSteps - 1) (hpos : 0 < count) (hle : count ≤ 2 ^ 32) :
    ∃ u, Stands u (middlePoint count i : Float) ∧
      (i + 1 : ℕ) * rangeSize count * (999 / 1000) - 2 < u * 10 ∧
      u * 10 < (i + 1 : ℕ) * rangeSize count * (1001 / 1000) + 2 := by
  obtain ⟨hlow, hhigh⟩ := rangeSize_bounds hpos hle
  have hgrade : (1 : ℚ) ≤ (i + 1 : ℕ) := by exact_mod_cast Nat.le_add_left 1 i
  have hgrade' : ((i + 1 : ℕ) : ℚ) ≤ 5 := by exact_mod_cast (show i + 1 ≤ 5 from hi)
  have hplace : (16 : ℚ) ≤ (i + 1 : ℕ) * rangeSize count := by nlinarith
  have hplace' : (i + 1 : ℕ) * rangeSize count ≤ 2 ^ 40 := by nlinarith
  have hnear := near_middleTenths hi hpos hle
  generalize ((i + 1 : ℕ) : ℚ) * rangeSize count = q at hplace hplace' hnear ⊢
  have hsize : Sized 64 q := ⟨by norm_num; linarith, by norm_num; linarith⟩
  obtain ⟨v, hv, hvlow, hvhigh, hvsize⟩ := hnear.sized (by decide) hsize
  have hvpos := hvsize.pos
  have hslack : slack ^ 14 ≤ 1 + 1 / 10000 := by norm_num [slack]
  have hslack' : slack ^ 8 ≤ 1 + 1 / 10000 := by norm_num [slack]
  have hvlow : q ≤ v * (1 + 1 / 10000) := hvlow.trans (by gcongr)
  have hvhigh : v ≤ q * (1 + 1 / 10000) := hvhigh.trans (by gcongr)
  obtain ⟨w, hwlow, hwhigh, u, hu, hulow, huhigh⟩ :=
    near_roundToTenth hv (by linarith) (by linarith)
  have hwpos : (0 : ℚ) < w := by linarith
  have hunonneg := hu.nonneg
  have hulow : (w : ℚ) / 10 ≤ u * (1 + 1 / 10000) := hulow.trans (by gcongr)
  have huhigh : u ≤ w / 10 * (1 + 1 / 10000) := huhigh.trans (by gcongr)
  exact ⟨u, hu, by linarith, by linarith⟩

/-- Middle points are further apart than they are off. -/
theorem middlePoint_lt (hpos : 0 < count) (hle : count ≤ 2 ^ 32) (hij : i < j)
    (hj : j < gradeSteps - 1) :
    Number.lt (middlePoint count i : Float) (middlePoint count j) = true := by
  obtain ⟨u, hu, -, hhigh⟩ := middlePoint_near (hij.trans hj) hpos hle
  obtain ⟨w, hw, hlow, -⟩ := middlePoint_near hj hpos hle
  obtain ⟨hsize, -⟩ := rangeSize_bounds hpos hle
  have hstep : ((i + 1 : ℕ) : ℚ) + 1 ≤ (j + 1 : ℕ) := by exact_mod_cast Nat.succ_le_succ hij
  have hlast : ((j + 1 : ℕ) : ℚ) ≤ 5 := by exact_mod_cast (show j + 1 ≤ 5 from hj)
  rw [hu.lt_iff hw]
  nlinarith

/-- Over the rationals a middle point is its place, rounded to whole tenths. -/
theorem middlePoint_eq (count i : ℕ) :
    (middlePoint count i : Rat) = (⌊(i + 1 : ℕ) * rangeSize count + 1 / 2⌋ : Rat) / 10 := by
  have htenths : ((i + 1 : ℕ) : Rat) * 10 * count / (gradeSteps : ℕ) * 10 =
      (i + 1 : ℕ) * rangeSize count := by
    unfold rangeSize gradeSteps
    push_cast
    ring
  unfold middlePoint roundToTenth
  rw [Number.roundHalfUp_eq]
  show (⌊((i + 1 : ℕ) : Rat) * (10 : ℕ) * count / (gradeSteps : ℕ) * (10 : ℕ) + 1 / 2⌋ : Rat) /
    (10 : ℕ) = _
  rw [Nat.cast_ofNat, htenths]

theorem middlePoint_lt_exact (hpos : 0 < count) (hle : count ≤ 2 ^ 32) (hij : i < j) :
    Number.lt (middlePoint count i : Rat) (middlePoint count j) = true := by
  obtain ⟨hsize, -⟩ := rangeSize_bounds hpos hle
  have hstep : ((i + 1 : ℕ) : ℚ) + 1 ≤ (j + 1 : ℕ) := by exact_mod_cast Nat.succ_le_succ hij
  have hfloor : ⌊(i + 1 : ℕ) * rangeSize count + 1 / 2⌋ + 1 ≤
      ⌊(j + 1 : ℕ) * rangeSize count + 1 / 2⌋ := by
    rw [← Int.floor_add_one]
    refine Int.floor_mono ?_
    nlinarith
  have hfloor : (⌊(i + 1 : ℕ) * rangeSize count + 1 / 2⌋ : Rat) + 1 ≤
      ⌊(j + 1 : ℕ) * rangeSize count + 1 / 2⌋ := by exact_mod_cast hfloor
  rw [Number.lt_iff, middlePoint_eq, middlePoint_eq]
  linarith

end Template

/-! ## Arithmetic that grades sums -/

/-- Arithmetic in which the middle points of a sum cut the numbers into ranges, and every sum of
finite numbers falls into one of them. -/
class GradedSums (α : Type) [Number α] : Prop extends OrderedNumber α where
  isFinite_grade : ∀ grade < Template.gradeSteps, Number.isFinite (Number.ofNat grade : α) = true
  isFinite_middlePoint : ∀ {count i : ℕ}, 0 < count → count ≤ 2 ^ 32 →
    i < Template.gradeSteps - 1 → Number.isFinite (Template.middlePoint count i : α) = true
  middlePoint_lt : ∀ {count i j : ℕ}, 0 < count → count ≤ 2 ^ 32 → i < j →
    j < Template.gradeSteps - 1 →
      Number.lt (Template.middlePoint count i : α) (Template.middlePoint count j) = true
  sum_lt : ∀ {xs : List α} {p : α}, (∀ x ∈ xs, Number.isFinite x = true) →
    Number.isFinite p = true → Number.lt (Number.sum xs) p = !Number.le p (Number.sum xs)
  le_sum : ∀ {xs : List α} {p q : α}, (∀ x ∈ xs, Number.isFinite x = true) →
    Number.isFinite p = true → Number.isFinite q = true → Number.lt p q = true →
      Number.le q (Number.sum xs) = true → Number.le p (Number.sum xs) = true

instance : GradedSums Float where
  isFinite_grade _ h := (within_ofNat (Nat.lt_trans h (by decide))).isFinite
  isFinite_middlePoint hpos hle hi := by
    obtain ⟨u, hu, -⟩ := Template.middlePoint_near hi hpos hle
    exact hu.isFinite
  middlePoint_lt := Template.middlePoint_lt
  sum_lt hxs hp := (defined_sum hxs).lt_eq_not_le (defined_of_isFinite hp)
  le_sum hxs hp hq hpq hqx := (defined_sum hxs).le_of_le hp hq hpq hqx

instance : GradedSums Rat where
  isFinite_grade _ _ := rfl
  isFinite_middlePoint _ _ _ := rfl
  middlePoint_lt hpos hle hij _ := Template.middlePoint_lt_exact hpos hle hij
  sum_lt _ _ := OrderedNumber.lt_eq_not_le rfl rfl
  le_sum _ _ _ hpq hqx :=
    OrderedNumber.le_trans rfl rfl rfl (OrderedNumber.le_of_lt rfl rfl hpq) hqx

end Grading
