import Grading.Proofs.Limits

/-!
# The ranges of a stepper

A stepper without flaws cuts the finite numbers into its ranges.  The range that is found by looking
for the first middle point above a number is the number of middle points that are not:

    s.range x = s.middlePoints.countP fun p => Number.le p x                    (range_eq_countP)
    x lies between the middle points around b ↔ b = s.range x                  (holds_iff_eq_range)

That needs no more of the numbers than that the finite ones are in a total order, in which the
middle points ascend.
-/

namespace Grading

/-! ## Lists that are reached from the front -/

section

variable {β : Type} {reached above : β → Bool} {l : List β} {i : Nat} {p : β}

/-- If what comes before a reached entry is reached, the reached entries are the first ones. -/
theorem reached_iff_lt_countP
    (hfront : l.Pairwise fun p q => reached q = true → reached p = true) (hi : l[i]? = some p) :
    reached p = true ↔ i < l.countP reached := by
  induction l generalizing i with
  | nil => simp at hi
  | cons q l ih =>
    obtain ⟨hq, hl⟩ := List.pairwise_cons.1 hfront
    by_cases hreached : reached q = true
    · rw [List.countP_cons_of_pos hreached]
      cases i with
      | zero =>
        obtain rfl : q = p := by simpa using hi
        exact iff_of_true hreached (Nat.succ_pos _)
      | succ i =>
        rw [ih hl (by simpa using hi)]
        omega
    · have hnone : ∀ r ∈ l, ¬ reached r = true := fun r hr h => hreached (hq r hr h)
      rw [List.countP_cons_of_neg hreached, List.countP_eq_zero.2 hnone]
      refine iff_of_false ?_ (Nat.not_lt_zero i)
      rcases List.mem_cons.1 (List.mem_of_getElem? hi) with rfl | hp
      · exact hreached
      · exact hnone p hp

/-- The first entry that is not reached comes after all that are. -/
theorem findIdx_eq_countP (habove : ∀ p ∈ l, above p = !reached p)
    (hfront : l.Pairwise fun p q => reached q = true → reached p = true) :
    l.findIdx above = l.countP reached := by
  induction l with
  | nil => rfl
  | cons q l ih =>
    obtain ⟨hq, hl⟩ := List.pairwise_cons.1 hfront
    obtain ⟨hqabove, hlabove⟩ := List.forall_mem_cons.1 habove
    rw [List.findIdx_cons, hqabove]
    by_cases hreached : reached q = true
    · rw [List.countP_cons_of_pos hreached, hreached, ih hlabove hl]
      rfl
    · have hnone : ∀ r ∈ l, ¬ reached r = true := fun r hr h => hreached (hq r hr h)
      rw [List.countP_cons_of_neg hreached, List.countP_eq_zero.2 hnone,
        Bool.eq_false_iff.2 hreached]
      rfl

end

/-! ## Ranges -/

variable {α : Type} [Number α]

namespace StepperSettings

/-- The number lies in the range: the middle point before it, if there is one, is not above the
number, and the one behind it, if there is one, is. -/
structure Holds (s : StepperSettings α) (b : Nat) (x : α) : Prop where
  reaches : b = 0 ∨ ∃ p, s.middlePoints[b - 1]? = some p ∧ Number.le p x = true
  stays : b = s.steps.toNat - 1 ∨ ∃ p, s.middlePoints[b]? = some p ∧ Number.lt x p = true

variable {s : StepperSettings α} {x y p : α} {b i : Nat}

theorem Sound.range_lt_steps (hs : s.Sound) (x : α) : s.range x < s.steps.toNat := by
  rw [← hs.outputs]
  exact hs.range_lt x

/-- What a number gets is the output of its range, or the number itself. -/
theorem Sound.output_of_range (hs : s.Sound) (x : α) :
    (∃ y, s.outputs[s.range x]? = some (.value y) ∧ s.output x = y) ∨
      s.outputs[s.range x]? = some .same ∧ s.output x = x := by
  have hsome := List.getElem?_eq_getElem (hs.range_lt x)
  unfold output
  cases ho : s.outputs[s.range x]? with
  | none =>
    rw [ho] at hsome
    cases hsome
  | some o =>
    cases o with
    | value y => exact .inl ⟨y, rfl, rfl⟩
    | same => exact .inr ⟨rfl, rfl⟩

variable [OrderedNumber α]

/-- With a middle point a number reaches all those before it. -/
theorem Sound.reached_front (hs : s.Sound) (hx : Number.isFinite x = true) :
    s.middlePoints.Pairwise fun p q => Number.le q x = true → Number.le p x = true := by
  refine hs.ascending.imp_of_mem fun {p q} hp hq hpq hqx => ?_
  have hp := hs.middleFinite p hp
  have hq := hs.middleFinite q hq
  exact OrderedNumber.le_trans hp hq hx (OrderedNumber.le_of_lt hp hq hpq) hqx

theorem Sound.range_eq_countP (hs : s.Sound) (hx : Number.isFinite x = true) :
    s.range x = s.middlePoints.countP fun p => Number.le p x := by
  rw [range_eq_findIdx]
  refine findIdx_eq_countP (fun p hp => ?_) (hs.reached_front hx)
  exact OrderedNumber.lt_eq_not_le hx (hs.middleFinite p hp)

/-- The middle points that a number reaches are those before its range. -/
theorem Sound.reached_iff_lt_range (hs : s.Sound) (hx : Number.isFinite x = true)
    (hi : s.middlePoints[i]? = some p) : Number.le p x = true ↔ i < s.range x := by
  rw [hs.range_eq_countP hx]
  have hfront := hs.reached_front hx
  exact reached_iff_lt_countP hfront hi

/-- A number lies in its range and in no other. -/
theorem Sound.holds_iff_eq_range (hs : s.Sound) (hx : Number.isFinite x = true) :
    s.Holds b x ↔ b = s.range x := by
  have hsteps := hs.range_lt_steps x
  have hcount := hs.middlePoints
  have hreached : (∃ p, s.middlePoints[b - 1]? = some p ∧ Number.le p x = true) ↔
      b - 1 < s.middlePoints.length ∧ b - 1 < s.range x := by
    constructor
    · rintro ⟨p, hp, hle⟩
      exact ⟨(List.getElem?_eq_some_iff.1 hp).1, (hs.reached_iff_lt_range hx hp).1 hle⟩
    · rintro ⟨hlt, hrange⟩
      have hp := List.getElem?_eq_getElem hlt
      exact ⟨_, hp, (hs.reached_iff_lt_range hx hp).2 hrange⟩
  have hmissed : (∃ p, s.middlePoints[b]? = some p ∧ Number.lt x p = true) ↔
      b < s.middlePoints.length ∧ ¬ b < s.range x := by
    constructor
    · rintro ⟨p, hp, hlt⟩
      have hfinite := hs.middleFinite p (List.mem_of_getElem? hp)
      refine ⟨(List.getElem?_eq_some_iff.1 hp).1, ?_⟩
      rwa [← hs.reached_iff_lt_range hx hp, ← OrderedNumber.lt_iff_not_le hx hfinite]
    · rintro ⟨hlt, hrange⟩
      have hp := List.getElem?_eq_getElem hlt
      have hfinite := hs.middleFinite _ (List.getElem_mem hlt)
      rw [← hs.reached_iff_lt_range hx hp, ← OrderedNumber.lt_iff_not_le hx hfinite] at hrange
      exact ⟨_, hp, hrange⟩
  constructor
  · rintro ⟨hreaches, hstays⟩
    rw [hreached] at hreaches
    rw [hmissed] at hstays
    omega
  · rintro rfl
    refine ⟨?_, ?_⟩
    · rw [hreached]
      omega
    · rw [hmissed]
      omega

/-- A number that is equal to a middle point lies in the range behind it. -/
theorem Sound.range_of_middlePoint (hs : s.Sound) (hx : Number.isFinite x = true)
    (hi : s.middlePoints[i]? = some p) (hpx : Number.le p x = true) (hxp : Number.le x p = true) :
    s.range x = i + 1 := by
  have hreached := (hs.reached_iff_lt_range hx hi).1 hpx
  have hnext : ¬ i + 1 < s.range x := by
    intro hlt
    have hlength : i + 1 < s.middlePoints.length := by
      have hsteps := hs.range_lt_steps x
      have hcount := hs.middlePoints
      omega
    have hq := List.getElem?_eq_getElem hlength
    have hqx := (hs.reached_iff_lt_range hx hq).2 hlt
    have hp := hs.middleFinite p (List.mem_of_getElem? hi)
    have hqfinite := hs.middleFinite _ (List.mem_of_getElem? hq)
    obtain ⟨hilt, rfl⟩ := List.getElem?_eq_some_iff.1 hi
    have hascends := List.pairwise_iff_getElem.1 hs.ascending i (i + 1) hilt hlength (by omega)
    rw [OrderedNumber.lt_iff_not_le hp hqfinite] at hascends
    exact hascends (OrderedNumber.le_trans hqfinite hx hp hqx hxp)
  omega

/-- A number that is not smaller lies in no range before. -/
theorem Sound.range_mono (hs : s.Sound) (hx : Number.isFinite x = true)
    (hy : Number.isFinite y = true) (h : Number.le x y = true) : s.range x ≤ s.range y := by
  rw [hs.range_eq_countP hx, hs.range_eq_countP hy]
  refine List.countP_mono_left fun p hp hpx => ?_
  exact OrderedNumber.le_trans (hs.middleFinite p hp) hx hy hpx h

end StepperSettings

/-! ## Top theorem -/

/-- The middle points of a stepper cut the finite numbers into its ranges. -/
structure StepperSettings.Partitions [OrderedNumber α] (s : StepperSettings α) : Prop where
  /-- The range of a number is how many middle points it reaches. -/
  counts : ∀ x, Number.isFinite x = true →
    s.range x = s.middlePoints.countP fun p => Number.le p x
  /-- It is the only range that the number lies in. -/
  holds_iff : ∀ x, Number.isFinite x = true → ∀ b, s.Holds b x ↔ b = s.range x
  /-- A number that is equal to a middle point lies in the range behind it. -/
  middlePoint : ∀ x, Number.isFinite x = true → ∀ i p, s.middlePoints[i]? = some p →
    Number.le p x = true → Number.le x p = true → s.range x = i + 1
  range_lt : ∀ x, Number.isFinite x = true → s.range x < s.steps.toNat
  /-- Each range has an output. -/
  outputs : ∀ b < s.steps.toNat, b < s.outputs.length
  /-- A number gets the output of its range, or stays as it is if that says so. -/
  output : ∀ x, Number.isFinite x = true →
    (∃ y, s.outputs[s.range x]? = some (.value y) ∧ s.output x = y) ∨
      s.outputs[s.range x]? = some .same ∧ s.output x = x
  mono : ∀ x y, Number.isFinite x = true → Number.isFinite y = true → Number.le x y = true →
    s.range x ≤ s.range y

/-- A stepper in which nothing is wrong cuts up the finite numbers. -/
theorem stepper_partitions [OrderedNumber α] {s : StepperSettings α} (h : s.flaws = []) :
    s.Partitions := by
  have hs := flaws_eq_nil_iff.1 h
  refine ⟨fun x hx => hs.range_eq_countP hx, fun x hx b => hs.holds_iff_eq_range hx,
    fun x hx i p hi => hs.range_of_middlePoint hx hi, fun x _ => hs.range_lt_steps x,
    fun b hb => ?_, fun x _ => hs.output_of_range x, fun x y hx hy => hs.range_mono hx hy⟩
  rwa [hs.outputs]

/-- Below zero, from zero to fifty, and from fifty on; the middle point is the zero of the other
sign. -/
def aroundZero : StepperSettings Float where
  steps := 3
  outputs := [.value 1, .same, .value 6]
  middlePoints := [-0.0, 50]

/-- The positive zero is equal to the negative one, so it lies in the range behind it. -/
theorem stepper_partitions_aroundZero : aroundZero.flaws = [] ∧ aroundZero.Partitions ∧
    aroundZero.range 0 = 1 ∧ ¬ aroundZero.Holds 0 0 ∧ aroundZero.range 0 ≤ aroundZero.range 50 := by
  have hflaws : aroundZero.flaws = [] := by decide
  have hparts := stepper_partitions hflaws
  have hzero := hparts.middlePoint 0 (by decide) 0 (-0.0) rfl (by decide) (by decide)
  refine ⟨hflaws, hparts, hzero, ?_, hparts.mono 0 50 (by decide) (by decide) (by decide)⟩
  rw [hparts.holds_iff 0 (by decide), hzero]
  decide

end Grading
