import Grading.Proofs.BinaryValues
import Grading.Proofs.DoubleAccuracy

/-!
# The nearest of the numbers that doubles stand for

No number has two canonical forms, and next to one there is nothing up to its neighbours:

    b.size = c.size → b.mantissa = c.mantissa ∧ b.exponent = c.exponent          (eq_of_size_eq)
    b.size < c.size → b.size + 2 ^ b.exponent ≤ c.size                                  (add_le)
    c.size < b.size → c.size ≤ b.size - b.gapBelow                                      (le_sub)

Below a power of two the neighbour is only half as far away as above.

`Nearest q b` says that a rational is rounded to `b`: no canonical number is nearer, and of two
equally near ones `b` is the one with the even mantissa.  There is one such number
(`Nearest.value_eq`), and what is no farther than half way to the neighbours of `b` is rounded to
`b` (`Covers.nearest`).
-/

namespace Grading

namespace Binary

variable {b c : Binary} {q : ℚ} {e : ℤ}

/-! ## Canonical forms -/

theorem Canonical.neg (hb : b.Canonical) : b.neg.Canonical :=
  ⟨hb.mantissa, hb.exponent, hb.full⟩

theorem canonical_zero : Canonical ⟨false, 0, -1074⟩ := ⟨by decide, by decide, .inr rfl⟩

/-- A size on the grid of a smaller exponent. -/
theorem size_eq_of_le (h : e ≤ c.exponent) :
    c.size = (c.mantissa * 2 ^ (c.exponent - e).toNat : ℕ) * 2 ^ e := by
  unfold size
  push_cast
  rw [mul_assoc, ← zpow_natCast, ← zpow_add₀ two_ne_zero]
  congr 2
  omega

/-- Whatever has a smaller exponent stays below the numbers with a mantissa of 53 bits. -/
theorem Canonical.size_le_of_lt (hc : c.Canonical) (h : c.exponent < e) :
    c.size ≤ (2 ^ 52 - 1 / 2) * 2 ^ e := by
  have hmantissa : (c.mantissa : ℚ) ≤ 2 ^ 53 - 1 := by
    have hlt := hc.mantissa
    rw [le_sub_iff_add_le]
    exact_mod_cast hlt
  have hstep : (2 : ℚ) ^ c.exponent ≤ 2 ^ (e - 1) :=
    (zpow_le_zpow_iff_right₀ one_lt_two).2 (by omega)
  calc c.size ≤ (2 ^ 53 - 1) * 2 ^ (e - 1) :=
        mul_le_mul hmantissa hstep (Double.two_zpow_pos _).le (by norm_num)
    _ = (2 ^ 52 - 1 / 2) * 2 ^ e := by
        rw [zpow_sub_one₀ two_ne_zero]
        ring

theorem Canonical.le_size (hb : b.Canonical) (h : -1074 < b.exponent) :
    2 ^ 52 * 2 ^ b.exponent ≤ b.size := by
  have hfull : 2 ^ 52 ≤ b.mantissa := hb.full.resolve_right (by omega)
  refine mul_le_mul_of_nonneg_right ?_ (Double.two_zpow_pos _).le
  exact_mod_cast hfull

/-- No number has two canonical forms. -/
theorem Canonical.eq_of_size_eq (hb : b.Canonical) (hc : c.Canonical) (h : b.size = c.size) :
    b.mantissa = c.mantissa ∧ b.exponent = c.exponent := by
  have hexponent : ∀ {b c : Binary}, b.Canonical → c.Canonical → b.size = c.size →
      ¬ b.exponent < c.exponent := by
    intro b c hb hc h hlt
    have hge := hb.exponent
    have hlow := hc.le_size (by omega)
    have hhigh := hb.size_le_of_lt hlt
    have hpos := Double.two_zpow_pos c.exponent
    linarith
  have heq : b.exponent = c.exponent :=
    le_antisymm (not_lt.1 (hexponent hc hb h.symm)) (not_lt.1 (hexponent hb hc h))
  refine ⟨?_, heq⟩
  unfold size at h
  rw [heq] at h
  exact_mod_cast mul_right_cancel₀ (Double.two_zpow_pos _).ne' h

/-! ## Neighbours -/

/-- How far away the neighbour below is. -/
def gapBelow (b : Binary) : ℚ :=
  if b.mantissa = 2 ^ 52 ∧ -1074 < b.exponent then 2 ^ (b.exponent - 1) else 2 ^ b.exponent

theorem gapBelow_pos (b : Binary) : 0 < b.gapBelow := by
  unfold gapBelow
  split <;> exact Double.two_zpow_pos _

/-- What is larger is larger by one in the last place. -/
theorem Canonical.add_le (hb : b.Canonical) (hc : c.Canonical) (h : b.size < c.size) :
    b.size + 2 ^ b.exponent ≤ c.size := by
  have hpos := Double.two_zpow_pos b.exponent
  have hge := hc.exponent
  by_cases he : b.exponent ≤ c.exponent
  · rw [size_eq_of_le he] at h ⊢
    have hlt := lt_of_mul_lt_mul_right h hpos.le
    have hnext : ((b.mantissa + 1 : ℕ) : ℚ) ≤
        (c.mantissa * 2 ^ (c.exponent - b.exponent).toNat : ℕ) := by
      exact_mod_cast hlt
    calc b.size + 2 ^ b.exponent = ((b.mantissa + 1 : ℕ) : ℚ) * 2 ^ b.exponent := by
          unfold size
          push_cast
          ring
      _ ≤ _ := mul_le_mul_of_nonneg_right hnext hpos.le
  · have hlow := hb.le_size (by omega)
    have hhigh := hc.size_le_of_lt (not_le.1 he)
    linarith

/-- What is smaller is smaller by the gap below. -/
theorem Canonical.le_sub (hb : b.Canonical) (hc : c.Canonical) (h : c.size < b.size) :
    c.size ≤ b.size - b.gapBelow := by
  have hpos := Double.two_zpow_pos b.exponent
  have hge := hc.exponent
  have hgap : b.gapBelow ≤ 2 ^ b.exponent := by
    unfold gapBelow
    split
    · exact (zpow_le_zpow_iff_right₀ one_lt_two).2 (by omega)
    · exact le_rfl
  by_cases he : b.exponent ≤ c.exponent
  · rw [size_eq_of_le he] at h ⊢
    have hlt := lt_of_mul_lt_mul_right h hpos.le
    have hnext : ((c.mantissa * 2 ^ (c.exponent - b.exponent).toNat : ℕ) : ℚ) ≤ b.mantissa - 1 := by
      rw [le_sub_iff_add_le]
      exact_mod_cast hlt
    calc _ ≤ ((b.mantissa : ℚ) - 1) * 2 ^ b.exponent := mul_le_mul_of_nonneg_right hnext hpos.le
      _ = b.size - 2 ^ b.exponent := by
          unfold size
          ring
      _ ≤ b.size - b.gapBelow := by linarith
  · have hhigh := hc.size_le_of_lt (not_le.1 he)
    by_cases hpower : b.mantissa = 2 ^ 52
    · have hbelow : b.gapBelow = 2 ^ b.exponent / 2 := by
        unfold gapBelow
        rw [if_pos ⟨hpower, by omega⟩, zpow_sub_one₀ two_ne_zero]
        ring
      have hsize : b.size = 2 ^ 52 * 2 ^ b.exponent := by
        unfold size
        rw [hpower]
        push_cast
        rfl
      linarith
    · have hfull : 2 ^ 52 + 1 ≤ b.mantissa := by
        have := hb.full
        omega
      have hlow : (2 ^ 52 + 1) * 2 ^ b.exponent ≤ b.size := by
        refine mul_le_mul_of_nonneg_right ?_ hpos.le
        exact_mod_cast hfull
      linarith

/-- The neighbour above an even mantissa has an odd one. -/
theorem Canonical.odd_above (hb : b.Canonical) (hc : c.Canonical) (heven : b.mantissa % 2 = 0)
    (h : c.size = b.size + 2 ^ b.exponent) : c.mantissa % 2 = 1 := by
  have hlt := hb.mantissa
  have hnext : Canonical ⟨false, b.mantissa + 1, b.exponent⟩ :=
    ⟨show b.mantissa + 1 < 2 ^ 53 by omega, hb.exponent,
      hb.full.imp_left fun h => h.trans (Nat.le_succ _)⟩
  have hsize : c.size = size ⟨false, b.mantissa + 1, b.exponent⟩ := by
    rw [h]
    unfold size
    push_cast
    ring
  have hmantissa : c.mantissa = b.mantissa + 1 := (hc.eq_of_size_eq hnext hsize).1
  omega

/-- And so has the neighbour below it. -/
theorem Canonical.odd_below (hb : b.Canonical) (hc : c.Canonical) (heven : b.mantissa % 2 = 0)
    (h : c.size = b.size - b.gapBelow) : c.mantissa % 2 = 1 := by
  have hlt := hb.mantissa
  by_cases hpower : b.mantissa = 2 ^ 52 ∧ -1074 < b.exponent
  · have hlast : Canonical ⟨false, 2 ^ 53 - 1, b.exponent - 1⟩ :=
      ⟨show 2 ^ 53 - 1 < 2 ^ 53 by decide, show -1074 ≤ b.exponent - 1 by omega,
        .inl (show 2 ^ 52 ≤ 2 ^ 53 - 1 by decide)⟩
    have hsize : c.size = size ⟨false, 2 ^ 53 - 1, b.exponent - 1⟩ := by
      unfold gapBelow at h
      rw [if_pos hpower] at h
      rw [h]
      unfold size
      rw [hpower.1, zpow_sub_one₀ two_ne_zero]
      push_cast
      ring
    have hmantissa : c.mantissa = 2 ^ 53 - 1 := (hc.eq_of_size_eq hlast hsize).1
    omega
  · have hgap : b.gapBelow = 2 ^ b.exponent := if_neg hpower
    have hpos : 0 < b.mantissa := by
      refine Nat.pos_of_ne_zero fun hzero => ?_
      have hnonneg := c.size_nonneg
      have hstep := Double.two_zpow_pos b.exponent
      rw [h, hgap] at hnonneg
      unfold size at hnonneg
      rw [hzero, Nat.cast_zero, zero_mul] at hnonneg
      linarith
    have hprevious : Canonical ⟨false, b.mantissa - 1, b.exponent⟩ := by
      refine ⟨show b.mantissa - 1 < 2 ^ 53 by omega, hb.exponent, ?_⟩
      show 2 ^ 52 ≤ b.mantissa - 1 ∨ b.exponent = -1074
      have hfull := hb.full
      have hge := hb.exponent
      omega
    have hsize : c.size = size ⟨false, b.mantissa - 1, b.exponent⟩ := by
      rw [h, hgap]
      unfold size
      rw [Nat.cast_sub hpos]
      push_cast
      ring
    have hmantissa : c.mantissa = b.mantissa - 1 := (hc.eq_of_size_eq hprevious hsize).1
    omega

/-! ## The nearest number -/

/-- A rational is rounded to the number: of those that doubles could stand for if their exponents
were not limited none is nearer, and if another is as near, the even mantissa is preferred. -/
def Nearest (q : ℚ) (b : Binary) : Prop :=
  ∀ c : Binary, c.Canonical → c.value = b.value ∨ |q - b.value| < |q - c.value| ∨
    |q - b.value| = |q - c.value| ∧ b.mantissa % 2 = 0 ∧ c.mantissa % 2 = 1

theorem nearest_value (b : Binary) : Nearest b.value b := by
  intro c _
  by_cases h : c.value = b.value
  · exact .inl h
  · refine .inr (.inl ?_)
    rw [sub_self, abs_zero]
    exact abs_pos.2 (sub_ne_zero.2 (Ne.symm h))

/-- A rational is rounded to one number. -/
theorem Nearest.value_eq (h : Nearest q b) (h' : Nearest q c) (hb : b.Canonical)
    (hc : c.Canonical) : b.value = c.value := by
  rcases h c hc with heq | hlt | ⟨heq, heven, hodd⟩
  · exact heq.symm
  · rcases h' b hb with heq' | hlt' | ⟨heq', -⟩
    · exact heq'
    · exact absurd hlt' hlt.asymm
    · exact absurd heq' hlt.ne'
  · rcases h' b hb with heq' | hlt' | ⟨-, heven', -⟩
    · exact heq'
    · exact absurd heq hlt'.ne'
    · omega

theorem Nearest.neg (h : Nearest q b) : Nearest (-q) b.neg := by
  intro c hc
  have hflip : ∀ v w : ℚ, v = -w → |q - v| = |-q - w| := by
    rintro _ w rfl
    rw [← abs_neg]
    ring_nf
  have hb := hflip b.value b.neg.value (by rw [value_neg, neg_neg])
  have hcn := hflip c.neg.value c.value (value_neg c)
  have hnear := h c.neg hc.neg
  rw [hb, hcn, value_neg, neg_eq_iff_eq_neg, ← value_neg] at hnear
  exact hnear

/-! ## Half way to the neighbours -/

/-- From half way to the neighbour below to half way to the neighbour above; the ends belong to
even mantissas. -/
structure Covers (b : Binary) (q : ℚ) : Prop where
  low : b.size - b.gapBelow / 2 ≤ q
  high : q ≤ b.size + 2 ^ b.exponent / 2
  even : q = b.size - b.gapBelow / 2 ∨ q = b.size + 2 ^ b.exponent / 2 → b.mantissa % 2 = 0

section

variable {v w : ℚ}

theorem closer_of_lt (h : v < w) (hq : 2 * q < v + w) : |q - v| < |q - w| := by
  rw [abs_sub_comm q w, abs_of_pos (show 0 < w - q by linarith)]
  exact abs_lt.2 ⟨by linarith, by linarith⟩

theorem closer_of_gt (h : w < v) (hq : v + w < 2 * q) : |q - v| < |q - w| := by
  rw [abs_of_pos (show 0 < q - w by linarith)]
  exact abs_lt.2 ⟨by linarith, by linarith⟩

theorem as_close (hq : 2 * q = v + w) : |q - v| = |q - w| := by
  rw [show q - v = -(q - w) by linarith, abs_neg]

end

/-- Of numbers without a sign, none is nearer to what a number covers. -/
theorem Covers.nearest_size (h : b.Covers q) (hb : b.Canonical) (hc : c.Canonical) :
    c.size = b.size ∨ |q - b.size| < |q - c.size| ∨
      |q - b.size| = |q - c.size| ∧ b.mantissa % 2 = 0 ∧ c.mantissa % 2 = 1 := by
  obtain ⟨hlow, hhigh, heven⟩ := h
  rcases lt_trichotomy c.size b.size with hlt | heq | hlt
  · have hgap := hb.le_sub hc hlt
    refine .inr ?_
    rcases (show b.size + c.size ≤ 2 * q by linarith).lt_or_eq with hq | hq
    · exact .inl (closer_of_gt hlt hq)
    · have heven := heven (.inl (by linarith))
      exact .inr ⟨as_close hq.symm, heven, hb.odd_below hc heven (by linarith)⟩
  · exact .inl heq
  · have hgap := hb.add_le hc hlt
    refine .inr ?_
    rcases (show 2 * q ≤ b.size + c.size by linarith).lt_or_eq with hq | hq
    · exact .inl (closer_of_lt hlt hq)
    · have heven := heven (.inr (by linarith))
      exact .inr ⟨as_close hq, heven, hb.odd_above hc heven (by linarith)⟩

/-- Zero is no nearer. -/
theorem Covers.abs_sub_le (h : b.Covers q) (hb : b.Canonical) (hq : 0 ≤ q) :
    |q - b.size| ≤ q := by
  have hzero : size ⟨false, 0, -1074⟩ = 0 := by
    unfold size
    rw [Nat.cast_zero, zero_mul]
  have hnear := h.nearest_size hb canonical_zero
  rw [hzero, sub_zero, abs_of_nonneg hq] at hnear
  rcases hnear with heq | hlt | ⟨heq, -⟩
  · rw [← heq, sub_zero, abs_of_nonneg hq]
  · exact hlt.le
  · exact heq.le

/-- Negative numbers are farther away than zero. -/
theorem Covers.nearest_of_positive (h : b.Covers q) (hb : b.Canonical) (hq : 0 ≤ q)
    (hn : b.negative = false) : Nearest q b := by
  have hvalue := value_of_positive hn
  intro c hc
  rw [hvalue]
  by_cases hcvalue : c.value = c.size
  · rw [hcvalue]
    exact h.nearest_size hb hc
  · have hcneg : c.value = -c.size := by
      rw [value_eq] at hcvalue ⊢
      split
      · rfl
      · next hcn => exact absurd (if_neg hcn) hcvalue
    have hpos : 0 < c.size := by
      refine lt_of_le_of_ne c.size_nonneg fun hzero => hcvalue ?_
      rw [hcneg, ← hzero, neg_zero]
    have hle := h.abs_sub_le hb hq
    refine .inr (.inl (hle.trans_lt ?_))
    rw [hcneg, sub_neg_eq_add, abs_of_pos (by linarith)]
    linarith

/-- What a number covers is rounded to it. -/
theorem Covers.nearest (h : b.Covers q) (hb : b.Canonical) (hq : 0 ≤ q) :
    Nearest (if b.negative then -q else q) b := by
  cases hn : b.negative with
  | false => exact h.nearest_of_positive hb hq hn
  | true =>
    have hcovers : b.neg.Covers q := ⟨h.low, h.high, h.even⟩
    have hnear := (hcovers.nearest_of_positive hb.neg hq (by rw [neg, hn]; rfl)).neg
    rwa [Binary.neg_neg] at hnear

/-- A number covers itself. -/
theorem covers_size (b : Binary) : b.Covers b.size := by
  have hgap := b.gapBelow_pos
  have hpos := Double.two_zpow_pos b.exponent
  refine ⟨by linarith, by linarith, fun h => ?_⟩
  rcases h with h | h <;> linarith

end Binary

end Grading
