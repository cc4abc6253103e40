import Mathlib.Data.Rat.Floor
import Mathlib.Tactic.Positivity
import Mathlib.Tactic.Ring
import Grading.Number.Binary

/-!
# The number that a binary form writes

A binary form is a rational number, and its whole part is looked for in that number:

    b.floor = ⌊b.value⌋                                                           (floor_eq)
    b.whole? = some z ↔ b.value = z                                     (whole?_eq_some_iff)
-/

namespace Grading.Binary

variable {b : Binary} {z : ℤ}

/-! ## Values -/

/-- The number without its sign. -/
def size (b : Binary) : ℚ := b.mantissa * 2 ^ b.exponent

/-- The number. -/
def value (b : Binary) : ℚ := b.signed * 2 ^ b.exponent

theorem value_eq (b : Binary) : b.value = if b.negative then -b.size else b.size := by
  unfold value size signed
  split
  · push_cast
    ring
  · push_cast
    ring

theorem value_of_positive (h : b.negative = false) : b.value = b.size := by
  rw [value_eq, h, if_neg Bool.false_ne_true]

theorem size_nonneg (b : Binary) : 0 ≤ b.size :=
  mul_nonneg (Nat.cast_nonneg _) (zpow_nonneg (by norm_num) _)

theorem abs_value (b : Binary) : |b.value| = b.size := by
  rw [value_eq]
  split
  · rw [abs_neg, abs_of_nonneg b.size_nonneg]
  · exact abs_of_nonneg b.size_nonneg

/-- The same number with the other sign. -/
def neg (b : Binary) : Binary := { b with negative := !b.negative }

protected theorem neg_neg (b : Binary) : b.neg.neg = b := by
  unfold neg
  rw [Bool.not_not]

theorem value_neg (b : Binary) : b.neg.value = -b.value := by
  rw [value_eq, value_eq]
  show (if (!b.negative) = true then -b.size else b.size) = _
  cases b.negative <;> simp

theorem natAbs_signed (b : Binary) : b.signed.natAbs = b.mantissa := by
  unfold signed
  split <;> simp

/-! ## Whole parts -/

theorem zpow_eq_div {a : ℚ} (ha : a ≠ 0) (e : ℤ) : a ^ e = a ^ e.toNat / a ^ (-e).toNat := by
  rw [← zpow_natCast, ← zpow_natCast, ← zpow_sub₀ ha]
  congr 1
  omega

theorem value_eq_div (b : Binary) :
    b.value = (b.signed * 2 ^ b.exponent.toNat : ℤ) / (b.denominator : ℕ) := by
  have hdenominator : (b.denominator : ℚ) = 2 ^ (-b.exponent).toNat := by
    show ((2 ^ (-b.exponent).toNat : ℕ) : ℚ) = _
    rw [Nat.cast_pow, Nat.cast_ofNat]
  unfold value
  rw [zpow_eq_div two_ne_zero, hdenominator]
  push_cast
  ring

theorem floor_eq (b : Binary) : b.floor = ⌊b.value⌋ := by
  rw [value_eq_div, Rat.floor_intCast_div_natCast]
  rfl

/-- The denominator divides the mantissa exactly of the integers. -/
theorem mod_denominator_eq_zero_iff :
    b.mantissa % b.denominator = 0 ↔ ∃ z : ℤ, b.value = z := by
  have hpos : 0 < b.denominator := Nat.two_pow_pos _
  constructor
  · intro hmod
    have hdvd : (b.denominator : ℤ) ∣ b.signed :=
      Int.natCast_dvd.2 (b.natAbs_signed ▸ Nat.dvd_of_mod_eq_zero hmod)
    obtain ⟨z, hz⟩ := hdvd.mul_right (2 ^ b.exponent.toNat)
    refine ⟨z, ?_⟩
    rw [value_eq_div, hz, Int.cast_mul, Int.cast_natCast,
      mul_div_cancel_left₀ _ (Nat.cast_ne_zero.2 hpos.ne')]
  · rintro ⟨z, hz⟩
    rw [value_eq_div, div_eq_iff (Nat.cast_ne_zero.2 hpos.ne')] at hz
    have hint : b.signed * 2 ^ b.exponent.toNat = z * b.denominator := by exact_mod_cast hz
    rcases le_total 0 b.exponent with hexponent | hexponent
    · have hone : b.denominator = 1 := by
        show 2 ^ (-b.exponent).toNat = 1
        rw [Int.toNat_of_nonpos (by omega), pow_zero]
      rw [hone, Nat.mod_one]
    · rw [Int.toNat_of_nonpos hexponent, pow_zero, mul_one] at hint
      refine Nat.mod_eq_zero_of_dvd (b.natAbs_signed ▸ Int.natCast_dvd.1 ?_)
      exact ⟨z, by rw [hint, mul_comm]⟩

/-- A number is whole if it is an integer. -/
theorem whole?_eq_some_iff : b.whole? = some z ↔ b.value = z := by
  constructor
  · intro h
    unfold whole? at h
    split at h
    · next hmod =>
      obtain ⟨z', hz'⟩ := mod_denominator_eq_zero_iff.1 hmod
      rw [floor_eq, hz', Int.floor_intCast, Option.some.injEq] at h
      rw [hz', h]
    · cases h
  · intro h
    unfold whole?
    rw [if_pos (mod_denominator_eq_zero_iff.2 ⟨z, h⟩), floor_eq, h, Int.floor_intCast]

end Grading.Binary
