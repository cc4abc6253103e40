import Mathlib
import Grading.Proofs.DoubleRange

/-!
# How accurate double arithmetic is

Every operation rounds once, and that changes a number of ordinary size by no more than the factor
`1 + 2 ^ -52`.  `Near k q x` says that the double `x` is off `q` by no more than `k` such factors,
so the roundings along a formula are counted:

    0 < n < 2 ^ 53 → Near 2 n (Float.ofNat n)                                     (near_ofNat)
    Near j q x → Near k r y → Near (j + k + 1) (q * r) (x * y)                      (Near.mul)
    Near j q x → Near k r y → Near (j + k + 1) (q / r) (x / y)                      (Near.div)
    Near j q x → Near k r y → Near (j + k + 1) (q + r) (x + y)                      (Near.add)

`Stands v x` says that `x` is exactly `v`; the numbers are of ordinary size (`Sized`) and have no
sign.
-/

namespace Grading

open Float.Model (Format UnpackedFloat totalExponent)
open Float.Model.UnpackedFloat (Sign Accuracy ExtendedMantissa unpackExponent unpackMantissa
  roundWithAccuracy decreaseExponent)

/-- The form that doubles have, but that the exponent may be as large as it likes. -/
structure Binary.Canonical (b : Binary) : Prop where
  mantissa : b.mantissa < 2 ^ 53
  exponent : -1074 ≤ b.exponent
  full : 2 ^ 52 ≤ b.mantissa ∨ b.exponent = -1074

namespace Double

/-! ## What doubles stand for -/

/-- The double is finite and has no sign, and that is the number that it stands for. -/
def Stands (v : ℚ) (x : Float) : Prop :=
  ∃ b, Binary.ofFloat? x = some b ∧ b.negative = false ∧ (b.mantissa : ℚ) * 2 ^ b.exponent = v

variable {x y : Float} {v w q r : ℚ} {j k : ℕ}

theorem Stands.isFinite (h : Stands v x) : Number.isFinite x = true := by
  obtain ⟨b, hb, -⟩ := h
  exact isFinite_iff.2 ⟨b, hb⟩

theorem two_zpow_pos (e : ℤ) : (0 : ℚ) < 2 ^ e := zpow_pos (by norm_num) e

theorem Stands.nonneg (h : Stands v x) : 0 ≤ v := by
  obtain ⟨b, -, -, rfl⟩ := h
  exact mul_nonneg (Nat.cast_nonneg _) (two_zpow_pos _).le

/-- Only the smallest exponent comes with a mantissa of fewer than 53 bits. -/
theorem log2_mantissa {b : Binary} (h : Binary.ofFloat? x = some b) :
    b.mantissa.log2 = 52 ∨ b.mantissa < 2 ^ 52 ∧ b.exponent = -1074 := by
  have hf : fraction x < 2 ^ 52 := fraction_lt x
  rw [ofFloat?_eq] at h
  split at h
  · exact nomatch h
  · split at h <;> obtain rfl := Option.some.inj h
    · exact .inr ⟨hf, rfl⟩
    · refine .inl ((Nat.log2_eq_iff (by simp)).2 ?_)
      show 2 ^ 52 ≤ 2 ^ 52 + fraction x ∧ 2 ^ 52 + fraction x < 2 ^ 53
      omega

theorem exponent_ge {b : Binary} (h : Binary.ofFloat? x = some b) : -1074 ≤ b.exponent := by
  rw [ofFloat?_eq] at h
  split at h
  · exact nomatch h
  · split at h <;> obtain rfl := Option.some.inj h
    · exact le_refl _
    · show (-1074 : ℤ) ≤ (biased x : ℤ) - 1075
      omega

theorem canonical_of_ofFloat? {b : Binary} (h : Binary.ofFloat? x = some b) : b.Canonical := by
  refine ⟨mantissa_lt h, exponent_ge h, ?_⟩
  rcases log2_mantissa h with hlog | ⟨-, he⟩
  · refine .inl ((Nat.log2_eq_iff ?_).1 hlog).1
    intro hzero
    rw [hzero] at hlog
    exact absurd hlog (by decide)
  · exact .inr he

theorem exponent_le {b : Binary} (h : Binary.ofFloat? x = some b) : b.exponent ≤ 971 := by
  obtain ⟨b', hb', hle⟩ := within_of_isFinite (isFinite_iff.2 ⟨b, h⟩)
  obtain rfl := Option.some.inj (h.symm.trans hb')
  exact hle

/-- A double that is not tiny has a mantissa of 53 bits. -/
theorem Stands.unpack (h : Stands v x) (hv : 2 ^ (-1022 : ℤ) ≤ v) : ∃ m e, ∃ hm : 0 < m,
    x.toModel.unpack = .finite .positive m e hm ∧ m.log2 = 52 ∧ -1074 ≤ e ∧ e ≤ 971 ∧
      (m : ℚ) * 2 ^ e = v := by
  obtain ⟨b, hb, hn, rfl⟩ := h
  have hlog : b.mantissa.log2 = 52 := by
    refine (log2_mantissa hb).resolve_right fun ⟨hm, he⟩ => ?_
    rw [he] at hv
    have hlt : (b.mantissa : ℚ) < 2 ^ (52 : ℤ) := by exact_mod_cast hm
    have hsmall := mul_lt_mul_of_pos_right hlt (two_zpow_pos (-1074))
    rw [← zpow_add₀ two_ne_zero, show (52 : ℤ) + -1074 = -1022 by norm_num] at hsmall
    exact absurd hsmall (not_lt.2 hv)
  have hpos : b.mantissa ≠ 0 := by
    intro hzero
    rw [hzero] at hlog
    exact absurd hlog (by decide)
  refine ⟨b.mantissa, b.exponent, Nat.pos_of_ne_zero hpos, ?_, hlog, exponent_ge hb,
    exponent_le hb, rfl⟩
  rw [unpack_of_ofFloat? hb, Binary.unpacked_pos hpos, hn]
  rfl

/-! ## Packing -/

/-- A mantissa of 53 bits is stored with its exponent and without its first bit, a smaller one
without an exponent. -/
theorem toBits_pack {b : Binary} (hb : b.Canonical) (he : b.exponent ≤ 971) :
    (Float.ofModel (Float.Model.pack b.unpacked)).toBits.toBitVec =
      UnpackedFloat.packComponents Format.binary64 (sign b.negative)
        (BitVec.ofNat _ (if b.mantissa < 2 ^ 52 then 0 else (b.exponent + 1075).toNat))
        (BitVec.ofNat _ b.mantissa) := by
  show UnpackedFloat.pack Format.binary64 b.unpacked = _
  by_cases hm : b.mantissa = 0
  · rw [Binary.unpacked_zero hm, hm]
    rfl
  · have hbiased : (b.exponent + Format.binary64.exponentBias +
        Format.binary64.mantissaBitsWithoutImplicit).toNat = (b.exponent + 1075).toNat := by
      show (b.exponent + 1023 + 52).toNat = _
      omega
    rw [Binary.unpacked_pos hm]
    unfold UnpackedFloat.pack
    simp only [hbiased]
    rw [if_neg (show ¬ 2048 ≤ (b.exponent + 1075).toNat + 1 by omega)]
    by_cases hsmall : b.mantissa < 2 ^ 52
    · have hlog : b.mantissa.log2 < 52 := (Nat.log2_lt hm).2 hsmall
      have hlog : b.mantissa.log2 + 1 ≠ Format.binary64.mantissaBits := by
        show _ ≠ 53
        omega
      rw [if_neg hlog, if_pos hsmall]
    · have hlog : b.mantissa.log2 = 52 :=
        (Nat.log2_eq_iff hm).2 ⟨Nat.le_of_not_lt hsmall, hb.mantissa⟩
      have hlog : b.mantissa.log2 + 1 = Format.binary64.mantissaBits := by
        rw [hlog]
        rfl
      rw [if_pos hlog, if_neg hsmall]

/-- Every canonical form is that of a double, unless the exponent is too large. -/
theorem ofFloat?_pack_unpacked {b : Binary} (hb : b.Canonical) (he : b.exponent ≤ 971) :
    Binary.ofFloat? (.ofModel (Float.Model.pack b.unpacked)) = some b := by
  obtain ⟨hmantissa, hlow, hfull⟩ := hb
  have hbits := toBits_pack ⟨hmantissa, hlow, hfull⟩ he
  generalize Float.ofModel (Float.Model.pack b.unpacked) = x at hbits ⊢
  have hexponent : biased x = if b.mantissa < 2 ^ 52 then 0 else (b.exponent + 1075).toNat := by
    rw [← unpackExponent_toNat, hbits, UnpackedFloat.unpackExponent_packComponents,
      BitVec.toNat_ofNat]
    refine Nat.mod_eq_of_lt (show _ < 2048 from ?_)
    split <;> omega
  have hfraction : fraction x = b.mantissa % 2 ^ 52 := by
    rw [← unpackMantissa_toNat, hbits, UnpackedFloat.unpackMantissa_packComponents,
      BitVec.toNat_ofNat]
  have hsign : negative x = b.negative := by
    have h := ofBitVec_unpackSign x
    rw [hbits, UnpackedFloat.unpackSign_packComponents, UnpackedFloat.Sign.ofBitVec_toBitVec] at h
    cases hx : negative x <;> cases hn : b.negative <;> rw [hx, hn] at h <;> first | rfl | cases h
  rw [ofFloat?_eq, hsign, hexponent, hfraction]
  obtain ⟨n, m, e⟩ := b
  dsimp only at *
  by_cases hsmall : m < 2 ^ 52
  · have hexponent : e = -1074 := hfull.resolve_left (by omega)
    rw [if_pos hsmall, if_neg (by decide), if_pos rfl, Nat.mod_eq_of_lt hsmall, hexponent]
  · have hmantissa : powerOfTwo 52 + m % 2 ^ 52 = m := by
      show 2 ^ 52 + m % 2 ^ 52 = m
      omega
    have hstored : (((e + 1075).toNat : ℕ) : ℤ) - 1075 = e := by omega
    have hfinite : (e + 1075).toNat ≠ powerOfTwo 11 - 1 := by
      show _ ≠ 2047
      omega
    rw [if_neg hsmall, if_neg hfinite, if_neg (by omega), hmantissa, hstored]

theorem ofFloat?_pack {m : ℕ} {e : ℤ} (hm : 0 < m) (hlog : m.log2 = 52) (he : -1074 ≤ e)
    (he' : e ≤ 971) : Binary.ofFloat? (.ofModel (Float.Model.pack (.finite .positive m e hm))) =
      some ⟨false, m, e⟩ := by
  obtain ⟨hlow, hhigh⟩ := (Nat.log2_eq_iff hm.ne').1 hlog
  have hpack := ofFloat?_pack_unpacked (b := ⟨false, m, e⟩) ⟨hhigh, he, .inl hlow⟩ he'
  rwa [Binary.unpacked_pos hm.ne'] at hpack

/-! ## Rounding -/

theorem le_roundedMantissa (em : ExtendedMantissa) : em.mantissa ≤ em.roundedMantissa := by
  obtain ⟨m, round, sticky⟩ := em
  cases round <;> cases sticky <;>
    simp [ExtendedMantissa.roundedMantissa, ExtendedMantissa.accuracy, Accuracy.roundToNearestEven]

/-- What is left of a mantissa that is cut to 53 bits. -/
theorem cut_bounds {m : ℕ} (hm : 52 ≤ m.log2) :
    2 ^ 52 ≤ m / 2 ^ (m.log2 - 52) ∧ m / 2 ^ (m.log2 - 52) < 2 ^ 53 := by
  have hpos : m ≠ 0 := by
    rintro rfl
    exact absurd hm (by decide)
  constructor
  · rw [Nat.le_div_iff_mul_le (Nat.two_pow_pos _), ← Nat.pow_add, Nat.add_sub_of_le hm]
    exact Nat.log2_self_le hpos
  · refine Nat.div_lt_of_lt_mul ?_
    rw [← Nat.pow_add, show m.log2 - 52 + 53 = m.log2 + 1 by omega]
    exact Nat.lt_log2_self

/-- A mantissa of 53 bits or more is cut to 53 bits, what is left or one more is taken, and that is
cut once more. -/
theorem roundWithAccuracy_eq {m : ℕ} {e : ℤ} (a : Accuracy) (hm : 52 ≤ m.log2)
    (he : -1022 ≤ m.log2 + e) :
    ∃ s f, m / 2 ^ (m.log2 - 52) ≤ s ∧ s ≤ m / 2 ^ (m.log2 - 52) + 1 ∧ f = m.log2 + e - 52 ∧
      roundWithAccuracy Format.binary64 .positive m e a =
        if h : s / 2 ^ excess s f = 0 then .zero .positive
        else .finite .positive (s / 2 ^ excess s f) (f + excess s f) (Nat.pos_of_ne_zero h) := by
  have hexcess : excess m e = m.log2 - 52 := by
    unfold excess totalExponent
    omega
  let shifted := ExtendedMantissa.ofMantissaAndAccuracy m a >>> excess m e
  have hkept : shifted.mantissa = m / 2 ^ (m.log2 - 52) := by
    rw [mantissa_shiftRight, mantissa_ofMantissaAndAccuracy, hexcess]
  refine ⟨shifted.roundedMantissa, e + excess m e, ?_, ?_, by omega, ?_⟩
  · exact hkept ▸ le_roundedMantissa shifted
  · exact hkept ▸ roundedMantissa_le shifted
  · have hcut : shifted.roundedMantissa / 2 ^ excess shifted.roundedMantissa (e + excess m e) =
        (ExtendedMantissa.ofMantissaAndAccuracy shifted.roundedMantissa .exact >>>
          excess shifted.roundedMantissa (e + excess m e)).mantissa := by
      rw [mantissa_shiftRight, mantissa_ofMantissaAndAccuracy]
    simp only [hcut]
    rfl

/-- What is left of a mantissa of 53 bits or more, or one more, is what the result stands for. -/
theorem exists_roundWithAccuracy {m : ℕ} {e : ℤ} (a : Accuracy) (hm : 52 ≤ m.log2)
    (he : -1022 ≤ m.log2 + e) : ∃ r f, ∃ hr : 0 < r,
      roundWithAccuracy Format.binary64 .positive m e a = .finite .positive r f hr ∧
      r.log2 = 52 ∧ m.log2 + e - 52 ≤ f ∧ f ≤ m.log2 + e - 51 ∧
      ∃ s, m / 2 ^ (m.log2 - 52) ≤ s ∧ s ≤ m / 2 ^ (m.log2 - 52) + 1 ∧
        (r : ℚ) * 2 ^ f = s * 2 ^ (m.log2 + e - 52) := by
  obtain ⟨s, f, hlow, hhigh, rfl, hround⟩ := roundWithAccuracy_eq a hm he
  obtain ⟨hcut, hcut'⟩ := cut_bounds hm
  -- One more than what is left may have 54 bits; it is a power of two then and is cut once more.
  by_cases hs : s < 2 ^ 53
  · have hlog : s.log2 = 52 := (Nat.log2_eq_iff (by omega)).2 ⟨by omega, hs⟩
    have hzero : excess s (m.log2 + e - 52) = 0 := by
      unfold excess totalExponent
      omega
    simp only [hzero, Nat.pow_zero, Nat.div_one, Nat.cast_zero, add_zero] at hround
    exact ⟨s, _, by omega, hround.trans (dif_neg (by omega)), hlog, le_refl _, by omega, s, hlow,
      hhigh, rfl⟩
  · obtain rfl : s = 2 ^ 53 := by omega
    have hone : excess (2 ^ 53) (m.log2 + e - 52) = 1 := by
      unfold excess totalExponent
      rw [Nat.log2_two_pow]
      omega
    simp only [hone] at hround
    refine ⟨2 ^ 53 / 2 ^ 1, _, by decide, hround.trans (dif_neg (by decide)), by decide, by omega,
      by omega, 2 ^ 53, hlow, hhigh, ?_⟩
    rw [Nat.cast_one, zpow_add₀ two_ne_zero, zpow_one]
    norm_num
    ring

/-! ## Numbers of ordinary size -/

/-- The number is neither tiny nor huge: its logarithm is within `n` of zero. -/
def Sized (n : ℕ) (q : ℚ) : Prop := 2 ^ (-(n : ℤ)) ≤ q ∧ q ≤ 2 ^ (n : ℤ)

namespace Sized

variable {m n : ℕ}

theorem pos (h : Sized n q) : 0 < q := (two_zpow_pos _).trans_le h.1

theorem mono (h : Sized m q) (hmn : m ≤ n) : Sized n q :=
  ⟨((zpow_le_zpow_iff_right₀ one_lt_two).2 (by omega)).trans h.1,
    h.2.trans ((zpow_le_zpow_iff_right₀ one_lt_two).2 (by omega))⟩

theorem mul (hq : Sized m q) (hr : Sized n r) : Sized (m + n) (q * r) := by
  have hqpos := hq.pos
  have hrpos := hr.pos
  have hpow := two_zpow_pos (-(n : ℤ))
  constructor
  · calc (2 : ℚ) ^ (-((m + n : ℕ) : ℤ)) = 2 ^ (-(m : ℤ)) * 2 ^ (-(n : ℤ)) := by
          rw [← zpow_add₀ two_ne_zero, Nat.cast_add, neg_add]
      _ ≤ q * r := mul_le_mul hq.1 hr.1 hpow.le hqpos.le
  · calc q * r ≤ 2 ^ (m : ℤ) * 2 ^ (n : ℤ) :=
          mul_le_mul hq.2 hr.2 hrpos.le (two_zpow_pos _).le
      _ = 2 ^ ((m + n : ℕ) : ℤ) := by rw [← zpow_add₀ two_ne_zero, Nat.cast_add]

theorem inv (h : Sized n q) : Sized n q⁻¹ := by
  have hpos := h.pos
  constructor
  · rw [zpow_neg]
    exact inv_anti₀ hpos h.2
  · rw [← neg_neg (n : ℤ), zpow_neg]
    exact inv_anti₀ (two_zpow_pos _) h.1

theorem div (hq : Sized m q) (hr : Sized n r) : Sized (m + n) (q / r) := hq.mul hr.inv

theorem add (hq : Sized n q) (hr : Sized n r) : Sized (n + 1) (q + r) := by
  have hrpos := hr.pos
  constructor
  · exact ((hq.mono (Nat.le_succ n)).1).trans (le_add_of_nonneg_right hrpos.le)
  · calc q + r ≤ 2 ^ (n : ℤ) + 2 ^ (n : ℤ) := add_le_add hq.2 hr.2
      _ = 2 ^ ((n + 1 : ℕ) : ℤ) := by
          rw [Nat.cast_add, Nat.cast_one, zpow_add₀ two_ne_zero, zpow_one, mul_two]

end Sized

/-! ## Being near -/

/-- The factor by which rounding changes a number at most. -/
def slack : ℚ := 1 + 1 / 2 ^ 52

/-- The double is off the number by `k` roundings at most. -/
def Near (k : ℕ) (q : ℚ) (x : Float) : Prop :=
  ∃ v, Stands v x ∧ q ≤ v * slack ^ k ∧ v ≤ q * slack ^ k

theorem one_le_slack : 1 ≤ slack := by norm_num [slack]

theorem slack_pos (k : ℕ) : 0 < slack ^ k := pow_pos (by norm_num [slack]) k

theorem add_one_le_mul_slack {c : ℕ} (h : 2 ^ 52 ≤ c) : (c : ℚ) + 1 ≤ c * slack := by
  have hc : ((2 ^ 52 : ℕ) : ℚ) ≤ c := Nat.cast_le.2 h
  push_cast at hc
  unfold slack
  rw [mul_add, mul_one, mul_one_div, add_le_add_iff_left, le_div_iff₀ (by norm_num), one_mul]
  exact hc

/-! ## One rounding -/

section

variable {m : ℕ} {e i : ℤ}

theorem log2_add_le (hm : m ≠ 0) (h : (m : ℚ) * 2 ^ e ≤ 2 ^ i) : m.log2 + e ≤ i := by
  have hself : (2 : ℚ) ^ (m.log2 : ℤ) ≤ m := by exact_mod_cast Nat.log2_self_le hm
  have hpow := (mul_le_mul_of_nonneg_right hself (two_zpow_pos e).le).trans h
  rwa [← zpow_add₀ two_ne_zero, zpow_le_zpow_iff_right₀ one_lt_two] at hpow

theorem le_log2_add (h : 2 ^ i ≤ ((m : ℚ) + 1) * 2 ^ e) : i ≤ m.log2 + 1 + e := by
  have hself : (m : ℚ) + 1 ≤ 2 ^ ((m.log2 + 1 : ℕ) : ℤ) := by
    exact_mod_cast (Nat.lt_log2_self : m < 2 ^ (m.log2 + 1))
  have hpow := h.trans (mul_le_mul_of_nonneg_right hself (two_zpow_pos e).le)
  rw [← zpow_add₀ two_ne_zero, zpow_le_zpow_iff_right₀ one_lt_two] at hpow
  exact_mod_cast hpow

/-- A number between `m` and `m + 1` and what is left of `m`, or one more, differ by no more than
one part in `2 ^ 52`. -/
theorem slack_of_cut {s n : ℕ} (hm : 2 ^ 52 ≤ m / 2 ^ n) (hs : m / 2 ^ n ≤ s)
    (hs' : s ≤ m / 2 ^ n + 1) (hlow : (m : ℚ) * 2 ^ e ≤ q) (hhigh : q ≤ ((m : ℚ) + 1) * 2 ^ e) :
    q ≤ s * (2 ^ n * 2 ^ e) * slack ∧ s * (2 ^ n * 2 ^ e) ≤ q * slack := by
  have hcut := add_one_le_mul_slack hm
  have hdiv : m / 2 ^ n * 2 ^ n ≤ m := Nat.div_mul_le_self ..
  have hmod : m + 1 ≤ (m / 2 ^ n + 1) * 2 ^ n := by
    rw [Nat.mul_comm]
    exact Nat.lt_mul_div_succ m (Nat.two_pow_pos _)
  generalize m / 2 ^ n = c at hs hs' hcut hdiv hmod
  have hs : (c : ℚ) ≤ s := by exact_mod_cast hs
  have hs' : (s : ℚ) ≤ c + 1 := by exact_mod_cast hs'
  have hdiv : (c : ℚ) * 2 ^ n ≤ m := by exact_mod_cast hdiv
  have hmod : (m : ℚ) + 1 ≤ (c + 1) * 2 ^ n := by exact_mod_cast hmod
  have he := two_zpow_pos e
  have hslack : (0 : ℚ) < slack := by norm_num [slack]
  constructor
  · calc q ≤ ((m : ℚ) + 1) * 2 ^ e := hhigh
      _ ≤ (c + 1) * 2 ^ n * 2 ^ e := by gcongr
      _ ≤ c * slack * 2 ^ n * 2 ^ e := by gcongr
      _ ≤ s * slack * 2 ^ n * 2 ^ e := by gcongr
      _ = s * (2 ^ n * 2 ^ e) * slack := by ring
  · calc (s : ℚ) * (2 ^ n * 2 ^ e) ≤ (c + 1) * (2 ^ n * 2 ^ e) := by gcongr
      _ ≤ c * slack * (2 ^ n * 2 ^ e) := by gcongr
      _ = c * 2 ^ n * 2 ^ e * slack := by ring
      _ ≤ m * 2 ^ e * slack := by gcongr
      _ ≤ q * slack := by gcongr

/-- Rounding what lies between a mantissa of 53 bits or more and the next one. -/
theorem near_roundWithAccuracy (a : Accuracy) (hm : 52 ≤ m.log2) (hlow : (m : ℚ) * 2 ^ e ≤ q)
    (hhigh : q ≤ ((m : ℚ) + 1) * 2 ^ e) (hq : Sized 200 q) :
    Near 1 q (.ofModel (Float.Model.pack (roundWithAccuracy Format.binary64 .positive m e a))) := by
  have hpos : m ≠ 0 := by
    rintro rfl
    exact absurd hm (by decide)
  have hupper := log2_add_le hpos (hlow.trans hq.2)
  have hlower := le_log2_add (hq.1.trans hhigh)
  obtain ⟨r, f, hr, hround, hlog, hf, hf', s, hs, hs', hvalue⟩ :=
    exists_roundWithAccuracy (e := e) a hm (by omega)
  have hpack := ofFloat?_pack (e := f) hr hlog (by omega) (by omega)
  have hpower : (2 : ℚ) ^ ((m.log2 : ℤ) + e - 52) = 2 ^ (m.log2 - 52) * 2 ^ e := by
    rw [← zpow_natCast, ← zpow_add₀ two_ne_zero]
    congr 1
    omega
  refine ⟨r * 2 ^ f, ⟨⟨false, r, f⟩, hround ▸ hpack, rfl, rfl⟩, ?_⟩
  rw [hvalue, hpower, pow_one]
  exact slack_of_cut (cut_bounds hm).1 hs hs' hlow hhigh

/-- Rounding a mantissa of 53 bits or more. -/
theorem near_roundWithAccuracy_exact (hm : 52 ≤ m.log2) (hvalue : (m : ℚ) * 2 ^ e = q)
    (hq : Sized 200 q) : Near 1 q
      (.ofModel (Float.Model.pack (roundWithAccuracy Format.binary64 .positive m e .exact))) := by
  refine near_roundWithAccuracy .exact hm hvalue.le ?_ hq
  rw [add_mul, hvalue, one_mul]
  exact le_add_of_nonneg_right (two_zpow_pos _).le

end

theorem log2_shiftLeft {m : ℕ} (hm : 0 < m) (n : ℕ) : (m <<< n).log2 = m.log2 + n := by
  have hself := Nat.log2_self_le hm.ne'
  have hlt : m < 2 ^ (m.log2 + 1) := Nat.lt_log2_self
  rw [Nat.shiftLeft_eq, Nat.log2_eq_iff (by positivity), Nat.pow_add,
    show m.log2 + n + 1 = m.log2 + 1 + n by omega, Nat.pow_add]
  exact ⟨Nat.mul_le_mul_right _ hself, Nat.mul_lt_mul_of_pos_right hlt (Nat.two_pow_pos n)⟩

theorem shiftLeft_mul_zpow (m n : ℕ) (e : ℤ) :
    ((m <<< n : ℕ) : ℚ) * 2 ^ (e - n) = m * 2 ^ e := by
  rw [Nat.shiftLeft_eq, Nat.cast_mul, Nat.cast_pow, Nat.cast_ofNat, mul_assoc, ← zpow_natCast,
    ← zpow_add₀ two_ne_zero, add_sub_cancel]

/-- Rounding a mantissa of any length. -/
theorem near_round {m : ℕ} {e : ℤ} (hm : 0 < m) (hq : Sized 200 ((m : ℚ) * 2 ^ e)) :
    Near 1 (m * 2 ^ e)
      (.ofModel (Float.Model.pack (UnpackedFloat.round Format.binary64 .positive m e))) := by
  let n := (e - Format.binary64.targetExponent (totalExponent m e)).toNat
  have hlower := le_log2_add
    (hq.1.trans (mul_le_mul_of_nonneg_right (le_add_of_nonneg_right one_pos.le)
      (two_zpow_pos e).le))
  have hn : n = (e - max (totalExponent m e - 53) (-1074)).toNat := rfl
  have hlog := log2_shiftLeft hm n
  have hvalue := shiftLeft_mul_zpow m n e
  show Near 1 _ (.ofModel (Float.Model.pack
    (roundWithAccuracy Format.binary64 .positive (m <<< n) (e - n) .exact)))
  refine near_roundWithAccuracy_exact ?_ hvalue hq
  unfold totalExponent at hn
  omega

/-! ## One operation -/

section

variable (hv : Stands v x) (hw : Stands w y) (hv' : Sized 65 v) (hw' : Sized 65 w)

include hv hv' in
theorem exists_unpack : ∃ m e, ∃ hm : 0 < m,
    x.toModel.unpack = .finite .positive m e hm ∧ m.log2 = 52 ∧ -1074 ≤ e ∧ e ≤ 971 ∧
      (m : ℚ) * 2 ^ e = v :=
  hv.unpack (((zpow_le_zpow_iff_right₀ one_lt_two).2 (by norm_num)).trans hv'.1)

section

variable {m n : ℕ} {e f : ℤ}

/-- A quotient of ordinary size has exponents that are not far apart. -/
theorem exponent_sub_ge (hn : 0 < n) (hmn : m ≤ n * 2)
    (hsize : Sized 130 ((m : ℚ) * 2 ^ e / (n * 2 ^ f))) : -131 ≤ e - f := by
  have hnpos : (0 : ℚ) < n := Nat.cast_pos.2 hn
  have htwo : (m : ℚ) ≤ n * 2 := by exact_mod_cast hmn
  have hquotient : (m : ℚ) * 2 ^ e / (n * 2 ^ f) ≤ 2 ^ (1 + (e - f)) := by
    rw [zpow_add₀ two_ne_zero, zpow_sub₀ two_ne_zero, zpow_one,
      div_le_iff₀ (mul_pos hnpos (two_zpow_pos f))]
    calc (m : ℚ) * 2 ^ e ≤ n * 2 * 2 ^ e := by gcongr
      _ = 2 * (2 ^ e / 2 ^ f) * (n * 2 ^ f) := by field_simp
  have h := hsize.1.trans hquotient
  rw [zpow_le_zpow_iff_right₀ one_lt_two] at h
  omega

/-- The quotient of the mantissas is taken with 53 bits more. -/
theorem div_eq {hm : 0 < m} {hn : 0 < n} (hx : x.toModel.unpack = .finite .positive m e hm)
    (hy : y.toModel.unpack = .finite .positive n f hn) (hlog : m.log2 = 52) (hlog' : n.log2 = 52)
    (he : -131 ≤ e - f) : ∃ a, x / y = .ofModel (Float.Model.pack
      (roundWithAccuracy Format.binary64 .positive (m * 2 ^ 53 / n) (e - f - 53) a)) := by
  have htarget : min (e - f) (max (totalExponent m e - totalExponent n f - 53) (-1074)) =
      e - f - 53 := by
    unfold totalExponent
    omega
  have hshift : (e - f - (e - f - 53)).toNat = 53 := by omega
  refine ⟨UnpackedFloat.accuracyOfFraction (m * 2 ^ 53 % n) n, ?_⟩
  rw [← Nat.shiftLeft_eq, ← hshift, ← htarget]
  show Float.ofModel (Float.Model.pack
    (UnpackedFloat.div Format.binary64 x.toModel.unpack y.toModel.unpack)) = _
  rw [hx, hy]
  rfl

end

include hv hw hv' hw'

theorem near_mul : Near 1 (v * w) (x * y) := by
  have hsize : Sized 200 (v * w) := (hv'.mul hw').mono (by decide)
  obtain ⟨m, e, hm, hx, hlog, -, -, rfl⟩ := exists_unpack hv hv'
  obtain ⟨n, f, hn, hy, hlog', -, -, rfl⟩ := exists_unpack hw hw'
  have hmul : x * y = .ofModel (Float.Model.pack
      (roundWithAccuracy Format.binary64 .positive (m * n) (e + f) .exact)) := by
    show Float.ofModel (Float.Model.pack
      (UnpackedFloat.mul Format.binary64 x.toModel.unpack y.toModel.unpack)) = _
    rw [hx, hy]
    rfl
  have hvalue : ((m * n : ℕ) : ℚ) * 2 ^ (e + f) = m * 2 ^ e * (n * 2 ^ f) := by
    rw [Nat.cast_mul, zpow_add₀ two_ne_zero]
    ring
  rw [hmul]
  refine near_roundWithAccuracy_exact ?_ hvalue hsize
  have hlow := (Nat.log2_eq_iff hm.ne').1 hlog
  have hlow' := (Nat.log2_eq_iff hn.ne').1 hlog'
  rw [Nat.le_log2 (Nat.mul_pos hm hn).ne']
  nlinarith

theorem near_div : Near 1 (v / w) (x / y) := by
  have hsize := hv'.div hw'
  obtain ⟨m, e, hm, hx, hlog, -, -, rfl⟩ := exists_unpack hv hv'
  obtain ⟨n, f, hn, hy, hlog', -, -, rfl⟩ := exists_unpack hw hw'
  obtain ⟨hlow, hhigh⟩ := (Nat.log2_eq_iff hm.ne').1 hlog
  obtain ⟨hlow', hhigh'⟩ := (Nat.log2_eq_iff hn.ne').1 hlog'
  obtain ⟨a, hdiv⟩ := div_eq hx hy hlog hlog' (exponent_sub_ge hn (by omega) hsize)
  have hnpos : (0 : ℚ) < n := Nat.cast_pos.2 hn
  have hvalue : (m : ℚ) * 2 ^ e / (n * 2 ^ f) = m * 2 ^ 53 / n * 2 ^ (e - f - 53) := by
    rw [zpow_sub₀ two_ne_zero, zpow_sub₀ two_ne_zero]
    field_simp
  have hpow := (two_zpow_pos (e - f - 53)).le
  rw [hdiv]
  refine near_roundWithAccuracy a ?_ ?_ ?_ (hsize.mono (by decide))
  · rw [Nat.le_log2]
    · rw [Nat.le_div_iff_mul_le hn]
      omega
    · exact (Nat.div_pos (by omega) hn).ne'
  · rw [hvalue]
    refine mul_le_mul_of_nonneg_right ?_ hpow
    rw [le_div_iff₀ hnpos]
    exact_mod_cast Nat.div_mul_le_self (m * 2 ^ 53) n
  · rw [hvalue]
    refine mul_le_mul_of_nonneg_right ?_ hpow
    rw [div_le_iff₀ hnpos]
    have hnext : m * 2 ^ 53 ≤ (m * 2 ^ 53 / n + 1) * n := by
      rw [Nat.mul_comm (_ + 1)]
      exact (Nat.lt_mul_div_succ (m * 2 ^ 53) hn).le
    exact_mod_cast hnext

theorem near_add : Near 1 (v + w) (x + y) := by
  have hsize : Sized 200 (v + w) := (hv'.add hw').mono (by decide)
  obtain ⟨m, e, hm, hx, -, -, -, rfl⟩ := exists_unpack hv hv'
  obtain ⟨n, f, hn, hy, -, -, -, rfl⟩ := exists_unpack hw hw'
  let d := min e f
  let i := (e - d).toNat
  let j := (f - d).toNat
  have hpos : 0 < m <<< i + n <<< j := Nat.add_pos_left (by simpa using hm) _
  have hadd : x + y = .ofModel (Float.Model.pack
      (UnpackedFloat.round Format.binary64 .positive (m <<< i + n <<< j) d)) := by
    have hnormalize : UnpackedFloat.normalize Format.binary64
        (((m <<< i : ℕ) : ℤ) + ((n <<< j : ℕ) : ℤ)) d .positive =
          UnpackedFloat.round Format.binary64 .positive (m <<< i + n <<< j) d := by
      unfold UnpackedFloat.normalize
      rw [← Int.natCast_add, Std.compare_eq_gt.2 (by omega)]
      rfl
    rw [← hnormalize]
    show Float.ofModel (Float.Model.pack
      (UnpackedFloat.add Format.binary64 x.toModel.unpack y.toModel.unpack)) = _
    rw [hx, hy]
    rfl
  have hvalue : ((m <<< i + n <<< j : ℕ) : ℚ) * 2 ^ d = m * 2 ^ e + n * 2 ^ f := by
    have hi := shiftLeft_mul_zpow m i e
    have hj := shiftLeft_mul_zpow n j f
    rw [show e - (i : ℤ) = d by omega] at hi
    rw [show f - (j : ℤ) = d by omega] at hj
    rw [Nat.cast_add, add_mul, hi, hj]
  rw [hadd, ← hvalue]
  exact near_round hpos (hvalue ▸ hsize)

end

/-! ## Arithmetic -/

theorem slack_le (hk : k ≤ 16) : slack ^ k ≤ 2 :=
  (pow_le_pow_right₀ one_le_slack hk).trans (by norm_num [slack])

/-- What is near a number of ordinary size has nearly its size. -/
theorem Near.sized (h : Near k q x) (hk : k ≤ 16) (hq : Sized 64 q) : ∃ v, Stands v x ∧
    q ≤ v * slack ^ k ∧ v ≤ q * slack ^ k ∧ Sized 65 v := by
  obtain ⟨v, hv, hlow, hhigh⟩ := h
  have hslack := slack_le hk
  have hvpos := hv.nonneg
  have hqpos := hq.pos
  refine ⟨v, hv, hlow, hhigh, ?_, ?_⟩
  · have hdouble : q ≤ v * 2 := hlow.trans (mul_le_mul_of_nonneg_left hslack hvpos)
    have hlower := hq.1
    norm_num at hlower ⊢
    linarith
  · have hdouble : v ≤ q * 2 := hhigh.trans (mul_le_mul_of_nonneg_left hslack hqpos.le)
    have hupper := hq.2
    norm_num at hupper ⊢
    linarith

/-- One rounding more. -/
theorem Near.step {p : ℚ} (h : Near 1 p x) (hpq : q ≤ p * slack ^ k) (hqp : p ≤ q * slack ^ k) :
    Near (k + 1) q x := by
  obtain ⟨v, hv, hlow, hhigh⟩ := h
  have hk := slack_pos k
  have hslack := slack_pos 1
  refine ⟨v, hv, ?_, ?_⟩
  · calc q ≤ p * slack ^ k := hpq
      _ ≤ v * slack ^ 1 * slack ^ k := by gcongr
      _ = v * slack ^ (k + 1) := by ring
  · calc v ≤ p * slack ^ 1 := hhigh
      _ ≤ q * slack ^ k * slack ^ 1 := by gcongr
      _ = q * slack ^ (k + 1) := by ring

section

variable (hx : Near j q x) (hy : Near k r y) (hj : j ≤ 16) (hk : k ≤ 16) (hq : Sized 64 q)
  (hr : Sized 64 r)

include hx hy hj hk hq hr

theorem Near.mul : Near (j + k + 1) (q * r) (x * y) := by
  obtain ⟨v, hv, hlow, hhigh, hv'⟩ := hx.sized hj hq
  obtain ⟨w, hw, hlow', hhigh', hw'⟩ := hy.sized hk hr
  have hqpos := hq.pos
  have hrpos := hr.pos
  have hvpos := hv'.pos
  have hwpos := hw'.pos
  have hs := slack_pos j
  refine (near_mul hv hw hv' hw').step ?_ ?_
  · calc q * r ≤ v * slack ^ j * (w * slack ^ k) := by gcongr
      _ = v * w * slack ^ (j + k) := by ring
  · calc v * w ≤ q * slack ^ j * (r * slack ^ k) := by gcongr
      _ = q * r * slack ^ (j + k) := by ring

theorem Near.div : Near (j + k + 1) (q / r) (x / y) := by
  obtain ⟨v, hv, hlow, hhigh, hv'⟩ := hx.sized hj hq
  obtain ⟨w, hw, hlow', hhigh', hw'⟩ := hy.sized hk hr
  have hqpos := hq.pos
  have hrpos := hr.pos
  have hvpos := hv'.pos
  have hwpos := hw'.pos
  have hs := slack_pos j
  have hs' := slack_pos k
  refine (near_div hv hw hv' hw').step ?_ ?_
  · rw [div_le_iff₀ hrpos]
    calc q ≤ v * slack ^ j := hlow
      _ = v * slack ^ j * (w / w) := by rw [div_self hwpos.ne', mul_one]
      _ ≤ v * slack ^ j * (r * slack ^ k / w) := by gcongr
      _ = v / w * slack ^ (j + k) * r := by ring
  · rw [div_le_iff₀ hwpos]
    calc v ≤ q * slack ^ j := hhigh
      _ = q * slack ^ j * (r / r) := by rw [div_self hrpos.ne', mul_one]
      _ ≤ q * slack ^ j * (w * slack ^ k / r) := by gcongr
      _ = q / r * slack ^ (j + k) * w := by ring

theorem Near.add : Near (j + k + 1) (q + r) (x + y) := by
  obtain ⟨v, hv, hlow, hhigh, hv'⟩ := hx.sized hj hq
  obtain ⟨w, hw, hlow', hhigh', hw'⟩ := hy.sized hk hr
  have hqpos := hq.pos
  have hrpos := hr.pos
  have hvpos := hv'.pos
  have hwpos := hw'.pos
  have hpow : slack ^ j ≤ slack ^ (j + k) := pow_le_pow_right₀ one_le_slack (Nat.le_add_right j k)
  have hpow' : slack ^ k ≤ slack ^ (j + k) := pow_le_pow_right₀ one_le_slack (Nat.le_add_left k j)
  refine (near_add hv hw hv' hw').step ?_ ?_
  · calc q + r ≤ v * slack ^ j + w * slack ^ k := add_le_add hlow hlow'
      _ ≤ v * slack ^ (j + k) + w * slack ^ (j + k) := by gcongr
      _ = (v + w) * slack ^ (j + k) := by ring
  · calc v + w ≤ q * slack ^ j + r * slack ^ k := add_le_add hhigh hhigh'
      _ ≤ q * slack ^ (j + k) + r * slack ^ (j + k) := by gcongr
      _ = (q + r) * slack ^ (j + k) := by ring

end

/-! ## Whole numbers -/

theorem Near.mono (h : Near j q x) (hjk : j ≤ k) : Near k q x := by
  obtain ⟨v, hv, hlow, hhigh⟩ := h
  have hpow : slack ^ j ≤ slack ^ k := pow_le_pow_right₀ one_le_slack hjk
  have hvpos := hv.nonneg
  have hq : 0 ≤ q := by
    by_contra hneg
    have := mul_neg_of_neg_of_pos (not_le.1 hneg) (slack_pos j)
    linarith
  exact ⟨v, hv, hlow.trans (mul_le_mul_of_nonneg_left hpow hvpos),
    hhigh.trans (mul_le_mul_of_nonneg_left hpow hq)⟩

theorem Stands.near (h : Stands v x) : Near 0 v x := ⟨v, h, by simp, by simp⟩

theorem sized_natCast {n : ℕ} (hn : 0 < n) (hlt : n < 2 ^ k) : Sized k n := by
  have hone : (1 : ℚ) ≤ n := Nat.one_le_cast.2 hn
  refine ⟨le_trans ?_ hone, ?_⟩
  · rw [← zpow_zero (2 : ℚ), zpow_le_zpow_iff_right₀ one_lt_two]
    omega
  · exact_mod_cast hlt.le

/-- A whole number with no more digits than a mantissa is read in two roundings. -/
theorem near_ofNat {n : ℕ} (hn : 0 < n) (hlt : n < 2 ^ 53) : Near 2 n (Float.ofNat n) := by
  have hsize := sized_natCast hn hlt
  have hone : Stands 1 (Float.ofBits 0x3FF0000000000000) :=
    ⟨⟨false, 2 ^ 52, -52⟩, rfl, rfl, by norm_num⟩
  have hwhole : Near 1 n n.toUInt64.toFloat := by
    have hvalue : (n : ℚ) * 2 ^ (0 : ℤ) = n := by rw [zpow_zero, mul_one]
    have hround := near_round (e := 0) hn (hvalue.symm ▸ hsize.mono (by decide))
    rw [hvalue] at hround
    have hnormalize : UnpackedFloat.normalize Format.binary64 (n.toUInt64.toNat : ℤ) 0 .positive =
        UnpackedFloat.round Format.binary64 .positive n 0 := by
      have hnat : n.toUInt64.toNat = n := Nat.mod_eq_of_lt (hlt.trans (by decide))
      unfold UnpackedFloat.normalize
      rw [hnat, Std.compare_eq_gt.2 (by omega)]
      rfl
    rw [← hnormalize] at hround
    exact hround
  rw [ofNat_eq hlt]
  have hmul := hwhole.mul hone.near (by decide) (by decide) (hsize.mono (by decide))
    (sized_natCast (n := 1) (by decide) (by decide))
  rwa [mul_one] at hmul

end Double
end Grading
