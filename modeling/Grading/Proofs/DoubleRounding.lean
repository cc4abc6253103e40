import Grading.Proofs.Representable

/-!
# Comparing and rounding doubles

Comparisons of doubles are exact, they are those of the numbers that they stand for.  With that,
and with the floor of a double, which is exact as well but is read in again as a whole number, the
rounding of a double can be said:

    Stands v x → Stands w y → (Number.lt x y ↔ v < w)                         (Stands.lt_iff)
    Stands v x → 1 ≤ v → Near 2 ⌊v⌋ (floor x)                                    (near_floor)
    Stands v x → 1 ≤ v → what `x` is rounded to is near a number within one of `v`
                                                                           (near_roundHalfUp)
    Stands v x → v < 1 → `x` is rounded to zero or to one              (roundHalfUp_of_lt_one)
-/

namespace Grading

open Float.Model (Format UnpackedFloat)

namespace Double

variable {x y : Float} {v w : ℚ}

/-! ## Comparisons -/

/-- A number without a sign, among all mantissas and exponents that doubles have. -/
theorem value_lt {b b' : Binary} (hb : Binary.ofFloat? x = some b)
    (hb' : Binary.ofFloat? y = some b') (h : b.exponent < b'.exponent ∨
      b.exponent = b'.exponent ∧ b.mantissa < b'.mantissa) :
    (b.mantissa : ℚ) * 2 ^ b.exponent < b'.mantissa * 2 ^ b'.exponent := by
  have hpow := two_zpow_pos b'.exponent
  show b.size < b'.size
  rcases h with hlt | ⟨heq, hlt⟩
  · have hge := exponent_ge hb
    have hhigh := (canonical_of_ofFloat? hb).size_le_of_lt hlt
    have hlow := (canonical_of_ofFloat? hb').le_size (by omega)
    linarith
  · unfold Binary.size
    rw [heq]
    exact mul_lt_mul_of_pos_right (Nat.cast_lt.2 hlt) hpow

theorem value_lt_iff {b b' : Binary} (hb : Binary.ofFloat? x = some b)
    (hb' : Binary.ofFloat? y = some b') :
    (b.mantissa : ℚ) * 2 ^ b.exponent < b'.mantissa * 2 ^ b'.exponent ↔
      b.exponent < b'.exponent ∨ b.exponent = b'.exponent ∧ b.mantissa < b'.mantissa := by
  refine ⟨fun hlt => ?_, value_lt hb hb'⟩
  by_contra hnot
  rcases lt_trichotomy b.exponent b'.exponent with he | he | he
  · exact hnot (.inl he)
  · rcases lt_trichotomy b.mantissa b'.mantissa with hm | hm | hm
    · exact hnot (.inr ⟨he, hm⟩)
    · rw [he, hm] at hlt
      exact lt_irrefl _ hlt
    · exact lt_asymm hlt (value_lt hb' hb (.inr ⟨he.symm, hm⟩))
  · exact lt_asymm hlt (value_lt hb' hb (.inl he))

/-- A mantissa of zero comes with the smallest exponent. -/
theorem exponent_of_zero {b : Binary} (hb : Binary.ofFloat? x = some b) (hm : b.mantissa = 0) :
    b.exponent = -1074 := by
  rcases log2_mantissa hb with hlog | ⟨-, he⟩
  · rw [hm] at hlog
    exact absurd hlog (by decide)
  · exact he

theorem Stands.lt_iff (hv : Stands v x) (hw : Stands w y) : Number.lt x y = true ↔ v < w := by
  obtain ⟨b, hb, hn, rfl⟩ := hv
  obtain ⟨b', hb', hn', rfl⟩ := hw
  have hge := exponent_ge hb
  have hge' := exponent_ge hb'
  rw [float_lt_eq, unpack_of_ofFloat? hb, unpack_of_ofFloat? hb',
    unpacked_lt_iff b.isFinite_unpacked b'.isFinite_unpacked, value_lt_iff hb hb']
  by_cases hm : b.mantissa = 0 <;> by_cases hm' : b'.mantissa = 0
  · have he := exponent_of_zero hb hm
    have he' := exponent_of_zero hb' hm'
    rw [Binary.unpacked_zero hm, Binary.unpacked_zero hm', orderKey_zero, orderKey_zero]
    exact iff_of_false (lt_irrefl _) (by omega)
  · have he := exponent_of_zero hb hm
    rw [Binary.unpacked_zero hm, Binary.unpacked_pos hm', orderKey_zero, hn', orderKey_finite]
    exact iff_of_true (toLex_lt_of_fst_lt (by decide) _ _) (by omega)
  · have he' := exponent_of_zero hb' hm'
    rw [Binary.unpacked_pos hm, Binary.unpacked_zero hm', hn, orderKey_finite, orderKey_zero]
    exact iff_of_false (lt_asymm (toLex_lt_of_fst_lt (by decide) _ _)) (by omega)
  · rw [Binary.unpacked_pos hm, Binary.unpacked_pos hm', hn, hn', orderKey_finite, orderKey_finite]
    simp [Prod.Lex.toLex_lt_toLex]

theorem Stands.le_iff (hv : Stands v x) (hw : Stands w y) : Number.le x y = true ↔ v ≤ w := by
  have hlt := hw.lt_iff hv
  rw [OrderedNumber.lt_iff_not_le hw.isFinite hv.isFinite] at hlt
  rw [← not_lt, ← hlt, not_not]

/-! ## Floors -/

theorem binary_floor {b : Binary} (hn : b.negative = false) :
    b.floor = ⌊(b.mantissa : ℚ) * 2 ^ b.exponent⌋ := by
  rw [b.floor_eq, Binary.value_of_positive hn]
  rfl

/-- A double that is found to be whole is its own floor. -/
theorem floor_of_whole {b : Binary} (hwhole : b.whole?.isSome = true) :
    ((⌊(b.mantissa : ℚ) * 2 ^ b.exponent⌋ : ℤ) : ℚ) = b.mantissa * 2 ^ b.exponent := by
  obtain ⟨z, hz⟩ := Option.isSome_iff_exists.1 hwhole
  have hsize : (b.mantissa : ℚ) * 2 ^ b.exponent = (|z| : ℤ) := by
    rw [Int.cast_abs, ← Binary.whole?_eq_some_iff.1 hz, b.abs_value]
    rfl
  rw [hsize, Int.floor_intCast]

theorem near_floor (h : Stands v x) (hv : 1 ≤ v) (hv' : v < 2 ^ 53) : Near 2 ⌊v⌋ (floor x) := by
  have hfloor := Int.floor_le v
  obtain ⟨b, hb, hn, rfl⟩ := h
  unfold floor
  rw [hb]
  show Near 2 _ (if b.whole?.isSome = true then x else Float.ofInt b.floor)
  by_cases hwhole : b.whole?.isSome = true
  · rw [if_pos hwhole, floor_of_whole hwhole]
    exact (Stands.near ⟨b, hb, hn, rfl⟩).mono (by decide)
  · have hpos : 1 ≤ ⌊(b.mantissa : ℚ) * 2 ^ b.exponent⌋ := Int.le_floor.2 (by exact_mod_cast hv)
    have hlt : ⌊(b.mantissa : ℚ) * 2 ^ b.exponent⌋ < 2 ^ 53 := by
      have h := hfloor.trans_lt hv'
      exact_mod_cast h
    rw [if_neg hwhole, binary_floor hn]
    obtain ⟨n, hn⟩ := Int.eq_ofNat_of_zero_le (le_trans zero_le_one hpos)
    rw [hn] at hpos hlt ⊢
    exact near_ofNat (by omega) (by omega)

theorem floor_of_lt_one (h : Stands v x) (hv : 0 < v) (hv' : v < 1) : floor x = Float.ofInt 0 := by
  have hzero : ⌊v⌋ = 0 := Int.floor_eq_zero_iff.2 ⟨hv.le, hv'⟩
  obtain ⟨b, hb, hn, rfl⟩ := h
  have hwhole : ¬ b.whole?.isSome = true := by
    intro hwhole
    have heq := floor_of_whole hwhole
    rw [hzero] at heq
    exact absurd heq hv.ne
  unfold floor
  rw [hb]
  exact (if_neg hwhole).trans (by rw [binary_floor hn, hzero])

/-! ## Rounding to whole numbers -/

theorem stands_half : Stands (1 / 2) (Number.ofNat 1 / Number.ofNat 2 : Float) :=
  ⟨⟨false, 2 ^ 52, -53⟩, rfl, rfl, by norm_num⟩

theorem stands_sub_zero (h : Stands v x) (hv : Sized 65 v) : Stands v (x - Float.ofInt 0) := by
  obtain ⟨m, e, hm, hx, hlog, he, he', rfl⟩ := exists_unpack h hv
  have hsub : x - Float.ofInt 0 = .ofModel (Float.Model.pack (.finite .positive m e hm)) := by
    have hzero : (Float.ofInt 0).toModel.unpack = .zero .positive := rfl
    show Float.ofModel (Float.Model.pack
      (UnpackedFloat.sub Format.binary64 x.toModel.unpack (Float.ofInt 0).toModel.unpack)) = _
    rw [hx, hzero]
    rfl
  rw [hsub]
  exact ⟨_, ofFloat?_pack hm hlog he he', rfl, rfl⟩

/-- Below one, a number is rounded to zero or to one. -/
theorem roundHalfUp_of_lt_one (h : Stands v x) (hv : Sized 65 v) (hv' : v < 1) :
    Number.roundHalfUp x =
      if 1 / 2 ≤ v then Float.ofInt 0 + Number.ofNat 1 else Float.ofInt 0 := by
  show (if Number.le (Number.ofNat 1 / Number.ofNat 2 : Float) (x - floor x) = true
    then floor x + Number.ofNat 1 else floor x) = _
  rw [floor_of_lt_one h hv.pos hv']
  exact if_congr (stands_half.le_iff (stands_sub_zero h hv)) rfl rfl

/-- From one on, a number is rounded to a whole number next to it, which is read in again and may
have one added to it. -/
theorem near_roundHalfUp (h : Stands v x) (hv : 1 ≤ v) (hv' : v < 2 ^ 52) :
    ∃ w : ℤ, v - 1 < w ∧ w ≤ v + 1 ∧ Near 5 w (Number.roundHalfUp x) := by
  have hlow := Int.lt_floor_add_one v
  have hhigh := Int.floor_le v
  have hpos : 1 ≤ ⌊v⌋ := Int.le_floor.2 (by exact_mod_cast hv)
  have hlt : ⌊v⌋ < 2 ^ 52 := by
    have hlt := hhigh.trans_lt hv'
    exact_mod_cast hlt
  have hfloor := near_floor h hv (hv'.trans (by norm_num))
  show ∃ w : ℤ, v - 1 < w ∧ w ≤ v + 1 ∧
    Near 5 w (if Number.le (Number.ofNat 1 / Number.ofNat 2 : Float) (x - floor x) = true
      then floor x + Number.ofNat 1 else floor x)
  split
  · obtain ⟨n, hn⟩ := Int.eq_ofNat_of_zero_le (le_trans zero_le_one hpos)
    have hone : Near 2 (1 : ℕ) (Number.ofNat 1 : Float) := near_ofNat (by decide) (by decide)
    refine ⟨⌊v⌋ + 1, ?_, ?_, ?_⟩
    · push_cast
      linarith
    · push_cast
      linarith
    · have hsize : Sized 64 ((⌊v⌋ : ℤ) : ℚ) := by
        rw [hn]
        exact (sized_natCast (k := 52) (by omega) (by omega)).mono (by decide)
      have hadd := hfloor.add hone (by decide) (by decide) hsize
        (sized_natCast (by decide) (by decide))
      rw [Int.cast_add, Int.cast_one]
      rwa [Nat.cast_one] at hadd
  · exact ⟨⌊v⌋, by linarith, by linarith, hfloor.mono (by decide)⟩

end Double
end Grading
