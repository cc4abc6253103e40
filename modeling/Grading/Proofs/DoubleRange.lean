import Grading.Evaluation.Node
import Grading.Proofs.Doubles

/-!
# Which results of double arithmetic are finite

The exponent of a result follows from those of its operands: rounding cuts a mantissa to 53 bits
and adds one to it at most, so a number below `2 ^ (k + 52)` gets an exponent of at most `k`.  A
result overflows only where that is more than the largest exponent, 971.  So whole numbers with
no more digits than a mantissa stay finite, and with them the rounding of any finite double:

    log2 m + 1 + e ≤ k + 52 → m * 2 ^ e rounds to an exponent ≤ k       (upTo_roundWithAccuracy)
    a finite double is its own floor, or that has no more than 53 bits                (floor_eq)
    Number.isFinite x → Number.isFinite (mode.apply x)                          (isFinite_apply)
-/

namespace Grading

open Float.Model (Format UnpackedFloat totalExponent)
open Float.Model.UnpackedFloat (Sign Accuracy ExtendedMantissa unpackExponent roundWithAccuracy
  decreaseExponent)

namespace Double

/-! ## Shifting and rounding -/

theorem log2_le_of_lt {m n : Nat} (h : m < 2 ^ (n + 1)) : m.log2 ≤ n := by
  by_cases hm : m = 0
  · rw [hm]
    exact Nat.zero_le _
  · exact Nat.le_of_lt_succ ((Nat.log2_lt hm).2 h)

theorem log2_le_of_le_div {m n r : Nat} (h : r ≤ m / 2 ^ n + 1) : r.log2 ≤ m.log2 + 1 - n := by
  have hdiv : m / 2 ^ n < 2 ^ (m.log2 + 1 - n) := by
    refine Nat.div_lt_of_lt_mul (Nat.lt_log2_self.trans_le ?_)
    rw [← Nat.pow_add]
    exact Nat.pow_le_pow_right (by decide) (by omega)
  have hpos : 0 < 2 ^ (m.log2 + 1 - n) := Nat.two_pow_pos _
  refine log2_le_of_lt ?_
  rw [Nat.pow_succ]
  omega

theorem mantissa_shiftRight (em : ExtendedMantissa) (n : Nat) :
    (em >>> n).mantissa = em.mantissa / 2 ^ n := by
  induction n with
  | zero => exact (Nat.div_one _).symm
  | succ n ih =>
    show (em >>> n).mantissa / 2 = _
    rw [ih, Nat.div_div_eq_div_mul, Nat.pow_succ]

theorem mantissa_ofMantissaAndAccuracy (m : Nat) (accuracy : Accuracy) :
    (ExtendedMantissa.ofMantissaAndAccuracy m accuracy).mantissa = m := by
  cases accuracy with
  | exact => rfl
  | inexact o => cases o <;> rfl

theorem roundedMantissa_le (em : ExtendedMantissa) : em.roundedMantissa ≤ em.mantissa + 1 := by
  obtain ⟨m, round, sticky⟩ := em
  have hmod : m % 2 < 2 := Nat.mod_lt _ (by decide)
  cases round <;> cases sticky <;>
    simp [ExtendedMantissa.roundedMantissa, ExtendedMantissa.accuracy, Accuracy.roundToNearestEven]
  omega

/-- By how much a mantissa is too long, or its exponent too small. -/
def excess (m : Nat) (e : Int) : Nat := (max (totalExponent m e - 53) (-1074) - e).toNat

/-- The unpacked double is finite, with an exponent of at most `k`. -/
def UpTo (k : Int) : UnpackedFloat → Prop
  | .zero _ => True
  | .finite _ _ e _ => e ≤ k
  | _ => False

theorem upTo_ite_zero {m : Nat} {e k : Int} (s : Sign) (h : e ≤ k) :
    UpTo k (if hm : m = 0 then .zero s else .finite s m e (Nat.pos_of_ne_zero hm)) := by
  by_cases hm : m = 0
  · rw [dif_pos hm]
    trivial
  · rw [dif_neg hm]
    exact h

theorem upTo_roundWithAccuracy {m : Nat} {e k : Int} (s : Sign) (accuracy : Accuracy)
    (he : e ≤ k) (htotal : totalExponent m e ≤ k + 52) (hk : -1074 ≤ k) :
    UpTo k (roundWithAccuracy Format.binary64 s m e accuracy) := by
  let shifted := ExtendedMantissa.ofMantissaAndAccuracy m accuracy >>> excess m e
  have hrounded : shifted.roundedMantissa ≤ m / 2 ^ excess m e + 1 := by
    rw [← mantissa_ofMantissaAndAccuracy m accuracy, ← mantissa_shiftRight,
      mantissa_ofMantissaAndAccuracy]
    exact roundedMantissa_le shifted
  have hlog := log2_le_of_le_div hrounded
  refine upTo_ite_zero s ?_
  show e + excess m e + (excess shifted.roundedMantissa (e + excess m e) : Int) ≤ k
  generalize shifted.roundedMantissa = r at hlog ⊢
  unfold excess totalExponent at *
  omega

theorem upTo_round {m : Nat} {e k : Int} (s : Sign) (htotal : totalExponent m e ≤ k + 52)
    (hk : -1074 ≤ k) : UpTo k (UnpackedFloat.round .binary64 s m e) := by
  unfold UnpackedFloat.round decreaseExponent
  simp only []
  generalize hn : (e - Format.binary64.targetExponent (totalExponent m e)).toNat = n
  have htarget : Format.binary64.targetExponent (totalExponent m e) =
    max (totalExponent m e - 53) (-1074) := rfl
  have hlog : (m <<< n).log2 ≤ m.log2 + n := by
    refine log2_le_of_lt ?_
    rw [Nat.shiftLeft_eq, show m.log2 + n + 1 = m.log2 + 1 + n by omega, Nat.pow_add]
    exact Nat.mul_lt_mul_of_pos_right Nat.lt_log2_self (Nat.two_pow_pos n)
  refine upTo_roundWithAccuracy s .exact ?_ ?_ hk
  · omega
  · unfold totalExponent at *
    omega

theorem upTo_normalize {m : Int} {e k : Int} (s : Sign)
    (htotal : totalExponent m.natAbs e ≤ k + 52) (hk : -1074 ≤ k) :
    UpTo k (UnpackedFloat.normalize .binary64 m e s) := by
  unfold UnpackedFloat.normalize
  cases hm : compare m 0 with
  | lt =>
    have hneg : m < 0 := Std.compare_eq_lt.1 hm
    have habs : (-m).toNat = m.natAbs := by omega
    refine upTo_round _ ?_ hk
    rwa [habs]
  | eq => trivial
  | gt =>
    have hpos : 0 < m := Std.compare_eq_gt.1 hm
    have habs : m.toNat = m.natAbs := by omega
    refine upTo_round _ ?_ hk
    rwa [habs]

/-! ## Packing -/

variable {x y : Float} {k : Int}

/-- The double is finite, with an exponent of at most `k`. -/
def Within (k : Int) (x : Float) : Prop := ∃ b, Binary.ofFloat? x = some b ∧ b.exponent ≤ k

theorem Within.isFinite (h : Within k x) : Number.isFinite x = true := by
  obtain ⟨b, hb, -⟩ := h
  exact isFinite_iff.2 ⟨b, hb⟩

theorem mantissa_lt {b : Binary} (h : Binary.ofFloat? x = some b) : b.mantissa < 2 ^ 53 := by
  have hf : fraction x < 2 ^ 52 := fraction_lt x
  rw [ofFloat?_eq] at h
  split at h
  · exact nomatch h
  · split at h <;> obtain rfl := Option.some.inj h
    · exact Nat.lt_trans hf (by decide)
    · show 2 ^ 52 + fraction x < 2 ^ 53
      omega

/-- The exponent is read off the bits. -/
theorem within_of_biased (h : (biased x : Int) ≤ k + 1075) (hk : -1074 ≤ k) (hk' : k ≤ 971) :
    Within k x := by
  unfold Within
  rw [ofFloat?_eq, if_neg (by show biased x ≠ 2047; omega)]
  by_cases hzero : biased x = 0
  · rw [if_pos hzero]
    exact ⟨_, rfl, hk⟩
  · rw [if_neg hzero]
    refine ⟨_, rfl, ?_⟩
    show (biased x : Int) - 1075 ≤ k
    omega

theorem within_of_isFinite (h : Number.isFinite x = true) : Within 971 x := by
  obtain ⟨b, hb⟩ := isFinite_iff.1 h
  have hlt : biased x < 2048 := biased_lt x
  have hne : biased x ≠ 2047 := by
    intro heq
    rw [ofFloat?_eq, if_pos (show biased x = powerOfTwo 11 - 1 from heq)] at hb
    exact nomatch hb
  exact within_of_biased (by omega) (by decide) (by decide)

theorem biased_pack (f : UnpackedFloat) : biased (.ofModel (Float.Model.pack f)) =
    (@unpackExponent Format.binary64 (UnpackedFloat.pack Format.binary64 f)).toNat :=
  (unpackExponent_toNat (.ofModel (Float.Model.pack f))).symm

theorem within_pack {f : UnpackedFloat} (h : UpTo k f) (hk : -1074 ≤ k) (hk' : k ≤ 971) :
    Within k (.ofModel (Float.Model.pack f)) := by
  refine within_of_biased ?_ hk hk'
  rw [biased_pack]
  rcases f with s | _ | s | ⟨s, m, e, hm⟩
  · exact h.elim
  · exact h.elim
  · unfold UnpackedFloat.pack UnpackedFloat.packedZero
    rw [UnpackedFloat.unpackExponent_packComponents]
    show (0 : Int) ≤ k + 1075
    omega
  · have he : e ≤ k := h
    unfold UnpackedFloat.pack
    have hbiased : (e + Format.binary64.exponentBias +
        Format.binary64.mantissaBitsWithoutImplicit).toNat = (e + 1075).toNat := by
      show (e + 1023 + 52).toNat = _
      omega
    simp only [hbiased]
    have hsmall : ¬ 2 ^ Format.binary64.exponentBits ≤ (e + 1075).toNat + 1 := by
      show ¬ 2048 ≤ _
      omega
    rw [if_neg hsmall]
    split
    · rw [UnpackedFloat.unpackExponent_packComponents, BitVec.toNat_ofNat]
      show (((e + 1075).toNat % 2048 : Nat) : Int) ≤ _
      omega
    · rw [UnpackedFloat.unpackExponent_packComponents]
      show (0 : Int) ≤ k + 1075
      omega

/-! ## Arithmetic -/

theorem Within.mono {l : Int} (h : Within k x) (hkl : k ≤ l) : Within l x := by
  obtain ⟨b, hb, he⟩ := h
  exact ⟨b, hb, he.trans hkl⟩

theorem Within.neg (h : Within k x) (hk : -1074 ≤ k) (hk' : k ≤ 971) : Within k (-x) := by
  obtain ⟨b, hb, he⟩ := h
  refine within_pack ?_ hk hk'
  rw [unpack_of_ofFloat? hb]
  by_cases hm : b.mantissa = 0
  · rw [Binary.unpacked_zero hm]
    trivial
  · rw [Binary.unpacked_pos hm]
    exact he

/-- Sums lose nothing but the last bits. -/
theorem upTo_add_finite {s t : Sign} {m n : Nat} {e f : Int} (hm : 0 < m) (hn : 0 < n)
    (hm' : m < 2 ^ 53) (hn' : n < 2 ^ 53) (he : e ≤ k) (hf : f ≤ k) (hk : -1076 ≤ k) :
    UpTo (k + 2) (UnpackedFloat.add Format.binary64 (.finite s m e hm) (.finite t n f hn)) := by
  have hshift : ∀ (l : Nat) (g : Int), l < 2 ^ 53 → g ≤ k → min e f ≤ g →
      l <<< (g - min e f).toNat < 2 ^ (53 + (k - min e f).toNat) := by
    intro l g hl hg hmin
    rw [Nat.shiftLeft_eq, Nat.pow_add]
    refine Nat.mul_lt_mul_of_lt_of_le hl ?_ (Nat.two_pow_pos _)
    exact Nat.pow_le_pow_right (by decide) (by omega)
  have happly : ∀ (s : Sign) (l : Nat), (s.apply l).natAbs = l := by
    intro s l
    cases s
    · exact Int.natAbs_neg _
    · rfl
  refine upTo_normalize .positive ?_ (by omega)
  have hsum := Int.natAbs_add_le (s.apply ((m <<< (e - min e f).toNat : Nat) : Int))
    (t.apply ((n <<< (f - min e f).toNat : Nat) : Int))
  rw [happly, happly] at hsum
  have hlog : (s.apply ((m <<< (e - min e f).toNat : Nat) : Int) +
      t.apply ((n <<< (f - min e f).toNat : Nat) : Int)).natAbs.log2 ≤
        53 + (k - min e f).toNat := by
    refine log2_le_of_lt ?_
    have h1 := hshift m e hm' he (by omega)
    have h2 := hshift n f hn' hf (by omega)
    rw [Nat.pow_succ]
    omega
  show ((_ : Nat) : Int) + 1 + min e f ≤ _
  omega

theorem Within.add (hx : Within k x) (hy : Within k y) (hk : -1074 ≤ k) (hk' : k ≤ 969) :
    Within (k + 2) (x + y) := by
  obtain ⟨b, hb, he⟩ := hx
  obtain ⟨b', hb', he'⟩ := hy
  refine within_pack ?_ (by omega) (by omega)
  rw [unpack_of_ofFloat? hb, unpack_of_ofFloat? hb']
  by_cases hm : b.mantissa = 0 <;> by_cases hm' : b'.mantissa = 0
  · rw [Binary.unpacked_zero hm, Binary.unpacked_zero hm']
    unfold UnpackedFloat.add
    simp only []
    split <;> trivial
  · rw [Binary.unpacked_zero hm, Binary.unpacked_pos hm']
    exact he'.trans (by omega)
  · rw [Binary.unpacked_pos hm, Binary.unpacked_zero hm']
    exact he.trans (by omega)
  · rw [Binary.unpacked_pos hm, Binary.unpacked_pos hm']
    exact upTo_add_finite _ _ (mantissa_lt hb) (mantissa_lt hb') he he' (by omega)

theorem Within.mul {l : Int} (hx : Within k x) (hy : Within l y) (hl : -1128 ≤ k + l)
    (hl' : k + l ≤ 917) : Within (k + l + 54) (x * y) := by
  obtain ⟨b, hb, he⟩ := hx
  obtain ⟨b', hb', he'⟩ := hy
  refine within_pack ?_ (by omega) (by omega)
  rw [unpack_of_ofFloat? hb, unpack_of_ofFloat? hb']
  by_cases hm : b.mantissa = 0 <;> by_cases hm' : b'.mantissa = 0
  · rw [Binary.unpacked_zero hm, Binary.unpacked_zero hm']
    trivial
  · rw [Binary.unpacked_zero hm, Binary.unpacked_pos hm']
    trivial
  · rw [Binary.unpacked_pos hm, Binary.unpacked_zero hm']
    trivial
  · rw [Binary.unpacked_pos hm, Binary.unpacked_pos hm']
    have hlog : (b.mantissa * b'.mantissa).log2 ≤ 105 := by
      refine log2_le_of_lt ?_
      show _ < 2 ^ (53 + 53)
      rw [Nat.pow_add]
      exact Nat.mul_lt_mul'' (mantissa_lt hb) (mantissa_lt hb')
    refine upTo_roundWithAccuracy _ .exact (by omega) ?_ (by omega)
    unfold totalExponent
    omega

/-- A whole number with no more digits than a mantissa is rounded once, and once more by a factor
of one. -/
theorem ofNat_eq {n : Nat} (h : n < 2 ^ 53) :
    Float.ofNat n = n.toUInt64.toFloat * Float.ofBits 0x3FF0000000000000 := by
  show Float.ofScientific n false 0 = _
  unfold Float.ofScientific
  rw [dif_pos ⟨h, by decide⟩]
  rfl

/-- A whole number with no more digits than a mantissa. -/
theorem within_ofNat {n : Nat} (h : n < 2 ^ 53) : Within 10 (Float.ofNat n) := by
  have hone : Within (-52) (Float.ofBits 0x3FF0000000000000) := ⟨_, rfl, by decide⟩
  have hwhole : Within 2 n.toUInt64.toFloat := by
    refine within_pack (upTo_normalize .positive ?_ (by decide)) (by decide) (by decide)
    have hlog : n.toUInt64.toNat.log2 ≤ 52 := by
      refine log2_le_of_lt ?_
      rw [show n.toUInt64.toNat = n % 2 ^ 64 from UInt64.toNat_ofNat']
      exact (Nat.mod_le _ _).trans_lt h
    show (n.toUInt64.toNat.log2 : Int) + 1 + 0 ≤ 2 + 52
    omega
  rw [ofNat_eq h]
  exact (hwhole.mul hone (by decide) (by decide)).mono (by decide)

theorem within_ofInt {n : Int} (h : n.natAbs < 2 ^ 53) : Within 10 (Float.ofInt n) := by
  cases n with
  | ofNat n => exact within_ofNat h
  | negSucc n => exact (within_ofNat (n := n + 1) h).neg (by decide) (by decide)

/-! ## Rounding to whole numbers -/

/-- A finite double is whole, or its floor is a whole number with no more digits than a mantissa. -/
theorem floor_eq (h : Number.isFinite x = true) :
    floor x = x ∨ ∃ n : Int, n.natAbs < 2 ^ 53 ∧ floor x = Float.ofInt n := by
  obtain ⟨b, hb⟩ := isFinite_iff.1 h
  unfold floor
  rw [hb]
  by_cases hwhole : b.whole?.isSome = true
  · exact .inl (if_pos hwhole)
  · refine .inr ⟨b.floor, ?_, if_neg hwhole⟩
    have hexponent : b.exponent < 0 := by
      by_contra hneg
      refine hwhole ?_
      have hone : b.denominator = 1 := by
        unfold Binary.denominator
        rw [Int.toNat_eq_zero.2 (by omega)]
      unfold Binary.whole?
      rw [hone, if_pos (Nat.mod_one _)]
      rfl
    have hsigned : b.signed.natAbs = b.mantissa := by
      unfold Binary.signed
      split
      · exact Int.natAbs_neg _
      · rfl
    refine Nat.lt_of_le_of_lt ?_ (mantissa_lt hb)
    unfold Binary.floor
    rw [Int.toNat_eq_zero.2 (Int.le_of_lt hexponent), ← hsigned]
    refine (Int.natAbs_ediv_le_natAbs _ _).trans ?_
    show (b.signed * 1).natAbs ≤ _
    rw [Int.mul_one]

theorem isFinite_floor (h : Number.isFinite x = true) : Number.isFinite (floor x) = true := by
  rcases floor_eq h with heq | ⟨n, hn, heq⟩
  · rwa [heq]
  · rw [heq]
    exact (within_ofInt hn).isFinite

theorem isFinite_neg (h : Number.isFinite x = true) : Number.isFinite (-x) = true :=
  ((within_of_isFinite h).neg (by decide) (by decide)).isFinite

theorem isFinite_ceil (h : Number.isFinite x = true) : Number.isFinite (ceil x) = true :=
  isFinite_neg (isFinite_floor (isFinite_neg h))

/-- No double is half a step above itself. -/
theorem not_half_le_sub_self (h : Number.isFinite x = true) :
    Number.le (Number.ofNat 1 / Number.ofNat 2 : Float) (x - x) = false := by
  obtain ⟨b, hb⟩ := isFinite_iff.1 h
  have hzero : ∃ s, UnpackedFloat.sub Format.binary64 b.unpacked b.unpacked = .zero s := by
    by_cases hm : b.mantissa = 0
    · rw [Binary.unpacked_zero hm]
      unfold UnpackedFloat.sub
      simp only []
      split <;> exact ⟨_, rfl⟩
    · rw [Binary.unpacked_pos hm]
      unfold UnpackedFloat.sub
      simp only [Int.sub_self]
      exact ⟨_, rfl⟩
  obtain ⟨s, hs⟩ := hzero
  have hsub : x - x = .ofModel (Float.Model.pack (.zero s)) := by
    show Float.ofModel (Float.Model.pack
      (UnpackedFloat.sub Format.binary64 x.toModel.unpack x.toModel.unpack)) = _
    rw [unpack_of_ofFloat? hb, hs]
  rw [hsub]
  cases s <;> rfl

/-- Only a number with a fraction is rounded up, to a whole number near its floor. -/
theorem isFinite_roundHalfUp (h : Number.isFinite x = true) :
    Number.isFinite (Number.roundHalfUp x) = true := by
  show Number.isFinite (if Number.le (Number.ofNat 1 / Number.ofNat 2 : Float) (x - floor x) = true
    then floor x + Number.ofNat 1 else floor x) = true
  rcases floor_eq h with heq | ⟨n, hn, heq⟩
  · rw [heq, not_half_le_sub_self h]
    exact h
  · split
    · rw [heq]
      exact ((within_ofInt hn).add (within_ofNat (by decide)) (by decide) (by decide)).isFinite
    · exact isFinite_floor h

theorem isFinite_apply (mode : Rounding) (h : Number.isFinite x = true) :
    Number.isFinite (mode.apply x) = true := by
  cases mode with
  | up => exact isFinite_ceil h
  | closest => exact isFinite_roundHalfUp h
  | down => exact isFinite_floor h

end Double
end Grading
