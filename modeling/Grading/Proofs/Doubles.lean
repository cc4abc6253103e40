import Grading.Proofs.Equality

/-!
# The parts of a double

A double is a sign, an exponent and a mantissa, and so is what a finite double unpacks to:
`Binary.ofFloat?` reads off the bits what the arithmetic of doubles works on.

    the three fields of a double determine it                                   (toBits_eq)
    a finite double unpacks to the number it stands for                          (unpack_eq)
    x == y → (x and y are the same bits ↔ their signs are the same)     (toBits_eq_iff_of_beq)
-/

namespace Grading

open Float.Model (Format UnpackedFloat)
open Float.Model.UnpackedFloat (Sign unpackMantissa unpackExponent unpackSign)

variable {x y : Float} {b b' : Binary}

/-! ## Fields -/

namespace Double

/-- The sign bit. -/
def negative (x : Float) : Bool := decide (powerOfTwo 63 ≤ x.toBits.toNat)

/-- The exponent as it is stored. -/
def biased (x : Float) : Nat := x.toBits.toNat / powerOfTwo 52 % powerOfTwo 11

/-- The mantissa as it is stored. -/
def fraction (x : Float) : Nat := x.toBits.toNat % powerOfTwo 52

/-- The sign of a double with that sign bit. -/
def sign (negative : Bool) : Sign := if negative then .negative else .positive

theorem toBits_eq (hn : negative x = negative y) (hb : biased x = biased y)
    (hf : fraction x = fraction y) : x.toBits = y.toBits := by
  unfold negative at hn
  unfold biased at hb
  unfold fraction at hf
  rw [decide_eq_decide] at hn
  have hx := x.toBits.toNat_lt
  have hy := y.toBits.toNat_lt
  refine UInt64.toNat_inj.1 ?_
  simp only [powerOfTwo, Nat.reducePow, Nat.pow_eq] at hn hb hf
  omega

theorem unpackMantissa_toNat (x : Float) :
    (@unpackMantissa Format.binary64 x.toBits.toBitVec).toNat = fraction x := by
  unfold unpackMantissa fraction
  simp [BitVec.extractLsb_toNat]

theorem unpackExponent_toNat (x : Float) :
    (@unpackExponent Format.binary64 x.toBits.toBitVec).toNat = biased x := by
  unfold unpackExponent biased
  simp [BitVec.extractLsb_toNat, Nat.shiftRight_eq_div_pow]

theorem ofBitVec_unpackSign (x : Float) :
    Sign.ofBitVec (@unpackSign Format.binary64 x.toBits.toBitVec) = sign (negative x) := by
  have hlt := x.toBits.toNat_lt
  have hbit : (@unpackSign Format.binary64 x.toBits.toBitVec).toNat =
      x.toBits.toNat / powerOfTwo 63 := by
    unfold unpackSign
    simp [BitVec.extractLsb_toNat, Nat.shiftRight_eq_div_pow]
    omega
  unfold Sign.ofBitVec negative sign
  by_cases h : powerOfTwo 63 ≤ x.toBits.toNat
  · rw [if_neg, if_pos (decide_eq_true h)]
    rw [← BitVec.toNat_inj, hbit]
    exact Nat.ne_of_gt (Nat.div_pos h (by decide))
  · rw [if_pos, if_neg]
    · simpa using h
    · rw [← BitVec.toNat_inj, hbit]
      exact Nat.div_eq_of_lt (Nat.lt_of_not_le h)

theorem unpackExponent_eq_ones_iff :
    @unpackExponent Format.binary64 x.toBits.toBitVec = -1#_ ↔ biased x = powerOfTwo 11 - 1 := by
  rw [← BitVec.toNat_inj, unpackExponent_toNat]
  rfl

theorem unpackExponent_eq_zero_iff :
    @unpackExponent Format.binary64 x.toBits.toBitVec = 0#_ ↔ biased x = 0 := by
  rw [← BitVec.toNat_inj, unpackExponent_toNat]
  rfl

theorem unpackMantissa_eq_zero_iff :
    @unpackMantissa Format.binary64 x.toBits.toBitVec = 0#_ ↔ fraction x = 0 := by
  rw [← BitVec.toNat_inj, unpackMantissa_toNat]
  rfl

/-- The mantissa with the leading bit that is not stored. -/
theorem implicit_toNat (x : Float) :
    (1#1 ++ @unpackMantissa Format.binary64 x.toBits.toBitVec).toNat =
      powerOfTwo 52 + fraction x := by
  rw [BitVec.toNat_append, ← Nat.shiftLeft_add_eq_or_of_lt (BitVec.isLt _), unpackMantissa_toNat]
  rfl

theorem biased_lt (x : Float) : biased x < powerOfTwo 11 := Nat.mod_lt _ (by decide)

theorem fraction_lt (x : Float) : fraction x < powerOfTwo 52 := Nat.mod_lt _ (by decide)

end Double

/-! ## Finite doubles -/

/-- What a double that stands for the number unpacks to. -/
def Binary.unpacked (b : Binary) : UnpackedFloat :=
  if h : b.mantissa = 0 then .zero (Double.sign b.negative)
  else .finite (Double.sign b.negative) b.mantissa b.exponent (Nat.pos_of_ne_zero h)

theorem Binary.unpacked_zero {b : Binary} (h : b.mantissa = 0) :
    b.unpacked = .zero (Double.sign b.negative) := dif_pos h

theorem Binary.unpacked_pos {b : Binary} (h : b.mantissa ≠ 0) :
    b.unpacked = .finite (Double.sign b.negative) b.mantissa b.exponent (Nat.pos_of_ne_zero h) :=
  dif_neg h

theorem Binary.isFinite_unpacked (b : Binary) : b.unpacked.isFinite = true := by
  by_cases h : b.mantissa = 0
  · rw [unpacked_zero h]
    rfl
  · rw [unpacked_pos h]
    rfl

namespace Double

theorem ofFloat?_eq (x : Float) : Binary.ofFloat? x =
    if biased x = powerOfTwo 11 - 1 then none
    else if biased x = 0 then some ⟨negative x, fraction x, -1074⟩
    else some ⟨negative x, powerOfTwo 52 + fraction x, (biased x : Int) - 1075⟩ := rfl

theorem finite_congr {s t : Sign} {m n : Nat} {e f : Int} {hm : 0 < m} {hn : 0 < n}
    (hs : s = t) (hmn : m = n) (hef : e = f) :
    UnpackedFloat.finite s m e hm = .finite t n f hn := by
  subst hs hmn hef
  rfl

theorem unpack_eq (x : Float) : x.toModel.unpack =
    match Binary.ofFloat? x with
    | none => if fraction x = 0 then .infinity (sign (negative x)) else .notANumber
    | some b => b.unpacked := by
  rw [ofFloat?_eq]
  show UnpackedFloat.unpack Format.binary64 x.toBits.toBitVec = _
  by_cases hspecial : biased x = powerOfTwo 11 - 1
  · rw [if_pos hspecial]
    refine (if_pos (unpackExponent_eq_ones_iff.2 hspecial)).trans ?_
    rw [ofBitVec_unpackSign]
    exact if_congr unpackMantissa_eq_zero_iff rfl rfl
  · rw [if_neg hspecial]
    refine (if_neg (mt unpackExponent_eq_ones_iff.1 hspecial)).trans ?_
    by_cases hzero : biased x = 0
    · rw [if_pos hzero]
      refine (if_pos (unpackExponent_eq_zero_iff.2 hzero)).trans ?_
      by_cases hf : fraction x = 0
      · refine (dif_pos (unpackMantissa_eq_zero_iff.2 hf)).trans ?_
        refine Eq.trans ?_ (Binary.unpacked_zero hf).symm
        rw [ofBitVec_unpackSign]
      · refine (dif_neg (mt unpackMantissa_eq_zero_iff.1 hf)).trans ?_
        refine Eq.trans ?_ (Binary.unpacked_pos hf).symm
        refine finite_congr (ofBitVec_unpackSign x) (unpackMantissa_toNat x) ?_
        rw [unpackExponent_toNat, hzero]
        rfl
    · rw [if_neg hzero]
      have hpos : powerOfTwo 52 + fraction x ≠ 0 := by simp
      refine (if_neg (mt unpackExponent_eq_zero_iff.1 hzero)).trans ?_
      refine Eq.trans ?_ (Binary.unpacked_pos hpos).symm
      refine finite_congr (ofBitVec_unpackSign x) (implicit_toNat x) ?_
      rw [unpackExponent_toNat]
      rfl

/-- The finite doubles are those that stand for a number. -/
theorem isFinite_iff : Number.isFinite x = true ↔ ∃ b, Binary.ofFloat? x = some b := by
  show x.toModel.unpack.isFinite = true ↔ _
  rw [unpack_eq]
  cases Binary.ofFloat? x with
  | none =>
    refine iff_of_false ?_ (fun ⟨_, h⟩ => nomatch h)
    show ¬ (if fraction x = 0 then UnpackedFloat.infinity _ else .notANumber).isFinite = true
    split <;> exact Bool.false_ne_true
  | some b => exact iff_of_true b.isFinite_unpacked ⟨b, rfl⟩

theorem unpack_of_ofFloat? (h : Binary.ofFloat? x = some b) : x.toModel.unpack = b.unpacked := by
  rw [unpack_eq, h]

/-- The fields of a finite double are read off the number it stands for. -/
theorem fields_of_ofFloat? (h : Binary.ofFloat? x = some b) :
    (biased x : Int) = (if b.mantissa < powerOfTwo 52 then 0 else b.exponent + 1075) ∧
      fraction x = b.mantissa % powerOfTwo 52 := by
  have hf := fraction_lt x
  rw [ofFloat?_eq] at h
  split at h
  · exact nomatch h
  · split at h
    · next hzero =>
      obtain rfl := Option.some.inj h
      exact ⟨by rw [if_pos hf, hzero]; rfl, (Nat.mod_eq_of_lt hf).symm⟩
    · obtain rfl := Option.some.inj h
      constructor
      · rw [if_neg (by simp)]
        simp
      · show fraction x = (powerOfTwo 52 + fraction x) % powerOfTwo 52
        rw [Nat.add_mod_left, Nat.mod_eq_of_lt hf]

/-! ## Equal doubles -/

theorem orderKey_finite (negative : Bool) {m : Nat} (e : Int) (hm : 0 < m) :
    orderKey (.finite (sign negative) m e hm) =
      if negative then toLex (-1, toLex (-e, -(m : Int))) else toLex (1, toLex (e, (m : Int))) := by
  cases negative <;> rfl

theorem orderKey_zero (s : Sign) : orderKey (.zero s) = toLex (0, toLex (0, 0)) := rfl

/-- Numbers in the same place of the order have the same parts, but for the sign of zero. -/
theorem orderKey_unpacked (h : orderKey b.unpacked = orderKey b'.unpacked) :
    b.mantissa = b'.mantissa ∧ (b.mantissa ≠ 0 → b.exponent = b'.exponent) := by
  by_cases hm : b.mantissa = 0 <;> by_cases hm' : b'.mantissa = 0
  · exact ⟨hm.trans hm'.symm, fun h => absurd hm h⟩
  · rw [Binary.unpacked_zero hm, Binary.unpacked_pos hm', orderKey_zero, orderKey_finite] at h
    cases hs : b'.negative <;> simp [hs] at h
  · rw [Binary.unpacked_pos hm, Binary.unpacked_zero hm', orderKey_zero, orderKey_finite] at h
    cases hs : b.negative <;> simp [hs] at h
  · rw [Binary.unpacked_pos hm, Binary.unpacked_pos hm', orderKey_finite, orderKey_finite] at h
    have hparts : b.exponent = b'.exponent ∧ b.mantissa = b'.mantissa := by
      cases hs : b.negative <;> cases hs' : b'.negative <;> simp [hs, hs'] at h <;> omega
    exact ⟨hparts.2, fun _ => hparts.1⟩

theorem fields_of_infinity {s : Sign} (h : x.toModel.unpack = .infinity s) :
    biased x = powerOfTwo 11 - 1 ∧ fraction x = 0 := by
  rw [unpack_eq] at h
  cases hx : Binary.ofFloat? x with
  | some b =>
    rw [hx] at h
    have hfinite := b.isFinite_unpacked
    rw [show b.unpacked = .infinity s from h] at hfinite
    exact absurd hfinite Bool.false_ne_true
  | none =>
    rw [hx] at h
    constructor
    · by_contra hne
      rw [ofFloat?_eq, if_neg hne] at hx
      split at hx <;> exact nomatch hx
    · by_contra hne
      simp only [hne, if_false] at h
      exact nomatch h

/-- What is equal to a double that is not finite is the same infinity. -/
theorem infinite_of_beq {f g : UnpackedFloat} (h : f.beq g = true) (hf : f.isFinite = false) :
    ∃ s, f = .infinity s ∧ g = .infinity s := by
  rcases f with s | _ | s | ⟨s, m, e, hm⟩
  · rcases g with t | _ | t | ⟨t, n, e, hn⟩
    · cases s <;> cases t
      · exact ⟨_, rfl, rfl⟩
      · exact absurd h Bool.false_ne_true
      · exact absurd h Bool.false_ne_true
      · exact ⟨_, rfl, rfl⟩
    · cases s <;> exact absurd h Bool.false_ne_true
    · cases s <;> exact absurd h Bool.false_ne_true
    · cases s <;> exact absurd h Bool.false_ne_true
  · exact absurd h Bool.false_ne_true
  · exact nomatch hf
  · exact nomatch hf

theorem toBits_eq_iff_of_beq (h : (x == y) = true) :
    x.toBits = y.toBits ↔ negative x = negative y := by
  refine ⟨fun hbits => by unfold negative; rw [hbits], fun hnegative => ?_⟩
  have hbeq : x.toModel.unpack.beq y.toModel.unpack = true := h
  cases hfinite : x.toModel.unpack.isFinite with
  | false =>
    obtain ⟨s, hx, hy⟩ := infinite_of_beq hbeq hfinite
    obtain ⟨hbx, hfx⟩ := fields_of_infinity hx
    obtain ⟨hby, hfy⟩ := fields_of_infinity hy
    exact toBits_eq hnegative (hbx.trans hby.symm) (hfx.trans hfy.symm)
  | true =>
    obtain ⟨hfinite', hle, hge⟩ := (unpacked_beq_iff hfinite).1 hbeq
    rw [unpacked_le_iff hfinite hfinite'] at hle
    rw [unpacked_le_iff hfinite' hfinite] at hge
    have hkey := le_antisymm hle hge
    obtain ⟨b, hx⟩ := isFinite_iff.1 hfinite
    obtain ⟨b', hy⟩ := isFinite_iff.1 hfinite'
    rw [unpack_of_ofFloat? hx, unpack_of_ofFloat? hy] at hkey
    obtain ⟨hmantissa, hexponent⟩ := orderKey_unpacked hkey
    obtain ⟨hbx, hfx⟩ := fields_of_ofFloat? hx
    obtain ⟨hby, hfy⟩ := fields_of_ofFloat? hy
    refine toBits_eq hnegative ?_ (by rw [hfx, hfy, hmantissa])
    by_cases hsmall : b.mantissa < powerOfTwo 52
    · rw [if_pos hsmall] at hbx
      rw [if_pos (hmantissa ▸ hsmall)] at hby
      exact Int.ofNat_inj.1 (hbx.trans hby.symm)
    · have hpos : b.mantissa ≠ 0 := fun hzero => hsmall (by rw [hzero]; decide)
      rw [if_neg hsmall, hexponent hpos] at hbx
      rw [if_neg (hmantissa ▸ hsmall)] at hby
      exact Int.ofNat_inj.1 (hbx.trans hby.symm)

end Double
end Grading
