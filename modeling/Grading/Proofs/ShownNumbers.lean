import Grading.Cause
import Grading.Proofs.DoubleRounding
import Grading.Proofs.ShortestDecimals

/-!
# Numbers are shown exactly

The text of a finite double as a grade is read as a number that is rounded to that double and to
no other.  So two finite doubles that print alike, as grades or in the causes of a failure, are
equal (`shown_numbers_are_exact`).

    gradeText x = if isShownWhole x then toString (toInt64 x) else text x          (gradeText_eq)
    isShownWhole x = true ↔ ∃ z : ℤ, b.value = z ∧ |z| < 2 ^ 63                (isShownWhole_iff)
    b.value = z → |z| < 2 ^ 63 → (toInt64 x).toInt = z                            (toInt_toInt64)

The limit of the integer branch is the largest 64-bit integer as a double.  That is not the integer
itself but `2 ^ 63`, to which it is rounded.  So a whole double below the limit is an integer below
`2 ^ 63`, which the cast leaves as it is, and so does it with the negative.
-/

namespace Grading

open Float.Model (UnpackedFloat)
open Float.Model.UnpackedFloat (ExtendedMantissa)

variable {x y : Float} {b c : Binary} {z : ℤ}

namespace Double

/-! ## Equal numbers -/

/-- Doubles that stand for the same number are equal. -/
theorem beq_of_value_eq (hx : Binary.ofFloat? x = some b) (hy : Binary.ofFloat? y = some c)
    (h : b.value = c.value) : (x == y) = true := by
  have hsize : b.size = c.size := by rw [← b.abs_value, h, c.abs_value]
  obtain ⟨hmantissa, hexponent⟩ :=
    (canonical_of_ofFloat? hx).eq_of_size_eq (canonical_of_ofFloat? hy) hsize
  have hkey : orderKey b.unpacked = orderKey c.unpacked := by
    by_cases hm : b.mantissa = 0
    · rw [Binary.unpacked_zero hm, Binary.unpacked_zero (hmantissa ▸ hm), orderKey_zero,
        orderKey_zero]
    · have hne : b.size ≠ 0 := mul_ne_zero (Nat.cast_ne_zero.2 hm) (two_zpow_pos _).ne'
      have hnegative : b.negative = c.negative := by
        rw [Binary.value_eq, Binary.value_eq, ← hsize] at h
        by_contra hdiff
        cases hb : b.negative <;> cases hc : c.negative <;> rw [hb, hc] at h hdiff
        · exact hdiff rfl
        · exact hne (by simpa using self_eq_neg.1 h)
        · exact hne (by simpa using neg_eq_self.1 h)
        · exact hdiff rfl
      obtain ⟨n, m, e⟩ := b
      obtain ⟨n', m', e'⟩ := c
      obtain rfl : n = n' := hnegative
      obtain rfl : m = m' := hmantissa
      obtain rfl : e = e' := hexponent
      rfl
  have hfinite : Number.isFinite x = true := isFinite_iff.2 ⟨b, hx⟩
  refine (ComparableNumber.beq_iff hfinite).2 ⟨isFinite_iff.2 ⟨c, hy⟩, ?_, ?_⟩
  · rw [float_le_eq, unpack_of_ofFloat? hx, unpack_of_ofFloat? hy,
      unpacked_le_iff b.isFinite_unpacked c.isFinite_unpacked]
    exact hkey.le
  · rw [float_le_eq, unpack_of_ofFloat? hx, unpack_of_ofFloat? hy,
      unpacked_le_iff c.isFinite_unpacked b.isFinite_unpacked]
    exact hkey.ge

/-! ## The integer branch -/

/-- The cast to a 64-bit integer, towards zero and no farther than the ends. -/
def toInt64 (x : Float) : Int64 := x.toModel.toInt64

/-- The largest 64-bit integer as a double. -/
def wholeLimit : Float := .ofModel (.ofInt64 Int64.maxValue)

/-- It is not a double and is rounded up. -/
theorem stands_wholeLimit : Stands (2 ^ 63) wholeLimit :=
  ⟨⟨false, 2 ^ 52, 11⟩, by decide, rfl, by norm_num⟩

/-- The size of a double stands for the size of its number. -/
theorem stands_abs (h : Binary.ofFloat? x = some b) : Stands b.size x.abs := by
  obtain ⟨hmantissa, hexponent, hfull⟩ := canonical_of_ofFloat? h
  have hle := exponent_le h
  have habs : b.unpacked.abs = Binary.unpacked ⟨false, b.mantissa, b.exponent⟩ := by
    by_cases hm : b.mantissa = 0
    · rw [Binary.unpacked_zero hm, Binary.unpacked_zero (b := ⟨false, b.mantissa, _⟩) hm]
      rfl
    · rw [Binary.unpacked_pos hm, Binary.unpacked_pos (b := ⟨false, b.mantissa, _⟩) hm]
      rfl
  refine ⟨⟨false, b.mantissa, b.exponent⟩, ?_, rfl, rfl⟩
  show Binary.ofFloat? (.ofModel (Float.Model.pack x.toModel.unpack.abs)) = _
  rw [unpack_of_ofFloat? h, habs]
  exact ofFloat?_pack_unpacked ⟨hmantissa, hexponent, hfull⟩ hle

/-- The test before the integer branch: the number is whole, and its size is below the limit. -/
def isShownWhole (x : Float) : Bool :=
  ((Binary.ofFloat? x).bind Binary.whole?).isSome && Number.lt x.abs wholeLimit

/-- Doubles below the limit are below `2 ^ 63`. -/
theorem isShownWhole_iff (h : Binary.ofFloat? x = some b) :
    isShownWhole x = true ↔ ∃ z : ℤ, b.value = z ∧ |z| < 2 ^ 63 := by
  have hlimit : ∀ z : ℤ, b.value = z → (Number.lt x.abs wholeLimit = true ↔ |z| < 2 ^ 63) := by
    intro z hz
    rw [(stands_abs h).lt_iff stands_wholeLimit, ← b.abs_value, hz]
    exact_mod_cast Iff.rfl
  unfold isShownWhole
  rw [h, Option.bind_some, Bool.and_eq_true, Option.isSome_iff_exists]
  constructor
  · rintro ⟨⟨z, hz⟩, hlt⟩
    have hz := Binary.whole?_eq_some_iff.1 hz
    exact ⟨z, hz, (hlimit z hz).1 hlt⟩
  · rintro ⟨z, hz, hlt⟩
    exact ⟨⟨z, Binary.whole?_eq_some_iff.2 hz⟩, (hlimit z hz).2 hlt⟩

/-- The cast of a finite number before it is cut off at the ends. -/
theorem roundToInt_eq (s : UnpackedFloat.Sign) (m : ℕ) (e : ℤ) :
    UnpackedFloat.roundToInt s m e = s.apply (m * 2 ^ e.toNat / 2 ^ (-e).toNat : ℕ) := by
  have hshift : (0 - (e - ((e - 0).toNat : ℤ))).toNat = (-e).toNat := by omega
  show s.apply (ExtendedMantissa.ofMantissaAndAccuracy (m <<< (e - 0).toNat) .exact >>>
    (0 - (e - ((e - 0).toNat : ℤ))).toNat).mantissa = _
  rw [mantissa_shiftRight, mantissa_ofMantissaAndAccuracy, hshift, Nat.shiftLeft_eq, sub_zero]

/-- A whole number is cast to itself, if it is not cut off. -/
theorem toInt_unpacked (hz : b.value = z) (low high : ℤ) : b.unpacked.toInt low high = z := by
  by_cases hm : b.mantissa = 0
  · have hzero : (z : ℚ) = 0 := by
      rw [← hz, Binary.value_eq, Binary.size, hm, Nat.cast_zero, zero_mul, neg_zero, ite_self]
    rw [Binary.unpacked_zero hm, Int.cast_eq_zero.1 hzero]
    rfl
  · have hwhole := Binary.whole?_eq_some_iff.2 hz
    unfold Binary.whole? at hwhole
    split at hwhole
    · next hmod =>
      have hdvd : b.denominator ∣ b.mantissa * 2 ^ b.exponent.toNat :=
        (Nat.dvd_of_mod_eq_zero hmod).mul_right _
      have hfloor : b.signed * ((2 ^ b.exponent.toNat : ℕ) : ℤ) / (b.denominator : ℤ) = z :=
        Option.some.inj hwhole
      rw [Binary.unpacked_pos hm]
      show UnpackedFloat.roundToInt (sign b.negative) b.mantissa b.exponent = z
      rw [roundToInt_eq, ← hfloor]
      show (sign b.negative).apply (b.mantissa * 2 ^ b.exponent.toNat / b.denominator) = _
      unfold Binary.signed sign
      split
      · rw [neg_mul, ← Nat.cast_mul, Int.neg_ediv_of_dvd (Int.natCast_dvd_natCast.2 hdvd),
          ← Int.natCast_ediv]
        rfl
      · rw [← Nat.cast_mul, ← Int.natCast_ediv]
        rfl
    · cases hwhole

/-- Below the limit the cast neither stops at an end nor drops a fraction. -/
theorem toInt_toInt64 (h : Binary.ofFloat? x = some b) (hz : b.value = z) (hlt : |z| < 2 ^ 63) :
    (toInt64 x).toInt = z := by
  obtain ⟨hlow, hhigh⟩ := abs_lt.1 hlt
  have hcast : toInt64 x = Int64.ofIntClamp z := by
    show Int64.ofIntClamp (x.toModel.unpack.toInt _ _) = _
    rw [unpack_of_ofFloat? h, toInt_unpacked hz]
  rw [hcast, Int64.toInt_ofIntClamp]
  · show -(2 ^ 63) ≤ z
    omega
  · show z ≤ 2 ^ 63 - 1
    omega

/-! ## Grades -/

theorem gradeText_of_whole (h : Binary.ofFloat? x = some b) (hz : b.value = z)
    (hlt : |z| < 2 ^ 63) : gradeText x = toString z := by
  obtain ⟨hlow, hhigh⟩ := abs_lt.1 hlt
  have hsize : z.natAbs < powerOfTwo 63 := by
    show z.natAbs < 2 ^ 63
    omega
  unfold gradeText
  rw [h, Option.bind_some, Binary.whole?_eq_some_iff.2 hz]
  exact if_pos hsize

/-- Everything else is shown by the other branch, infinities and undefined values as well. -/
theorem gradeText_of_not_whole (h : isShownWhole x = false) : gradeText x = text x := by
  unfold gradeText
  split
  · next z hz =>
    obtain ⟨b, hb, hz⟩ := Option.bind_eq_some_iff.1 hz
    refine if_neg fun hsize => Bool.eq_false_iff.1 h ((isShownWhole_iff hb).2 ?_)
    have hsize : z.natAbs < 2 ^ 63 := hsize
    exact ⟨z, Binary.whole?_eq_some_iff.1 hz, abs_lt.2 ⟨by omega, by omega⟩⟩
  · rfl

/-- The two branches, by the comparison of doubles that decides between them. -/
theorem gradeText_eq (x : Float) :
    gradeText x = if isShownWhole x then toString (toInt64 x) else text x := by
  cases h : isShownWhole x with
  | false => exact gradeText_of_not_whole h
  | true =>
    obtain ⟨z, hz⟩ := Option.isSome_iff_exists.1 (Bool.and_eq_true_iff.1 h).1
    obtain ⟨b, hb, -⟩ := Option.bind_eq_some_iff.1 hz
    obtain ⟨z, hz, hlt⟩ := (isShownWhole_iff hb).1 h
    rw [gradeText_of_whole hb hz hlt]
    show _ = toString (toInt64 x).toInt
    rw [toInt_toInt64 hb hz hlt]

/-- The text of a grade is rounded to it, and a whole number below the limit is written as it is. -/
theorem read?_gradeText (h : Binary.ofFloat? x = some b) :
    ∃ l, Literal.read? (gradeText x).toList = some l ∧ Binary.Nearest l.value b ∧
      (isShownWhole x = true → l.value = b.value ∧ l.fraction = []) := by
  cases hwhole : isShownWhole x with
  | true =>
    obtain ⟨z, hz, hlt⟩ := (isShownWhole_iff h).1 hwhole
    obtain ⟨l, hread, hfraction, hvalue⟩ := Literal.read?_int z
    rw [gradeText_of_whole h hz hlt]
    have hvalue := hvalue.trans hz.symm
    exact ⟨l, hread, hvalue ▸ b.nearest_value, fun _ => ⟨hvalue, hfraction⟩⟩
  | false =>
    obtain ⟨l, hread, hnearest⟩ := read?_text h
    rw [gradeText_of_not_whole hwhole]
    exact ⟨l, hread, hnearest, fun htrue => nomatch htrue⟩

/-- The number that a text is rounded to is that of one double, up to the sign of zero. -/
theorem beq_of_nearest {q : ℚ} (hx : Binary.ofFloat? x = some b) (hy : Binary.ofFloat? y = some c)
    (hb : Binary.Nearest q b) (hc : Binary.Nearest q c) : (x == y) = true :=
  beq_of_value_eq hx hy (hb.value_eq hc (canonical_of_ofFloat? hx) (canonical_of_ofFloat? hy))

theorem beq_of_gradeText_eq (hx : Number.isFinite x = true) (hy : Number.isFinite y = true)
    (h : gradeText x = gradeText y) : (x == y) = true := by
  obtain ⟨b, hb⟩ := isFinite_iff.1 hx
  obtain ⟨c, hc⟩ := isFinite_iff.1 hy
  obtain ⟨l, hread, hnearest, -⟩ := read?_gradeText hb
  obtain ⟨l', hread', hnearest', -⟩ := read?_gradeText hc
  rw [h] at hread
  obtain rfl := Option.some.inj (hread.symm.trans hread')
  exact beq_of_nearest hb hc hnearest hnearest'

theorem space_not_mem_gradeText (h : Number.isFinite x = true) : ' ' ∉ (gradeText x).toList := by
  obtain ⟨b, hb⟩ := isFinite_iff.1 h
  obtain ⟨l, hread, -⟩ := read?_gradeText hb
  intro hspace
  rcases Literal.mem_of_read? hread hspace with hdigit | hminus | ⟨hpoint, -⟩
  · exact absurd hdigit (by decide)
  · exact absurd hminus (by decide)
  · exact absurd hpoint (by decide)

end Double

/-! ## Causes -/

/-- What stands behind the last of a character. -/
theorem append_cons_inj {α : Type} {l l' r r' : List α} {a : α} (hr : a ∉ r) (hr' : a ∉ r')
    (h : l ++ a :: r = l' ++ a :: r') : l = l' ∧ r = r' := by
  rcases List.append_eq_append_iff.1 h with ⟨m, rfl, hm⟩ | ⟨m, rfl, hm⟩
  · cases m with
    | nil => exact ⟨(List.append_nil l).symm, (List.cons.inj hm).2⟩
    | cons b m =>
      exact absurd ((List.cons.inj hm).2 ▸ List.mem_append_right m List.mem_cons_self) hr
  · cases m with
    | nil => exact ⟨List.append_nil l', (List.cons.inj hm).2.symm⟩
    | cons b m =>
      exact absurd ((List.cons.inj hm).2 ▸ List.mem_append_right m List.mem_cons_self) hr'

/-- The texts of two causes are alike only if their parts are. -/
theorem Cause.text_inj {c c' : Cause Float} (hvalue : Number.isFinite c.value = true)
    (hmin : Number.isFinite c.minPoints = true) (hvalue' : Number.isFinite c'.value = true)
    (hmin' : Number.isFinite c'.minPoints = true) (h : c.text = c'.text) :
    c.node = c'.node ∧ Double.gradeText c.value = Double.gradeText c'.value ∧
      Double.gradeText c.minPoints = Double.gradeText c'.minPoints := by
  have htext : ∀ c : Cause Float, c.text.toList = ((c.node.toList ++ " (was".toList) ++
      ' ' :: (Double.gradeText c.value).toList) ++ ") <".toList ++
        ' ' :: (Double.gradeText c.minPoints).toList := by
    intro c
    show (c.node ++ " (was " ++ Double.gradeText c.value ++ ") < " ++
      Double.gradeText c.minPoints).toList = _
    simp
  have hlists : c.text.toList = c'.text.toList := by rw [h]
  rw [htext, htext] at hlists
  obtain ⟨hfront, hminEq⟩ := append_cons_inj (Double.space_not_mem_gradeText hmin)
    (Double.space_not_mem_gradeText hmin') hlists
  obtain ⟨hnode, hvalueEq⟩ := append_cons_inj (Double.space_not_mem_gradeText hvalue)
    (Double.space_not_mem_gradeText hvalue') (List.append_cancel_right hfront)
  exact ⟨String.toList_inj.1 (List.append_cancel_right hnode), String.toList_inj.1 hvalueEq,
    String.toList_inj.1 hminEq⟩

/-! ## Top theorem -/

open Double

/-- The text of a finite double is rounded to it and to no other.  The integer branch is taken for
the whole numbers below `2 ^ 63`, their cast is exact, and their text has no point.  So numbers that
print alike, as values, as outcomes or in causes, are equal. -/
theorem shown_numbers_are_exact :
    (∀ x : Float, Number.isFinite x = true → ∃ b l, Binary.ofFloat? x = some b ∧
      Literal.read? (gradeText x).toList = some l ∧ Binary.Nearest l.value b ∧
      (∀ y c, Binary.ofFloat? y = some c → Binary.Nearest l.value c → (x == y) = true) ∧
      (gradeText x = if isShownWhole x then toString (toInt64 x) else text x) ∧
      (isShownWhole x = true ↔ ∃ z : ℤ, b.value = z ∧ |z| < 2 ^ 63) ∧
      (isShownWhole x = true → ((toInt64 x).toInt : ℚ) = b.value ∧ l.value = b.value ∧
        '.' ∉ (gradeText x).toList)) ∧
    (∀ x y : Float, Number.isFinite x = true → Number.isFinite y = true →
      (Value.number x).text = (Value.number y).text ∨
        (Outcome.number x).text = (Outcome.number y).text → (x == y) = true) ∧
    ∀ c c' : Cause Float, Number.isFinite c.value = true → Number.isFinite c.minPoints = true →
      Number.isFinite c'.value = true → Number.isFinite c'.minPoints = true → c.text = c'.text →
        c.node = c'.node ∧ (c.value == c'.value) = true ∧ (c.minPoints == c'.minPoints) = true := by
  refine ⟨fun x hx => ?number, fun x y hx hy h => ?alike, fun c c' hv hm hv' hm' h => ?cause⟩
  case number =>
    obtain ⟨b, hb⟩ := isFinite_iff.1 hx
    obtain ⟨l, hread, hnearest, hwhole⟩ := read?_gradeText hb
    refine ⟨b, l, hb, hread, hnearest, fun y c hc => beq_of_nearest hb hc hnearest,
      gradeText_eq x, isShownWhole_iff hb, fun hshown => ?_⟩
    obtain ⟨z, hz, hlt⟩ := (isShownWhole_iff hb).1 hshown
    obtain ⟨hvalue, hfraction⟩ := hwhole hshown
    refine ⟨by rw [toInt_toInt64 hb hz hlt, hz], hvalue, fun hpoint => ?_⟩
    rcases Literal.mem_of_read? hread hpoint with hdigit | hminus | ⟨-, hne⟩
    · exact absurd hdigit (by decide)
    · exact absurd hminus (by decide)
    · exact hne hfraction
  case alike => exact beq_of_gradeText_eq hx hy (h.elim id id)
  case cause =>
    obtain ⟨hnode, hvalue, hmin⟩ := Cause.text_inj hv hm hv' hm' h
    exact ⟨hnode, beq_of_gradeText_eq hv hv' hvalue, beq_of_gradeText_eq hm hm' hmin⟩

/-- The largest double below `2 ^ 63`. -/
def lastBelowLimit : Float := .ofBits 0x43DFFFFFFFFFFFFF

/-- Three tenths, and the double next to it that one tenth and two tenths add up to. -/
def threeTenths : Float := .ofBits 0x3FD3333333333333

def sumOfTenths : Float := .ofBits 0x3FD3333333333334

theorem shown_numbers_are_exact_at_limit :
    (toInt64 lastBelowLimit).toInt = 9223372036854774784 ∧
      gradeText lastBelowLimit = "9223372036854774784" ∧
      (Value.number threeTenths).text ≠ (Value.number sumOfTenths).text ∧
      Cause.text ⟨"exam", .source, threeTenths, lastBelowLimit⟩ ≠
        Cause.text ⟨"exam", .source, sumOfTenths, lastBelowLimit⟩ := by
  obtain ⟨hnumber, halike, hcause⟩ := shown_numbers_are_exact
  obtain ⟨b, l, hb, -, -, -, htext, hshown, hcast⟩ := hnumber lastBelowLimit (by decide)
  obtain rfl : b = ⟨false, 2 ^ 53 - 1, 10⟩ := Option.some.inj (hb.symm.trans (by decide))
  have hvalue : Binary.value ⟨false, 2 ^ 53 - 1, 10⟩ = (9223372036854774784 : ℤ) := by
    norm_num [Binary.value, Binary.signed]
  have hshown := hshown.2 ⟨_, hvalue, by norm_num⟩
  have hcast : (toInt64 lastBelowLimit).toInt = 9223372036854774784 :=
    Int.cast_injective ((hcast hshown).1.trans hvalue)
  rw [if_pos hshown] at htext
  refine ⟨hcast, htext.trans ?_, fun h => ?_, fun h => ?_⟩
  · show toString (toInt64 lastBelowLimit).toInt = _
    rw [hcast]
    decide
  · exact absurd (halike threeTenths sumOfTenths (by decide) (by decide) (.inl h)) (by decide)
  · exact absurd (hcause _ _ (by decide) (by decide) (by decide) (by decide) h).2.1 (by decide)

end Grading
