import Mathlib
import Grading.Proofs.DoubleRange

/-!
# Sums of doubles can be compared

A sum of finite doubles may overflow, but it is never undefined: once it is infinite only finite
numbers are added to it, so it does not meet the other infinity.  With what is not undefined every
comparison comes out one way or the other:

    x and y defined → Number.lt x y = !Number.le y x              (Defined.lt_eq_not_le)
    p < q finite, x defined, q ≤ x → p ≤ x                        (Defined.le_of_le)
    x defined, y finite → x + y defined                           (Defined.add)
    all xs finite → Number.sum xs defined                         (defined_sum)
-/

namespace Grading

open Float.Model (Format UnpackedFloat totalExponent)

namespace Double

variable {x y : Float} {xs : List Float} {f g : UnpackedFloat}

/-- The double is a number or an infinity. -/
def Defined (x : Float) : Prop := x.toModel.unpack ≠ .notANumber

theorem defined_of_isFinite (h : Number.isFinite x = true) : Defined x := ne_notANumber h

theorem Defined.lt_eq_not_le (hx : Defined x) (hy : Defined y) :
    Number.lt x y = !Number.le y x := by
  rw [float_lt_eq, float_le_eq, unpacked_le_eq_not_lt hy hx, Bool.not_not]

/-- Infinities are above all finite numbers or below them. -/
theorem infinity_le_of_le {s : UnpackedFloat.Sign} (hf : f.isFinite = true)
    (hg : g.isFinite = true) (h : g.le (.infinity s) = true) : f.le (.infinity s) = true := by
  cases s with
  | positive =>
    rcases f with t | _ | t | ⟨t, m, e, hm⟩
    · exact absurd hf Bool.false_ne_true
    · exact absurd hf Bool.false_ne_true
    · rfl
    · cases t <;> rfl
  | negative =>
    rcases g with t | _ | t | ⟨t, m, e, hm⟩
    · exact absurd hg Bool.false_ne_true
    · exact absurd hg Bool.false_ne_true
    · exact absurd h Bool.false_ne_true
    · cases t <;> exact absurd h Bool.false_ne_true

theorem Defined.le_of_le {p q : Float} (hx : Defined x) (hp : Number.isFinite p = true)
    (hq : Number.isFinite q = true) (hpq : Number.lt p q = true) (hqx : Number.le q x = true) :
    Number.le p x = true := by
  by_cases hfinite : Number.isFinite x = true
  · exact OrderedNumber.le_trans hp hq hfinite (OrderedNumber.le_of_lt hp hq hpq) hqx
  · obtain ⟨s, hs⟩ : ∃ s, x.toModel.unpack = .infinity s := by
      rcases hunpack : x.toModel.unpack with s | _ | s | ⟨s, m, e, hm⟩
      · exact ⟨s, rfl⟩
      · exact absurd hunpack hx
      · exact absurd (congrArg UnpackedFloat.isFinite hunpack) hfinite
      · exact absurd (congrArg UnpackedFloat.isFinite hunpack) hfinite
    rw [float_le_eq, hs] at hqx ⊢
    exact infinity_le_of_le hp hq hqx

/-- Packing does not make the bits of an undefined value. -/
theorem not_isNaNBits_pack (hf : f ≠ .notANumber) :
    ¬ UnpackedFloat.isNaNBits (UnpackedFloat.pack Format.binary64 f) = true := by
  rcases f with s | _ | s | ⟨s, m, e, hm⟩
  · simp [UnpackedFloat.isNaNBits, UnpackedFloat.pack, UnpackedFloat.packedInfinity]
  · exact absurd rfl hf
  · simp [UnpackedFloat.isNaNBits, UnpackedFloat.pack, UnpackedFloat.packedZero, Format.binary64]
  · unfold UnpackedFloat.pack
    simp only []
    split
    · simp [UnpackedFloat.isNaNBits, UnpackedFloat.packedInfinity]
    · next hsmall =>
      split
      · -- an exponent that fits is not the one of infinities and undefined values
        have hlt : (e + Format.binary64.exponentBias +
            Format.binary64.mantissaBitsWithoutImplicit).toNat + 1 < 2048 := not_le.1 hsmall
        generalize (e + Format.binary64.exponentBias +
          Format.binary64.mantissaBitsWithoutImplicit).toNat = exponent at hlt
        rw [UnpackedFloat.isNaNBits, UnpackedFloat.unpackExponent_packComponents]
        intro hnan
        have hones : exponent % 2048 = 2047 :=
          congrArg BitVec.toNat (of_decide_eq_true hnan).1
        omega
      · simp [UnpackedFloat.isNaNBits, Format.binary64]

theorem defined_pack (hf : f ≠ .notANumber) : Defined (.ofModel (Float.Model.pack f)) := by
  intro hnan
  have hbits : UnpackedFloat.pack Format.binary64 f = UnpackedFloat.packedNaN Format.binary64 :=
    (UnpackedFloat.unpack_eq_notANumber_iff_of_valid UnpackedFloat.valid_pack).1 hnan
  refine not_isNaNBits_pack hf ?_
  rw [hbits]
  exact UnpackedFloat.isNaNBits_packedNaN

theorem normalize_ne_notANumber (m e : ℤ) (s : UnpackedFloat.Sign) :
    UnpackedFloat.normalize Format.binary64 m e s ≠ .notANumber := by
  have hupTo := upTo_normalize (m := m) (e := e)
    (k := max (totalExponent m.natAbs e - 52) (-1074)) s (by omega) (le_max_right _ _)
  intro hnan
  rw [hnan] at hupTo
  exact hupTo

/-- Whatever a finite number is added to, it makes nothing undefined. -/
theorem add_ne_notANumber (hf : f ≠ .notANumber) (hg : g.isFinite = true) :
    UnpackedFloat.add Format.binary64 f g ≠ .notANumber := by
  rcases f with s | _ | s | ⟨s, m, e, hm⟩
  · rcases g with t | _ | t | ⟨t, n, k, hn⟩
    · exact absurd hg Bool.false_ne_true
    · exact absurd hg Bool.false_ne_true
    · exact fun h => nomatch h
    · exact fun h => nomatch h
  · exact absurd rfl hf
  · rcases g with t | _ | t | ⟨t, n, k, hn⟩
    · exact absurd hg Bool.false_ne_true
    · exact absurd hg Bool.false_ne_true
    · cases s <;> cases t <;> exact fun h => nomatch h
    · exact fun h => nomatch h
  · rcases g with t | _ | t | ⟨t, n, k, hn⟩
    · exact absurd hg Bool.false_ne_true
    · exact absurd hg Bool.false_ne_true
    · exact fun h => nomatch h
    · exact normalize_ne_notANumber _ _ _

theorem Defined.add (hx : Defined x) (hy : Number.isFinite y = true) : Defined (x + y) :=
  defined_pack (add_ne_notANumber hx hy)

theorem defined_sum (hxs : ∀ x ∈ xs, Number.isFinite x = true) : Defined (Number.sum xs) := by
  have hfold : ∀ total : Float, Defined total → Defined (xs.foldl (· + ·) total) := by
    induction xs with
    | nil => exact fun _ h => h
    | cons x xs ih =>
      intro total htotal
      exact ih (fun y hy => hxs y (List.mem_cons_of_mem x hy)) _
        (htotal.add (hxs x List.mem_cons_self))
  exact hfold _ (defined_of_isFinite rfl)

end Double
end Grading
