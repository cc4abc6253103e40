import Grading.Proofs.DecimalTexts
import Grading.Proofs.Representable

/-!
# The shortest decimal reads back

The decimal that a double is printed as lies between the ends of what its number covers, so it is
rounded to that number again:

    b.mantissa ≠ 0 → b.Covers (shortest b).value                              (shortest_covers)
    Binary.ofFloat? x = some b →
      ∃ l, Literal.read? (text x).toList = some l ∧ Binary.Nearest l.value b    (read?_text)

Whatever grid the search stops at, it has compared what it gives out with both ends; nothing is
said of how far it goes.  `Span.Measures` says what the natural numbers of a span stand for.
-/

namespace Grading

namespace Decimal

variable {s : Span} {b : Binary} {d : Decimal} {n tries : ℕ} {k : ℤ} {unit : ℚ}

/-! ## Spans -/

namespace Span

/-- What the numbers of a span stand for, in a unit and over the scale. -/
structure Measures (s : Span) (b : Binary) (unit : ℚ) : Prop where
  scale : 0 < s.scale
  low : s.low * unit = (b.size - b.gapBelow / 2) * s.scale
  high : s.high * unit = (b.size + 2 ^ b.exponent / 2) * s.scale
  closed : s.closed = true → b.mantissa % 2 = 0

theorem contains_eq (s : Span) (n : ℕ) : s.contains n = true ↔
    s.low ≤ n ∧ n ≤ s.high ∧ (s.low = n ∨ n = s.high → s.closed = true) := by
  unfold contains
  cases s.closed with
  | true => simp
  | false =>
    simp only [Bool.false_eq_true, if_false, Bool.and_eq_true, decide_eq_true_eq, imp_false]
    omega

/-- Half the gap below, in quarters of the last place. -/
theorem half_gapBelow (b : Binary) : b.gapBelow / 2 =
    (if b.mantissa = powerOfTwo 52 && decide (-1074 < b.exponent) then 1 else 2 : ℕ) *
      2 ^ (b.exponent - 2) := by
  have hcondition : (decide (b.mantissa = powerOfTwo 52) && decide (-1074 < b.exponent)) = true ↔
      b.mantissa = 2 ^ 52 ∧ -1074 < b.exponent := by
    rw [Bool.and_eq_true, decide_eq_true_eq, decide_eq_true_eq]
    exact Iff.rfl
  unfold Binary.gapBelow
  rw [zpow_sub₀ two_ne_zero, zpow_sub₀ two_ne_zero]
  by_cases hpower : b.mantissa = 2 ^ 52 ∧ -1074 < b.exponent
  · rw [if_pos hpower, if_pos (hcondition.2 hpower)]
    push_cast
    ring
  · rw [if_neg hpower, if_neg (mt hcondition.1 hpower)]
    push_cast
    ring

theorem measures_ofBinary (hm : b.mantissa ≠ 0) : Measures (ofBinary b) b 1 := by
  have hpos : (0 : ℚ) < (2 ^ (2 - b.exponent).toNat : ℕ) := by
    exact_mod_cast Nat.two_pow_pos _
  have hunit : ((2 ^ (b.exponent - 2).toNat : ℕ) : ℚ) =
      2 ^ (b.exponent - 2) * (2 ^ (2 - b.exponent).toNat : ℕ) := by
    rw [Binary.zpow_eq_div two_ne_zero (b.exponent - 2), neg_sub]
    push_cast at hpos ⊢
    rw [div_mul_cancel₀ _ hpos.ne']
  have hquarter : (2 : ℚ) ^ b.exponent = 4 * 2 ^ (b.exponent - 2) := by
    rw [zpow_sub₀ two_ne_zero]
    norm_num
    ring
  have hsize : b.size = (4 * b.mantissa : ℕ) * 2 ^ (b.exponent - 2) := by
    unfold Binary.size
    rw [hquarter]
    push_cast
    ring
  refine ⟨Nat.two_pow_pos _, ?low, ?high, fun h => by simpa [ofBinary] using h⟩
  case low =>
    have hbelow : (if b.mantissa = powerOfTwo 52 && decide (-1074 < b.exponent) then 1 else 2) ≤
        4 * b.mantissa := by
      split <;> omega
    rw [half_gapBelow, hsize, ← sub_mul, ← Nat.cast_sub hbelow, mul_assoc, mul_one]
    show ((_ * 2 ^ (b.exponent - 2).toNat : ℕ) : ℚ) = _
    rw [Nat.cast_mul, hunit]
    rfl
  case high =>
    have hhalf : (2 : ℚ) ^ b.exponent / 2 = (2 : ℕ) * 2 ^ (b.exponent - 2) := by
      rw [hquarter]
      push_cast
      ring
    rw [hhalf, hsize, ← add_mul, ← Nat.cast_add, mul_assoc, mul_one]
    show (((4 * b.mantissa + 2) * 2 ^ (b.exponent - 2).toNat : ℕ) : ℚ) = _
    rw [Nat.cast_mul, hunit]
    rfl

/-- Other units keep the numbers. -/
theorem Measures.inUnits (h : Measures s b 1) (k : ℤ) : Measures (s.inUnits k) b (10 ^ k) := by
  have hpos : (0 : ℚ) < 10 ^ (-k).toNat := by positivity
  have hup : ((10 ^ (-k).toNat : ℕ) : ℚ) * 10 ^ k = (10 ^ k.toNat : ℕ) := by
    rw [Binary.zpow_eq_div (by norm_num) k]
    push_cast
    rw [mul_div_cancel₀ _ hpos.ne']
  have hends : ∀ {m : ℕ} {v : ℚ}, m * 1 = v * s.scale →
      ((m * 10 ^ (-k).toNat : ℕ) : ℚ) * 10 ^ k = v * (s.scale * 10 ^ k.toNat : ℕ) := by
    intro m v hv
    rw [mul_one] at hv
    rw [Nat.cast_mul, Nat.cast_mul, mul_assoc, hup, hv, mul_assoc]
  exact ⟨Nat.mul_pos h.scale (Nat.pow_pos (by decide)), hends h.low, hends h.high, h.closed⟩

/-- Nothing but members of the span is found. -/
theorem contains_nearest? (h : s.nearest? = some n) : s.contains (n * s.scale) = true := by
  unfold nearest? at h
  dsimp only at h
  split at h
  · next hbelow habove =>
    rw [← Option.some.inj h]
    split
    · exact hbelow
    · exact habove
  · next hbelow _ => exact Option.some.inj h ▸ hbelow
  · next _ habove => exact Option.some.inj h ▸ habove
  · cases h

theorem Measures.covers (h : Measures s b unit) (hunit : 0 < unit)
    (hn : s.contains (n * s.scale) = true) : b.Covers (n * unit) := by
  obtain ⟨hscale, hlow, hhigh, hclosed⟩ := h
  obtain ⟨hle, hge, hends⟩ := (contains_eq s _).1 hn
  have hscale : (0 : ℚ) < s.scale := by exact_mod_cast hscale
  have hle : (s.low : ℚ) ≤ n * s.scale := by exact_mod_cast hle
  have hge : (n : ℚ) * s.scale ≤ s.high := by exact_mod_cast hge
  refine ⟨?_, ?_, fun hend => hclosed (hends ?_)⟩
  · refine le_of_mul_le_mul_right ?_ hscale
    rw [← hlow, mul_right_comm]
    exact mul_le_mul_of_nonneg_right hle hunit.le
  · refine le_of_mul_le_mul_right ?_ hscale
    rw [← hhigh, mul_right_comm]
    exact mul_le_mul_of_nonneg_right hge hunit.le
  · have hcancel : ∀ {m : ℕ} {v : ℚ}, m * unit = v * s.scale → n * unit = v →
        m = n * s.scale := by
      rintro m v hm rfl
      rw [mul_right_comm] at hm
      exact_mod_cast mul_right_cancel₀ hunit.ne' hm
    exact hend.imp (hcancel hlow) fun h => (hcancel hhigh h).symm

end Span

/-! ## The search -/

/-- On every grid that the search stops at. -/
theorem search_covers (hs : s.Measures b 1) (h : search s tries k = some d) :
    b.Covers d.value := by
  induction tries generalizing k with
  | zero => cases h
  | succ tries ih =>
    unfold search at h
    split at h
    · next digits hdigits =>
      rw [← Option.some.inj h]
      exact (hs.inUnits k).covers (zpow_pos (by norm_num) k) (Span.contains_nearest? hdigits)
    · exact ih h

theorem value_exact (b : Binary) : (exact b).value = b.size := by
  unfold exact value Binary.size
  split
  · next hneg =>
    have hten : (10 : ℚ) ^ b.exponent = 2 ^ b.exponent * 5 ^ b.exponent := by
      rw [← mul_zpow]
      norm_num
    have hfive : (5 : ℚ) ^ (-b.exponent).toNat * 5 ^ b.exponent = 1 := by
      rw [← zpow_natCast, ← zpow_add₀ (by norm_num), Int.toNat_of_nonneg (by omega),
        neg_add_cancel, zpow_zero]
    show ((b.mantissa * 5 ^ (-b.exponent).toNat : ℕ) : ℚ) * 10 ^ b.exponent = _
    rw [hten]
    push_cast
    calc (b.mantissa : ℚ) * 5 ^ (-b.exponent).toNat * (2 ^ b.exponent * 5 ^ b.exponent)
        = b.mantissa * 2 ^ b.exponent * (5 ^ (-b.exponent).toNat * 5 ^ b.exponent) := by ring
      _ = b.mantissa * 2 ^ b.exponent := by rw [hfive, mul_one]
  · next hnonneg =>
    show ((b.mantissa * 2 ^ b.exponent.toNat : ℕ) : ℚ) * 10 ^ (0 : ℤ) = _
    push_cast
    rw [mul_one, ← zpow_natCast, Int.toNat_of_nonneg (by omega)]

theorem shortest_covers (hm : b.mantissa ≠ 0) : b.Covers (shortest b).value := by
  unfold shortest
  dsimp only
  cases h : search (Span.ofBinary b) 40
      (width (Span.ofBinary b).value - width (Span.ofBinary b).scale + 1) with
  | some d => exact search_covers (Span.measures_ofBinary hm) h
  | none =>
    show b.Covers (exact b).value
    rw [value_exact]
    exact b.covers_size

end Decimal

/-! ## Texts of doubles -/

namespace Double

variable {x : Float} {b : Binary}

/-- A sign in front of what is read without one. -/
theorem read?_minus {cs : List Char} {l : Literal} (h : Literal.read? cs = some l)
    (hn : l.negative = false) :
    ∃ l', Literal.read? ('-' :: cs) = some l' ∧ l'.value = -l.value := by
  obtain ⟨⟨hne, hdigits, hdigits', hexponent⟩, hcs⟩ := Literal.read?_eq_some_iff.1 h
  refine ⟨{ l with negative := true },
    Literal.read?_eq_some_iff.2 ⟨⟨hne, hdigits, hdigits', hexponent⟩, ?_⟩, ?_⟩
  · rw [hcs]
    unfold Literal.spelling
    rw [hn]
    rfl
  · unfold Literal.value
    rw [hn, if_pos rfl, if_neg Bool.false_ne_true, mul_assoc, mul_assoc, neg_one_mul, one_mul]

/-- The digits of a double without its sign. -/
theorem read?_size (b : Binary) : ∃ l,
    Literal.read? (if b.mantissa = 0 then "0" else (Decimal.shortest b).text).toList = some l ∧
      l.negative = false ∧ 0 ≤ l.value ∧ b.Covers l.value := by
  by_cases hm : b.mantissa = 0
  · have hsize : b.size = 0 := by
      unfold Binary.size
      rw [hm, Nat.cast_zero, zero_mul]
    have hvalue : Literal.value ⟨false, ['0'], [], 0⟩ = b.size := by
      rw [hsize]
      exact (Literal.value_digits false 0).trans (by simp)
    rw [if_pos hm]
    exact ⟨⟨false, ['0'], [], 0⟩, rfl, rfl, hvalue ▸ b.size_nonneg, hvalue ▸ b.covers_size⟩
  · obtain ⟨l, hread, hn, hvalue⟩ := (Decimal.shortest b).read?_text
    rw [if_neg hm]
    refine ⟨l, hread, hn, ?_, hvalue ▸ Decimal.shortest_covers hm⟩
    rw [hvalue]
    exact mul_nonneg (Nat.cast_nonneg _) (zpow_nonneg (by norm_num) _)

/-- The text of a double is rounded to it. -/
theorem read?_text (h : Binary.ofFloat? x = some b) :
    ∃ l, Literal.read? (text x).toList = some l ∧ Binary.Nearest l.value b := by
  have hb := canonical_of_ofFloat? h
  obtain ⟨l, hread, hn, hnonneg, hcovers⟩ := read?_size b
  have hnearest := hcovers.nearest hb hnonneg
  unfold text
  rw [h]
  dsimp only
  cases hnegative : b.negative with
  | false =>
    rw [hnegative] at hnearest
    exact ⟨l, hread, hnearest⟩
  | true =>
    rw [hnegative, if_pos rfl] at hnearest
    obtain ⟨l', hread', hvalue⟩ := read?_minus hread hn
    refine ⟨l', ?_, hvalue ▸ hnearest⟩
    rw [if_pos rfl, String.toList_append]
    exact hread'

end Double

end Grading
