import Mathlib.Algebra.Order.Field.Rat
import Mathlib.Tactic.Ring
import Mathlib.Tactic.FieldSimp
import Grading.Decimal.Shortest
import Grading.Json.Reader
import Grading.Proofs.Numerals

/-!
# Numbers in decimal notation are read back

`Literal.read?` reads digits, perhaps with a sign in front and perhaps with a point and more digits
behind, and `Literal.value` is the number that was written, exactly.  The reader takes the texts
that have such a form and no others:

    Literal.read? cs = some l ↔ l.Plain ∧ cs = l.spelling                       (read?_eq_some_iff)

A whole number and a decimal in its positional text are read as what they are:

    ∃ l, read? (toString z).toList = some l ∧ l.fraction = [] ∧ l.value = z            (read?_int)
    ∃ l, read? d.text.toList = some l ∧ l.negative = false ∧ l.value = d.value        (read?_text)
-/

namespace Grading

/-! ## Digits -/

namespace Digits

variable {cs ds es rest : List Char}

theorem toNat_append (ds es : List Char) :
    toNat (ds ++ es) = toNat ds * 10 ^ es.length + toNat es := by
  rw [toNat_eq, toNat_eq, toNat_eq, Nat.ofDigitChars_append,
    Nat.ofDigitChars_eq_ofDigitChars_zero, Nat.mul_comm]

theorem toNat_zeros (n : Nat) : toNat (List.replicate n '0') = 0 := by
  rw [toNat_eq, Nat.ofDigitChars_replicate_zero, Nat.mul_zero]

theorem isDigit_toDigits {n : Nat} : ∀ c ∈ Nat.toDigits 10 n, isDigit c = true :=
  List.all_eq_true.1 (all_isDigit_toDigits n)

theorem isDigit_zeros {n : Nat} : ∀ c ∈ List.replicate n '0', isDigit c = true := by
  intro c hc
  rw [List.eq_of_mem_replicate hc]
  rfl

/-- The run of digits at the front ends where something else begins. -/
theorem split_append (hds : ∀ c ∈ ds, isDigit c = true)
    (hrest : ∀ c ∈ rest.head?, isDigit c = false) : split (ds ++ rest) = (ds, rest) := by
  have hstop : rest.takeWhile isDigit = [] ∧ rest.dropWhile isDigit = rest := by
    cases rest with
    | nil => exact ⟨rfl, rfl⟩
    | cons c rest =>
      have hc := hrest c rfl
      exact ⟨List.takeWhile_cons_of_neg (by simp [hc]), List.dropWhile_cons_of_neg (by simp [hc])⟩
  unfold split
  rw [List.takeWhile_append_of_pos hds, List.dropWhile_append_of_pos hds, hstop.1, hstop.2,
    List.append_nil]

theorem split_spec (h : split cs = (ds, rest)) :
    cs = ds ++ rest ∧ ∀ c ∈ ds, isDigit c = true := by
  obtain ⟨rfl, rfl⟩ := Prod.mk.inj h
  exact ⟨List.takeWhile_append_dropWhile.symm, List.all_eq_true.1 List.all_takeWhile⟩

end Digits

open Digits

/-! ## Reading -/

namespace Literal

variable {cs whole fraction rest : List Char} {l : Literal}

/-- The number that a literal writes. -/
def value (l : Literal) : ℚ :=
  (if l.negative then -1 else 1) * toNat (l.whole ++ l.fraction) *
    10 ^ (l.exponent - l.fraction.length)

/-- Reads digits, and more of them after a point. -/
def readSize? (cs : List Char) : Option (List Char × List Char) := do
  let (whole, rest) ← Json.readDigits? cs
  let (fraction, rest) ← Json.readFraction? rest
  if rest.isEmpty then return (whole, fraction) else none

/-- Reads a number in decimal notation, with a sign if it is negative. -/
def read? : List Char → Option Literal
  | '-' :: cs => (readSize? cs).map fun digits => ⟨true, digits.1, digits.2, 0⟩
  | cs => (readSize? cs).map fun digits => ⟨false, digits.1, digits.2, 0⟩

/-- A literal that can be written without an exponent. -/
structure Plain (l : Literal) : Prop where
  whole : l.whole ≠ []
  wholeDigits : ∀ c ∈ l.whole, isDigit c = true
  fractionDigits : ∀ c ∈ l.fraction, isDigit c = true
  exponent : l.exponent = 0

/-- The digits after a point, if there are any. -/
def afterPoint (fraction : List Char) : List Char :=
  if fraction = [] then [] else '.' :: fraction

/-- How a literal is written without an exponent. -/
def spelling (l : Literal) : List Char :=
  (if l.negative then ['-'] else []) ++ (l.whole ++ afterPoint l.fraction)

theorem readDigits?_eq_some (h : Json.readDigits? cs = some (whole, rest)) :
    cs = whole ++ rest ∧ whole ≠ [] ∧ ∀ c ∈ whole, isDigit c = true := by
  unfold Json.readDigits? at h
  dsimp only at h
  split at h
  · cases h
  · next hempty =>
    obtain ⟨rfl, rfl⟩ := Prod.mk.inj (Option.some.inj h)
    obtain ⟨hcs, hdigits⟩ := split_spec (rfl : split cs = _)
    exact ⟨hcs, fun hnil => hempty (List.isEmpty_iff.2 hnil), hdigits⟩

theorem readDigits?_append (hwhole : whole ≠ []) (hdigits : ∀ c ∈ whole, isDigit c = true)
    (hrest : ∀ c ∈ rest.head?, isDigit c = false) :
    Json.readDigits? (whole ++ rest) = some (whole, rest) := by
  unfold Json.readDigits?
  rw [split_append hdigits hrest]
  dsimp only
  rw [if_neg fun h => hwhole (List.isEmpty_iff.1 h)]

theorem readFraction?_eq_some_iff : Json.readFraction? cs = some (fraction, []) ↔
    cs = afterPoint fraction ∧ ∀ c ∈ fraction, isDigit c = true := by
  unfold afterPoint
  constructor
  · intro h
    unfold Json.readFraction? at h
    split at h
    · obtain ⟨rfl, hne, hdigits⟩ := readDigits?_eq_some h
      rw [List.append_nil, if_neg hne]
      exact ⟨rfl, hdigits⟩
    · obtain ⟨rfl, rfl⟩ := Prod.mk.inj (Option.some.inj h)
      exact ⟨(if_pos rfl).symm, fun c hc => absurd hc List.not_mem_nil⟩
  · rintro ⟨rfl, hdigits⟩
    by_cases hnil : fraction = []
    · subst hnil
      rfl
    · rw [if_neg hnil]
      have hend : ∀ c ∈ ([] : List Char).head?, isDigit c = false := fun c hc => nomatch hc
      have h := readDigits?_append hnil hdigits hend
      rwa [List.append_nil] at h

theorem readSize?_eq_some_iff : readSize? cs = some (whole, fraction) ↔
    cs = whole ++ afterPoint fraction ∧ whole ≠ [] ∧ (∀ c ∈ whole, isDigit c = true) ∧
      ∀ c ∈ fraction, isDigit c = true := by
  constructor
  · intro h
    obtain ⟨⟨whole', rest⟩, hwhole, h⟩ := Option.bind_eq_some_iff.1 h
    obtain ⟨⟨fraction', rest'⟩, hfraction, h⟩ := Option.bind_eq_some_iff.1 h
    dsimp only at hfraction h
    split at h
    · next hempty =>
      obtain ⟨rfl, rfl⟩ := Prod.mk.inj (Option.some.inj h)
      obtain rfl := List.isEmpty_iff.1 hempty
      obtain ⟨rfl, hne, hdigits⟩ := readDigits?_eq_some hwhole
      obtain ⟨rfl, hdigits'⟩ := readFraction?_eq_some_iff.1 hfraction
      exact ⟨rfl, hne, hdigits, hdigits'⟩
    · cases h
  · rintro ⟨rfl, hne, hdigits, hdigits'⟩
    have hrest : ∀ c ∈ (afterPoint fraction).head?, isDigit c = false := by
      unfold afterPoint
      split
      · exact fun c hc => nomatch hc
      · intro c hc
        rw [← Option.some.inj hc]
        rfl
    unfold readSize?
    rw [readDigits?_append hne hdigits hrest]
    show (do let (fraction, rest) ← Json.readFraction? _; _) = _
    rw [readFraction?_eq_some_iff.2 ⟨rfl, hdigits'⟩]
    rfl

theorem read?_of_head_ne (h : cs.head? ≠ some '-') :
    read? cs = (readSize? cs).map fun digits => ⟨false, digits.1, digits.2, 0⟩ := by
  unfold read?
  split
  · exact absurd rfl h
  · rfl

/-- The texts that are read, and what as. -/
theorem read?_eq_some_iff : read? cs = some l ↔ l.Plain ∧ cs = l.spelling := by
  obtain ⟨negative, whole, fraction, exponent⟩ := l
  constructor
  · intro h
    unfold read? at h
    split at h <;> obtain ⟨⟨whole', fraction'⟩, hsize, heq⟩ := Option.map_eq_some_iff.1 h <;>
      obtain ⟨rfl, hne, hdigits, hdigits'⟩ := readSize?_eq_some_iff.1 hsize <;> cases heq <;>
      exact ⟨⟨hne, hdigits, hdigits', rfl⟩, rfl⟩
  · rintro ⟨⟨hne, hdigits, hdigits', hexponent⟩, rfl⟩
    obtain rfl : exponent = 0 := hexponent
    have hsize := readSize?_eq_some_iff.2 ⟨rfl, hne, hdigits, hdigits'⟩
    cases negative with
    | true => exact Option.map_eq_some_iff.2 ⟨_, hsize, rfl⟩
    | false =>
      show read? (whole ++ afterPoint fraction) = _
      refine (read?_of_head_ne ?_).trans (Option.map_eq_some_iff.2 ⟨_, hsize, rfl⟩)
      obtain ⟨c, rest, rfl⟩ := List.exists_cons_of_ne_nil hne
      intro hminus
      obtain rfl : c = '-' := Option.some.inj hminus
      exact absurd (hdigits '-' List.mem_cons_self) (by decide)

/-- Everything in a text that is read is a digit, a sign or a point, and there is a point only
before digits. -/
theorem mem_of_read? (h : read? cs = some l) {c : Char} (hc : c ∈ cs) :
    isDigit c = true ∨ c = '-' ∨ c = '.' ∧ l.fraction ≠ [] := by
  obtain ⟨⟨-, hdigits, hdigits', -⟩, rfl⟩ := read?_eq_some_iff.1 h
  unfold spelling afterPoint at hc
  rw [List.mem_append, List.mem_append] at hc
  rcases hc with hc | hc | hc
  · split at hc
    · exact .inr (.inl (List.mem_singleton.1 hc))
    · cases hc
  · exact .inl (hdigits c hc)
  · split at hc
    · cases hc
    · next hne =>
      rcases List.mem_cons.1 hc with rfl | hc
      · exact .inr (.inr ⟨rfl, hne⟩)
      · exact .inl (hdigits' c hc)

/-! ## Whole numbers -/

theorem plain_digits (negative : Bool) (n : Nat) : Plain ⟨negative, Nat.toDigits 10 n, [], 0⟩ :=
  ⟨Nat.toDigits_ne_nil, isDigit_toDigits, fun _ hc => absurd hc List.not_mem_nil, rfl⟩

theorem value_digits (negative : Bool) (n : Nat) :
    value ⟨negative, Nat.toDigits 10 n, [], 0⟩ = (if negative then -1 else 1) * n := by
  unfold value
  rw [List.append_nil, toNat_toDigits]
  simp

/-- A whole number is read as what it is, and has no point. -/
theorem read?_int (z : ℤ) :
    ∃ l, read? (toString z).toList = some l ∧ l.fraction = [] ∧ l.value = z := by
  cases z with
  | ofNat n =>
    refine ⟨⟨false, Nat.toDigits 10 n, [], 0⟩,
      read?_eq_some_iff.2 ⟨plain_digits false n, ?_⟩, rfl, ?_⟩
    · show (Nat.repr n).toList = [] ++ (Nat.toDigits 10 n ++ [])
      rw [toList_repr, List.append_nil, List.nil_append]
    · rw [value_digits]
      simp
  | negSucc n =>
    refine ⟨⟨true, Nat.toDigits 10 (n + 1), [], 0⟩,
      read?_eq_some_iff.2 ⟨plain_digits true (n + 1), ?_⟩, rfl, ?_⟩
    · show ("-" ++ Nat.repr (n + 1)).toList = ['-'] ++ (Nat.toDigits 10 (n + 1) ++ [])
      rw [String.toList_append, toList_repr, List.append_nil]
      rfl
    · rw [value_digits, Int.cast_negSucc]
      simp

end Literal

/-! ## Decimals -/

namespace Decimal

/-- The number that a decimal is. -/
def value (d : Decimal) : ℚ := d.digits * 10 ^ d.exponent

/-- How a decimal is written: with zeros behind, with a point among the digits, or with zeros
between the point and the digits. -/
def literal (d : Decimal) : Literal :=
  let digits := Nat.toDigits 10 d.digits
  let places := (-d.exponent).toNat
  if places = 0 then ⟨false, digits ++ List.replicate d.exponent.toNat '0', [], 0⟩
  else if places < digits.length then
    ⟨false, digits.take (digits.length - places), digits.drop (digits.length - places), 0⟩
  else ⟨false, ['0'], List.replicate (places - digits.length) '0' ++ digits, 0⟩

theorem text_eq_spelling (d : Decimal) : d.text.toList = d.literal.spelling := by
  have hlength : 0 < (Nat.toDigits 10 d.digits).length :=
    List.length_pos_iff.2 Nat.toDigits_ne_nil
  unfold text literal Literal.spelling Literal.afterPoint
  dsimp only
  rw [toList_repr]
  split
  · simp
  · split
    · have hne : (Nat.toDigits 10 d.digits).drop
          ((Nat.toDigits 10 d.digits).length - (-d.exponent).toNat) ≠ [] := by
        rw [Ne, List.drop_eq_nil_iff]
        omega
      simp [hne]
    · have hne : List.replicate ((-d.exponent).toNat - (Nat.toDigits 10 d.digits).length) '0' ++
          Nat.toDigits 10 d.digits ≠ [] := List.append_ne_nil_of_right_ne_nil _ Nat.toDigits_ne_nil
      rw [if_neg hne]
      simp

theorem plain_literal (d : Decimal) : d.literal.Plain := by
  have hdigits := isDigit_toDigits (n := d.digits)
  have hlength : 0 < (Nat.toDigits 10 d.digits).length :=
    List.length_pos_iff.2 Nat.toDigits_ne_nil
  unfold literal
  dsimp only
  split
  · exact ⟨List.append_ne_nil_of_left_ne_nil Nat.toDigits_ne_nil _,
      List.forall_mem_append.2 ⟨hdigits, isDigit_zeros⟩,
      fun _ hc => absurd hc List.not_mem_nil, rfl⟩
  · split
    · refine ⟨fun hnil => ?_, fun c hc => hdigits c (List.mem_of_mem_take hc),
        fun c hc => hdigits c (List.mem_of_mem_drop hc), rfl⟩
      rw [List.take_eq_nil_iff] at hnil
      rcases hnil with hzero | hnil
      · omega
      · exact Nat.toDigits_ne_nil hnil
    · refine ⟨List.cons_ne_nil _ _, fun c hc => ?_,
        List.forall_mem_append.2 ⟨isDigit_zeros, hdigits⟩, rfl⟩
      rw [List.mem_singleton.1 hc]
      rfl

theorem value_literal (d : Decimal) : d.literal.value = d.value := by
  have htoNat := toNat_toDigits d.digits
  unfold literal
  dsimp only
  split
  · next hplaces =>
    obtain ⟨k, hk⟩ := Int.eq_ofNat_of_zero_le (show 0 ≤ d.exponent by omega)
    unfold Literal.value value
    dsimp only
    rw [hk, Int.toNat_natCast, List.append_nil, toNat_append, htoNat, toNat_zeros,
      List.length_replicate]
    simp
  · split
    · next hplaces hinside =>
      have hexponent : (0 : ℤ) - ((Nat.toDigits 10 d.digits).length -
          ((Nat.toDigits 10 d.digits).length - (-d.exponent).toNat) : ℕ) = d.exponent := by omega
      unfold Literal.value
      dsimp only
      rw [List.take_append_drop, htoNat, List.length_drop, hexponent, if_neg Bool.false_ne_true,
        one_mul]
      rfl
    · next hplaces hinside =>
      have hexponent : (0 : ℤ) - ((-d.exponent).toNat - (Nat.toDigits 10 d.digits).length +
          (Nat.toDigits 10 d.digits).length : ℕ) = d.exponent := by omega
      have hzero : toNat ['0'] = 0 := rfl
      unfold Literal.value
      dsimp only
      rw [toNat_append, hzero, zero_mul, zero_add, toNat_append, toNat_zeros, zero_mul, zero_add,
        htoNat, List.length_append, List.length_replicate, hexponent, if_neg Bool.false_ne_true,
        one_mul]
      rfl

/-- The text of a decimal is read as what it is. -/
theorem read?_text (d : Decimal) :
    ∃ l, Literal.read? d.text.toList = some l ∧ l.negative = false ∧ l.value = d.value := by
  refine ⟨d.literal, Literal.read?_eq_some_iff.2 ⟨d.plain_literal, d.text_eq_spelling⟩, ?_,
    d.value_literal⟩
  unfold literal
  dsimp only
  split
  · rfl
  · split <;> rfl

end Decimal

end Grading
