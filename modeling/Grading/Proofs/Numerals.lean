import Grading.Decimal.Digits

/-!
# Numerals of natural numbers

What is written in decimal digits is read as the number that was written:

    Digits.toNat (Nat.toDigits 10 n) = n                                (toNat_toDigits)
    every character of a numeral is a digit                             (all_isDigit_toDigits)
    a numeral starts with a zero only if it is the zero                 (head?_toDigits)
-/

namespace Grading.Digits

variable {n : Nat}

theorem toNat_eq (ds : List Char) : toNat ds = Nat.ofDigitChars 10 ds 0 := by
  rw [Nat.ofDigitChars_eq_foldl]
  rfl

theorem toNat_toDigits (n : Nat) : toNat (Nat.toDigits 10 n) = n := by
  rw [toNat_eq, Nat.ofDigitChars_ten_toDigits]

theorem toList_repr (n : Nat) : (Nat.repr n).toList = Nat.toDigits 10 n := by
  rw [Nat.repr_eq_ofList_toDigits, String.toList_ofList]

theorem all_isDigit_toDigits (n : Nat) : (Nat.toDigits 10 n).all isDigit = true := by
  rw [List.all_eq_true]
  intro c hc
  exact Nat.isDigit_of_mem_toDigits (by omega) (Nat.le_refl 10) hc

theorem isEmpty_toDigits (n : Nat) : (Nat.toDigits 10 n).isEmpty = false :=
  List.isEmpty_eq_false_iff.2 Nat.toDigits_ne_nil

/-- A positive number is written without a zero in front. -/
theorem head?_toDigits_of_pos (h : 0 < n) : (Nat.toDigits 10 n).head? ≠ some '0' := by
  induction n using Nat.strongRecOn with
  | _ n ih =>
    by_cases hn : n < 10
    · rw [Nat.toDigits_of_lt_base hn, List.head?_cons, Ne, Option.some.injEq,
        Nat.digitChar_eq_zero]
      omega
    · intro hzero
      rw [Nat.toDigits_of_base_le (by omega) (by omega), List.head?_append,
        Option.or_eq_some_iff] at hzero
      rcases hzero with hzero | ⟨hnone, -⟩
      · exact ih (n / 10) (by omega) (by omega) hzero
      · exact Nat.toDigits_ne_nil (List.head?_eq_none_iff.1 hnone)

theorem head?_toDigits (n : Nat) :
    (Nat.toDigits 10 n).length = 1 ∨ (Nat.toDigits 10 n).head? ≠ some '0' := by
  rcases Nat.eq_zero_or_pos n with rfl | h
  · exact .inl rfl
  · exact .inr (head?_toDigits_of_pos h)

end Grading.Digits
