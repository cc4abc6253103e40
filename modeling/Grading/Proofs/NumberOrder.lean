import Mathlib.Data.Prod.Lex
import Grading.Number.Double
import Grading.Number.Exact

/-!
# The order of finite numbers

What a proof about limits, weights or steps needs of a kind of number: its finite numbers are
totally preordered, and the two comparisons fit together.  Zeros of either sign compare alike, so
the order is no more than a preorder.  Both kinds of number of this library have it:

    OrderedNumber Rat        OrderedNumber Float

For doubles the order is that of a triple of integers: the sign, then the exponent and the
mantissa, both with the sign (`orderKey`).
-/

namespace Grading

open Float.Model (UnpackedFloat)

/-- Finite numbers are in a total order, in which zero is one of them. -/
class OrderedNumber (α : Type) [Number α] : Prop where
  isFinite_zero : Number.isFinite (Number.zero : α) = true
  lt_eq_not_le : ∀ {a b : α}, Number.isFinite a = true → Number.isFinite b = true →
    Number.lt a b = !Number.le b a
  le_total : ∀ {a b : α}, Number.isFinite a = true → Number.isFinite b = true →
    Number.le a b = true ∨ Number.le b a = true
  le_trans : ∀ {a b c : α}, Number.isFinite a = true → Number.isFinite b = true →
    Number.isFinite c = true → Number.le a b = true → Number.le b c = true →
    Number.le a c = true

/-! ## Lemmas -/

namespace OrderedNumber

variable {α : Type} [Number α] [OrderedNumber α] {a b c : α}

theorem lt_iff_not_le (ha : Number.isFinite a = true) (hb : Number.isFinite b = true) :
    Number.lt a b = true ↔ ¬ Number.le b a = true := by
  rw [lt_eq_not_le ha hb]
  simp

theorem le_refl (ha : Number.isFinite a = true) : Number.le a a = true :=
  or_self_iff.1 (le_total ha ha)

theorem le_of_lt (ha : Number.isFinite a = true) (hb : Number.isFinite b = true)
    (h : Number.lt a b = true) : Number.le a b = true :=
  (le_total ha hb).resolve_right ((lt_iff_not_le ha hb).1 h)

theorem lt_of_lt_of_le (ha : Number.isFinite a = true) (hb : Number.isFinite b = true)
    (hc : Number.isFinite c = true) (hab : Number.lt a b = true) (hbc : Number.le b c = true) :
    Number.lt a c = true := by
  rw [lt_iff_not_le ha hb] at hab
  rw [lt_iff_not_le ha hc]
  intro hca
  exact hab (le_trans hb hc ha hbc hca)

theorem lt_trans (ha : Number.isFinite a = true) (hb : Number.isFinite b = true)
    (hc : Number.isFinite c = true) (hab : Number.lt a b = true) (hbc : Number.lt b c = true) :
    Number.lt a c = true :=
  lt_of_lt_of_le ha hb hc hab (le_of_lt hb hc hbc)

end OrderedNumber

section

variable {α : Type} [Number α] {x : α} {xs : List α}

theorem larger_eq_or (a b : α) : Number.larger a b = a ∨ Number.larger a b = b := by
  unfold Number.larger
  split
  · exact .inl rfl
  · split
    · exact .inr rfl
    · exact .inl rfl

/-- The largest of some numbers is one of them. -/
theorem foldl_larger_mem (x : α) (xs : List α) : xs.foldl Number.larger x ∈ x :: xs := by
  induction xs generalizing x with
  | nil => exact List.mem_cons_self
  | cons y xs ih =>
    have hmem := ih (Number.larger x y)
    rcases larger_eq_or x y with heq | heq
    · rw [heq] at hmem
      rw [List.foldl_cons, heq]
      rcases List.mem_cons.1 hmem with hfirst | hrest
      · rw [hfirst]
        exact List.mem_cons_self
      · exact List.mem_cons_of_mem _ (List.mem_cons_of_mem _ hrest)
    · rw [heq] at hmem
      rw [List.foldl_cons, heq]
      exact List.mem_cons_of_mem _ hmem

theorem isFinite_foldl_larger (hx : Number.isFinite x = true)
    (hxs : ∀ y ∈ xs, Number.isFinite y = true) :
    Number.isFinite (xs.foldl Number.larger x) = true := by
  have hall : ∀ y ∈ x :: xs, Number.isFinite y = true := List.forall_mem_cons.2 ⟨hx, hxs⟩
  exact hall _ (foldl_larger_mem x xs)

end

/-! ## Rational numbers -/

instance : OrderedNumber Rat where
  isFinite_zero := rfl
  lt_eq_not_le _ _ := by
    show decide _ = !decide _
    rw [← decide_not, decide_eq_decide, Rat.not_le]
  le_total _ _ := by
    show decide _ = true ∨ decide _ = true
    rw [decide_eq_true_iff, decide_eq_true_iff]
    exact Rat.le_total
  le_trans _ _ _ hab hbc := by
    have hab := of_decide_eq_true hab
    have hbc := of_decide_eq_true hbc
    exact decide_eq_true (Rat.le_trans hab hbc)

/-! ## Doubles -/

/-- Finite doubles are in the order of these triples. -/
def orderKey : UnpackedFloat → ℤ ×ₗ ℤ ×ₗ ℤ
  | .finite .positive m e _ => toLex (1, toLex (e, (m : ℤ)))
  | .finite .negative m e _ => toLex (-1, toLex (-e, -(m : ℤ)))
  | _ => toLex (0, toLex (0, 0))

theorem then_compare_eq_lt (e f : ℤ) (m n : ℕ) :
    (compare e f).then (compare m n) = .lt ↔ e < f ∨ e = f ∧ m < n := by
  rw [Ordering.then_eq_lt, compare_lt_iff_lt, compare_lt_iff_lt, compare_eq_iff_eq]

theorem then_compare_swap (e f : ℤ) (m n : ℕ) :
    ((compare e f).then (compare m n)).swap = (compare f e).then (compare n m) := by
  rw [Ordering.swap_then, ← Std.OrientedOrd.eq_swap, ← Std.OrientedOrd.eq_swap]

theorem ne_notANumber {x : UnpackedFloat} (hx : x.isFinite = true) : x ≠ .notANumber := by
  rintro rfl
  exact absurd hx Bool.false_ne_true

/-- Two doubles that are numbers compare, and the other way round when they change places. -/
theorem unpacked_compare_swap {x y : UnpackedFloat} (hx : x ≠ .notANumber)
    (hy : y ≠ .notANumber) : ∃ o, x.compare y = some o ∧ y.compare x = some o.swap := by
  rcases x with s | _ | s | ⟨s, m, e, hm⟩
  · rcases y with t | _ | t | ⟨t, n, f, hn⟩
    · cases s <;> cases t <;> exact ⟨_, rfl, rfl⟩
    · exact absurd rfl hy
    · cases s <;> exact ⟨_, rfl, rfl⟩
    · cases s <;> cases t <;> exact ⟨_, rfl, rfl⟩
  · exact absurd rfl hx
  · rcases y with t | _ | t | ⟨t, n, f, hn⟩
    · cases t <;> exact ⟨_, rfl, rfl⟩
    · exact absurd rfl hy
    · exact ⟨.eq, rfl, rfl⟩
    · cases t <;> exact ⟨_, rfl, rfl⟩
  · rcases y with t | _ | t | ⟨t, n, f, hn⟩
    · cases s <;> cases t <;> exact ⟨_, rfl, rfl⟩
    · exact absurd rfl hy
    · cases s <;> exact ⟨_, rfl, rfl⟩
    · cases s <;> cases t
      · exact ⟨_, rfl, by rw [then_compare_swap]; rfl⟩
      · exact ⟨.lt, rfl, rfl⟩
      · exact ⟨.gt, rfl, rfl⟩
      · exact ⟨_, rfl, by rw [then_compare_swap]; rfl⟩

theorem unpacked_le_eq_not_lt {x y : UnpackedFloat} (hx : x ≠ .notANumber)
    (hy : y ≠ .notANumber) : x.le y = !y.lt x := by
  obtain ⟨o, hxy, hyx⟩ := unpacked_compare_swap hx hy
  rw [UnpackedFloat.le, UnpackedFloat.lt, hxy, hyx]
  cases o <;> rfl

theorem toLex_lt_of_fst_lt {a b : ℤ} (h : a < b) (x y : ℤ ×ₗ ℤ) : toLex (a, x) < toLex (b, y) :=
  Prod.Lex.toLex_lt_toLex.2 (.inl h)

theorem unpacked_lt_iff {x y : UnpackedFloat} (hx : x.isFinite = true) (hy : y.isFinite = true) :
    x.lt y = true ↔ orderKey x < orderKey y := by
  rcases x with s | _ | s | ⟨s, m, e, hm⟩
  · exact absurd hx Bool.false_ne_true
  · exact absurd hx Bool.false_ne_true
  · rcases y with t | _ | t | ⟨t, n, f, hn⟩
    · exact absurd hy Bool.false_ne_true
    · exact absurd hy Bool.false_ne_true
    · exact iff_of_false Bool.false_ne_true (lt_irrefl _)
    · cases t
      · exact iff_of_false Bool.false_ne_true (not_lt_of_gt (toLex_lt_of_fst_lt (by decide) _ _))
      · exact iff_of_true rfl (toLex_lt_of_fst_lt (by decide) _ _)
  · rcases y with t | _ | t | ⟨t, n, f, hn⟩
    · exact absurd hy Bool.false_ne_true
    · exact absurd hy Bool.false_ne_true
    · cases s
      · exact iff_of_true rfl (toLex_lt_of_fst_lt (by decide) _ _)
      · exact iff_of_false Bool.false_ne_true (not_lt_of_gt (toLex_lt_of_fst_lt (by decide) _ _))
    · cases s <;> cases t
      · show (some ((compare e f).then (compare m n)).swap == some .lt) = true ↔
          toLex (-1, toLex (-e, -(m : ℤ))) < toLex (-1, toLex (-f, -(n : ℤ)))
        rw [beq_iff_eq, Option.some_inj, then_compare_swap, then_compare_eq_lt]
        simp [Prod.Lex.toLex_lt_toLex, eq_comm]
      · exact iff_of_true rfl (toLex_lt_of_fst_lt (by decide) _ _)
      · exact iff_of_false Bool.false_ne_true (not_lt_of_gt (toLex_lt_of_fst_lt (by decide) _ _))
      · show (some ((compare e f).then (compare m n)) == some .lt) = true ↔
          toLex (1, toLex (e, (m : ℤ))) < toLex (1, toLex (f, (n : ℤ)))
        rw [beq_iff_eq, Option.some_inj, then_compare_eq_lt]
        simp [Prod.Lex.toLex_lt_toLex]

theorem unpacked_le_iff {x y : UnpackedFloat} (hx : x.isFinite = true) (hy : y.isFinite = true) :
    x.le y = true ↔ orderKey x ≤ orderKey y := by
  rw [unpacked_le_eq_not_lt (ne_notANumber hx) (ne_notANumber hy), Bool.not_eq_true',
    ← Bool.not_eq_true, unpacked_lt_iff hy hx, not_lt]

/-- A comparison of doubles is the comparison of their fields. -/
theorem float_lt_eq (a b : Float) : Number.lt a b = a.toModel.unpack.lt b.toModel.unpack := by
  show decide (decide (a.toModel.unpack.lt b.toModel.unpack = true) = true) = _
  rw [Bool.decide_eq_true, Bool.decide_eq_true]

theorem float_le_eq (a b : Float) : Number.le a b = a.toModel.unpack.le b.toModel.unpack := by
  show decide (decide (a.toModel.unpack.le b.toModel.unpack = true) = true) = _
  rw [Bool.decide_eq_true, Bool.decide_eq_true]

instance : OrderedNumber Float where
  isFinite_zero := by decide
  lt_eq_not_le ha hb := by
    rw [float_lt_eq, float_le_eq, unpacked_le_eq_not_lt (ne_notANumber hb) (ne_notANumber ha),
      Bool.not_not]
  le_total ha hb := by
    rw [float_le_eq, float_le_eq, unpacked_le_iff ha hb, unpacked_le_iff hb ha]
    exact le_total _ _
  le_trans ha hb hc hab hbc := by
    rw [float_le_eq, unpacked_le_iff ha hb] at hab
    rw [float_le_eq, unpacked_le_iff hb hc] at hbc
    rw [float_le_eq, unpacked_le_iff ha hc]
    exact le_trans hab hbc

end Grading
