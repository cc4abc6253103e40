import Mathlib.Data.List.Basic
import Mathlib.Tactic.MkIffOfInductiveProp
import Grading.Editor.Handle
import Grading.Proofs.Numerals

/-!
# Handles are read exactly

What a handle of a node names is said of its text alone: the id is the number `0`, and the id, a
hyphen and a decimal numeral are the number of the numeral, for outputs with `-source` behind them
(`NamesSlot`, `NamesOutput`).  The readers find that and nothing else, also for ids that are empty
or look like handles themselves:

    Digits.readUInt32? cs = some n ↔ Digits.IsNumeral cs n.toNat          (readUInt32?_eq_some_iff)
    targetSlot? id handle = some n ↔ NamesSlot id handle n                (targetSlot?_eq_some_iff)
    sourceOutput? id handle = some n ↔ NamesOutput id handle n          (sourceOutput?_eq_some_iff)

No handle is two numbers, not even one as a slot and another as an output (`Names.unique`).
-/

namespace Grading

/-! ## Numerals -/

namespace Digits

/-- Digits that write a number; there may be zeros in front. -/
structure Writes (ds : List Char) (n : Nat) : Prop where
  nonempty : ds ≠ []
  digits : ∀ c ∈ ds, c.isDigit = true
  value : Nat.ofDigitChars 10 ds 0 = n

/-- A decimal numeral of a number: digits, after at most one plus sign. -/
def IsNumeral (cs : List Char) (n : Nat) : Prop :=
  Writes cs n ∨ ∃ ds, cs = '+' :: ds ∧ Writes ds n

variable {cs ds : List Char} {n : UInt32}

/-- What is read from digits without a sign. -/
theorem read_digits_eq_some_iff :
    (if ds.isEmpty || !ds.all isDigit then none
      else if toNat ds < UInt32.size then some (UInt32.ofNat (toNat ds)) else none) = some n ↔
      Writes ds n.toNat := by
  have hbound := n.toNat_lt
  constructor
  · intro h
    split at h
    · cases h
    · next hdigits =>
      split at h
      · next hfits =>
        rw [Bool.not_eq_true, Bool.or_eq_false_iff, Bool.not_eq_false', List.all_eq_true] at hdigits
        obtain ⟨hne, hall⟩ := hdigits
        refine ⟨List.isEmpty_eq_false_iff.1 hne, hall, ?_⟩
        rw [← toNat_eq, ← Option.some.inj h, UInt32.toNat_ofNat_of_lt' hfits]
      · cases h
  · rintro ⟨hne, hall, hvalue⟩
    rw [← toNat_eq] at hvalue
    have hempty : ds.isEmpty = false := List.isEmpty_eq_false_iff.2 hne
    have hdigits : ds.all isDigit = true := List.all_eq_true.2 hall
    rw [hempty, hdigits, hvalue, if_neg (by simp), if_pos hbound, UInt32.ofNat_toNat]

/-- A number is read exactly from its numerals. -/
theorem readUInt32?_eq_some_iff : readUInt32? cs = some n ↔ IsNumeral cs n.toNat := by
  unfold IsNumeral
  by_cases hsign : ∃ ds, cs = '+' :: ds
  · obtain ⟨ds, rfl⟩ := hsign
    have hplus : ¬ Writes ('+' :: ds) n.toNat := fun h =>
      absurd (h.digits '+' List.mem_cons_self) (by decide)
    rw [or_iff_right hplus]
    refine read_digits_eq_some_iff.trans ⟨fun h => ⟨ds, rfl, h⟩, ?_⟩
    rintro ⟨ds', heq, h⟩
    rwa [(List.cons.inj heq).2]
  · have hread : readUInt32? cs = if cs.isEmpty || !cs.all isDigit then none
        else if toNat cs < UInt32.size then some (UInt32.ofNat (toNat cs)) else none := by
      unfold readUInt32?
      split
      · next ds => exact absurd ⟨ds, rfl⟩ hsign
      · rfl
    rw [hread, read_digits_eq_some_iff, or_iff_left]
    rintro ⟨ds, heq, -⟩
    exact hsign ⟨ds, heq⟩

theorem isNumeral_repr (n : Nat) : IsNumeral (Nat.repr n).toList n := by
  refine .inl ⟨?_, ?_, ?_⟩
  · rw [Nat.toList_repr]
    exact Nat.toDigits_ne_nil
  · intro c hc
    rw [Nat.toList_repr] at hc
    exact Nat.isDigit_of_mem_toDigits (by omega) (Nat.le_refl 10) hc
  · rw [Nat.toList_repr, Nat.ofDigitChars_ten_toDigits]

end Digits

namespace Editor

/-! ## What handles name -/

/-- The slot that a handle of the node names. -/
@[mk_iff]
inductive NamesSlot (id : String) : String → UInt32 → Prop
  | bare : NamesSlot id id 0
  | numbered {d : String} {n : UInt32} (numeral : Digits.IsNumeral d.toList n.toNat) :
      NamesSlot id (id ++ "-" ++ d) n

/-- The output that a handle of the node names. -/
@[mk_iff]
inductive NamesOutput (id : String) : String → UInt32 → Prop
  | bare : NamesOutput id id 0
  | source : NamesOutput id (id ++ "-source") 0
  | numbered {d : String} {n : UInt32} (numeral : Digits.IsNumeral d.toList n.toNat) :
      NamesOutput id (id ++ "-" ++ d ++ "-source") n

variable {id handle : String} {n n' : UInt32}

/-! ## Readers -/

theorem exists_toList_eq (cs : List Char) : ∃ text : String, text.toList = cs :=
  ⟨String.ofList cs, String.toList_ofList⟩

theorem numberAfterHyphen?_eq_some_iff {rest : String} : numberAfterHyphen? rest.toList = some n ↔
    ∃ d, rest = "-" ++ d ∧ Digits.IsNumeral d.toList n.toNat := by
  constructor
  · intro h
    unfold numberAfterHyphen? at h
    split at h
    · next ds heq =>
      obtain ⟨d, rfl⟩ := exists_toList_eq ds
      refine ⟨d, String.ext ?_, Digits.readUInt32?_eq_some_iff.1 h⟩
      rw [String.toList_append, heq]
      rfl
    · cases h
  · rintro ⟨d, rfl, h⟩
    rw [String.toList_append]
    exact Digits.readUInt32?_eq_some_iff.2 h

/-- The id is taken off the front of a handle. -/
theorem isPrefixOf?_eq_some_iff {rest : String} :
    id.toList.isPrefixOf? handle.toList = some rest.toList ↔ handle = id ++ rest := by
  rw [List.isPrefixOf?_eq_some_iff_append_eq, ← String.toList_append, String.toList_inj, eq_comm]

theorem beforeSource?_eq_some_iff {rest before : String} :
    beforeSource? rest.toList = some before.toList ↔ rest = before ++ "-source" := by
  unfold beforeSource?
  rw [List.isSuffixOf?_eq_some_iff_append_eq, ← String.toList_append, String.toList_inj, eq_comm]

/-- Texts stand for the lists of characters that a reader goes through. -/
theorem bind_eq_some_iff_toList {found : Option (List Char)} {f : List Char → Option UInt32} :
    found.bind f = some n ↔ ∃ rest : String, found = some rest.toList ∧ f rest.toList = some n := by
  rw [Option.bind_eq_some_iff]
  constructor
  · rintro ⟨cs, hcs, hf⟩
    obtain ⟨rest, rfl⟩ := exists_toList_eq cs
    exact ⟨rest, hcs, hf⟩
  · rintro ⟨rest, hrest, hf⟩
    exact ⟨rest.toList, hrest, hf⟩

/-- A text with something behind it is another text. -/
theorem append_ne_self {rest : String} (hrest : rest ≠ "") : id ++ rest ≠ id := by
  intro h
  rw [← String.toList_inj, String.toList_append] at h
  exact hrest (String.toList_inj.1 (List.append_right_eq_self.1 h))

theorem targetSlot?_eq_some_iff : targetSlot? id handle = some n ↔ NamesSlot id handle n := by
  rw [namesSlot_iff]
  unfold targetSlot?
  by_cases hbare : handle = id
  · have hlonger : ∀ d : String, id ≠ id ++ "-" ++ d := by
      intro d h
      rw [String.append_assoc] at h
      exact append_ne_self (by simp) h.symm
    simp [hbare, hlonger, eq_comm]
  · rw [if_neg hbare]
    refine bind_eq_some_iff_toList.trans ?_
    simp only [isPrefixOf?_eq_some_iff, numberAfterHyphen?_eq_some_iff, hbare, false_and, false_or]
    constructor
    · rintro ⟨rest, rfl, d, rfl, hd⟩
      exact ⟨d, hd, String.append_assoc.symm⟩
    · rintro ⟨d, hd, rfl⟩
      exact ⟨"-" ++ d, String.append_assoc, d, rfl, hd⟩

/-- What is read after the id: nothing or a number, before the last part. -/
theorem readSource_eq_some_iff {rest : String} :
    ((beforeSource? rest.toList).bind fun cs =>
      if cs.isEmpty then some 0 else numberAfterHyphen? cs) = some n ↔
      rest = "-source" ∧ n = 0 ∨
        ∃ d, rest = "-" ++ d ++ "-source" ∧ Digits.IsNumeral d.toList n.toNat := by
  rw [bind_eq_some_iff_toList]
  simp only [beforeSource?_eq_some_iff]
  constructor
  · rintro ⟨before, rfl, hread⟩
    split at hread
    · next hempty =>
      obtain rfl : before = "" := by simpa using hempty
      exact .inl ⟨rfl, (Option.some.inj hread).symm⟩
    · obtain ⟨d, rfl, hd⟩ := numberAfterHyphen?_eq_some_iff.1 hread
      exact .inr ⟨d, rfl, hd⟩
  · rintro (⟨rfl, rfl⟩ | ⟨d, rfl, hd⟩)
    · exact ⟨"", rfl, rfl⟩
    · refine ⟨"-" ++ d, rfl, ?_⟩
      rw [if_neg (by simp)]
      exact numberAfterHyphen?_eq_some_iff.2 ⟨d, rfl, hd⟩

theorem sourceOutput?_eq_some_iff :
    sourceOutput? id handle = some n ↔ NamesOutput id handle n := by
  rw [namesOutput_iff]
  unfold sourceOutput?
  by_cases hbare : handle = id
  · have hlonger : ∀ d : String, id ≠ id ++ "-" ++ d ++ "-source" := by
      intro d h
      rw [String.append_assoc, String.append_assoc] at h
      exact append_ne_self (by simp) h.symm
    have hsource : id ≠ id ++ "-source" := (append_ne_self (by simp)).symm
    simp [hbare, hlonger, hsource, eq_comm]
  · rw [if_neg hbare]
    refine bind_eq_some_iff_toList.trans ?_
    simp only [isPrefixOf?_eq_some_iff, hbare, false_and, false_or]
    constructor
    · rintro ⟨rest, rfl, hread⟩
      rcases readSource_eq_some_iff.1 hread with ⟨rfl, rfl⟩ | ⟨d, rfl, hd⟩
      · exact .inl ⟨rfl, rfl⟩
      · exact .inr ⟨d, hd, by simp only [String.append_assoc]⟩
    · rintro (⟨rfl, rfl⟩ | ⟨d, hd, rfl⟩)
      · exact ⟨"-source", rfl, readSource_eq_some_iff.2 (.inl ⟨rfl, rfl⟩)⟩
      · refine ⟨"-" ++ d ++ "-source", by simp only [String.append_assoc], ?_⟩
        exact readSource_eq_some_iff.2 (.inr ⟨d, rfl, hd⟩)

/-! ## One number for a handle -/

/-- As a slot or as an output, the handle names the number. -/
def Names (id handle : String) (n : UInt32) : Prop :=
  NamesSlot id handle n ∨ NamesOutput id handle n

/-- There is no letter in a numeral. -/
theorem not_isNumeral_of_letter {d : String} {k : Nat} (hs : 's' ∈ d.toList) :
    ¬ Digits.IsNumeral d.toList k := by
  rintro (h | ⟨ds, heq, h⟩)
  · exact absurd (h.digits 's' hs) (by decide)
  · rw [heq, List.mem_cons] at hs
    exact absurd (h.digits 's' (hs.resolve_left (by decide))) (by decide)

/-- Only the id itself names both a slot and an output. -/
theorem NamesSlot.eq_of_namesOutput (hslot : NamesSlot id handle n)
    (houtput : NamesOutput id handle n') : n = n' := by
  by_cases hbare : handle = id
  · subst hbare
    have hzero : targetSlot? handle handle = some 0 := if_pos rfl
    have hzero' : sourceOutput? handle handle = some 0 := if_pos rfl
    rw [← targetSlot?_eq_some_iff, hzero] at hslot
    rw [← sourceOutput?_eq_some_iff, hzero'] at houtput
    exact (Option.some.inj hslot).symm.trans (Option.some.inj houtput)
  · obtain ⟨heq, -⟩ | ⟨d, hd, rfl⟩ := (namesSlot_iff ..).1 hslot
    · exact absurd heq hbare
    · obtain ⟨heq, -⟩ | ⟨heq, -⟩ | ⟨d', -, heq⟩ := (namesOutput_iff ..).1 houtput
      · exact absurd heq hbare
      · have hlast : "-source" = "-" ++ "source" := rfl
        rw [hlast, String.append_assoc, String.append_right_inj, String.append_right_inj] at heq
        subst heq
        exact absurd hd (not_isNumeral_of_letter (by decide))
      · rw [String.append_assoc, String.append_assoc, String.append_assoc, String.append_right_inj,
          String.append_right_inj] at heq
        subst heq
        refine absurd hd (not_isNumeral_of_letter ?_)
        rw [String.toList_append]
        exact List.mem_append_right _ (by decide)

theorem Names.unique (h : Names id handle n) (h' : Names id handle n') : n = n' := by
  rcases h with h | h <;> rcases h' with h' | h'
  · rw [← targetSlot?_eq_some_iff] at h h'
    exact Option.some.inj (h.symm.trans h')
  · exact h.eq_of_namesOutput h'
  · exact (h'.eq_of_namesOutput h).symm
  · rw [← sourceOutput?_eq_some_iff] at h h'
    exact Option.some.inj (h.symm.trans h')

/-! ## Top theorem -/

/-- Handles are read as exactly what they name; the handles made of an id and a number in decimal
are read back as that number, and no handle is two numbers. -/
theorem handles_read_exactly (id handle : String) (n : UInt32) :
    (targetSlot? id handle = some n ↔ NamesSlot id handle n) ∧
    (sourceOutput? id handle = some n ↔ NamesOutput id handle n) ∧
    targetSlot? id (id ++ "-" ++ Nat.repr n.toNat) = some n ∧
    sourceOutput? id (id ++ "-" ++ Nat.repr n.toNat ++ "-source") = some n ∧
    ∀ n', Names id handle n → Names id handle n' → n = n' := by
  have hnumeral := Digits.isNumeral_repr n.toNat
  refine ⟨targetSlot?_eq_some_iff, sourceOutput?_eq_some_iff, ?_, ?_, fun n' => Names.unique⟩
  · exact targetSlot?_eq_some_iff.2 (.numbered hnumeral)
  · exact sourceOutput?_eq_some_iff.2 (.numbered hnumeral)

/-- The last number of 32 bits is read, and the next one is not; zeros in front do no harm. -/
example : targetSlot? "a-1" "a-1-004294967295" = some 4294967295 ∧
    targetSlot? "a-1" "a-1-4294967296" = none ∧
    sourceOutput? "" "-+7-source" = some 7 := by decide

end Editor

end Grading
