import Mathlib.Data.List.TakeWhile
import Grading.Proofs.Sorted
import Grading.Proofs.Traversals
import Grading.Report.Basic

/-!
# Mappings of type names

A mapping `name=type` is cut at its first equals sign, and what is on either side counts without
the blanks around it:

    trimBlanks cs = trimmed ↔ Trims cs trimmed                                      (trims_iff)
    mapping? mapping = some (name, type) ↔ Splits mapping name type     (mapping?_eq_some_iff)
    there is an importer ↔ every mapping can be cut, and it has them all, in order
                                                                         (importer_eq_ok_iff)
-/

namespace Grading

/-- A text without the blanks at its ends. -/
def Trims (cs trimmed : List Char) : Prop :=
  ∃ front back, cs = front ++ trimmed ++ back ∧ (∀ c ∈ front ++ back, isBlankChar c = true) ∧
    (∀ c ∈ trimmed.head?, isBlankChar c = false) ∧ ∀ c ∈ trimmed.getLast?, isBlankChar c = false

/-- A mapping has a name before its first equals sign and a type behind it, both without the
blanks around them. -/
def Splits (mapping name type : String) : Prop :=
  ∃ before after, mapping.toList = before ++ '=' :: after ∧ '=' ∉ before ∧
    Trims before name.toList ∧ Trims after type.toList

section

variable {cs front back trimmed : List Char}

/-- Dropping goes on up to the first character that is not blank. -/
theorem dropWhile_blank (hfront : ∀ c ∈ front, isBlankChar c = true)
    (hhead : ∀ c ∈ trimmed.head?, isBlankChar c = false) :
    (front ++ trimmed).dropWhile isBlankChar = trimmed := by
  rw [List.dropWhile_append_of_pos hfront]
  cases trimmed with
  | nil => rfl
  | cons c cs =>
    have hc : isBlankChar c = false := hhead c rfl
    rw [List.dropWhile_cons_of_neg (by rw [hc]; exact Bool.false_ne_true)]

theorem head?_dropWhile_blank : ∀ c ∈ (cs.dropWhile isBlankChar).head?, isBlankChar c = false := by
  intro c hc
  have hnot := List.head?_dropWhile_not isBlankChar cs
  rw [Option.mem_def.1 hc] at hnot
  simpa using hnot

/-- What is left has no blanks at its ends, and nothing else has. -/
theorem trims_iff : Trims cs trimmed ↔ trimBlanks cs = trimmed := by
  unfold trimBlanks
  constructor
  · rintro ⟨front, back, rfl, hblank, hhead, hlast⟩
    rw [List.forall_mem_append] at hblank
    obtain ⟨hfront, hback⟩ := hblank
    have hback' : ∀ c ∈ back.reverse, isBlankChar c = true := fun c hc =>
      hback c (List.mem_reverse.1 hc)
    have hlast' : ∀ c ∈ trimmed.reverse.head?, isBlankChar c = false := by
      rwa [List.head?_reverse]
    rw [List.append_assoc]
    cases htrimmed : trimmed with
    | nil =>
      have hall : ∀ c ∈ front ++ back, isBlankChar c = true :=
        List.forall_mem_append.2 ⟨hfront, hback⟩
      rw [List.nil_append, List.dropWhile_eq_nil_iff.2 hall]
      rfl
    | cons c rest =>
      rw [← htrimmed]
      have hstart : ∀ c ∈ (trimmed ++ back).head?, isBlankChar c = false := by
        rwa [List.head?_append_of_ne_nil _ (htrimmed ▸ List.cons_ne_nil c rest)]
      rw [dropWhile_blank hfront hstart, List.reverse_append, dropWhile_blank hback' hlast',
        List.reverse_reverse]
  · rintro rfl
    have hfront := List.takeWhile_append_dropWhile (p := isBlankChar) (l := cs)
    have hback := List.takeWhile_append_dropWhile (p := isBlankChar)
      (l := (cs.dropWhile isBlankChar).reverse)
    rw [← List.reverse_inj, List.reverse_append, List.reverse_reverse] at hback
    refine ⟨cs.takeWhile isBlankChar, ((cs.dropWhile isBlankChar).reverse.takeWhile
      isBlankChar).reverse, ?_, ?_, ?_, ?_⟩
    · rw [List.append_assoc, hback, hfront]
    · rw [List.forall_mem_append]
      exact ⟨fun c hc => List.mem_takeWhile_imp hc,
        fun c hc => List.mem_takeWhile_imp (List.mem_reverse.1 hc)⟩
    · have hhead : ∀ c ∈ (cs.dropWhile isBlankChar).head?, isBlankChar c = false :=
        head?_dropWhile_blank
      rw [← hback] at hhead
      exact fun c hc => hhead c (List.mem_head?_append_of_mem_head? hc)
    · rw [List.getLast?_reverse]
      exact head?_dropWhile_blank

end

namespace Report

variable {mapping name type : String} {mappings : List String} {pairs : List (String × String)}

theorem mapping?_eq_some_iff : mapping? mapping = some (name, type) ↔ Splits mapping name type := by
  unfold mapping? Splits
  simp only [trims_iff]
  constructor
  · intro h
    split at h
    · next rest hdrop =>
      obtain ⟨hname, htype⟩ := Prod.mk.inj (Option.some.inj h)
      have hmem : '=' ∈ mapping.toList := by
        by_contra hnot
        have hnone : ∀ c ∈ mapping.toList, decide (c ≠ '=') = true := fun c hc =>
          decide_eq_true fun heq => hnot (heq ▸ hc)
        rw [List.dropWhile_eq_nil_iff.2 hnone] at hdrop
        cases hdrop
      obtain ⟨front, back, hcut, htake, hback⟩ := exists_cut hmem
      obtain ⟨-, rfl⟩ := List.cons.inj (hdrop.symm.trans hback)
      refine ⟨front, _, hcut, fun hfront => ?_, ?_, ?_⟩
      · rw [← htake] at hfront
        simpa using List.mem_takeWhile_imp hfront
      · rw [← hname, String.toList_ofList, htake]
      · rw [← htype, String.toList_ofList]
    · cases h
  · rintro ⟨before, after, hcut, hnot, hname, htype⟩
    have hbefore : ∀ c ∈ before, decide (c ≠ '=') = true := fun c hc =>
      decide_eq_true fun heq => hnot (heq ▸ hc)
    have htake : (mapping.toList.takeWhile fun c => decide (c ≠ '=')) = before := by
      rw [hcut, List.takeWhile_append_of_pos hbefore]
      simp
    have hdrop : (mapping.toList.dropWhile fun c => decide (c ≠ '=')) = '=' :: after := by
      rw [hcut, List.dropWhile_append_of_pos hbefore]
      simp
    simp only [hdrop, htake, hname, htype, String.ofList_toList]

/-- There is an importer for mappings that all can be split. -/
theorem importer_eq_ok_iff {importer : Editor.Importer} :
    Report.importer mappings = .ok importer ↔ ∃ pairs,
      List.Forall₂ (fun m p => Splits m p.1 p.2) mappings pairs ∧
        Editor.Importer.standard.withMappings pairs = importer := by
  have hpairs : ∀ {pairs : List (String × String)},
      List.Forall₂ (fun m p => Splits m p.1 p.2) mappings pairs ↔
        mappings.mapM mapping? = some pairs := by
    intro pairs
    rw [mapM_eq_some_iff]
    simp only [← mapping?_eq_some_iff]
  simp only [hpairs, mapM_eq_some_filterMap_iff]
  unfold Report.importer
  cases hfind : mappings.find? fun m => (mapping? m).isNone with
  | some m =>
    refine iff_of_false (fun h => nomatch h) ?_
    rintro ⟨pairs, ⟨hall, -⟩, -⟩
    have hsome := hall m (List.mem_of_find?_eq_some hfind)
    have hnone := List.find?_some hfind
    rw [Option.isNone_iff_eq_none.1 hnone] at hsome
    cases hsome
  | none =>
    have hall : ∀ m ∈ mappings, (mapping? m).isSome := fun m hm => by
      simpa [Option.isSome_iff_ne_none] using List.find?_eq_none.1 hfind m hm
    constructor
    · exact fun h => ⟨_, ⟨hall, rfl⟩, Except.ok.inj h⟩
    · rintro ⟨_, ⟨-, rfl⟩, rfl⟩
      rfl

end Report

end Grading
