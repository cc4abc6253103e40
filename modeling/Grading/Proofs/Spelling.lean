import Grading.Model.Spelling
import Grading.Proofs.Doubles

/-!
# Which equal models are spelled alike

Models are compared by their numbers and spelled by their bits.  Equal models have the same
number in every place, but where it is a zero, one may write it with a sign and the other without.
Nothing else tells their spellings apart:

    parts that are equal, spelled alike ↔ their numbers have the same signs      (SignsTell)
    a == b → (a.spelling = b.spelling ↔ the signs of their numbers are the same)
                                                                      (spelled_alike_iff_signs)

So equality of models does not imply that they are spelled alike (`equal_models_spelled_apart`).
-/

namespace Grading

/-! ## The numbers of a model -/

/-- The numbers in settings, in the order in which they are spelled. -/
def Settings.numbers {α : Type} : Settings α → List α
  | .source s => s.minPoints.toList
  | .addition => []
  | .average s => s.weights.entries.flatMap fun e => [e.2]
  | .stepper s => (s.outputs.flatMap fun o => o.number?.toList) ++ s.middlePoints
  | .sink => []
  | .minPoints s => [s.minPoints]
  | .max minValue => [minValue]
  | .round _ => []

/-- The numbers in a model, in the order in which they are spelled. -/
def Model.numbers {α : Type} (m : Model α) : List α := m.nodes.flatMap fun n => n.settings.numbers

/-! ## Parts -/

theorem append_eq_append_iff_of_length {β : Type} {l l' k k' : List β}
    (h : l.length = k.length) : l ++ l' = k ++ k' ↔ l = k ∧ l' = k' :=
  ⟨fun heq => List.append_inj heq h, fun heq => by rw [heq.1, heq.2]⟩

/-- Two parts are spelled alike if and only if their numbers have the same signs. -/
structure SignsTell (s t : Spelling) (xs ys : List Float) : Prop where
  length : s.length = t.length
  numbers : xs.length = ys.length
  iff : s = t ↔ xs.map Double.negative = ys.map Double.negative

namespace SignsTell

variable {s t s' t' : Spelling} {xs ys xs' ys' : List Float} {x y : Float}

theorem same (s : Spelling) : SignsTell s s [] [] := ⟨rfl, rfl, iff_of_true rfl rfl⟩

theorem append (h : SignsTell s t xs ys) (h' : SignsTell s' t' xs' ys') :
    SignsTell (s ++ s') (t ++ t') (xs ++ xs') (ys ++ ys') where
  length := by rw [List.length_append, List.length_append, h.length, h'.length]
  numbers := by rw [List.length_append, List.length_append, h.numbers, h'.numbers]
  iff := by
    have hsigns : (xs.map Double.negative).length = (ys.map Double.negative).length := by
      rw [List.length_map, List.length_map, h.numbers]
    rw [List.map_append, List.map_append, append_eq_append_iff_of_length h.length,
      append_eq_append_iff_of_length hsigns, h.iff, h'.iff]

theorem float (h : (x == y) = true) :
    SignsTell (Spelling.ofFloat x) (Spelling.ofFloat y) [x] [y] where
  length := rfl
  numbers := rfl
  iff := by
    unfold Spelling.ofFloat
    rw [List.cons_eq_cons, and_iff_left rfl, UInt64.toNat_inj, Double.toBits_eq_iff_of_beq h]
    simp

theorem cons (n : Nat) (h : SignsTell s t xs ys) : SignsTell (n :: s) (n :: t) xs ys :=
  (same [n]).append h

theorem followedBy (h : SignsTell s t xs ys) (u : Spelling) :
    SignsTell (s ++ u) (t ++ u) xs ys := by
  have hboth := h.append (same u)
  rwa [List.append_nil, List.append_nil] at hboth

theorem option {o o' : Option Float} (h : (o == o') = true) :
    SignsTell (Spelling.ofOption Spelling.ofFloat o) (Spelling.ofOption Spelling.ofFloat o')
      o.toList o'.toList := by
  match o, o' with
  | none, none => exact same _
  | some x, some y => exact (float h).cons 1

theorem flatMap {β : Type} {spell : β → Spelling} {numbers : β → List Float} {l k : List β}
    (h : List.Forall₂ (fun a b => SignsTell (spell a) (spell b) (numbers a) (numbers b)) l k) :
    SignsTell (l.flatMap spell) (k.flatMap spell) (l.flatMap numbers) (k.flatMap numbers) := by
  induction h with
  | nil => exact same []
  | cons hab _ ih => exact hab.append ih

theorem list {β : Type} {spell : β → Spelling} {numbers : β → List Float} {l k : List β}
    (h : List.Forall₂ (fun a b => SignsTell (spell a) (spell b) (numbers a) (numbers b)) l k) :
    SignsTell (Spelling.ofList spell l) (Spelling.ofList spell k) (l.flatMap numbers)
      (k.flatMap numbers) := by
  unfold Spelling.ofList
  rw [h.length_eq]
  exact (flatMap h).cons _

/-! ## Settings -/

theorem floats {l k : List Float} (h : (l == k) = true) :
    SignsTell (l.flatMap Spelling.ofFloat) (k.flatMap Spelling.ofFloat) l k := by
  have hall := flatMap ((list_beq_iff.1 h).imp fun _ _ hxy => float hxy)
  rwa [List.flatMap_singleton', List.flatMap_singleton'] at hall

theorem weights {a b : AverageSettings Float} (h : (a == b) = true) :
    SignsTell (a.weights.entries.flatMap weightSpelling) (b.weights.entries.flatMap weightSpelling)
      (a.weights.entries.flatMap fun e => [e.2]) (b.weights.entries.flatMap fun e => [e.2]) := by
  refine flatMap ((weights_of_beq h).imp ?_)
  rintro ⟨slot, w⟩ ⟨slot', w'⟩ ⟨rfl, hw⟩
  exact (same _).append (float hw)

theorem outputs {a b : List (StepOutput Float)} (h : (a == b) = true) :
    SignsTell (Spelling.ofList StepOutput.spelling a) (Spelling.ofList StepOutput.spelling b)
      (a.flatMap fun o => o.number?.toList) (b.flatMap fun o => o.number?.toList) := by
  refine list ((list_beq_iff.1 h).imp ?_)
  intro o o' ho
  match o, o' with
  | .value x, .value y => exact (float ho).cons 0
  | .same, .same => exact same _

theorem settings {a b : Settings Float} (h : (a == b) = true) :
    SignsTell a.spelling b.spelling a.numbers b.numbers := by
  cases Settings.like_of_beq h with
  | @source s s' h =>
    obtain ⟨least, onFail⟩ := s
    obtain ⟨least', onFail'⟩ := s'
    obtain ⟨hleast, hfail⟩ := Bool.and_eq_true_iff.1 h
    obtain rfl : onFail = onFail' := eq_of_beq hfail
    exact ((option hleast).cons 0).followedBy onFail.spelling
  | addition => exact same _
  | @average s s' h =>
    have hweights := weights h
    obtain ⟨-, hmode⟩ := Bool.and_eq_true_iff.1 h
    obtain ⟨entries, mode⟩ := s
    obtain ⟨entries', mode'⟩ := s'
    obtain rfl : mode = mode' := eq_of_beq hmode
    exact (hweights.cons 2).followedBy (Spelling.ofBool mode)
  | @stepper s s' h =>
    obtain ⟨steps, outs, middle⟩ := s
    obtain ⟨steps', outs', middle'⟩ := s'
    obtain ⟨hsteps, hrest⟩ := Bool.and_eq_true_iff.1 h
    obtain ⟨houtputs, hmiddle⟩ := Bool.and_eq_true_iff.1 hrest
    obtain rfl : steps = steps' := eq_of_beq hsteps
    exact ((same (3 :: Spelling.ofUInt32 steps)).append (outputs houtputs)).append (floats hmiddle)
  | sink => exact same _
  | @minPoints s s' h =>
    obtain ⟨least, onFail⟩ := s
    obtain ⟨least', onFail'⟩ := s'
    obtain ⟨hleast, hfail⟩ := Bool.and_eq_true_iff.1 h
    obtain rfl : onFail = onFail' := eq_of_beq hfail
    exact ((float hleast).cons 5).followedBy onFail.spelling
  | @max x x' h => exact (float h).cons 6
  | round mode => exact same _

theorem node {a b : Node Float} (h : (a == b) = true) :
    SignsTell a.spelling b.spelling a.settings.numbers b.settings.numbers := by
  obtain ⟨id, s⟩ := a
  obtain ⟨id', s'⟩ := b
  obtain ⟨hid, hsettings⟩ := Bool.and_eq_true_iff.1 h
  obtain rfl : id = id' := eq_of_beq hid
  exact (same (Spelling.ofText id)).append (settings hsettings)

theorem model {a b : Model Float} (h : (a == b) = true) :
    SignsTell a.spelling b.spelling a.numbers b.numbers := by
  obtain ⟨nodes, edges⟩ := a
  obtain ⟨nodes', edges'⟩ := b
  obtain ⟨hnodes, hedges⟩ := Bool.and_eq_true_iff.1 h
  obtain rfl : edges = edges' := eq_of_beq hedges
  exact (list ((list_beq_iff.1 hnodes).imp fun _ _ => node)).followedBy _

end SignsTell

/-! ## Top theorems -/

/-- Equal models are spelled alike if and only if their numbers have the same signs, zeros
included. -/
theorem spelled_alike_iff_signs {a b : Model Float} (h : (a == b) = true) :
    a.spelling = b.spelling ↔ a.numbers.map Double.negative = b.numbers.map Double.negative :=
  (SignsTell.model h).iff

/-- An exam with that minimum. -/
def minimumModel (least : Float) : Model Float where
  nodes := [⟨"exam", .source ⟨some least, .courseFail⟩⟩, ⟨"grade", .sink⟩]
  edges := [Edge.join "exam" "grade" 0]

theorem spelled_alike_iff_signs_minimum :
    (minimumModel 0 == minimumModel (-0)) = true ∧
      (minimumModel 0).spelling ≠ (minimumModel (-0)).spelling := by
  have hequal : (minimumModel 0 == minimumModel (-0)) = true := by decide
  refine ⟨hequal, fun hsame => ?_⟩
  have hsigns := (spelled_alike_iff_signs hequal).1 hsame
  exact absurd hsigns (by decide)

/-- Two valid models that are equal, though one writes its minimum with a sign. -/
theorem equal_models_spelled_apart :
    (∃ c, validate true (minimumModel 0) = .ok c) ∧
      (∃ c, validate true (minimumModel (-0)) = .ok c) ∧
      (minimumModel 0 == minimumModel (-0)) = true ∧
      (minimumModel 0).spelling ≠ (minimumModel (-0)).spelling :=
  ⟨⟨_, rfl⟩, ⟨_, rfl⟩, by decide, by decide⟩

end Grading
