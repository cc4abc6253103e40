import Grading.Proofs.Agreement
import Grading.Proofs.DoubleRange

/-!
# Where numbers that are not finite come from

Points and settings are finite, and most types of node keep it so: they pass a number on, choose
one or round one.  Only nodes that add can make a number that is not finite from numbers that
are.  So what is not finite in a grade can be traced back to such a node, and where no sum
overflows every number is finite:

    s sound, no sum, numbers finite → s.applyTo xs is finite                  (finite_of_applyTo)
    a number at a node is not finite → a sum that overflows leads to it        (exists_overflowAt)
    the same for previews and full evaluations, by ids                   (finite_unless_overflow)

Nothing keeps a sum from overflowing (`sum_overflows`).  An average overflows as well: dividing the
weights by the largest one keeps the sum of the weights small, not that of the values.
-/

namespace Grading

open Evaluator

variable {α : Type}

/-! ## Nodes -/

/-- Rounding a finite number to a whole one gives a finite number. -/
class FiniteRounding (α : Type) [Number α] : Prop extends OrderedNumber α where
  isFinite_apply : ∀ (mode : Rounding) {x : α}, Number.isFinite x = true →
    Number.isFinite (mode.apply x) = true

instance : FiniteRounding Rat where
  isFinite_apply _ _ _ := rfl

instance : FiniteRounding Float where
  isFinite_apply mode _ h := Double.isFinite_apply mode h

/-- The types of node that add their inputs. -/
def Kind.adds : Kind → Bool
  | .addition => true
  | .average => true
  | _ => false

variable [Number α] {x y : α} {xs : List α}

theorem number_of_requirePoints {minPoints : Option α} {onFail : FailPolicy}
    (h : requirePoints x minPoints onFail = .number y) : y = x := by
  by_cases hmissed : Missed x minPoints onFail
  · rw [requirePoints_of_missed hmissed] at h
    exact nomatch h
  · rw [requirePoints_of_not_missed hmissed] at h
    exact (Value.number.inj h).symm

theorem isFinite_output {s : StepperSettings α} (hs : s.Sound) (hx : Number.isFinite x = true) :
    Number.isFinite (s.output x) = true := by
  unfold StepperSettings.output
  cases ho : s.outputs[s.range x]? with
  | none => exact hx
  | some o =>
    cases o with
    | value y => exact hs.outputsFinite y (List.mem_of_getElem? ho)
    | same => exact hx

theorem isFinite_firstInput [OrderedNumber α] (hxs : ∀ x ∈ xs, Number.isFinite x = true) :
    Number.isFinite (firstInput xs) = true := by
  cases xs with
  | nil => exact OrderedNumber.isFinite_zero
  | cons x xs => exact hxs x List.mem_cons_self

/-- From finite numbers, only nodes that add can make a number that is not finite. -/
theorem finite_of_applyTo [FiniteRounding α] {s : Settings α} (hs : s.Sound)
    (hadds : s.kind.adds = false) (hxs : ∀ x ∈ xs, Number.isFinite x = true)
    (h : s.applyTo xs = .number y) : Number.isFinite y = true := by
  have hfirst := isFinite_firstInput hxs
  cases s with
  | source s =>
    rw [number_of_requirePoints h]
    exact hfirst
  | addition => exact nomatch hadds
  | average s => exact nomatch hadds
  | stepper s =>
    obtain rfl := Value.number.inj h
    exact isFinite_output hs hfirst
  | sink =>
    obtain rfl := Value.number.inj h
    exact hfirst
  | minPoints s =>
    have hgate : requirePoints (firstInput xs) (some s.minPoints) s.onFail = .number y := h
    rw [number_of_requirePoints hgate]
    exact hfirst
  | max minValue =>
    obtain rfl := Value.number.inj h
    exact isFinite_foldl_larger hs hxs
  | round mode =>
    obtain rfl := Value.number.inj h
    exact FiniteRounding.isFinite_apply mode hfirst

/-! ## Models -/

variable {c : Checked α} {m : Model α} {points : Points α} {v : List (Outcome α)}
variable {p : Preview α} {i j : Nat} {n : Node α} {id : String}

/-- All inputs of a node that adds are finite numbers, and it gives out one that is not. -/
def Checked.OverflowAt (c : Checked α) (v : List (Outcome α)) (i : Nat) : Prop :=
  ∃ n, c.model.nodes[i]? = some n ∧ n.kind.adds = true ∧
    (∀ j, Feeds c.model.links j i → ∃ x, valueAt v j = .number x ∧ Number.isFinite x = true) ∧
    ∃ y, valueAt v i = .number y ∧ Number.isFinite y = false

/-- The numbers at all edges into a node that adds are finite, and the one it gives out is not. -/
def Model.Overflows (m : Model α) (p : Preview α) (id : String) : Prop :=
  ∃ n ∈ m.nodes, n.id = id ∧ n.kind.adds = true ∧
    (∀ e ∈ m.edges, e.target = id →
      ∃ x, p.node? e.source = some (.number x) ∧ Number.isFinite x = true) ∧
    ∃ y, p.node? id = some (.number y) ∧ Number.isFinite y = false

/-- A number that is not finite comes from a sum that overflows. -/
theorem exists_overflowAt [FiniteRounding α] (hc : c.Faithful)
    (hsound : ∀ n ∈ c.model.nodes, n.settings.Sound) (hv : Stable c points v) (hi : i < c.size)
    (hy : valueAt v i = .number y) (hfinite : Number.isFinite y = false) :
    ∃ j, c.OverflowAt v j ∧ Relation.ReflTransGen (Feeds c.model.links) j i := by
  induction i using (Checked.feeds_wellFounded hc).induction generalizing y with
  | _ i ih =>
    obtain ⟨n, hn⟩ := Checked.exists_node hi
    have hmem := List.mem_of_getElem? hn
    have hgives := hv.gives hn
    by_cases hk : n.kind = .source
    · obtain ⟨s, hs⟩ := Node.kind_eq_source_iff.1 hk
      rw [Node.gives_source hs, hy] at hgives
      rcases hgives.cases with ⟨-, hout⟩ | ⟨x, -, -, hout⟩ | ⟨x, hx, -, hout⟩
      · exact nomatch hout
      · exact nomatch hout
      · obtain rfl := Outcome.number.inj hout
        rw [hv.finitePoints n hmem hk y hx] at hfinite
        exact nomatch hfinite
    · rw [Node.gives_other hk, hy] at hgives
      rcases hgives.cases with ⟨-, hout⟩ | ⟨-, -, hout⟩ | ⟨xs, hxs, hout⟩
      · exact nomatch hout
      · exact nomatch hout
      · by_cases hall : ∀ x ∈ xs, Number.isFinite x = true
        · have happly : n.settings.applyTo xs = .number y := value_outcome_inj hout.symm
          cases hadds : n.kind.adds with
          | false =>
            rw [finite_of_applyTo (hsound n hmem) hadds hall happly] at hfinite
            exact nomatch hfinite
          | true =>
            refine ⟨i, ⟨n, hn, hadds, fun j hj => ?_, y, hy, hfinite⟩, .refl⟩
            have hin : valueAt v j ∈ inputOutcomes c v i := (mem_inputOutcomes hc).2 ⟨j, hj, rfl⟩
            rw [hxs] at hin
            obtain ⟨x, hx, heq⟩ := List.mem_map.1 hin
            exact ⟨x, heq.symm, hall x hx⟩
        · -- an input is not finite already, and the overflow is one further up
          rw [not_forall₂] at hall
          obtain ⟨x, hx, hnot⟩ := hall
          have hin : .number x ∈ inputOutcomes c v i := hxs ▸ List.mem_map_of_mem hx
          obtain ⟨j, hj, hjx⟩ := (mem_inputOutcomes hc).1 hin
          obtain ⟨k, hk, hleads⟩ := ih j hj (Model.feeds_lt hj).1 hjx (Bool.eq_false_iff.2 hnot)
          exact ⟨k, hk, hleads.tail hj⟩

theorem overflows_of_overflowAt (hc : c.Faithful) (hp : p.Shows c v)
    (h : c.OverflowAt v i) : c.model.Overflows p (c.idAt i) := by
  obtain ⟨n, hn, hadds, hinputs, y, hy, hfinite⟩ := h
  rw [Checked.idAt_eq hn]
  refine ⟨n, List.mem_of_getElem? hn, rfl, hadds, fun e he ht => ?_, y, ?_, hfinite⟩
  · have hjoined : Joined c.model.edges e.source (c.idAt i) :=
      ⟨e, he, rfl, ht.trans (Checked.idAt_eq hn).symm⟩
    obtain ⟨j, hj, hid⟩ := (Checked.joined_idAt hc (Checked.lt_size hn)).1 hjoined
    obtain ⟨x, hx, hxfinite⟩ := hinputs j hj
    obtain ⟨n', hn'⟩ := Checked.exists_node (Model.feeds_lt hj).1
    rw [← hid, Checked.idAt_eq hn', hp.node?_id hn', hx]
    exact ⟨x, rfl, hxfinite⟩
  · rw [hp.node?_id hn, hy]

/-! ## Top theorems -/

/-- Whatever is not finite in a preview or a full evaluation comes from a node that adds finite
numbers and overflows. -/
theorem finite_unless_overflow [FiniteRounding α] {strict : Bool}
    (h : validate strict m = .ok c) (hp : (Evaluator.ofChecked c).preview points = .ok p) :
    (∀ id y, p.node? id = some (.number y) → Number.isFinite y = false →
      ∃ k, m.Overflows p k ∧ Leads m.edges k id) ∧
    (∀ y, p.grade = .number y → Number.isFinite y = false →
      ∃ k, m.Overflows p k ∧ m.Contributes k) ∧
    ∀ r, (Evaluator.ofChecked c).evaluate points = .ok r →
      (∀ id y, (id, .number y) ∈ r.nodes → Number.isFinite y = false →
        ∃ k, m.Overflows p k ∧ Leads m.edges k id) ∧
      ∀ y, r.grade = .number y → Number.isFinite y = false →
        ∃ k, m.Overflows p k ∧ m.Contributes k := by
  have hsound := (Model.wellFormed_iff.2 (validate_eq_ok_iff.1 h).1).settings
  obtain ⟨hc, rfl⟩ := faithful_of_validate h
  obtain ⟨v, -, hv, hshows⟩ := preview_shows hc hp
  have hnodes : ∀ id y, p.node? id = some (.number y) → Number.isFinite y = false →
      ∃ k, c.model.Overflows p k ∧ Leads c.model.edges k id := by
    intro id y hy hfinite
    obtain ⟨i, n, hn, rfl, hi⟩ := (hshows.node? id _).1 hy
    obtain ⟨j, hj, hleads⟩ := exists_overflowAt hc hsound hv (Checked.lt_size hn) hi hfinite
    refine ⟨c.idAt j, overflows_of_overflowAt hc hshows hj, ?_⟩
    rw [← Checked.idAt_eq hn]
    exact Model.leads_of_feeds hleads
  have hgrade : ∀ y, p.grade = .number y → Number.isFinite y = false →
      ∃ k, c.model.Overflows p k ∧ c.model.Contributes k := by
    intro y hy hfinite
    obtain ⟨s, hs, hi⟩ := Checked.sink?_eq hc
    obtain ⟨k, hk, hleads⟩ := hnodes s.id y
      (by rw [hshows.node?_id hi, ← hshows.grade, hy]) hfinite
    exact ⟨k, hk, s, hs, hleads⟩
  refine ⟨hnodes, hgrade, fun r hr => ?_⟩
  obtain ⟨hsame, hmem⟩ := evaluate_preview hc hr hp
  refine ⟨fun id y hy => hnodes id y ((hmem id (.number y)).1 hy), fun y hy => hgrade y ?_⟩
  rw [hsame, hy]
  rfl

/-- The mean of three parts, of which two count twice. -/
def meanModel : Model Float where
  nodes :=
    [⟨"exam", .source ⟨none, .ignore⟩⟩, ⟨"homework", .source ⟨none, .ignore⟩⟩,
      ⟨"talk", .source ⟨none, .ignore⟩⟩,
      ⟨"mean", .average ⟨.ofList [(0, 1), (1, 2), (2, 2)], false⟩⟩, ⟨"grade", .sink⟩]
  edges :=
    [Edge.join "exam" "mean" 0, Edge.join "homework" "mean" 1, Edge.join "talk" "mean" 2,
      Edge.join "mean" "grade" 0]

/-- The largest finite double for every part. -/
def hugePoints : Points Float :=
  let largest := Float.ofBits 0x7FEFFFFFFFFFFFFF
  Points.ofList [("exam", largest), ("homework", largest), ("talk", largest)]

set_option maxRecDepth 4000 in
theorem finite_unless_overflow_mean :
    validate true meanModel = .ok (meanModel.accepted 4) ∧
      ∃ p, (Evaluator.ofChecked (meanModel.accepted 4)).preview hugePoints = .ok p ∧
        ∃ k, meanModel.Overflows p k ∧ meanModel.Contributes k := by
  have hvalid : validate true meanModel = .ok (meanModel.accepted 4) := rfl
  obtain ⟨p, hp, y, hgrade, hfinite⟩ : ∃ p,
      (Evaluator.ofChecked (meanModel.accepted 4)).preview hugePoints = .ok p ∧
        ∃ y, p.grade = .number y ∧ Number.isFinite y = false := ⟨_, rfl, _, rfl, rfl⟩
  exact ⟨hvalid, p, hp, (finite_unless_overflow hvalid hp).2.1 y hgrade hfinite⟩

/-- The sum of two parts. -/
def sumModel : Model Float where
  nodes :=
    [⟨"exam", .source ⟨none, .ignore⟩⟩, ⟨"homework", .source ⟨none, .ignore⟩⟩, ⟨"sum", .addition⟩,
      ⟨"grade", .sink⟩]
  edges := [Edge.join "exam" "sum" 0, Edge.join "homework" "sum" 1, Edge.join "sum" "grade" 0]

/-- Twice the largest double is not finite, though both points are. -/
theorem sum_overflows :
    validate true sumModel = .ok (sumModel.accepted 3) ∧ sumModel.FinitePoints hugePoints ∧
      ∃ r y, (Evaluator.ofChecked (sumModel.accepted 3)).evaluate hugePoints = .ok r ∧
        r.grade = .number y ∧ Number.isFinite y = false := by
  have hvalid : validate true sumModel = .ok (sumModel.accepted 3) := rfl
  obtain ⟨r, hr, y, hgrade, hfinite⟩ : ∃ r,
      (Evaluator.ofChecked (sumModel.accepted 3)).evaluate hugePoints = .ok r ∧
        ∃ y, r.grade = .number y ∧ Number.isFinite y = false := ⟨_, rfl, _, rfl, rfl⟩
  obtain ⟨hc, -⟩ := faithful_of_validate hvalid
  obtain ⟨-, v, hrun, -⟩ := evaluate_ok_spec hc hr
  exact ⟨hvalid, (run_stable hc hrun).finitePoints, r, y, hr, hgrade, hfinite⟩

end Grading
