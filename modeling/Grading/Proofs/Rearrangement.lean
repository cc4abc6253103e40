import Grading.Proofs.Correspondence
import Grading.Proofs.LeastOrder
import Grading.Proofs.Previews
import Grading.Proofs.Shape

/-!
# The order of listing does not matter

Nodes and edges are listed in some order, and positions in these lists stand for nodes everywhere
in an accepted model.  What is said of a model by ids does not depend on that order: the edges into
a node are looked at slot by slot, the nodes that could come next by id, and so on.  So if two
models list the same nodes and the same edges,

    the schedule places the same ids in the same order          (SameShape.orderIds)
    the same sources are required                        (SameShape.requiredSources)
    the same assignments are meanings                           (Rearranged.meaning)
    runs fail alike, or give the same outcome to every id        (Rearranged.run_ok)
    a failed grade has the same causes, in the same order        (Rearranged.causes)

and `rearranged_same` puts this together.
-/

namespace Grading

open Evaluator

variable {α : Type}

/-! ## Models of one shape -/

namespace Model.SameShape

variable {m m' : Model α} {ids : List String} {c c' : Checked α} {n : Node α}

theorem topological (h : m.SameShape m') (hids : m.Topological ids) : m'.Topological ids :=
  ⟨hids.perm.trans h.ids, h.joined ▸ hids.before⟩

/-- The least order of the one model is the least order of the other. -/
theorem orderIds (hc : c.Faithful) (hc' : c'.Faithful) (h : c.model.SameShape c'.model) :
    c.orderIds = c'.orderIds := by
  have hordered : ∀ {d : Checked α}, d.Faithful → d.model.Topological d.orderIds := fun hd =>
    (Checked.orderIds_leastFirst hd).topological (Checked.orderIds_perm hd) <| by
      rintro a b ⟨e, he, -, rfl⟩
      exact (hd.wellWired.edgesJoinNodes e he).2
  have hlength : c.orderIds.length = c'.orderIds.length := by
    rw [(Checked.orderIds_perm hc).length_eq, (Checked.orderIds_perm hc').length_eq,
      h.ids.length_eq]
  -- Either one is least among the orders of its model, and the other one is such an order.
  rcases (Checked.orderIds_leastFirst hc).eq_or_lex (h.symm.topological (hordered hc'))
    hc.wellWired.distinctIds hlength (List.nil_append _).symm (List.nil_append _).symm with
    heq | hlex
  · exact heq.symm
  · rcases (Checked.orderIds_leastFirst hc').eq_or_lex (h.topological (hordered hc))
      hc'.wellWired.distinctIds hlength.symm (List.nil_append _).symm (List.nil_append _).symm with
      heq | hlex'
    · exact heq
    · exact absurd hlex' (asymm hlex)

/-- Slot by slot, the edges into a node are the same. -/
theorem incoming_eq (hc : c.Faithful) (hc' : c'.Faithful) (h : c.model.SameShape c'.model)
    (hn : n ∈ c.model.nodes) : c.model.incoming n.id = c'.model.incoming n.id := by
  obtain ⟨i, hi⟩ := List.getElem?_of_mem hn
  obtain ⟨n', hn', hshape⟩ := h.exists_node hn
  obtain ⟨j, hj⟩ := List.getElem?_of_mem hn'
  have hid : n'.id = n.id := congrArg Prod.fst hshape
  have hascending := Checked.incoming_ascending hc' hj
  rw [hid] at hascending
  refine List.Perm.eq_of_pairwise (fun e f _ _ hef hfe => ?_)
    (Checked.incoming_ascending hc hi) hascending (h.incoming n.id)
  exact absurd (Std.lt_trans hef hfe) Std.lt_irrefl

theorem mem_requiredSources_mono {id : String} (hc : c.Faithful) (hc' : c'.Faithful)
    (h : c.model.SameShape c'.model) (hid : id ∈ c.requiredSources) :
    id ∈ c'.requiredSources := by
  rw [mem_requiredSources hc] at hid
  obtain ⟨n, hn, rfl, hk, hcontributes⟩ := hid
  obtain ⟨n', hn', hshape⟩ := h.exists_node hn
  have hkind : n'.kind = n.kind := congrArg (·.2.1) hshape
  rw [mem_requiredSources hc']
  exact ⟨n', hn', congrArg Prod.fst hshape, hkind.trans hk, h.contributes.1 hcontributes⟩

theorem requiredSources (hc : c.Faithful) (hc' : c'.Faithful) (h : c.model.SameShape c'.model) :
    c.requiredSources = c'.requiredSources :=
  (requiredSources_ascending hc).eq_of_mem_iff (requiredSources_ascending hc') fun _ =>
    ⟨mem_requiredSources_mono hc hc' h, mem_requiredSources_mono hc' hc h.symm⟩

theorem sinkId (hc : c.Faithful) (hc' : c'.Faithful) (h : c.model.SameShape c'.model) :
    c.idAt c.sink = c'.idAt c'.sink := by
  obtain ⟨s, hs, hi⟩ := Checked.sink?_eq hc
  obtain ⟨s', hs', hi'⟩ := Checked.sink?_eq hc'
  obtain ⟨t, ht, hshape⟩ := h.sink? hs
  obtain rfl : s' = t := Option.some.inj (hs'.symm.trans ht)
  rw [Checked.idAt_eq hi, Checked.idAt_eq hi']
  exact (congrArg Prod.fst hshape).symm

end Model.SameShape

/-! ## Models that list the same -/

/-- The same nodes and the same edges, each in any order. -/
structure Model.Rearranged (m m' : Model α) : Prop where
  nodes : m.nodes.Perm m'.nodes
  edges : m.edges.Perm m'.edges

namespace Model.Rearranged

section

variable {m m' : Model α}

theorem symm (h : m.Rearranged m') : m'.Rearranged m := ⟨h.nodes.symm, h.edges.symm⟩

theorem sameShape (h : m.Rearranged m') : m.SameShape m' := ⟨h.nodes.map _, h.edges⟩

end

section

variable {c c' : Checked α} {i j : Nat} {n : Node α}

/-- A position of the one model and a position of the other that hold the same node. -/
def SameNode (c c' : Checked α) (i j : Nat) : Prop :=
  ∃ n, c.model.nodes[i]? = some n ∧ c'.model.nodes[j]? = some n

theorem sameNode_unique (hc : c.Faithful) (hc' : c'.Faithful) :
    Relator.BiUnique (SameNode c c') := by
  constructor
  · rintro i k j ⟨n, hn, hj⟩ ⟨n', hn', hj'⟩
    obtain rfl : n = n' := Option.some.inj (hj.symm.trans hj')
    exact Checked.idAt_inj hc (Checked.lt_size hn) (Checked.lt_size hn')
      ((Checked.idAt_eq hn).trans (Checked.idAt_eq hn').symm)
  · rintro i j k ⟨n, hi, hn⟩ ⟨n', hi', hn'⟩
    obtain rfl : n = n' := Option.some.inj (hi.symm.trans hi')
    exact Checked.idAt_inj hc' (Checked.lt_size hn) (Checked.lt_size hn')
      ((Checked.idAt_eq hn).trans (Checked.idAt_eq hn').symm)

/-- Positions with the same id hold the same node. -/
theorem sameNode_of_idAt (hc' : c'.Faithful) (h : c.model.Rearranged c'.model)
    (hi : i < c.size) (hj : j < c'.size) (hid : c.idAt i = c'.idAt j) : SameNode c c' i j := by
  obtain ⟨n, hn⟩ := Checked.exists_node hi
  obtain ⟨n', hn'⟩ := Checked.exists_node hj
  have hmem : n ∈ c'.model.nodes := h.nodes.mem_iff.1 (List.mem_of_getElem? hn)
  rw [Checked.idAt_eq hn, Checked.idAt_eq hn'] at hid
  obtain rfl := List.inj_on_of_nodup_map hc'.wellWired.distinctIds hmem
    (List.mem_of_getElem? hn') hid
  exact ⟨n, hn, hn'⟩

/-- Slot by slot, a node reads from the same nodes. -/
theorem sameNode_inputs (hc : c.Faithful) (hc' : c'.Faithful) (h : c.model.Rearranged c'.model)
    (hij : SameNode c c' i j) : List.Forall₂ (SameNode c c')
      ((c.inputsOf i).map (·.2)) ((c'.inputsOf j).map (·.2)) := by
  obtain ⟨n, hi, hj⟩ := hij
  have hids : ((c.inputsOf i).map (·.2)).map c.idAt = ((c'.inputsOf j).map (·.2)).map c'.idAt := by
    rw [List.map_map, List.map_map]
    refine (Checked.inputsOf_ids hc hi).trans (Eq.trans ?_ (Checked.inputsOf_ids hc' hj).symm)
    rw [h.sameShape.incoming_eq hc hc' (List.mem_of_getElem? hi)]
  refine forall₂_of_map_eq hids fun k hk l hl hid => ?_
  exact h.sameNode_of_idAt hc' (Model.feeds_lt ((Checked.mem_inputsOf hc).1 hk)).1
    (Model.feeds_lt ((Checked.mem_inputsOf hc').1 hl)).1 hid

theorem sameNode_sink (hc : c.Faithful) (hc' : c'.Faithful) (h : c.model.Rearranged c'.model) :
    SameNode c c' c.sink c'.sink := by
  obtain ⟨s, -, hi⟩ := Checked.sink?_eq hc
  obtain ⟨s', -, hi'⟩ := Checked.sink?_eq hc'
  exact h.sameNode_of_idAt hc' (Checked.lt_size hi) (Checked.lt_size hi')
    (h.sameShape.sinkId hc hc')

/-- With the same outcomes by id, a failed grade has the same causes. -/
theorem causes (hc : c.Faithful) (hc' : c'.Faithful) (h : c.model.Rearranged c'.model)
    (value : String → Outcome α) (points : Points α) :
    c.causes (c.model.nodes.map fun n => value n.id) points =
      c'.causes (c'.model.nodes.map fun n => value n.id) points := by
  refine causes_eq hc hc' ⟨?_, ?_, ?_, ?_, sameNode_unique hc hc'⟩ (h.sameNode_sink hc hc')
  · rintro i j ⟨n, hi, hj⟩
    rw [hi, hj]
  · rintro i j ⟨n, hi, hj⟩
    rw [valueAt_map (fun n : Node α => value n.id) hi,
      valueAt_map (fun n : Node α => value n.id) hj]
  · exact fun _ _ _ => rfl
  · exact fun hij => h.sameNode_inputs hc hc' hij

end

variable [Number α] {m m' : Model α} {c c' : Checked α} {points : Points α} {id : String} {x : α}
variable {v : List (Outcome α)} {e : EvaluationError α}

theorem settingsFaults (h : m.Rearranged m') (hm : m.settingsFaults = []) :
    m'.settingsFaults = [] := by
  unfold Model.settingsFaults at hm ⊢
  rw [List.flatMap_eq_nil_iff] at hm ⊢
  exact fun n hn => hm n (h.nodes.mem_iff.2 hn)

theorem accepts_iff {strict : Bool} (h : m.Rearranged m') :
    (∃ c, validate strict m = .ok c) ↔ ∃ c, validate strict m' = .ok c :=
  ⟨h.sameShape.accepts h.settingsFaults, h.symm.sameShape.accepts h.symm.settingsFaults⟩

theorem invalid (h : m.Rearranged m') (hm : m.Invalid points id x) : m'.Invalid points id x := by
  obtain ⟨n, hn, hx⟩ := hm
  exact ⟨n, h.nodes.mem_iff.1 hn, hx⟩

theorem leastInvalid (h : m.Rearranged m') (hm : m.LeastInvalid points id x) :
    m'.LeastInvalid points id x :=
  ⟨h.invalid hm.1, fun id' x' hinvalid => hm.2 id' x' (h.symm.invalid hinvalid)⟩

/-! ## Runs -/

theorem meaning (hc : c.Faithful) (hc' : c'.Faithful) (h : c.model.Rearranged c'.model)
    {value : String → Outcome α} (hm : c.model.Meaning points value) :
    c'.model.Meaning points value := by
  intro n hn
  have hmem := h.nodes.mem_iff.2 hn
  rw [← h.sameShape.incoming_eq hc hc' hmem]
  exact hm n hmem

theorem run_error (hc : c.Faithful) (hc' : c'.Faithful) (h : c.model.Rearranged c'.model)
    (hrun : (Evaluator.ofChecked c).run points = .error e) :
    (Evaluator.ofChecked c').run points = .error e := by
  obtain ⟨id, x, rfl, hleast⟩ := (run_error_iff hc).1 hrun
  exact (run_error_iff hc').2 ⟨id, x, rfl, h.leastInvalid hleast⟩

/-- A run of the one model and a run of the other give the same outcome to every id. -/
theorem run_ok (hc : c.Faithful) (hc' : c'.Faithful) (h : c.model.Rearranged c'.model)
    (hrun : (Evaluator.ofChecked c).run points = .ok v) :
    ∃ value : String → Outcome α, v = c.model.nodes.map (fun n => value n.id) ∧
      (Evaluator.ofChecked c').run points = .ok (c'.model.nodes.map fun n => value n.id) := by
  have hv := run_stable hc hrun
  obtain ⟨value, rfl⟩ := exists_value hc hv.length
  have hp := hv.finitePoints
  have hp' : c'.model.FinitePoints points := fun n hn => hp n (h.nodes.mem_iff.2 hn)
  have hw := (stable_iff_meaning hc' hp').2 (h.meaning hc hc' ((stable_iff_meaning hc hp).1 hv))
  refine ⟨value, rfl, ?_⟩
  cases hrun' : (Evaluator.ofChecked c').run points with
  | ok w => rw [stable_unique hc' (run_stable hc' hrun') hw]
  | error e =>
    rw [h.symm.run_error hc' hc hrun'] at hrun
    exact nomatch hrun

end Model.Rearranged

/-! ## Results -/

/-- The same error, or outcomes that are alike. -/
inductive SameEnd {ε β : Type} (Same : β → β → Prop) : Except ε β → Except ε β → Prop where
  | error (e : ε) : SameEnd Same (.error e) (.error e)
  | ok {r r' : β} : Same r r' → SameEnd Same (.ok r) (.ok r')

/-- The same grade, the same values by id, and the same reason. -/
structure Evaluation.Same (r r' : Evaluation α) : Prop where
  grade : r.grade = r'.grade
  nodes : r.nodes.Perm r'.nodes
  reason : r.reason = r'.reason

/-- The same grade, and the same outcomes by id. -/
structure Preview.Same (p p' : Preview α) : Prop where
  grade : p.grade = p'.grade
  nodes : p.nodes.Perm p'.nodes

section

variable [Number α] {c c' : Checked α} {points : Points α}

omit [Number α] in
theorem zip_ids_map (m : Model α) (value : String → Outcome α) :
    m.ids.zip (m.nodes.map fun n => value n.id) = m.nodes.map fun n => (n.id, value n.id) :=
  List.zip_map'

theorem preview_sameEnd (hc : c.Faithful) (hc' : c'.Faithful) (h : c.model.Rearranged c'.model)
    (points : Points α) : SameEnd Preview.Same ((Evaluator.ofChecked c).preview points)
      ((Evaluator.ofChecked c').preview points) := by
  cases hrun : (Evaluator.ofChecked c).run points with
  | error e =>
    rw [preview_of_error hrun, preview_of_error (h.run_error hc hc' hrun)]
    exact .error e
  | ok v =>
    obtain ⟨value, rfl, hrun'⟩ := h.run_ok hc hc' hrun
    obtain ⟨s, hi, hj⟩ := h.sameNode_sink hc hc'
    rw [preview_ok_iff.2 ⟨_, hrun, rfl⟩, preview_ok_iff.2 ⟨_, hrun', rfl⟩]
    refine .ok ⟨?_, ?_⟩
    · show valueAt _ c.sink = valueAt _ c'.sink
      rw [valueAt_map (fun n : Node α => value n.id) hi,
        valueAt_map (fun n : Node α => value n.id) hj]
    · show (c.model.ids.zip _).Perm (c'.model.ids.zip _)
      rw [zip_ids_map, zip_ids_map]
      exact h.nodes.map _

theorem evaluate_sameEnd (hc : c.Faithful) (hc' : c'.Faithful) (h : c.model.Rearranged c'.model)
    (points : Points α) : SameEnd Evaluation.Same ((Evaluator.ofChecked c).evaluate points)
      ((Evaluator.ofChecked c').evaluate points) := by
  have hmissing : c.missing points = c'.missing points := by
    unfold Checked.missing
    rw [h.sameShape.requiredSources hc hc']
  by_cases hnone : c.missing points = []
  · have hnone' := hmissing ▸ hnone
    cases hrun : (Evaluator.ofChecked c).run points with
    | error e =>
      rw [evaluate_of_error hnone hrun, evaluate_of_error hnone' (h.run_error hc hc' hrun)]
      exact .error e
    | ok v =>
      obtain ⟨grade, hgrade⟩ := exists_grade hc hnone hrun
      obtain ⟨value, rfl, hrun'⟩ := h.run_ok hc hc' hrun
      obtain ⟨s, hi, hj⟩ := h.sameNode_sink hc hc'
      have hgrade' : valueAt (c'.model.nodes.map fun n => value n.id) c'.sink = grade.outcome := by
        rw [valueAt_map (fun n : Node α => value n.id) hj, ← hgrade,
          valueAt_map (fun n : Node α => value n.id) hi]
      rw [evaluate_of_run hnone hrun hgrade, evaluate_of_run hnone' hrun' hgrade']
      refine .ok ⟨rfl, ?_, ?_⟩
      · show (knownValues (c.model.ids.zip _)).Perm (knownValues (c'.model.ids.zip _))
        rw [zip_ids_map, zip_ids_map]
        exact (h.nodes.map _).filterMap _
      · exact reason_eq (h.causes hc hc' value points) grade
  · rw [evaluate_of_missing hnone, evaluate_of_missing (hmissing ▸ hnone), hmissing]
    exact .error _

end

/-! ## Top theorem -/

/-- Models that list the same nodes and the same edges are accepted together, whether warnings are
refused or not; and then they have the same schedule, the same required sources, the same sink and
the same warnings, and every set of points has the same outcome in both, or the same error. -/
theorem rearranged_same [Number α] {m m' : Model α} (h : m.Rearranged m') (strict : Bool) :
    ((∃ c, validate strict m = .ok c) ↔ ∃ c, validate strict m' = .ok c) ∧
    ∀ c c', validate strict m = .ok c → validate strict m' = .ok c' →
      c.orderIds = c'.orderIds ∧
      c.requiredSources = c'.requiredSources ∧
      c.idAt c.sink = c'.idAt c'.sink ∧
      c.warnings = c'.warnings ∧
      ∀ points : Points α,
        SameEnd Evaluation.Same ((Evaluator.ofChecked c).evaluate points)
          ((Evaluator.ofChecked c').evaluate points) ∧
        SameEnd Preview.Same ((Evaluator.ofChecked c).preview points)
          ((Evaluator.ofChecked c').preview points) := by
  refine ⟨h.accepts_iff, fun c c' hm hm' => ?_⟩
  obtain ⟨hc, rfl⟩ := faithful_of_validate hm
  obtain ⟨hc', rfl⟩ := faithful_of_validate hm'
  have hshape := h.sameShape
  refine ⟨hshape.orderIds hc hc', hshape.requiredSources hc hc', hshape.sinkId hc hc', ?_,
    fun points => ⟨evaluate_sameEnd hc hc' h points, preview_sameEnd hc hc' h points⟩⟩
  rw [warnings_of_validate hm, warnings_of_validate hm', hshape.warnings hc.wellWired]

/-- The same exam model, listed from its end. -/
def turnedModel : Model Float := ⟨examModel.nodes.reverse, examModel.edges.reverse⟩

theorem rearranged_same_exam :
    examModel.Rearranged turnedModel ∧
      validate false examModel = .ok (examModel.accepted 4) ∧
      validate false turnedModel = .ok (turnedModel.accepted 0) ∧
      (examModel.accepted 4).orderIds = (turnedModel.accepted 0).orderIds ∧
      (examModel.accepted 4).warnings = (turnedModel.accepted 0).warnings ∧
      ∃ r r', (Evaluator.ofChecked (examModel.accepted 4)).evaluate allPoints = .ok r ∧
        (Evaluator.ofChecked (turnedModel.accepted 0)).evaluate allPoints = .ok r' ∧
        r.Same r' ∧ r'.grade = .number 10 := by
  have hturned : examModel.Rearranged turnedModel :=
    ⟨(List.reverse_perm _).symm, (List.reverse_perm _).symm⟩
  have hvalid : validate false examModel = .ok (examModel.accepted 4) := rfl
  have hvalid' : validate false turnedModel = .ok (turnedModel.accepted 0) := rfl
  obtain ⟨horder, -, -, hwarnings, hends⟩ :=
    (rearranged_same hturned false).2 _ _ hvalid hvalid'
  obtain ⟨r, hr⟩ : ∃ r,
      (Evaluator.ofChecked (examModel.accepted 4)).evaluate allPoints = .ok r := ⟨_, rfl⟩
  obtain ⟨r', hr', hgrade⟩ : ∃ r',
      (Evaluator.ofChecked (turnedModel.accepted 0)).evaluate allPoints = .ok r' ∧
        r'.grade = .number 10 := ⟨_, rfl, rfl⟩
  have hend := (hends allPoints).1
  rw [hr, hr'] at hend
  obtain ⟨⟩ | ⟨hsame⟩ := hend
  exact ⟨hturned, hvalid, hvalid', horder, hwarnings, r, r', hr, hr', hsame, hgrade⟩

end Grading
