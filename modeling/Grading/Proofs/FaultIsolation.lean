import Grading.Proofs.FindingKinds
import Grading.Proofs.ReachReports
import Grading.Proofs.SearchSize
import Grading.Proofs.Wiring

/-!
# One fault does not disturb the others

An edge with an end that is no node is no link, so all checks but the one for dangling edges see
the same model with it and without it.  A node whose id is already in use is meant by no id, so it
changes no link either.  What is found about a model changes only by what is found about the edge
or the node itself:

    e has an end that is no node → with e put in among the edges, one fault is put in among the
      faults, that for e                                                   (faults_insertEdge)
    n.id ∈ m.ids → with n at the end of the nodes, one fault for the id is put in if it was used
      once before, and those of the settings of n follow those of the others   (faults_appendNode)

The nodes before `n` keep their positions, but `n` is a root of the search for circles, somewhere
among the others; that makes no difference by `Search.run_succ_circles`.
-/

namespace Grading

variable {α : Type}

namespace Model

/-! ## An edge that joins no nodes -/

section

variable {m : Model α} {before after : List Edge} {e : Edge}

theorem link?_eq_none (h : e.source ∉ m.ids ∨ e.target ∉ m.ids) : m.link? e = none := by
  rw [← Option.not_isSome_iff_eq_none, link?_isSome]
  tauto

theorem links_insertEdge (hedges : m.edges = before ++ after) (he : m.link? e = none) :
    { m with edges := before ++ e :: after }.links = m.links := by
  show (before ++ e :: after).filterMap m.link? = m.edges.filterMap m.link?
  rw [hedges, List.filterMap_append, List.filterMap_append, List.filterMap_cons_none he]

theorem danglingFaults_insertEdge (hedges : m.edges = before ++ after) (he : m.link? e = none) :
    ∃ front back, m.danglingFaults = front ++ back ∧
      { m with edges := before ++ e :: after }.danglingFaults =
        front ++ .danglingEdge e.id (m.missingEnds e) :: back := by
  refine ⟨(before.filter fun e => (m.link? e).isNone).map fun e =>
      .danglingEdge e.id (m.missingEnds e),
    (after.filter fun e => (m.link? e).isNone).map fun e =>
      .danglingEdge e.id (m.missingEnds e), ?_, ?_⟩
  · unfold danglingFaults
    rw [hedges, List.filter_append, List.map_append]
  · show ((before ++ e :: after).filter fun e => (m.link? e).isNone).map _ = _
    rw [List.filter_append, List.filter_cons_of_pos (by simp [he]), List.map_append, List.map_cons]
    rfl

/-- An edge that joins no nodes adds the fault that says so. -/
theorem faults_insertEdge [Number α] (hedges : m.edges = before ++ after)
    (he : e.source ∉ m.ids ∨ e.target ∉ m.ids) : ∃ front back,
      m.faults = front ++ back ∧ { m with edges := before ++ e :: after }.faults =
        front ++ .danglingEdge e.id (m.missingEnds e) :: back := by
  have hlink := link?_eq_none he
  have hlinks := links_insertEdge hedges hlink
  obtain ⟨front, back, hwithout, hwith⟩ := danglingFaults_insertEdge hedges hlink
  refine ⟨m.duplicateFaults ++ front, back ++ m.sinkFaults m.links ++ m.slotFaults m.links ++
    m.settingsFaults ++ m.cycleFaults m.links ++ m.reachFaults (m.contributors m.links), ?_, ?_⟩
  · unfold faults
    rw [hwithout]
    simp only [List.append_assoc]
  · unfold faults
    rw [hwith, hlinks]
    simp only [List.append_assoc, List.cons_append]
    rfl

end

/-! ## Repeated ids -/

/-- The ids that are used more than once, in ascending order. -/
def repeatedIds (m : Model α) : List String :=
  sortTexts (m.ids.filter fun id => 1 < m.ids.count id).eraseDups

theorem duplicateFaults_eq (m : Model α) :
    m.duplicateFaults = m.repeatedIds.map .duplicateNode := rfl

theorem mem_repeatedIds {m : Model α} {id : String} :
    id ∈ m.repeatedIds ↔ 1 < m.ids.count id := by
  unfold repeatedIds
  rw [mem_sortTexts, List.mem_eraseDups, List.mem_filter, decide_eq_true_eq]
  exact and_iff_right_of_imp fun h => List.count_pos_iff.1 (Nat.lt_of_succ_lt h)

theorem repeatedIds_pairwise (m : Model α) : m.repeatedIds.Pairwise (· < ·) :=
  sortTexts_pairwise_lt (nodup_eraseDups _)

/-! ## A node of an id in use -/

/-- The second model has one node more, at the end of the nodes and of an id that the first one
uses. -/
structure Repeats (m : Model α) (n : Node α) (m' : Model α) : Prop where
  nodes : m'.nodes = m.nodes ++ [n]
  edges : m'.edges = m.edges
  known : n.id ∈ m.ids

namespace Repeats

variable {m m' : Model α} {n : Node α} {i : Nat} {id : String}

/-! ### Positions and links -/

theorem length (h : Repeats m n m') : m'.nodes.length = m.nodes.length + 1 := by
  rw [h.nodes, List.length_append, List.length_singleton]

theorem ids (h : Repeats m n m') : m'.ids = m.ids ++ [n.id] := by
  unfold Model.ids
  rw [h.nodes, List.map_append]
  rfl

/-- Ids mean the nodes that they meant before. -/
theorem position? (h : Repeats m n m') (id : String) : m'.position? id = m.position? id := by
  show m'.nodes.findIdx? (fun n => n.id = id) = m.nodes.findIdx? fun n => n.id = id
  rw [h.nodes, List.findIdx?_append]
  by_cases hid : id ∈ m.ids
  · obtain ⟨i, hi⟩ := exists_position? hid
    have hi : m.nodes.findIdx? (fun n => n.id = id) = some i := hi
    rw [hi]
    rfl
  · have hn : n.id ≠ id := fun heq => hid (heq ▸ h.known)
    simp [hn]

theorem link? (h : Repeats m n m') (e : Edge) : m'.link? e = m.link? e := by
  unfold Model.link?
  rw [h.position?, h.position?]

theorem links (h : Repeats m n m') : m'.links = m.links := by
  unfold Model.links
  rw [h.edges, funext h.link?]

theorem idAt (h : Repeats m n m') (hi : i < m.nodes.length) : m'.idAt i = m.idAt i := by
  unfold Model.idAt
  rw [h.nodes, List.getElem?_append_left hi]

theorem zipIdx (h : Repeats m n m') :
    m'.nodes.zipIdx = m.nodes.zipIdx ++ [(n, m.nodes.length)] := by
  rw [h.nodes, List.zipIdx_append]
  simp

/-- The new node is not the first of its id. -/
theorem firstNodes (h : Repeats m n m') : m'.firstNodes = m.firstNodes := by
  unfold Model.firstNodes
  rw [h.zipIdx, List.filter_append]
  simp only [h.position?]
  have hnot : ¬ m.position? n.id = some m.nodes.length := fun heq =>
    Nat.lt_irrefl _ (position?_lt heq)
  rw [List.filter_cons_of_neg (by simpa using hnot), List.filter_nil, List.append_nil]

theorem sinks (h : Repeats m n m') : m'.sinks = m.sinks := by
  unfold Model.sinks
  rw [h.firstNodes]

/-! ### Ids and ends -/

theorem mem_repeatedIds (h : Repeats m n m') :
    id ∈ m'.repeatedIds ↔ id = n.id ∨ id ∈ m.repeatedIds := by
  have hknown := List.count_pos_iff.2 h.known
  rw [Model.mem_repeatedIds, Model.mem_repeatedIds, h.ids, List.count_append]
  by_cases hid : id = n.id
  · subst hid
    rw [List.count_singleton_self]
    exact iff_of_true (by omega) (.inl rfl)
  · rw [List.count_singleton, if_neg (by simpa using Ne.symm hid)]
    simp [hid]

/-- The id of the new node is a repeated one, if it was not before. -/
theorem duplicateFaults (h : Repeats m n m') : ∃ front back,
    m.duplicateFaults = front ++ back ∧ m'.duplicateFaults =
      front ++ (if m.ids.count n.id = 1 then [.duplicateNode n.id] else []) ++ back := by
  rw [duplicateFaults_eq, duplicateFaults_eq]
  by_cases hone : m.ids.count n.id = 1
  · have hnew : n.id ∉ m.repeatedIds := by
      rw [Model.mem_repeatedIds, hone]
      exact Nat.lt_irrefl 1
    obtain ⟨front, back, hwithout, hwith⟩ := exists_insertion m.repeatedIds_pairwise
      m'.repeatedIds_pairwise (fun _ => h.mem_repeatedIds) hnew
    refine ⟨front.map .duplicateNode, back.map .duplicateNode, ?_, ?_⟩
    · rw [hwithout, List.map_append]
    · rw [hwith, if_pos hone, List.map_append, List.map_cons, List.append_assoc]
      rfl
  · have hsame : m'.repeatedIds = m.repeatedIds := by
      refine m'.repeatedIds_pairwise.eq_of_mem_iff m.repeatedIds_pairwise fun id => ?_
      rw [h.mem_repeatedIds, or_iff_right_of_imp]
      rintro rfl
      have hpos := List.count_pos_iff.2 h.known
      rw [Model.mem_repeatedIds]
      omega
    refine ⟨m.repeatedIds.map .duplicateNode, [], by rw [List.append_nil], ?_⟩
    rw [hsame, if_neg hone, List.append_nil, List.append_nil]

theorem danglingFaults (h : Repeats m n m') : m'.danglingFaults = m.danglingFaults := by
  unfold Model.danglingFaults missingEnds
  rw [h.edges]
  simp only [h.link?, h.position?]

/-! ### Sinks and slots -/

theorem sinkFaults (h : Repeats m n m') : m'.sinkFaults m'.links = m.sinkFaults m.links := by
  have hids : ∀ s ∈ m.sinks, m'.idAt s = m.idAt s := fun s hs => h.idAt (sinks_lt hs)
  unfold Model.sinkFaults
  rw [h.sinks, h.links]
  split
  · rfl
  · next s hs => rw [hids s (by simp [hs])]
  · rw [List.map_congr_left hids]

theorem slotFaults (h : Repeats m n m') : m'.slotFaults m'.links = m.slotFaults m.links := by
  unfold Model.slotFaults
  rw [h.firstNodes, h.links]

/-! ### Circles -/

/-- The search goes from node to node by the same links. -/
theorem successors (h : Repeats m n m') (i : Nat) :
    ((List.range m'.nodes.length).map (Link.successors m'.links)).getD i [] =
      ((List.range m.nodes.length).map (Link.successors m.links)).getD i [] := by
  have hbeyond : ∀ {m : Model α} k, m.nodes.length ≤ k → Link.successors m.links k = [] := by
    intro m k hk
    unfold Link.successors
    rw [outOf_eq_nil hk]
    rfl
  rw [getD_range_map _ fun k => hbeyond k, getD_range_map _ fun k => hbeyond k, h.links]

/-- Without the new node, the others are roots in the order in which they were. -/
theorem positionsById (h : Repeats m n m') :
    (m'.positionsById.filter fun i => i ≠ m.nodes.length) = m.positionsById := by
  unfold Model.positionsById
  let key (p : Node α × Nat) := p.1.id
  rw [List.filter_map, filter_sortBy (keyLe_total key) (keyLe_trans key), h.zipIdx,
    List.filter_append, List.filter_eq_self.2, List.filter_cons_of_neg (by simp), List.filter_nil,
    List.append_nil]
  intro p hp
  have hlt := (List.getElem?_eq_some_iff.1 (List.mem_zipIdx_iff_getElem?.1 hp)).1
  simpa using Nat.ne_of_lt hlt

theorem circles (h : Repeats m n m') : m'.circles m'.links = m.circles m.links := by
  have hnext : ∀ i, ∀ j ∈ ((List.range m.nodes.length).map (Link.successors m.links)).getD i [],
      i < m.nodes.length ∧ j < m.nodes.length := fun i j hj => feeds_lt (mem_successorTable.1 hj)
  have hroots : ∀ i ∈ m'.positionsById, i ≤ m.nodes.length := by
    intro i hi
    have hlt := mem_positionsById.1 hi
    rw [h.length] at hlt
    exact Nat.le_of_lt_succ hlt
  unfold Model.circles
  dsimp only
  rw [funext h.successors, h.length, Search.run_succ_circles hnext hroots, h.positionsById]

theorem cycleFaults (h : Repeats m n m') : m'.cycleFaults m'.links = m.cycleFaults m.links := by
  unfold Model.cycleFaults
  rw [h.circles, h.links]
  refine List.map_congr_left fun circle hc => ?_
  have hids : circle.map m'.idAt = circle.map m.idAt := List.map_congr_left fun i hi => by
    obtain ⟨j, hj⟩ := (circle_of_mem_circles hc).exists_step hi
    exact h.idAt (feeds_lt hj).1
  rw [hids]

/-! ### Contributing nodes -/

theorem mem_contributors (h : Repeats m n m') :
    i ∈ m'.contributors m'.links ↔ i ∈ m.contributors m.links := by
  rw [Model.mem_contributors, Model.mem_contributors, h.sinks, h.links]

theorem reachFaults (h : Repeats m n m') : m'.reachFaults (m'.contributors m'.links) =
    m.reachFaults (m.contributors m.links) := by
  have hcontains : ∀ i, (m'.contributors m'.links).contains i =
      (m.contributors m.links).contains i := by
    intro i
    rw [Bool.eq_iff_iff, List.contains_iff_mem, List.contains_iff_mem, h.mem_contributors]
  unfold Model.reachFaults
  rw [h.sinks, h.firstNodes]
  simp only [hcontains]

/-! ### All checks -/

theorem settingsFaults [Number α] (h : Repeats m n m') :
    m'.settingsFaults = m.settingsFaults ++ n.settingsFaults := by
  unfold Model.settingsFaults
  rw [h.nodes, List.flatMap_append, List.flatMap_singleton]

end Repeats

/-- A node of an id in use adds the fault that says so, if there was none, and those of its
settings. -/
theorem faults_appendNode [Number α] {m m' : Model α} {n : Node α} (h : Repeats m n m') :
    ∃ front mid back, m.faults = front ++ mid ++ back ∧ m'.faults =
      front ++ (if m.ids.count n.id = 1 then [.duplicateNode n.id] else []) ++ mid ++
        n.settingsFaults ++ back := by
  obtain ⟨front, rest, hwithout, hwith⟩ := h.duplicateFaults
  refine ⟨front, rest ++ m.danglingFaults ++ m.sinkFaults m.links ++ m.slotFaults m.links ++
    m.settingsFaults, m.cycleFaults m.links ++ m.reachFaults (m.contributors m.links), ?_, ?_⟩
  · unfold faults
    rw [hwithout]
    simp only [List.append_assoc]
  · unfold faults
    dsimp only
    rw [hwith, h.danglingFaults, h.sinkFaults, h.slotFaults, h.settingsFaults, h.cycleFaults,
      h.reachFaults]
    simp only [List.append_assoc]

/-- Findings of other kinds than those that the node adds stay as they are. -/
theorem faults_filter_appendNode [Number α] {m m' : Model α} {n : Node α} (h : Repeats m n m')
    {kind : FindingKind}
    (hkind : kind ∉ [.duplicateNode, .stepperShape, .averageWeights, .invalidSettings]) :
    (m'.faults.filter fun f => f.kind = kind) = m.faults.filter fun f => f.kind = kind := by
  rw [List.mem_cons, not_or] at hkind
  obtain ⟨hduplicate, hsettings⟩ := hkind
  obtain ⟨front, mid, back, hwithout, hwith⟩ := faults_appendNode h
  have hrepeated : OfKinds [.duplicateNode]
      (if m.ids.count n.id = 1 then [.duplicateNode n.id] else [] : List (Fault α)) :=
    .ite (.singleton rfl) .nil
  rw [hwithout, hwith]
  simp only [List.filter_append, hrepeated.filter_other (mt List.mem_singleton.1 hduplicate),
    n.settingsFaults_ofKinds.filter_other hsettings, List.append_nil]

end Model

/-! ## Top theorem -/

/-- An edge that joins no nodes adds the finding that says so, wherever it is put in.  A node at the
end whose id is in use adds that the id is used more than once, unless that was found before, and
what is wrong with its own settings.  All else that is found stays as it is and where it is. -/
theorem one_fault_adds_itself [Number α] (strict : Bool) (m : Model α) :
    (∀ before e after, m.edges = before ++ after → (e.source ∉ m.ids ∨ e.target ∉ m.ids) →
      ∃ front back, findings strict m = front ++ back ∧
        findings strict { m with edges := before ++ e :: after } =
          front ++ .danglingEdge e.id (m.missingEnds e) :: back) ∧
    ∀ n, n.id ∈ m.ids →
      (∃ front mid back, findings strict m = front ++ mid ++ back ∧
        findings strict { m with nodes := m.nodes ++ [n] } =
          front ++ (if m.ids.count n.id = 1 then [.duplicateNode n.id] else []) ++ mid ++
            n.settingsFaults ++ back) ∧
      ∀ kind ∉ [.duplicateNode, .stepperShape, .averageWeights, .invalidSettings],
        ((findings strict { m with nodes := m.nodes ++ [n] }).filter fun f => f.kind = kind) =
          (findings strict m).filter fun f => f.kind = kind := by
  simp only [findings_eq]
  refine ⟨fun before e after hedges he => Model.faults_insertEdge hedges he, fun n hn => ?_⟩
  have hrepeats : m.Repeats n { m with nodes := m.nodes ++ [n] } := ⟨rfl, rfl, hn⟩
  exact ⟨Model.faults_appendNode hrepeats, fun kind => Model.faults_filter_appendNode hrepeats⟩

/-- A second node of an id, with no steps to give a value by. -/
def stuckLoop : Node Float := ⟨"loop", .stepper ⟨0, [], []⟩⟩

/-- Among circles, parallel edges and a node that leads nowhere, an edge from nowhere and a second
node of an id that was used once. -/
theorem one_fault_adds_itself_tangled :
    (tangledModel.edges = tangledModel.edges.take 3 ++ tangledModel.edges.drop 3 ∧
      "nobody" ∉ tangledModel.ids ∧
      ∃ front back, findings true tangledModel = front ++ back ∧
        findings true { tangledModel with
            edges := tangledModel.edges.take 3 ++ Edge.join "nobody" "sum" 2 ::
              tangledModel.edges.drop 3 } =
          front ++ .danglingEdge "nobody-sum:2" ["nobody"] :: back) ∧
    stuckLoop.id ∈ tangledModel.ids ∧ FindingKind.cycle ∉ [.duplicateNode, .stepperShape,
      .averageWeights, .invalidSettings] ∧
    (∃ front mid back, findings true tangledModel = front ++ mid ++ back ∧
      findings true { tangledModel with nodes := tangledModel.nodes ++ [stuckLoop] } =
        front ++ [.duplicateNode "loop"] ++ mid ++
          [.stepper "loop" .noSteps, .stepper "loop" (.middleCount 0 0)] ++ back) ∧
    ((findings true { tangledModel with nodes := tangledModel.nodes ++ [stuckLoop] }).filter
        fun f => f.kind = .cycle) =
      (findings true tangledModel).filter fun f => f.kind = .cycle := by
  have hsplit : tangledModel.edges = tangledModel.edges.take 3 ++ tangledModel.edges.drop 3 := rfl
  have hnobody : "nobody" ∉ tangledModel.ids := by decide
  have hloop : stuckLoop.id ∈ tangledModel.ids := by decide
  have hkind : FindingKind.cycle ∉ [.duplicateNode, .stepperShape, .averageWeights,
    .invalidSettings] := by decide
  obtain ⟨hedge, hnode⟩ := one_fault_adds_itself true tangledModel
  obtain ⟨hfaults, hkinds⟩ := hnode stuckLoop hloop
  exact ⟨⟨hsplit, hnobody, hedge _ (Edge.join "nobody" "sum" 2) _ hsplit (.inl hnobody)⟩, hloop,
    hkind, hfaults, hkinds .cycle hkind⟩

end Grading
