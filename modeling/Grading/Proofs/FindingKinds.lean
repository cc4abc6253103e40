import Grading.Checked

/-!
# Which check finds what

Every check finds faults of its own kinds and of no others:

    duplicate ids                                duplicateNode
    edges with ends that are no nodes            danglingEdge
    sinks                                        sinkCount
    slots and outputs                            slotCollision, slotCompleteness
    settings                                     stepperShape, averageWeights, invalidSettings
    circles                                      cycle
    nodes that lead nowhere                      reachability

`OfKinds` says so of a list of faults and is closed under the ways in which the checks put their
lists together.  Picking the faults of one kind out of all faults gives what its check finds
(`faults_filter_cycle`, `faults_filter_reachability`).
-/

namespace Grading

variable {α : Type} {kinds : List FindingKind} {kind : FindingKind}

/-- All faults are of one of the kinds. -/
def OfKinds (kinds : List FindingKind) (faults : List (Fault α)) : Prop :=
  ∀ f ∈ faults, f.kind ∈ kinds

namespace OfKinds

variable {l k : List (Fault α)}

theorem nil : OfKinds kinds ([] : List (Fault α)) := fun _ h => absurd h List.not_mem_nil

theorem singleton {f : Fault α} (h : f.kind = kind) : OfKinds [kind] [f] := by
  intro g hg
  rw [List.mem_singleton.1 hg, h]
  exact List.mem_singleton_self kind

theorem append (hl : OfKinds kinds l) (hk : OfKinds kinds k) : OfKinds kinds (l ++ k) := by
  intro f hf
  rcases List.mem_append.1 hf with hf | hf
  · exact hl f hf
  · exact hk f hf

theorem map {β : Type} {g : β → Fault α} (kind : FindingKind) (h : ∀ b, (g b).kind = kind)
    (l : List β) : OfKinds [kind] (l.map g) := by
  intro f hf
  obtain ⟨b, -, rfl⟩ := List.mem_map.1 hf
  exact List.mem_singleton.2 (h b)

theorem flatMap {β : Type} {g : β → List (Fault α)} (h : ∀ b, OfKinds kinds (g b))
    (l : List β) : OfKinds kinds (l.flatMap g) := by
  intro f hf
  obtain ⟨b, -, hf⟩ := List.mem_flatMap.1 hf
  exact h b f hf

theorem ite {p : Prop} [Decidable p] (hl : OfKinds kinds l) (hk : OfKinds kinds k) :
    OfKinds kinds (if p then l else k) := by
  by_cases h : p
  · rwa [if_pos h]
  · rwa [if_neg h]

theorem mono {more : List FindingKind} (h : OfKinds kinds l) (hsub : kinds ⊆ more) :
    OfKinds more l := fun f hf => hsub (h f hf)

/-- Of faults of one kind, picking that kind leaves out none. -/
theorem filter_self (h : OfKinds [kind] l) : (l.filter fun f => f.kind = kind) = l :=
  List.filter_eq_self.2 fun f hf => decide_eq_true (List.mem_singleton.1 (h f hf))

/-- Of faults of other kinds, picking a kind leaves none. -/
theorem filter_other (h : OfKinds kinds l) (hkind : kind ∉ kinds) :
    (l.filter fun f => f.kind = kind) = [] := by
  refine List.filter_eq_nil_iff.2 fun f hf heq => hkind ?_
  exact of_decide_eq_true heq ▸ h f hf

end OfKinds

/-! ## Check by check -/

theorem duplicateFaults_ofKinds (m : Model α) : OfKinds [.duplicateNode] m.duplicateFaults :=
  .map .duplicateNode (fun _ => rfl) _

theorem danglingFaults_ofKinds (m : Model α) : OfKinds [.danglingEdge] m.danglingFaults :=
  .map .danglingEdge (fun _ => rfl) _

theorem sinkFaults_ofKinds (m : Model α) (links : List Link) :
    OfKinds [.sinkCount] (m.sinkFaults links) := by
  unfold Model.sinkFaults
  split
  · exact .singleton rfl
  · exact .ite .nil (.singleton rfl)
  · exact .singleton rfl

theorem outputFaults_ofKinds (links : List Link) :
    OfKinds [.slotCompleteness] (outputFaults links : List (Fault α)) :=
  .map .slotCompleteness (fun _ => rfl) _

theorem collisionFaults_ofKinds (node : String) (wiring : List (Slot × List Edge)) :
    OfKinds [.slotCollision] (collisionFaults node wiring : List (Fault α)) :=
  .map .slotCollision (fun _ => rfl) _

theorem singleInputFaults_ofKinds (kind : Kind) (node : String)
    (wiring : List (Slot × List Edge)) :
    OfKinds [.slotCompleteness] (singleInputFaults kind node wiring : List (Fault α)) :=
  .append (.map .slotCompleteness (fun _ => rfl) _)
    (.ite (.singleton rfl) .nil)

theorem arityFaults_ofKinds (n : Node α) (wiring : List (Slot × List Edge)) :
    OfKinds [.slotCompleteness] (arityFaults n wiring) := by
  unfold arityFaults
  cases n.settings with
  | source s => exact .ite .nil (.singleton rfl)
  | addition => exact .ite (.singleton rfl) .nil
  | max minValue => exact .ite (.singleton rfl) .nil
  | average s =>
    exact .append (.map .slotCompleteness (fun _ => rfl) _)
      (.map .slotCompleteness (fun _ => rfl) _)
  | stepper s => exact singleInputFaults_ofKinds _ _ _
  | minPoints s => exact singleInputFaults_ofKinds _ _ _
  | round mode => exact singleInputFaults_ofKinds _ _ _
  | sink => exact singleInputFaults_ofKinds _ _ _

theorem slotFaults_ofKinds (m : Model α) (links : List Link) :
    OfKinds [.slotCollision, .slotCompleteness] (m.slotFaults links) :=
  .append ((outputFaults_ofKinds links).mono (by simp))
    (.flatMap (fun _ => .append ((collisionFaults_ofKinds _ _).mono (by simp))
      ((arityFaults_ofKinds _ _).mono (by simp))) _)

theorem cycleFaults_ofKinds (m : Model α) (links : List Link) :
    OfKinds [.cycle] (m.cycleFaults links) := .map .cycle (fun _ => rfl) _

theorem reachFaults_ofKinds (m : Model α) (contributors : List Nat) :
    OfKinds [.reachability] (m.reachFaults contributors) := by
  unfold Model.reachFaults
  split
  · exact .nil
  · exact .map .reachability (fun _ => rfl) _

section

variable [Number α]

theorem limitFaults_ofKinds (limit : Limit) (node : String) (x : α) :
    OfKinds [.invalidSettings] (limitFaults limit node x) :=
  .ite .nil (.singleton rfl)

theorem weightFaults_ofKinds (node : String) (s : AverageSettings α) :
    OfKinds [.averageWeights] (s.weightFaults node) :=
  .append (.map .averageWeights (fun _ => rfl) _)
    (.ite .nil (.singleton rfl))

theorem Node.settingsFaults_ofKinds (n : Node α) :
    OfKinds [.stepperShape, .averageWeights, .invalidSettings] n.settingsFaults := by
  unfold Node.settingsFaults
  cases n.settings with
  | source s => exact .flatMap (fun _ => (limitFaults_ofKinds _ _ _).mono (by simp)) _
  | average s => exact (weightFaults_ofKinds _ s).mono (by simp)
  | stepper s => exact (OfKinds.map .stepperShape (fun _ => rfl) _).mono (by simp)
  | minPoints s => exact (limitFaults_ofKinds _ _ _).mono (by simp)
  | max minValue => exact (limitFaults_ofKinds _ _ _).mono (by simp)
  | addition => exact .nil
  | round mode => exact .nil
  | sink => exact .nil

theorem settingsFaults_ofKinds (m : Model α) :
    OfKinds [.stepperShape, .averageWeights, .invalidSettings] m.settingsFaults :=
  .flatMap Node.settingsFaults_ofKinds _

/-- Picking a kind out of all faults is picking it out of those of each check. -/
theorem faults_filter (m : Model α) (kind : FindingKind) :
    (m.faults.filter fun f => f.kind = kind) =
      (m.duplicateFaults.filter fun f => f.kind = kind) ++
      (m.danglingFaults.filter fun f => f.kind = kind) ++
      ((m.sinkFaults m.links).filter fun f => f.kind = kind) ++
      ((m.slotFaults m.links).filter fun f => f.kind = kind) ++
      (m.settingsFaults.filter fun f => f.kind = kind) ++
      ((m.cycleFaults m.links).filter fun f => f.kind = kind) ++
      ((m.reachFaults (m.contributors m.links)).filter fun f => f.kind = kind) := by
  unfold Model.faults
  simp only [List.filter_append]

/-- The faults of the kind of circles are what the search for circles reports. -/
theorem faults_filter_cycle (m : Model α) :
    (m.faults.filter fun f => f.kind = .cycle) = m.cycleFaults m.links := by
  rw [faults_filter, (duplicateFaults_ofKinds m).filter_other (by decide),
    (danglingFaults_ofKinds m).filter_other (by decide),
    (sinkFaults_ofKinds m m.links).filter_other (by decide),
    (slotFaults_ofKinds m m.links).filter_other (by decide),
    (settingsFaults_ofKinds m).filter_other (by decide),
    (cycleFaults_ofKinds m m.links).filter_self,
    (reachFaults_ofKinds m (m.contributors m.links)).filter_other (by decide)]
  simp

/-- The faults of the kind of reachability are what the search for contributing nodes reports. -/
theorem faults_filter_reachability (m : Model α) :
    (m.faults.filter fun f => f.kind = .reachability) =
      m.reachFaults (m.contributors m.links) := by
  rw [faults_filter, (duplicateFaults_ofKinds m).filter_other (by decide),
    (danglingFaults_ofKinds m).filter_other (by decide),
    (sinkFaults_ofKinds m m.links).filter_other (by decide),
    (slotFaults_ofKinds m m.links).filter_other (by decide),
    (settingsFaults_ofKinds m).filter_other (by decide),
    (cycleFaults_ofKinds m m.links).filter_other (by decide),
    (reachFaults_ofKinds m (m.contributors m.links)).filter_self]
  simp

/-! ## Findings -/

/-- All that is found about a model, whether it is accepted or not. -/
def findings (strict : Bool) (m : Model α) : List (Fault α) :=
  match validate strict m with
  | .error faults => faults
  | .ok c => c.warnings

/-- What is found does not depend on what is accepted. -/
theorem findings_eq (strict : Bool) (m : Model α) : findings strict m = m.faults := by
  unfold findings validate
  by_cases hany : (m.faults.any fun f => strict || !f.isWarning) = true
  · simp only [if_pos hany]
  · simp only [if_neg hany]
    split
    · next faults hfaults =>
      split at hfaults
      · cases hfaults
      · exact (Except.error.inj hfaults).symm
    · next c hc =>
      split at hc
      · rw [← Except.ok.inj hc]
      · cases hc

end

end Grading
