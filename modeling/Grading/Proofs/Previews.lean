import Grading.Proofs.Classification

/-!
# Previews become more precise

An outcome refines another one if it says at least as much: where the other is known, it is the
same.  Whatever the type of a node, refined inputs give a refined outcome, because a failure counts
before an unknown input and numbers come from numbers only.  So more points for the sources that
lead to a node refine what can be said about it:

    refined inputs → a refined outcome                            (Settings.Combines.refines)
    more points for the sources that lead to a node → a refined outcome    (refines_of_sources)

A preview shows the outcomes of a run by id (`preview_shows`); so it never takes back what an
earlier one, with fewer points, has said (`preview_more_precise`).
-/

namespace Grading

open Evaluator

variable {α : Type}

/-! ## Refinement -/

/-- The outcome says at least as much as the other: if that is known, it is the same. -/
def Outcome.Refines (out less : Outcome α) : Prop := less = .unknown ∨ out = less

/-- All points of the other are there, and perhaps some more. -/
def Points.Extends (more points : Points α) : Prop :=
  ∀ id x, points id = some x → more id = some x

theorem Outcome.Refines.eq {out less : Outcome α} (h : out.Refines less)
    (hknown : less ≠ .unknown) : out = less := h.resolve_left hknown

theorem Outcome.Refines.antisymm {out out' : Outcome α} (h : out.Refines out')
    (h' : out'.Refines out) : out = out' := by
  rcases h with hunknown | heq
  · rcases h' with hunknown' | heq
    · rw [hunknown, hunknown']
    · exact heq.symm
  · exact heq

variable [Number α] {c : Checked α} {m : Model α} {points more : Points α} {p q : Preview α}
variable {v w : List (Outcome α)} {i : Nat} {n : Node α} {less out : Outcome α} {id : String}

/-- A source with more points says more. -/
theorem SourceSettings.Gives.refines {s : SourceSettings α} {given given' : Option α}
    (h : s.Gives given less) (hmore : s.Gives given' out)
    (hgiven : ∀ x, given = some x → given' = some x) : out.Refines less := by
  rcases h.cases with ⟨-, hless⟩ | ⟨x, hx, hmissed, hless⟩ | ⟨x, hx, hreached, hless⟩
  · exact .inl hless
  · exact .inr (by rw [hless, hmore.missed x (hgiven x hx) hmissed])
  · exact .inr (by rw [hless, hmore.reached x (hgiven x hx) hreached])

/-- A node says more when its inputs do: a failure stays, and so do numbers. -/
theorem Settings.Combines.refines {ι : Type} {s : Settings α} {l : List ι} {f g : ι → Outcome α}
    (h : s.Combines (l.map f) less) (hmore : s.Combines (l.map g) out)
    (hinputs : ∀ a ∈ l, (g a).Refines (f a)) : out.Refines less := by
  rcases h.cases with ⟨hfail, hless⟩ | ⟨-, -, hless⟩ | ⟨xs, hxs, -⟩
  · obtain ⟨a, ha, hfa⟩ := List.mem_map.1 hfail
    have hga : g a = .fail := by
      rw [(hinputs a ha).eq (by rw [hfa]; exact fun h => nomatch h), hfa]
    exact .inr (by rw [hless, hmore.failed (List.mem_map.2 ⟨a, ha, hga⟩)])
  · exact .inl hless
  · have hsame : l.map g = l.map f := by
      refine List.map_congr_left fun a ha => (hinputs a ha).eq fun hunknown => ?_
      have hmem : f a ∈ xs.map .number := hxs ▸ List.mem_map_of_mem ha
      rw [hunknown] at hmem
      simp at hmem
    rw [hsame] at hmore
    exact .inr (hmore.unique h)

/-- More points for the sources that lead to a node refine its outcome. -/
theorem refines_of_sources (hc : c.Faithful) (hv : Stable c points v) (hw : Stable c more w)
    (hi : i < c.size) (hsources : ∀ j n, c.model.nodes[j]? = some n → n.kind = .source →
      Relation.ReflTransGen (Feeds c.model.links) j i →
        ∀ x, points n.id = some x → more n.id = some x) :
    (valueAt w i).Refines (valueAt v i) := by
  induction i using (Checked.feeds_wellFounded hc).induction with
  | _ i ih =>
    obtain ⟨n, hn⟩ := Checked.exists_node hi
    have hless := hv.gives hn
    have hmore := hw.gives hn
    by_cases hk : n.kind = .source
    · obtain ⟨s, hs⟩ := Node.kind_eq_source_iff.1 hk
      rw [Node.gives_source hs] at hless hmore
      exact hless.refines hmore (hsources i n hn hk .refl)
    · rw [Node.gives_other hk] at hless hmore
      refine hless.refines hmore fun a ha => ?_
      have hfeeds : Feeds c.model.links a.2 i :=
        (Checked.mem_inputsOf hc).1 (List.mem_map.2 ⟨a, ha, rfl⟩)
      exact ih a.2 hfeeds (Model.feeds_lt hfeeds).1
        fun j n hn hk hpath => hsources j n hn hk (hpath.tail hfeeds)

/-! ## Previews -/

/-- The preview shows the outcomes, by id. -/
structure Preview.Shows (p : Preview α) (c : Checked α) (v : List (Outcome α)) : Prop where
  grade : p.grade = valueAt v c.sink
  node? : ∀ id out, p.node? id = some out ↔
    ∃ i n, c.model.nodes[i]? = some n ∧ n.id = id ∧ valueAt v i = out

omit [Number α] in
theorem Preview.node?_eq_some_iff (hd : (p.nodes.map (·.1)).Nodup) :
    p.node? id = some out ↔ (id, out) ∈ p.nodes := find?_key_eq_some_iff hd

theorem preview_ok_iff : (Evaluator.ofChecked c).preview points = .ok p ↔
    ∃ v, (Evaluator.ofChecked c).run points = .ok v ∧
      p = { grade := valueAt v c.sink, nodes := c.model.ids.zip v } := by
  unfold preview
  cases (Evaluator.ofChecked c).run points with
  | error e => exact iff_of_false (fun h => nomatch h) (fun ⟨_, h, _⟩ => nomatch h)
  | ok v =>
    constructor
    · exact fun h => ⟨v, rfl, (Except.ok.inj h).symm⟩
    · rintro ⟨_, ⟨rfl⟩, rfl⟩
      rfl

/-- A preview that succeeds shows the outcomes of a run. -/
theorem preview_shows (hc : c.Faithful) (h : (Evaluator.ofChecked c).preview points = .ok p) :
    ∃ v, (Evaluator.ofChecked c).run points = .ok v ∧ Stable c points v ∧ p.Shows c v := by
  obtain ⟨v, hrun, rfl⟩ := preview_ok_iff.1 h
  have hv := run_stable hc hrun
  refine ⟨v, hrun, hv, rfl, fun id out => ?_⟩
  have hids : (c.model.ids.zip v).map (·.1) = c.model.ids := by
    refine List.map_fst_zip (Nat.le_of_eq ?_)
    rw [hv.length]
    exact List.length_map _
  rw [Preview.node?_eq_some_iff (by rw [hids]; exact hc.wellWired.distinctIds),
    mem_zip_ids hv.length]

omit [Number α] in
theorem Preview.Shows.node?_id (h : p.Shows c v) (hn : c.model.nodes[i]? = some n) :
    p.node? n.id = some (valueAt v i) := (h.node? _ _).2 ⟨i, n, hn, rfl, rfl⟩

/-! ## Top theorem -/

/-- With more points a preview changes only what was unknown, and points that were refused are
still refused. -/
theorem preview_more_precise {strict : Bool} (h : validate strict m = .ok c)
    (hmore : more.Extends points) :
    (∀ p q, (Evaluator.ofChecked c).preview points = .ok p →
      (Evaluator.ofChecked c).preview more = .ok q →
        (∀ n ∈ m.nodes, ∃ less out, p.node? n.id = some less ∧ q.node? n.id = some out ∧
          out.Refines less) ∧
        q.grade.Refines p.grade) ∧
    ((∃ e, (Evaluator.ofChecked c).preview points = .error e) →
      ∃ e, (Evaluator.ofChecked c).preview more = .error e) := by
  obtain ⟨hc, rfl⟩ := faithful_of_validate h
  constructor
  · intro p q hp hq
    obtain ⟨v, -, hv, hshows⟩ := preview_shows hc hp
    obtain ⟨w, -, hw, hshows'⟩ := preview_shows hc hq
    have hrefines : ∀ i < c.size, (valueAt w i).Refines (valueAt v i) :=
      fun i hi => refines_of_sources hc hv hw hi fun _ n _ _ _ => hmore n.id
    constructor
    · intro n hn
      obtain ⟨i, hi⟩ := List.getElem?_of_mem hn
      exact ⟨_, _, hshows.node?_id hi, hshows'.node?_id hi,
        hrefines i (Checked.lt_size hi)⟩
    · obtain ⟨s, -, hs⟩ := Checked.sink?_eq hc
      rw [hshows.grade, hshows'.grade]
      exact hrefines c.sink (Checked.lt_size hs)
  · rw [preview_fails_iff hc, preview_fails_iff hc]
    rintro ⟨id, x, n, hn, hid, hk, hx, hfinite⟩
    exact ⟨id, x, n, hn, hid, hk, hmore id x hx, hfinite⟩

/-- An exam that has to be passed, homework that counts with it, and a talk that does not count. -/
def examModel : Model Float where
  nodes :=
    [⟨"exam", .source ⟨some 5, .courseFail⟩⟩, ⟨"homework", .source ⟨none, .ignore⟩⟩,
      ⟨"talk", .source ⟨none, .ignore⟩⟩, ⟨"sum", .addition⟩, ⟨"grade", .sink⟩]
  edges := [Edge.join "exam" "sum" 0, Edge.join "homework" "sum" 1, Edge.join "sum" "grade" 0]

/-- Points for the exam alone. -/
def examPoints : Points Float := Points.ofList [("exam", 6)]

/-- Points for all that counts. -/
def allPoints : Points Float := Points.ofList [("exam", 6), ("homework", 4)]

theorem preview_more_precise_exam :
    validate false examModel = .ok (examModel.accepted 4) ∧ allPoints.Extends examPoints ∧
      ∃ p q, (Evaluator.ofChecked (examModel.accepted 4)).preview examPoints = .ok p ∧
        (Evaluator.ofChecked (examModel.accepted 4)).preview allPoints = .ok q ∧
        p.node? "exam" = some (.number 6) ∧ q.node? "exam" = some (.number 6) ∧
        p.grade = .unknown ∧ q.grade = .number 10 := by
  have hvalid : validate false examModel = .ok (examModel.accepted 4) := rfl
  have hmore : allPoints.Extends examPoints := by
    intro id x hx
    obtain ⟨rfl, rfl⟩ : "exam" = id ∧ 6 = x := by
      simpa [examPoints, Points.ofList, lastOf?] using hx
    rfl
  obtain ⟨p, hp, hexam, hgrade⟩ : ∃ p,
      (Evaluator.ofChecked (examModel.accepted 4)).preview examPoints = .ok p ∧
        p.node? "exam" = some (.number 6) ∧ p.grade = .unknown := ⟨_, rfl, rfl, rfl⟩
  obtain ⟨q, hq, hgrade'⟩ : ∃ q,
      (Evaluator.ofChecked (examModel.accepted 4)).preview allPoints = .ok q ∧
        q.grade = .number 10 := ⟨_, rfl, rfl⟩
  obtain ⟨less, out, hless, hout, hrefines⟩ :=
    ((preview_more_precise hvalid hmore).1 p q hp hq).1 ⟨"exam", .source ⟨some 5, .courseFail⟩⟩
      List.mem_cons_self
  obtain rfl : .number 6 = less := Option.some.inj (hexam.symm.trans hless)
  rw [hrefines.eq fun h => nomatch h] at hout
  exact ⟨hvalid, hmore, p, q, hp, hq, hexam, hout, hgrade, hgrade'⟩

end Grading
