import Grading.Proofs.Dataflow

/-!
# Where failures begin

A failure begins at a source whose points miss its minimum and at a gate whose input does, and
from there it spreads along all links.  `Model.Origin` says the first by ids, as a cause: the
node, what was compared and with what.  `Checked.OriginAt` says the same of a position.

    an outcome failed ↔ an origin is there, or an input failed                 (fail_iff)
    a failure spreads along a path                                             (fail_of_leads)
    an outcome failed → an origin leads to it                              (exists_originAt)
-/

namespace Grading

open Evaluator

variable {α : Type} [Number α]

/-! ## Origins -/

/-- The causes with which failures begin, where `number` says which node has which number. -/
inductive Model.Origin (m : Model α) (points : Points α) (number : String → α → Prop) :
    Cause α → Prop where
  /-- A source with points below its minimum. -/
  | source {n : Node α} {s : SourceSettings α} {x least : α} : n ∈ m.nodes →
      n.settings = .source s → points n.id = some x → s.minPoints = some least →
      s.onFail = .courseFail → Number.lt x least = true →
      Origin m points number ⟨n.id, .source, x, least⟩
  /-- A gate with an input below its minimum. -/
  | gate {n : Node α} {s : GateSettings α} {e : Edge} {x : α} : n ∈ m.nodes →
      n.settings = .minPoints s → e ∈ m.edges → e.target = n.id → number e.source x →
      s.onFail = .courseFail → Number.lt x s.minPoints = true →
      Origin m points number ⟨n.id, .minPoints, x, s.minPoints⟩

/-- The origin at a position. -/
inductive Checked.OriginAt (c : Checked α) (points : Points α) (v : List (Outcome α)) (i : Nat) :
    Cause α → Prop where
  | source {n : Node α} {s : SourceSettings α} {x least : α} : c.model.nodes[i]? = some n →
      n.settings = .source s → points n.id = some x → s.minPoints = some least →
      s.onFail = .courseFail → Number.lt x least = true →
      OriginAt c points v i ⟨n.id, .source, x, least⟩
  | gate {n : Node α} {s : GateSettings α} {j : Nat} {x : α} : c.model.nodes[i]? = some n →
      n.settings = .minPoints s → Feeds c.model.links j i → valueAt v j = .number x →
      s.onFail = .courseFail → Number.lt x s.minPoints = true →
      OriginAt c points v i ⟨n.id, .minPoints, x, s.minPoints⟩

variable {c : Checked α} {points : Points α} {v : List (Outcome α)} {i j : Nat} {n : Node α}
variable {k : Cause α}

theorem Model.Origin.lt {m : Model α} {number : String → α → Prop}
    (h : m.Origin points number k) : Number.lt k.value k.minPoints = true := by
  cases h with
  | source _ _ _ _ _ hlt => exact hlt
  | gate _ _ _ _ _ _ hlt => exact hlt

theorem Checked.OriginAt.node_eq (h : c.OriginAt points v i k) : k.node = c.idAt i := by
  cases h with
  | source hn => exact (Model.idAt_eq hn).symm
  | gate hn => exact (Model.idAt_eq hn).symm

theorem Checked.OriginAt.lt_size (h : c.OriginAt points v i k) : i < c.size := by
  cases h with
  | source hn => exact (List.getElem?_eq_some_iff.1 hn).1
  | gate hn => exact (List.getElem?_eq_some_iff.1 hn).1

theorem contributes_node_iff (hc : c.Faithful) (hk : c.OriginAt points v i k) :
    c.model.Contributes k.node ↔ Relation.ReflTransGen (Feeds c.model.links) i c.sink := by
  obtain ⟨n, hn⟩ := Checked.exists_node hk.lt_size
  rw [hk.node_eq, Checked.idAt_eq hn, Checked.contributes_iff_leads hc hn]

/-- Origins by id are origins at positions. -/
theorem origin_iff (hc : c.Faithful) {number : String → α → Prop}
    (hnumber : ∀ id x, number id x ↔
      ∃ j n, c.model.nodes[j]? = some n ∧ n.id = id ∧ valueAt v j = .number x) :
    c.model.Origin points number k ↔ ∃ i, c.OriginAt points v i k := by
  have hd := hc.wellWired.distinctIds
  constructor
  · rintro (⟨hn, hs, hp, hleast, hfail, hlt⟩ | ⟨hn, hs, he, htarget, hx, hfail, hlt⟩)
    · obtain ⟨i, hi⟩ := List.getElem?_of_mem hn
      exact ⟨i, .source hi hs hp hleast hfail hlt⟩
    · obtain ⟨i, hi⟩ := List.getElem?_of_mem hn
      obtain ⟨j, n', hj, hid, hvalue⟩ := (hnumber _ _).1 hx
      refine ⟨i, .gate hi hs ⟨⟨j, i, _⟩, Model.mem_links.2 ⟨he, ?_, ?_⟩, rfl, rfl⟩ hvalue hfail hlt⟩
      · rw [← hid]
        exact Model.position?_of_nodup hd hj
      · rw [htarget]
        exact Model.position?_of_nodup hd hi
  · rintro ⟨i, ⟨hi, hs, hp, hleast, hfail, hlt⟩ | ⟨hi, hs, hfeeds, hx, hfail, hlt⟩⟩
    · exact .source (List.mem_of_getElem? hi) hs hp hleast hfail hlt
    · obtain ⟨l, hl, rfl, rfl⟩ := hfeeds
      obtain ⟨he, hsource, htarget⟩ := Model.mem_links.1 hl
      obtain ⟨n', hn', hid, -⟩ := Model.position?_eq_some.1 hsource
      refine .gate (List.mem_of_getElem? hi) hs he ?_ ((hnumber _ _).2 ⟨_, n', hn', hid, hx⟩)
        hfail hlt
      rw [← Model.idAt_position? htarget, Model.idAt_eq hi]

/-! ## Rules that fail -/

/-- Of the rules for numbers only those with a minimum can fail. -/
theorem applyTo_ne_fail {s : Settings α} {xs : List α} (hsource : ∀ s', s ≠ .source s')
    (hgate : ∀ s', s ≠ .minPoints s') : s.applyTo xs ≠ .fail := by
  cases s with
  | source s => exact absurd rfl (hsource s)
  | minPoints s => exact absurd rfl (hgate s)
  | _ => exact fun h => nomatch h

/-! ## Failed outcomes -/

omit [Number α] in
/-- One node leads into a gate. -/
theorem gate_inputsOf {s : GateSettings α} (hc : c.Faithful) (hn : c.model.nodes[i]? = some n)
    (hs : n.settings = .minPoints s) : ∃ j, c.inputsOf i = [(0, j)] := by
  have htakes := hc.wellWired.takes n (List.mem_of_getElem? hn)
  rw [hs] at htakes
  exact Checked.inputsOf_single hc hn htakes

omit [Number α] in
theorem gate_inputsOf_of_feeds {s : GateSettings α} (hc : c.Faithful)
    (hn : c.model.nodes[i]? = some n) (hs : n.settings = .minPoints s)
    (h : Feeds c.model.links j i) : c.inputsOf i = [(0, j)] := by
  obtain ⟨j', hinputs⟩ := gate_inputsOf hc hn hs
  have hj : j = j' := by simpa [hinputs] using (Checked.mem_inputsOf hc).2 h
  rw [hinputs, hj]

omit [Number α] in
theorem kind_ne_source {s : GateSettings α} (hs : n.settings = .minPoints s) :
    n.kind ≠ .source := by
  unfold Node.kind Settings.kind
  rw [hs]
  exact fun h => nomatch h

theorem fail_of_originAt (hc : c.Faithful) (hv : Stable c points v) (h : c.OriginAt points v i k) :
    valueAt v i = .fail := by
  cases h with
  | source hn hs hp hleast hfail hlt =>
    exact ((Node.gives_source hs).1 (hv.gives hn)).missed _ hp ⟨_, hleast, hfail, hlt⟩
  | @gate n s j x hn hs hfeeds hx hfail hlt =>
    have hgives := (Node.gives_other (kind_ne_source hs)).1 (hv.gives hn)
    have houtcomes : inputOutcomes c v i = [x].map .number := by
      unfold inputOutcomes
      rw [gate_inputsOf_of_feeds hc hn hs hfeeds, List.map_singleton, List.map_singleton, hx]
    rw [hgives.known [x] houtcomes, evaluate_numbers, hs]
    show (requirePoints x (some s.minPoints) s.onFail).outcome = .fail
    rw [requirePoints_of_missed ⟨_, rfl, hfail, hlt⟩]
    rfl

theorem fail_of_feeds (hc : c.Faithful) (hv : Stable c points v) (h : Feeds c.model.links j i)
    (hj : valueAt v j = .fail) : valueAt v i = .fail := by
  obtain ⟨n, hn⟩ := Checked.exists_node (Model.feeds_lt h).2
  have hk : n.kind ≠ .source := fun hk => Checked.not_feeds_source hc hn hk j h
  exact ((Node.gives_other hk).1 (hv.gives hn)).failed ((mem_inputOutcomes hc).2 ⟨j, h, hj⟩)

/-- Failures spread along paths. -/
theorem fail_of_leads (hc : c.Faithful) (hv : Stable c points v)
    (h : Relation.ReflTransGen (Feeds c.model.links) j i) (hj : valueAt v j = .fail) :
    valueAt v i = .fail := by
  induction h with
  | refl => exact hj
  | tail _ hfeeds ih => exact fail_of_feeds hc hv hfeeds ih

/-- A failure without failed inputs begins where it is. -/
theorem originAt_of_fail (hc : c.Faithful) (hv : Stable c points v)
    (hn : c.model.nodes[i]? = some n) (hfail : valueAt v i = .fail)
    (hinputs : .fail ∉ inputOutcomes c v i) : ∃ k, c.OriginAt points v i k := by
  have hgives := hv.gives hn
  by_cases hk : n.kind = .source
  · obtain ⟨s, hs⟩ := Node.kind_eq_source_iff.1 hk
    rw [Node.gives_source hs, hfail] at hgives
    rcases hgives.cases with ⟨-, hout⟩ | ⟨x, hp, hmissed, -⟩ | ⟨x, -, -, hout⟩
    · exact nomatch hout
    · obtain ⟨least, hleast, hpolicy, hlt⟩ := hmissed
      exact ⟨_, .source hn hs hp hleast hpolicy hlt⟩
    · exact nomatch hout
  · rw [Node.gives_other hk, hfail] at hgives
    rcases hgives.cases with ⟨hmem, -⟩ | ⟨-, -, hout⟩ | ⟨xs, hxs, hout⟩
    · exact absurd hmem hinputs
    · exact nomatch hout
    · have happly : n.settings.applyTo xs = .fail := by
        cases happly : n.settings.applyTo xs with
        | fail => rfl
        | number y =>
          rw [happly] at hout
          exact nomatch hout
      have hgate : ∃ s, n.settings = .minPoints s := by
        by_contra hnone
        refine applyTo_ne_fail (fun s hs => ?_) (fun s hs => hnone ⟨s, hs⟩) happly
        exact hk (Node.kind_eq_source_iff.2 ⟨s, hs⟩)
      obtain ⟨s, hs⟩ := hgate
      obtain ⟨j, hj⟩ := gate_inputsOf hc hn hs
      -- The one input of the gate is the number that it compares.
      unfold inputOutcomes at hxs
      rw [hj] at hxs
      obtain ⟨x, rfl⟩ : ∃ x, xs = [x] :=
        List.length_eq_one_iff.1 (by simpa using (congrArg List.length hxs).symm)
      have hx : valueAt v j = .number x := List.head_eq_of_cons_eq hxs
      rw [hs] at happly
      have hmissed : requirePoints x (some s.minPoints) s.onFail = .fail := happly
      obtain ⟨least, hleast, hpolicy, hlt⟩ := requirePoints_eq_fail_iff.1 hmissed
      obtain rfl := Option.some.inj hleast
      refine ⟨_, .gate hn hs ((Checked.mem_inputsOf hc).1 ?_) hx hpolicy hlt⟩
      rw [hj]
      exact List.mem_cons_self

theorem fail_iff (hc : c.Faithful) (hv : Stable c points v) (hi : i < c.size) :
    valueAt v i = .fail ↔ (∃ k, c.OriginAt points v i k) ∨
      ∃ j, Feeds c.model.links j i ∧ valueAt v j = .fail := by
  constructor
  · intro hfail
    obtain ⟨n, hn⟩ := Checked.exists_node hi
    by_cases hinputs : .fail ∈ inputOutcomes c v i
    · exact .inr ((mem_inputOutcomes hc).1 hinputs)
    · exact .inl (originAt_of_fail hc hv hn hfail hinputs)
  · rintro (⟨k, hk⟩ | ⟨j, hj, hfail⟩)
    · exact fail_of_originAt hc hv hk
    · exact fail_of_feeds hc hv hj hfail

/-- Behind every failure there is an origin. -/
theorem exists_originAt (hc : c.Faithful) (hv : Stable c points v) (hi : i < c.size)
    (hfail : valueAt v i = .fail) : ∃ j k, c.OriginAt points v j k ∧
      Relation.ReflTransGen (Feeds c.model.links) j i := by
  induction i using (Checked.feeds_wellFounded hc).induction with
  | _ i ih =>
    rcases (fail_iff hc hv hi).1 hfail with ⟨k, hk⟩ | ⟨j, hfeeds, hj⟩
    · exact ⟨i, k, hk, .refl⟩
    · obtain ⟨j', k, hk, hleads⟩ := ih j hfeeds (Model.feeds_lt hfeeds).1 hj
      exact ⟨j', k, hk, hleads.tail hfeeds⟩

end Grading
