import Grading.Proofs.Origins
import Grading.Proofs.Previews

/-!
# Failures and gaps spread along paths

What a node gives out in a preview is a matter of paths alone.  A failure spreads from its origin
to everything that the origin leads to.  Nothing but a number makes a number, so whatever a source
without points leads to is no number, and where no failure arrives it is unknown:

    an outcome failed ↔ an origin leads to it                                   (fail_iff_leads)
    an outcome is unknown ↔ no origin, but a source without points leads to it  (unknown_iff_leads)
    an outcome is a number ↔ no origin and no source without points lead to it  (number_iff_leads)
    an outcome depends only on the points for the sources that lead to it       (valueAt_congr)

`Model.Failing` and `Model.Lacking` say the same by ids, for `preview_propagates`.
-/

namespace Grading

open Evaluator

variable {α : Type} [Number α] {c : Checked α} {m : Model α} {points other : Points α}
variable {v w : List (Outcome α)} {i j : Nat} {n : Node α} {p : Preview α} {id : String}

/-! ## Numbers -/

/-- A number at a node comes from numbers at all its inputs. -/
theorem number_of_feeds (hc : c.Faithful) (hv : Stable c points v)
    (h : Feeds c.model.links j i) (hi : ∃ x, valueAt v i = .number x) :
    ∃ y, valueAt v j = .number y := by
  obtain ⟨x, hx⟩ := hi
  obtain ⟨n, hn⟩ := Checked.exists_node (Model.feeds_lt h).2
  have hk : n.kind ≠ .source := fun hk => Checked.not_feeds_source hc hn hk j h
  have hgives := (Node.gives_other hk).1 (hv.gives hn)
  rw [hx] at hgives
  rcases hgives.cases with ⟨-, hout⟩ | ⟨-, -, hout⟩ | ⟨ys, hys, -⟩
  · exact nomatch hout
  · exact nomatch hout
  · have hmem : valueAt v j ∈ inputOutcomes c v i := (mem_inputOutcomes hc).2 ⟨j, h, rfl⟩
    rw [hys] at hmem
    obtain ⟨y, -, hy⟩ := List.mem_map.1 hmem
    exact ⟨y, hy.symm⟩

theorem number_of_leads (hc : c.Faithful) (hv : Stable c points v)
    (h : Relation.ReflTransGen (Feeds c.model.links) j i) (hi : ∃ x, valueAt v i = .number x) :
    ∃ y, valueAt v j = .number y := by
  induction h with
  | refl => exact hi
  | tail _ hfeeds ih => exact ih (number_of_feeds hc hv hfeeds hi)

/-! ## Failures and gaps -/

/-- An outcome failed if and only if an origin leads to it. -/
theorem fail_iff_leads (hc : c.Faithful) (hv : Stable c points v) (hi : i < c.size) :
    valueAt v i = .fail ↔ ∃ j k, c.OriginAt points v j k ∧
      Relation.ReflTransGen (Feeds c.model.links) j i := by
  constructor
  · exact exists_originAt hc hv hi
  · rintro ⟨j, k, hk, hleads⟩
    exact fail_of_leads hc hv hleads (fail_of_originAt hc hv hk)

/-- A source without points leads to the node. -/
def Checked.LackingAt (c : Checked α) (points : Points α) (i : Nat) : Prop :=
  ∃ j n, c.model.nodes[j]? = some n ∧ n.kind = .source ∧ points n.id = none ∧
    Relation.ReflTransGen (Feeds c.model.links) j i

/-- Whatever a source without points leads to is no number. -/
theorem not_number_of_lacking (hc : c.Faithful) (hv : Stable c points v)
    (h : c.LackingAt points i) : ¬ ∃ x, valueAt v i = .number x := by
  intro hi
  obtain ⟨j, n, hn, hk, hp, hleads⟩ := h
  obtain ⟨s, hs⟩ := Node.kind_eq_source_iff.1 hk
  obtain ⟨y, hy⟩ := number_of_leads hc hv hleads hi
  have hunknown := ((Node.gives_source hs).1 (hv.gives hn)).absent hp
  rw [hy] at hunknown
  exact nomatch hunknown

/-- An outcome is unknown if and only if it did not fail and a source without points leads to
it. -/
theorem unknown_iff_leads (hc : c.Faithful) (hv : Stable c points v) (hi : i < c.size) :
    valueAt v i = .unknown ↔ valueAt v i ≠ .fail ∧ c.LackingAt points i := by
  constructor
  · intro hunknown
    refine ⟨fun hfail => ?_, exists_absent hc hv hi hunknown⟩
    rw [hunknown] at hfail
    exact nomatch hfail
  · rintro ⟨hfail, hlacking⟩
    cases hvalue : valueAt v i with
    | number x => exact absurd ⟨x, hvalue⟩ (not_number_of_lacking hc hv hlacking)
    | fail => exact absurd hvalue hfail
    | unknown => rfl

theorem number_iff_leads (hc : c.Faithful) (hv : Stable c points v) (hi : i < c.size) :
    (∃ x, valueAt v i = .number x) ↔ valueAt v i ≠ .fail ∧ ¬ c.LackingAt points i := by
  constructor
  · rintro ⟨x, hx⟩
    refine ⟨fun hfail => ?_, fun hlacking => not_number_of_lacking hc hv hlacking ⟨x, hx⟩⟩
    rw [hx] at hfail
    exact nomatch hfail
  · rintro ⟨hfail, hlacking⟩
    cases hvalue : valueAt v i with
    | number x => exact ⟨x, rfl⟩
    | fail => exact absurd hvalue hfail
    | unknown => exact absurd (exists_absent hc hv hi hvalue) hlacking

/-- An outcome depends only on the points for the sources that lead to it. -/
theorem valueAt_congr (hc : c.Faithful) (hv : Stable c points v) (hw : Stable c other w)
    (hi : i < c.size) (hsources : ∀ j n, c.model.nodes[j]? = some n → n.kind = .source →
      Relation.ReflTransGen (Feeds c.model.links) j i → other n.id = points n.id) :
    valueAt w i = valueAt v i := by
  have hmore := refines_of_sources hc hv hw hi fun j n hn hk hleads x hx => by
    rw [hsources j n hn hk hleads, hx]
  have hless := refines_of_sources hc hw hv hi fun j n hn hk hleads x hx => by
    rw [← hsources j n hn hk hleads, hx]
  exact hmore.antisymm hless

/-! ## By ids -/

/-- A failure begins somewhere from where a path leads to the id. -/
def Model.Failing (m : Model α) (points : Points α) (p : Preview α) (id : String) : Prop :=
  ∃ k, m.Origin points (fun id x => p.node? id = some (.number x)) k ∧ Leads m.edges k.node id

/-- A source without points leads to the id. -/
def Model.Lacking (m : Model α) (points : Points α) (id : String) : Prop :=
  ∃ n ∈ m.nodes, n.kind = .source ∧ points n.id = none ∧ Leads m.edges n.id id

/-- The points for the sources that lead to the id are the same. -/
def Model.AgreeBefore (m : Model α) (points other : Points α) (id : String) : Prop :=
  ∀ n ∈ m.nodes, n.kind = .source → Leads m.edges n.id id → other n.id = points n.id

theorem failing_iff (hc : c.Faithful) (hv : Stable c points v) (hp : p.Shows c v)
    (hn : c.model.nodes[i]? = some n) :
    c.model.Failing points p n.id ↔ valueAt v i = .fail := by
  have hi : i < c.size := Checked.lt_size hn
  rw [fail_iff_leads hc hv hi, ← Checked.idAt_eq hn]
  unfold Model.Failing
  constructor
  · rintro ⟨k, horigin, hleads⟩
    obtain ⟨j, hk⟩ := (origin_iff hc fun id x => hp.node? id (.number x)).1 horigin
    rw [hk.node_eq] at hleads
    exact ⟨j, k, hk, (Checked.leads_idAt hc hk.lt_size hi).1 hleads⟩
  · rintro ⟨j, k, hk, hleads⟩
    refine ⟨k, (origin_iff hc fun id x => hp.node? id (.number x)).2 ⟨j, hk⟩, ?_⟩
    rw [hk.node_eq]
    exact Model.leads_of_feeds hleads

omit [Number α] in
theorem lacking_iff (hc : c.Faithful) (hn : c.model.nodes[i]? = some n) :
    c.model.Lacking points n.id ↔ c.LackingAt points i := by
  have hi : i < c.size := Checked.lt_size hn
  rw [← Checked.idAt_eq hn]
  constructor
  · rintro ⟨s, hs, hk, hp, hleads⟩
    obtain ⟨j, hj⟩ := List.getElem?_of_mem hs
    rw [← Checked.idAt_eq hj] at hleads
    exact ⟨j, s, hj, hk, hp,
      (Checked.leads_idAt hc (Checked.lt_size hj) hi).1 hleads⟩
  · rintro ⟨j, s, hj, hk, hp, hleads⟩
    refine ⟨s, List.mem_of_getElem? hj, hk, hp, ?_⟩
    rw [← Checked.idAt_eq hj]
    exact Model.leads_of_feeds hleads

theorem valueAt_of_agree (hc : c.Faithful) (hv : Stable c points v) (hw : Stable c other w)
    (hn : c.model.nodes[i]? = some n) (h : c.model.AgreeBefore points other n.id) :
    valueAt w i = valueAt v i := by
  refine valueAt_congr hc hv hw (Checked.lt_size hn) fun j s hs hk hleads => ?_
  refine h s (List.mem_of_getElem? hs) hk ?_
  rw [← Checked.idAt_eq hs, ← Checked.idAt_eq hn]
  exact Model.leads_of_feeds hleads

/-- An origin that contributes fails the grade, whatever the points for the sources that do not
lead to it are. -/
theorem fail_of_origin (hc : c.Faithful) (hv : Stable c points v) (hw : Stable c other w)
    {k : Cause α} (hk : c.OriginAt points v i k) (hcontributes : c.model.Contributes k.node)
    (hagree : c.model.AgreeBefore points other k.node) : valueAt w c.sink = .fail := by
  obtain ⟨n, hn⟩ := Checked.exists_node hk.lt_size
  rw [hk.node_eq, Checked.idAt_eq hn] at hagree
  refine fail_of_leads hc hw ((contributes_node_iff hc hk).1 hcontributes) ?_
  rw [valueAt_of_agree hc hv hw hn hagree, fail_of_originAt hc hv hk]

/-! ## Top theorem -/

/-- What a preview says of a node follows from the origins and the sources without points that
lead to it.  A requirement that is not met fails the grade, and a node keeps its outcome, whatever
the points for the sources elsewhere are. -/
theorem preview_propagates {strict : Bool} (h : validate strict m = .ok c)
    (hp : (Evaluator.ofChecked c).preview points = .ok p) :
    (∀ n ∈ m.nodes, ∃ out, p.node? n.id = some out ∧
      (out = .fail ↔ m.Failing points p n.id) ∧
      (out = .unknown ↔ ¬ m.Failing points p n.id ∧ m.Lacking points n.id) ∧
      ((∃ x, out = .number x) ↔ ¬ m.Failing points p n.id ∧ ¬ m.Lacking points n.id)) ∧
    (∃ s, m.sink? = some s ∧ p.node? s.id = some p.grade) ∧
    (∀ k, m.Origin points (fun id x => p.node? id = some (.number x)) k → m.Contributes k.node →
      ∀ other q, (Evaluator.ofChecked c).preview other = .ok q →
        m.AgreeBefore points other k.node → q.grade = .fail) ∧
    ∀ other q, (Evaluator.ofChecked c).preview other = .ok q →
      ∀ n ∈ m.nodes, m.AgreeBefore points other n.id → q.node? n.id = p.node? n.id := by
  obtain ⟨hc, rfl⟩ := faithful_of_validate h
  obtain ⟨v, -, hv, hshows⟩ := preview_shows hc hp
  refine ⟨fun n hn => ?_, ?_, fun k hk hcontributes other q hq hagree => ?_,
    fun other q hq n hn hagree => ?_⟩
  · obtain ⟨i, hi⟩ := List.getElem?_of_mem hn
    have hlt : i < c.size := Checked.lt_size hi
    refine ⟨valueAt v i, hshows.node?_id hi, ?_⟩
    rw [failing_iff hc hv hshows hi, lacking_iff hc hi]
    exact ⟨Iff.rfl, unknown_iff_leads hc hv hlt, number_iff_leads hc hv hlt⟩
  · obtain ⟨s, hs, hi⟩ := Checked.sink?_eq hc
    exact ⟨s, hs, by rw [hshows.grade, hshows.node?_id hi]⟩
  · obtain ⟨w, -, hw, hshows'⟩ := preview_shows hc hq
    obtain ⟨i, hk⟩ := (origin_iff hc fun id x => hshows.node? id (.number x)).1 hk
    rw [hshows'.grade]
    exact fail_of_origin hc hv hw hk hcontributes hagree
  · obtain ⟨w, -, hw, hshows'⟩ := preview_shows hc hq
    obtain ⟨i, hi⟩ := List.getElem?_of_mem hn
    rw [hshows.node?_id hi, hshows'.node?_id hi, valueAt_of_agree hc hv hw hi hagree]

/-- Points for the exam that are not enough, and none for the homework. -/
def lowPoints : Points Float := Points.ofList [("exam", 3)]

theorem preview_propagates_exam :
    validate false examModel = .ok (examModel.accepted 4) ∧
      ∃ p, (Evaluator.ofChecked (examModel.accepted 4)).preview lowPoints = .ok p ∧
        p.grade = .fail ∧ examModel.Failing lowPoints p "grade" ∧
        p.node? "homework" = some .unknown ∧ ¬ examModel.Failing lowPoints p "homework" ∧
        examModel.Lacking lowPoints "homework" := by
  have hvalid : validate false examModel = .ok (examModel.accepted 4) := rfl
  obtain ⟨p, hp, hfail, hgrade, hhomework⟩ : ∃ p,
      (Evaluator.ofChecked (examModel.accepted 4)).preview lowPoints = .ok p ∧
        p.grade = .fail ∧ p.node? "grade" = some .fail ∧ p.node? "homework" = some .unknown :=
    ⟨_, rfl, rfl, rfl, rfl⟩
  have hnodes := (preview_propagates hvalid hp).1
  obtain ⟨out, hout, hfailing, -⟩ := hnodes ⟨"grade", .sink⟩ (by simp [examModel])
  obtain ⟨out', hout', -, hunknown, -⟩ :=
    hnodes ⟨"homework", .source ⟨none, .ignore⟩⟩ (by simp [examModel])
  obtain rfl := Option.some.inj (hgrade.symm.trans hout)
  obtain rfl := Option.some.inj (hhomework.symm.trans hout')
  exact ⟨hvalid, p, hp, hfail, hfailing.1 rfl, hhomework, hunknown.1 rfl⟩

end Grading
