import Mathlib.Data.List.Forall2
import Grading.Proofs.Shape

/-!
# Equal models

Models are compared field by field and their numbers as numbers: zeros of either sign are equal,
and what is not a number is not even equal to itself.  So the test is no equivalence of models.  But
it is one of accepted models, whose numbers are all finite, and it does not lead from an accepted
model to one that is not:

    EqualityOn P → EqualityOn (lists, pairs, … of elements of P)  (EqualityOn.list, …)
    EqualityOn fun s => s.Sound                                (settings_equalityOn)
    m == m' → m.SameShape m'                                      (sameShape_of_beq)
    EqualityOn fun m => ∃ c, validate strict m = .ok c         (accepted_equalityOn)
-/

namespace Grading

open Float.Model (UnpackedFloat)

variable {α : Type}

/-! ## Tests that are equivalences somewhere -/

/-- Among the elements of `P` the test is an equivalence, and it does not lead out of them. -/
structure EqualityOn {β : Type} [BEq β] (P : β → Prop) : Prop where
  refl : ∀ {a}, P a → (a == a) = true
  symm : ∀ {a b}, P a → (a == b) = true → (b == a) = true
  trans : ∀ {a b c}, P a → (a == b) = true → (b == c) = true → (a == c) = true
  keeps : ∀ {a b}, P a → (a == b) = true → P b

section

variable {β γ : Type} {R : β → γ → Prop} {l : List β} {k : List γ}

theorem exists_left_of_forall₂ (h : List.Forall₂ R l k) {b : γ} (hb : b ∈ k) :
    ∃ a ∈ l, R a b := by
  induction h with
  | nil => exact absurd hb List.not_mem_nil
  | cons hab _ ih =>
    rcases List.mem_cons.1 hb with rfl | hb
    · exact ⟨_, List.mem_cons_self, hab⟩
    · obtain ⟨a, ha, hab⟩ := ih hb
      exact ⟨a, List.mem_cons_of_mem _ ha, hab⟩

theorem exists_right_of_forall₂ (h : List.Forall₂ R l k) {a : β} (ha : a ∈ l) :
    ∃ b ∈ k, R a b := by
  have hflip : List.Forall₂ (flip R) k l := List.Forall₂.flip h
  exact exists_left_of_forall₂ hflip ha

/-- Lists related entry by entry are in order together. -/
theorem pairwise_of_forall₂ {S : β → β → Prop} {T : γ → γ → Prop} (h : List.Forall₂ R l k)
    (hl : l.Pairwise S) (hST : ∀ {a b a' b'}, R a a' → R b b' → S a b → T a' b') :
    k.Pairwise T := by
  induction h with
  | nil => exact .nil
  | cons hab hrest ih =>
    obtain ⟨hhead, htail⟩ := List.pairwise_cons.1 hl
    refine List.pairwise_cons.2 ⟨fun b hb => ?_, ih htail⟩
    obtain ⟨a, ha, hab'⟩ := exists_left_of_forall₂ hrest hb
    exact hST hab hab' (hhead a ha)

end

theorem list_beq_iff {β : Type} [BEq β] {l k : List β} :
    (l == k) = true ↔ List.Forall₂ (fun a b => (a == b) = true) l k := by
  induction l generalizing k with
  | nil => cases k <;> simp
  | cons a l ih =>
    cases k with
    | nil => simp
    | cons b k => rw [List.cons_beq_cons, Bool.and_eq_true, List.forall₂_cons, ih]

namespace EqualityOn

variable {β γ : Type} [BEq β] [BEq γ] {P Q : β → Prop} {P' : γ → Prop}

theorem lawful [LawfulBEq β] : EqualityOn fun _ : β => True where
  refl _ := beq_self_eq_true _
  symm _ h := by rwa [beq_iff_eq, eq_comm, ← beq_iff_eq]
  trans _ hab hbc := by rwa [eq_of_beq hab]
  keeps _ _ := trivial

theorem restrict (h : EqualityOn Q) (hP : ∀ a, P a → Q a)
    (hkeeps : ∀ a b, P a → (a == b) = true → P b) : EqualityOn P where
  refl ha := h.refl (hP _ ha)
  symm ha := h.symm (hP _ ha)
  trans ha := h.trans (hP _ ha)
  keeps := hkeeps _ _

/-- A test that is made by way of another type. -/
theorem comap (h : EqualityOn P') (f : β → γ) (hf : ∀ a b, (a == b) = (f a == f b)) :
    EqualityOn fun a => P' (f a) where
  refl ha := by
    rw [hf]
    exact h.refl ha
  symm ha hab := by
    rw [hf] at hab ⊢
    exact h.symm ha hab
  trans ha hab hbc := by
    rw [hf] at hab hbc ⊢
    exact h.trans ha hab hbc
  keeps ha hab := by
    rw [hf] at hab
    exact h.keeps ha hab

theorem prod (h : EqualityOn P) (h' : EqualityOn P') :
    EqualityOn fun p : β × γ => P p.1 ∧ P' p.2 where
  refl ha := Bool.and_eq_true_iff.2 ⟨h.refl ha.1, h'.refl ha.2⟩
  symm ha hab := by
    obtain ⟨h1, h2⟩ := Bool.and_eq_true_iff.1 hab
    exact Bool.and_eq_true_iff.2 ⟨h.symm ha.1 h1, h'.symm ha.2 h2⟩
  trans ha hab hbc := by
    obtain ⟨h1, h2⟩ := Bool.and_eq_true_iff.1 hab
    obtain ⟨h3, h4⟩ := Bool.and_eq_true_iff.1 hbc
    exact Bool.and_eq_true_iff.2 ⟨h.trans ha.1 h1 h3, h'.trans ha.2 h2 h4⟩
  keeps ha hab := by
    obtain ⟨h1, h2⟩ := Bool.and_eq_true_iff.1 hab
    exact ⟨h.keeps ha.1 h1, h'.keeps ha.2 h2⟩

theorem fst [LawfulBEq γ] (h : EqualityOn P) : EqualityOn fun p : β × γ => P p.1 :=
  (h.prod lawful).restrict (fun _ ha => ⟨ha, trivial⟩)
    fun _ _ ha hab => h.keeps ha (Bool.and_eq_true_iff.1 hab).1

theorem snd [LawfulBEq β] (h : EqualityOn P') : EqualityOn fun p : β × γ => P' p.2 :=
  (lawful.prod h).restrict (fun _ ha => ⟨trivial, ha⟩)
    fun _ _ ha hab => h.keeps ha (Bool.and_eq_true_iff.1 hab).2

theorem option (h : EqualityOn P) : EqualityOn fun o : Option β => ∀ a ∈ o, P a where
  refl {o} ho := by
    cases o with
    | none => rfl
    | some a => exact h.refl (ho a rfl)
  symm {o o'} ho hoo := by
    match o, o' with
    | none, none => rfl
    | some a, some b => exact h.symm (ho a rfl) hoo
  trans {o o' o''} ho hoo hoo' := by
    match o, o', o'' with
    | none, none, none => rfl
    | some a, some b, some c => exact h.trans (ho a rfl) hoo hoo'
  keeps {o o'} ho hoo := by
    match o, o' with
    | none, none => exact ho
    | some a, some b =>
      rintro _ ⟨rfl⟩
      exact h.keeps (ho a rfl) hoo

theorem list (h : EqualityOn P) : EqualityOn fun l : List β => ∀ a ∈ l, P a where
  refl hl := list_beq_iff.2 (List.forall₂_same.2 fun a ha => h.refl (hl a ha))
  symm hl hlk := by
    rw [list_beq_iff] at hlk ⊢
    have hboth := (List.forall₂_and_left _ _).2 ⟨hl, hlk⟩
    exact List.Forall₂.flip (hboth.imp fun a b hab => h.symm hab.1 hab.2)
  trans {l k j} hl hlk hkj := by
    rw [list_beq_iff] at hlk hkj ⊢
    induction hlk generalizing j with
    | nil => exact hkj
    | cons hab _ ih =>
      rw [List.forall_mem_cons] at hl
      obtain ⟨c, j, hbc, hrest, rfl⟩ := List.forall₂_cons_left_iff.1 hkj
      exact .cons (h.trans hl.1 hab hbc) (ih hl.2 hrest)
  keeps hl hlk b hb := by
    obtain ⟨a, ha, hab⟩ := exists_left_of_forall₂ (list_beq_iff.1 hlk) hb
    exact h.keeps (hl a ha) hab

end EqualityOn

/-! ## Numbers -/

/-- A finite number is equal to the finite numbers that compare with it both ways. -/
class ComparableNumber (α : Type) [Number α] : Prop extends OrderedNumber α where
  beq_iff : ∀ {a b : α}, Number.isFinite a = true →
    ((a == b) = true ↔
      Number.isFinite b = true ∧ Number.le a b = true ∧ Number.le b a = true)

instance : ComparableNumber Rat where
  beq_iff {a b} _ := by
    show (a == b) = true ↔ true = true ∧ decide (a ≤ b) = true ∧ decide (b ≤ a) = true
    rw [beq_iff_eq, decide_eq_true_iff, decide_eq_true_iff, and_iff_right rfl]
    exact ⟨fun h => h ▸ ⟨Rat.le_refl, Rat.le_refl⟩, fun h => Rat.le_antisymm h.1 h.2⟩

theorem unpacked_beq_iff {x y : UnpackedFloat} (hx : x.isFinite = true) :
    x.beq y = true ↔ y.isFinite = true ∧ x.le y = true ∧ y.le x = true := by
  by_cases hy : y.isFinite = true
  · obtain ⟨o, hxy, hyx⟩ := unpacked_compare_swap (ne_notANumber hx) (ne_notANumber hy)
    rw [UnpackedFloat.le, UnpackedFloat.le, and_iff_right hy]
    show (x.compare y == some .eq) = true ↔ _
    rw [hxy, hyx]
    cases o <;> decide
  · refine iff_of_false (fun hbeq => hy ?_) fun h => hy h.1
    rcases y with s | _ | s | ⟨s, m, e, hm⟩
    · rcases x with t | _ | t | ⟨t, n, f, hn⟩
      · exact hx
      · exact hx
      · cases s <;> exact absurd hbeq Bool.false_ne_true
      · cases s <;> cases t <;> exact absurd hbeq Bool.false_ne_true
    · cases x <;> exact absurd hbeq Bool.false_ne_true
    · rfl
    · rfl

instance : ComparableNumber Float where
  beq_iff {a b} ha := by
    rw [float_le_eq, float_le_eq]
    exact unpacked_beq_iff ha

namespace ComparableNumber

variable [Number α] [ComparableNumber α] {a b a' b' : α}

theorem equalityOn : EqualityOn fun a : α => Number.isFinite a = true where
  refl ha := (beq_iff ha).2 ⟨ha, OrderedNumber.le_refl ha, OrderedNumber.le_refl ha⟩
  symm ha hab := by
    obtain ⟨hb, hle, hge⟩ := (beq_iff ha).1 hab
    exact (beq_iff hb).2 ⟨ha, hge, hle⟩
  trans ha hab hbc := by
    obtain ⟨hb, hle, hge⟩ := (beq_iff ha).1 hab
    obtain ⟨hc, hle', hge'⟩ := (beq_iff hb).1 hbc
    exact (beq_iff ha).2 ⟨hc, OrderedNumber.le_trans ha hb hc hle hle',
      OrderedNumber.le_trans hc hb ha hge' hge⟩
  keeps ha hab := ((beq_iff ha).1 hab).1

theorem le_larger {x y : α} (hx : Number.isFinite x = true) (hy : Number.isFinite y = true) :
    Number.le x (Number.larger x y) = true ∧ Number.le y (Number.larger x y) = true := by
  unfold Number.larger
  by_cases h : Number.lt y x = true
  · rw [if_pos h]
    exact ⟨OrderedNumber.le_refl hx, OrderedNumber.le_of_lt hy hx h⟩
  · rw [if_neg h, if_pos (equalityOn.refl hy)]
    rw [OrderedNumber.lt_iff_not_le hy hx, not_not] at h
    exact ⟨h, OrderedNumber.le_refl hy⟩

/-- The largest of finite numbers is not below any of them. -/
theorem le_foldl_larger {x : α} {xs : List α} (hx : Number.isFinite x = true)
    (hxs : ∀ y ∈ xs, Number.isFinite y = true) :
    ∀ y ∈ x :: xs, Number.le y (xs.foldl Number.larger x) = true := by
  induction xs generalizing x with
  | nil =>
    intro y hy
    rw [List.mem_singleton.1 hy]
    exact OrderedNumber.le_refl hx
  | cons z xs ih =>
    rw [List.forall_mem_cons] at hxs
    obtain ⟨hz, hxs⟩ := hxs
    have hlarger : Number.isFinite (Number.larger x z) = true := by
      rcases larger_eq_or x z with heq | heq
      · rwa [heq]
      · rwa [heq]
    have hresult : Number.isFinite (xs.foldl Number.larger (Number.larger x z)) = true :=
      isFinite_foldl_larger hlarger hxs
    have hrest := ih hlarger hxs
    have hfirst := hrest _ List.mem_cons_self
    obtain ⟨hxl, hzl⟩ := le_larger hx hz
    intro y hy
    rcases List.mem_cons.1 hy with rfl | hy
    · exact OrderedNumber.le_trans hx hlarger hresult hxl hfirst
    · rcases List.mem_cons.1 hy with rfl | hy
      · exact OrderedNumber.le_trans hz hlarger hresult hzl hfirst
      · exact hrest y (List.mem_cons_of_mem _ hy)

/-- Equal numbers compare alike. -/
theorem le_of_beq (ha : Number.isFinite a = true) (hb : Number.isFinite b = true)
    (haa : (a == a') = true) (hbb : (b == b') = true) (h : Number.le a b = true) :
    Number.le a' b' = true := by
  obtain ⟨ha', -, hle⟩ := (beq_iff ha).1 haa
  obtain ⟨hb', hle', -⟩ := (beq_iff hb).1 hbb
  exact OrderedNumber.le_trans ha' ha hb' hle (OrderedNumber.le_trans ha hb hb' h hle')

theorem lt_of_beq (ha : Number.isFinite a = true) (hb : Number.isFinite b = true)
    (haa : (a == a') = true) (hbb : (b == b') = true) (h : Number.lt a b = true) :
    Number.lt a' b' = true := by
  have ha' := equalityOn.keeps ha haa
  have hb' := equalityOn.keeps hb hbb
  rw [OrderedNumber.lt_iff_not_le ha hb] at h
  rw [OrderedNumber.lt_iff_not_le ha' hb']
  intro hle
  exact h (le_of_beq hb' ha' (equalityOn.symm hb hbb) (equalityOn.symm ha haa) hle)

end ComparableNumber

/-! ## Settings -/

section

variable [Number α]

/-- Settings of one type whose parts are equal. -/
inductive Settings.Like : Settings α → Settings α → Prop where
  | source {s s' : SourceSettings α} : (s == s') = true → Like (.source s) (.source s')
  | addition : Like .addition .addition
  | average {s s' : AverageSettings α} : (s == s') = true → Like (.average s) (.average s')
  | stepper {s s' : StepperSettings α} : (s == s') = true → Like (.stepper s) (.stepper s')
  | sink : Like .sink .sink
  | minPoints {s s' : GateSettings α} : (s == s') = true → Like (.minPoints s) (.minPoints s')
  | max {x x' : α} : (x == x') = true → Like (.max x) (.max x')
  | round (mode : Rounding) : Like (.round mode) (.round mode)

theorem Settings.like_of_beq {s s' : Settings α} (h : (s == s') = true) : s.Like s' := by
  match s, s' with
  | .source _, .source _ => exact .source h
  | .addition, .addition => exact .addition
  | .average _, .average _ => exact .average h
  | .stepper _, .stepper _ => exact .stepper h
  | .sink, .sink => exact .sink
  | .minPoints _, .minPoints _ => exact .minPoints h
  | .max _, .max _ => exact .max h
  | .round mode, .round mode' =>
    obtain rfl : mode = mode' := eq_of_beq h
    exact .round mode

end

section

variable [Number α] [ComparableNumber α]

theorem sourceSettings_equalityOn :
    EqualityOn fun s : SourceSettings α => ∀ x ∈ s.minPoints, Number.isFinite x = true :=
  ComparableNumber.equalityOn.option.fst.comap
    (fun s : SourceSettings α => (s.minPoints, s.onFail)) fun _ _ => rfl

theorem gateSettings_equalityOn :
    EqualityOn fun s : GateSettings α => Number.isFinite s.minPoints = true :=
  ComparableNumber.equalityOn.fst.comap
    (fun s : GateSettings α => (s.minPoints, s.onFail)) fun _ _ => rfl

omit [ComparableNumber α] in
/-- Equal averages have equal weights, entry by entry. -/
theorem weights_of_beq {s s' : AverageSettings α} (h : (s == s') = true) :
    List.Forall₂ (fun e e' => e.1 = e'.1 ∧ (e.2 == e'.2) = true)
      s.weights.entries s'.weights.entries := by
  have hentries : (s.weights.entries == s'.weights.entries) = true :=
    (Bool.and_eq_true_iff.1 h).1
  refine (list_beq_iff.1 hentries).imp fun e e' he => ?_
  obtain ⟨hslot, hweight⟩ := Bool.and_eq_true_iff.1 he
  exact ⟨eq_of_beq hslot, hweight⟩

theorem averageSettings_equalityOn : EqualityOn fun s : AverageSettings α => s.Sound := by
  have hweights : EqualityOn fun s : AverageSettings α =>
      ∀ e ∈ s.weights.entries, Number.isFinite e.2 = true :=
    ComparableNumber.equalityOn.snd.list.fst.comap
      (fun s : AverageSettings α => (s.weights.entries, s.percentageMode)) fun _ _ => rfl
  have hfinite : ∀ s : AverageSettings α, s.Sound →
      ∀ e ∈ s.weights.entries, Number.isFinite e.2 = true :=
    fun s hs e he => (hs.weights e.2 (List.mem_map_of_mem he)).1
  refine hweights.restrict hfinite fun s s' hs hss => ⟨?_, ?_⟩
  · intro w' hw'
    obtain ⟨e', he', rfl⟩ := List.mem_map.1 hw'
    obtain ⟨e, he, -, hee⟩ := exists_left_of_forall₂ (weights_of_beq hss) he'
    obtain ⟨hw, hpos⟩ := hs.weights e.2 (List.mem_map_of_mem he)
    have hzero := OrderedNumber.isFinite_zero (α := α)
    exact ⟨ComparableNumber.equalityOn.keeps hw hee,
      ComparableNumber.le_of_beq hzero hw (ComparableNumber.equalityOn.refl hzero) hee hpos⟩
  · obtain ⟨w, hw, hpos⟩ := hs.positive
    obtain ⟨e, he, rfl⟩ := List.mem_map.1 hw
    obtain ⟨e', he', -, hee⟩ := exists_right_of_forall₂ (weights_of_beq hss) he
    have hzero := OrderedNumber.isFinite_zero (α := α)
    exact ⟨e'.2, List.mem_map_of_mem he', ComparableNumber.lt_of_beq hzero (hfinite s hs e he)
      (ComparableNumber.equalityOn.refl hzero) hee hpos⟩

/-- The number of an output that is one. -/
def StepOutput.number? : StepOutput α → Option α
  | .value x => some x
  | .same => none

omit [ComparableNumber α] in
theorem stepOutput_beq (o o' : StepOutput α) : (o == o') = (o.number? == o'.number?) := by
  cases o <;> cases o' <;> rfl

theorem stepOutput_equalityOn :
    EqualityOn fun o : StepOutput α => ∀ x ∈ o.number?, Number.isFinite x = true :=
  ComparableNumber.equalityOn.option.comap StepOutput.number? stepOutput_beq

theorem stepperSettings_equalityOn : EqualityOn fun s : StepperSettings α => s.Sound := by
  have hparts : EqualityOn fun s : StepperSettings α =>
      (∀ o ∈ s.outputs, ∀ x ∈ o.number?, Number.isFinite x = true) ∧
        ∀ p ∈ s.middlePoints, Number.isFinite p = true :=
    (stepOutput_equalityOn.list.prod ComparableNumber.equalityOn.list).snd.comap
      (fun s : StepperSettings α => (s.steps, s.outputs, s.middlePoints)) fun _ _ => rfl
  have hfinite : ∀ s : StepperSettings α, s.Sound →
      (∀ o ∈ s.outputs, ∀ x ∈ o.number?, Number.isFinite x = true) ∧
        ∀ p ∈ s.middlePoints, Number.isFinite p = true := by
    refine fun s hs => ⟨fun o ho x hx => ?_, hs.middleFinite⟩
    cases o with
    | value y =>
      obtain rfl := Option.some.inj hx
      exact hs.outputsFinite _ ho
    | same => exact nomatch hx
  refine hparts.restrict hfinite fun s s' hs hss => ?_
  obtain ⟨houtputs', hmiddle'⟩ := hparts.keeps (hfinite s hs) hss
  obtain ⟨hsteps, hrest⟩ := Bool.and_eq_true_iff.1 hss
  obtain ⟨houtputs, hmiddle⟩ := Bool.and_eq_true_iff.1 hrest
  have hsteps : s.steps = s'.steps := eq_of_beq hsteps
  rw [list_beq_iff] at houtputs hmiddle
  refine ⟨hsteps ▸ hs.steps, ?_, ?_, hmiddle', ?_, fun x hx => houtputs' _ hx x rfl⟩
  · rw [← houtputs.length_eq, hs.outputs, hsteps]
  · rw [← hmiddle.length_eq, hs.middlePoints, hsteps]
  · have hboth := (List.forall₂_and_left _ _).2 ⟨hs.middleFinite, hmiddle⟩
    exact pairwise_of_forall₂ hboth hs.ascending fun hp hq hlt =>
      ComparableNumber.lt_of_beq hp.1 hq.1 hp.2 hq.2 hlt

theorem settings_equalityOn : EqualityOn fun s : Settings α => s.Sound where
  refl {s} hs := by
    cases s with
    | source s => exact sourceSettings_equalityOn.refl hs
    | addition => rfl
    | average s => exact averageSettings_equalityOn.refl hs
    | stepper s => exact stepperSettings_equalityOn.refl hs
    | sink => rfl
    | minPoints s => exact gateSettings_equalityOn.refl hs
    | max x => exact ComparableNumber.equalityOn.refl hs
    | round mode => exact beq_self_eq_true mode
  symm hs h := by
    cases Settings.like_of_beq h with
    | source h => exact sourceSettings_equalityOn.symm hs h
    | addition => rfl
    | average h => exact averageSettings_equalityOn.symm hs h
    | stepper h => exact stepperSettings_equalityOn.symm hs h
    | sink => rfl
    | minPoints h => exact gateSettings_equalityOn.symm hs h
    | max h => exact ComparableNumber.equalityOn.symm hs h
    | round mode => exact beq_self_eq_true mode
  trans hs h h' := by
    cases Settings.like_of_beq h with
    | source h =>
      cases Settings.like_of_beq h' with
      | source h' => exact sourceSettings_equalityOn.trans hs h h'
    | addition => exact h'
    | average h =>
      cases Settings.like_of_beq h' with
      | average h' => exact averageSettings_equalityOn.trans hs h h'
    | stepper h =>
      cases Settings.like_of_beq h' with
      | stepper h' => exact stepperSettings_equalityOn.trans hs h h'
    | sink => exact h'
    | minPoints h =>
      cases Settings.like_of_beq h' with
      | minPoints h' => exact gateSettings_equalityOn.trans hs h h'
    | max h =>
      cases Settings.like_of_beq h' with
      | max h' => exact ComparableNumber.equalityOn.trans hs h h'
    | round mode => exact h'
  keeps hs h := by
    cases Settings.like_of_beq h with
    | source h => exact sourceSettings_equalityOn.keeps hs h
    | addition => trivial
    | average h => exact averageSettings_equalityOn.keeps hs h
    | stepper h => exact stepperSettings_equalityOn.keeps hs h
    | sink => trivial
    | minPoints h => exact gateSettings_equalityOn.keeps hs h
    | max h => exact ComparableNumber.equalityOn.keeps hs h
    | round mode => trivial

/-! ## Models -/

theorem node_equalityOn : EqualityOn fun n : Node α => n.settings.Sound :=
  settings_equalityOn.snd.comap (fun n : Node α => (n.id, n.settings)) fun _ _ => rfl

theorem model_equalityOn : EqualityOn fun m : Model α => ∀ n ∈ m.nodes, n.settings.Sound :=
  node_equalityOn.list.fst.comap (fun m : Model α => (m.nodes, m.edges)) fun _ _ => rfl

omit [ComparableNumber α] in
theorem shape_of_beq {n n' : Node α} (h : (n == n') = true) : n.shape = n'.shape := by
  obtain ⟨id, settings⟩ := n
  obtain ⟨id', settings'⟩ := n'
  obtain ⟨hid, hsettings⟩ := Bool.and_eq_true_iff.1 h
  obtain rfl : id = id' := eq_of_beq hid
  cases Settings.like_of_beq hsettings with
  | @average s s' haverage =>
    have hslots : s.weights.slots = s'.weights.slots := by
      unfold SlotMap.slots
      rw [← List.forall₂_eq_eq_eq, List.forall₂_map_left_iff, List.forall₂_map_right_iff]
      exact (weights_of_beq haverage).imp fun e e' he => he.1
    show (id, Kind.average, s.weights.slots) = (id, Kind.average, s'.weights.slots)
    rw [hslots]
  | _ => rfl

omit [ComparableNumber α] in
/-- Equal models have the same shape. -/
theorem sameShape_of_beq {m m' : Model α} (h : (m == m') = true) : m.SameShape m' := by
  obtain ⟨hnodes, hedges⟩ := Bool.and_eq_true_iff.1 h
  have hedges : m.edges = m'.edges := eq_of_beq hedges
  have hshapes : m.nodes.map Node.shape = m'.nodes.map Node.shape := by
    rw [← List.forall₂_eq_eq_eq, List.forall₂_map_left_iff, List.forall₂_map_right_iff]
    exact (list_beq_iff.1 hnodes).imp fun n n' hn => shape_of_beq hn
  exact ⟨hshapes ▸ .refl _, hedges ▸ .refl _⟩

/-- Among accepted models equality is an equivalence, and whatever is equal to an accepted model is
accepted. -/
theorem accepted_equalityOn (strict : Bool) :
    EqualityOn fun m : Model α => ∃ c, validate strict m = .ok c := by
  have hsound : ∀ m : Model α, (∃ c, validate strict m = .ok c) →
      ∀ n ∈ m.nodes, n.settings.Sound := by
    intro m hm
    rw [accepts_iff_errors, Model.errors_eq_nil_iff] at hm
    exact Model.settingsFaults_eq_nil.1 hm.1.2
  refine model_equalityOn.restrict hsound fun m m' hm h => ?_
  refine (sameShape_of_beq h).accepts (fun _ => ?_) hm
  exact Model.settingsFaults_eq_nil.2 (model_equalityOn.keeps (hsound m hm) h)

end

end Grading
