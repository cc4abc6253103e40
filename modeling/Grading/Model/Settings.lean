/-!
# Node settings

What a node of a grading model does with the numbers that flow into it.  Settings are generic in
the kind of number.  The variant of `Settings` is the type of the node; `Kind` names the eight
types.

The weights of an average are kept by slot in strictly ascending order, so that two averages
with the same weights have the same table, however it was filled.
-/

namespace Grading

/-- The number of an input slot of a node. -/
abbrev Slot := UInt32

/-! ## Node types -/

/-- The types of node. -/
inductive Kind where
  | source
  | addition
  | average
  | stepper
  | sink
  | minPoints
  | max
  | round
deriving DecidableEq

namespace Kind

def all : List Kind := [source, addition, average, stepper, sink, minPoints, max, round]

/-- The name of a node type, in messages and in stored models. -/
def name : Kind → String
  | source => "source"
  | addition => "addition"
  | average => "average"
  | stepper => "stepper"
  | sink => "sink"
  | minPoints => "minpoints"
  | max => "max"
  | round => "round"

def ofName? (name : String) : Option Kind := all.find? fun kind => kind.name = name

end Kind

/-- What happens to a value below its minimum points. -/
inductive FailPolicy where
  /-- The node fails, and with it everything that depends on it. -/
  | courseFail
  /-- The value passes through unchanged. -/
  | ignore
deriving DecidableEq

/-- Which whole number a value is rounded to. -/
inductive Rounding where
  | up
  | closest
  | down
deriving DecidableEq

/-! ## Tables by slot -/

/-- A table with at most one entry per slot, in ascending order of slots. -/
structure SlotMap (α : Type) where
  entries : List (Slot × α)
  ascending : entries.Pairwise fun a b => a.1 < b.1

namespace SlotMap

variable {α : Type}

def empty : SlotMap α := ⟨[], List.Pairwise.nil⟩

/-- Adds an entry in its place, or replaces the one of that slot. -/
def insertEntry (slot : Slot) (a : α) : List (Slot × α) → List (Slot × α)
  | [] => [(slot, a)]
  | e :: es =>
    if slot < e.1 then (slot, a) :: e :: es
    else if slot = e.1 then (slot, a) :: es
    else e :: insertEntry slot a es

theorem mem_insertEntry {slot : Slot} {a : α} {es : List (Slot × α)} {e : Slot × α}
    (h : e ∈ insertEntry slot a es) : e = (slot, a) ∨ e ∈ es := by
  induction es with
  | nil => simpa [insertEntry] using h
  | cons e' es ih =>
    unfold insertEntry at h
    split at h
    · simpa using h
    · split at h
      · rcases List.mem_cons.1 h with h | h
        · exact Or.inl h
        · exact Or.inr (List.mem_cons_of_mem _ h)
      · rcases List.mem_cons.1 h with h | h
        · exact Or.inr (h ▸ List.mem_cons_self)
        · exact (ih h).imp_right (List.mem_cons_of_mem _)

theorem ascending_insertEntry (slot : Slot) (a : α) {es : List (Slot × α)}
    (h : es.Pairwise fun x y => x.1 < y.1) :
    (insertEntry slot a es).Pairwise fun x y => x.1 < y.1 := by
  induction es with
  | nil => simp [insertEntry]
  | cons e es ih =>
    have he := List.pairwise_cons.1 h
    unfold insertEntry
    split
    · next hlt =>
      refine List.pairwise_cons.2 ⟨fun x hx => ?_, h⟩
      rcases List.mem_cons.1 hx with rfl | hx
      · exact hlt
      · exact UInt32.lt_trans hlt (he.1 x hx)
    · next hge =>
      split
      · next heq => exact List.pairwise_cons.2 ⟨fun x hx => heq ▸ he.1 x hx, he.2⟩
      · next hne =>
        refine List.pairwise_cons.2 ⟨fun x hx => ?_, ih he.2⟩
        rcases mem_insertEntry hx with rfl | hx
        · exact UInt32.lt_of_le_of_ne (UInt32.not_lt.1 hge) (Ne.symm hne)
        · exact he.1 x hx

/-- Adds an entry, or replaces the one of that slot. -/
def insert (m : SlotMap α) (slot : Slot) (a : α) : SlotMap α :=
  ⟨insertEntry slot a m.entries, ascending_insertEntry slot a m.ascending⟩

/-- Of entries for the same slot the last one counts. -/
def ofList (es : List (Slot × α)) : SlotMap α :=
  es.foldl (fun m e => m.insert e.1 e.2) empty

/-- The slots in ascending order. -/
def slots (m : SlotMap α) : List Slot := m.entries.map (·.1)

/-- The values in ascending order of their slots. -/
def values (m : SlotMap α) : List α := m.entries.map (·.2)

def contains (m : SlotMap α) (slot : Slot) : Bool := m.entries.any fun e => e.1 = slot

instance [BEq α] : BEq (SlotMap α) := ⟨fun a b => a.entries == b.entries⟩

end SlotMap

/-! ## Settings -/

/-- A source stands for one part of a course and gives out the points of that part. -/
structure SourceSettings (α : Type) where
  minPoints : Option α := none
  onFail : FailPolicy := .courseFail
deriving BEq

/-- A mean of the wired slots.  `percentageMode` is how the weights are shown, not what they
mean: they are always divided by their sum. -/
structure AverageSettings (α : Type) where
  weights : SlotMap α
  percentageMode : Bool
deriving BEq

/-- What a step of a stepper gives out. -/
inductive StepOutput (α : Type) where
  | value (x : α)
  /-- The input itself. -/
  | same
deriving BEq

/-- Cuts the numbers into `steps` ranges at the middle points and gives out one value for each. -/
structure StepperSettings (α : Type) where
  steps : UInt32
  outputs : List (StepOutput α)
  middlePoints : List α
deriving BEq

/-- Passes a value on if it has the minimum points. -/
structure GateSettings (α : Type) where
  minPoints : α
  onFail : FailPolicy
deriving BEq

/-- What a node does, with its settings. -/
inductive Settings (α : Type) where
  | source (settings : SourceSettings α)
  | addition
  | average (settings : AverageSettings α)
  | stepper (settings : StepperSettings α)
  | sink
  | minPoints (settings : GateSettings α)
  /-- The largest input, but not less than `minValue`. -/
  | max (minValue : α)
  | round (mode : Rounding)
deriving BEq

/-- The type of node that the settings are for. -/
def Settings.kind {α : Type} : Settings α → Kind
  | .source _ => .source
  | .addition => .addition
  | .average _ => .average
  | .stepper _ => .stepper
  | .sink => .sink
  | .minPoints _ => .minPoints
  | .max _ => .max
  | .round _ => .round

end Grading
