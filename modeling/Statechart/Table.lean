/-
# Function tables

The functions a machine calls are given by its host: results, conditions, actions,
times and operations, each of the data, the payload and the result before it. A
compiled design refers to them by their place in a table. A place that the table
does not have holds a function that does nothing.

Key definitions: `Kind`, `Kind.Fn`, `Slot`, `Table`, `Table.slots`, `Table.withSlots`,
`FunctionError`.
Key theorems: `Table.slots_withSlots`, `Table.slots_withSlots_of_ne`, `Table.forall_fn`.
-/
import Statechart.Operation

namespace Statechart

/-- The kinds of functions that a design refers to by name. -/
inductive Kind where
  | result
  | condition
  | action
  | time
  | operation
deriving DecidableEq

namespace Kind

def word : Kind → String
  | result => "result"
  | condition => "condition"
  | action => "action"
  | time => "time"
  | operation => "async"

/-- The functions of a kind over data `D`. Results and actions may fail with a
text; an action that fails may have changed the data first. -/
abbrev Fn (D : Type) : Kind → Type
  | result => D → Json → Json → Except String Json
  | condition => D → Json → Json → Bool
  | action => D → Json → Json → D × Option String
  | time => D → Json → Json → Float
  | operation => D → Json → Json → Operation

/-- The function of a place that a table does not have. -/
def absent {D : Type} : (k : Kind) → k.Fn D
  | result => fun _ _ _ => .ok .null
  | condition => fun _ _ _ => false
  | action => fun data _ _ => (data, none)
  | time => fun _ _ _ => 0.0
  | operation => fun _ _ _ => ⟨fun _ _ => none⟩

end Kind

/-- Computes the path of a transition target. -/
abbrev TargetFn (D : Type) := D → Json → Json → Except String String

/-- Derives a value from the data. -/
abbrev ValueFn (D : Type) := D → Json

/-- A function in a table, with the name it was referred to by, if any. -/
structure Slot (F : Type) where
  source : Option String
  fn : F

/-- The name a slot goes by in errors. -/
def Slot.name {F : Type} (s : Slot F) (word : String) : String :=
  s.source.getD ("<inline " ++ word ++ ">")

/-- The functions of a compiled design. -/
structure Table (D : Type) where
  results : List (Slot (Kind.result.Fn D)) := []
  conditions : List (Slot (Kind.condition.Fn D)) := []
  actions : List (Slot (Kind.action.Fn D)) := []
  times : List (Slot (Kind.time.Fn D)) := []
  operations : List (Slot (Kind.operation.Fn D)) := []
  targets : List (Slot (TargetFn D)) := []
  values : List (String × ValueFn D) := []

namespace Table

variable {D : Type}

/-- The slots of a kind. -/
def slots (t : Table D) : (k : Kind) → List (Slot (k.Fn D))
  | .result => t.results
  | .condition => t.conditions
  | .action => t.actions
  | .time => t.times
  | .operation => t.operations

/-- The table with other slots of one kind. -/
def withSlots (t : Table D) : (k : Kind) → List (Slot (k.Fn D)) → Table D
  | .result, results => { t with results }
  | .condition, conditions => { t with conditions }
  | .action, actions => { t with actions }
  | .time, times => { t with times }
  | .operation, operations => { t with operations }

@[simp] theorem slots_withSlots (t : Table D) (k : Kind) (s : List (Slot (k.Fn D))) :
    (t.withSlots k s).slots k = s := by cases k <;> rfl

theorem slots_withSlots_of_ne (t : Table D) {k l : Kind} (h : l ≠ k) (s : List (Slot (k.Fn D))) :
    (t.withSlots k s).slots l = t.slots l := by
  cases k <;> cases l <;> (try contradiction) <;> rfl

@[simp] theorem targets_withSlots (t : Table D) (k : Kind) (s : List (Slot (k.Fn D))) :
    (t.withSlots k s).targets = t.targets := by cases k <;> rfl

@[simp] theorem values_withSlots (t : Table D) (k : Kind) (s : List (Slot (k.Fn D))) :
    (t.withSlots k s).values = t.values := by cases k <;> rfl

/-- The slot at a place. -/
def slot (t : Table D) (k : Kind) (i : Nat) : Slot (k.Fn D) := (t.slots k)[i]?.getD ⟨none, k.absent⟩

/-- The function at a place. -/
def fn (t : Table D) (k : Kind) (i : Nat) : k.Fn D := (t.slot k i).fn

/-- The name of the function at a place. -/
def nameOf (t : Table D) (k : Kind) (i : Nat) : String := (t.slot k i).name k.word

/-- What holds of the functions in the slots of a kind, and of the function that does
nothing, holds of the function at every place. -/
theorem forall_fn {t : Table D} {k : Kind} {P : k.Fn D → Prop} (absent : P k.absent)
    (slots : ∀ s ∈ t.slots k, P s.fn) (i : Nat) : P (t.fn k i) := by
  unfold fn slot
  cases hs : (t.slots k)[i]? with
  | none => exact absent
  | some s => exact slots s (List.mem_of_getElem? hs)

/-- The slot of a computed target. -/
def target (t : Table D) (i : Nat) : Slot (TargetFn D) :=
  t.targets[i]?.getD ⟨none, fun _ _ _ => .ok ""⟩

theorem forall_target {t : Table D} {P : TargetFn D → Prop} (absent : P fun _ _ _ => .ok "")
    (slots : ∀ s ∈ t.targets, P s.fn) (i : Nat) : P (t.target i).fn := by
  unfold target
  cases hs : t.targets[i]? with
  | none => exact absent
  | some s => exact slots s (List.mem_of_getElem? hs)

/-- The name of a computed target. -/
def targetName (t : Table D) (i : Nat) : String := (t.target i).name "target"

/-- The derived values of the data, by name. -/
def derive (t : Table D) (data : D) : List (String × Json) := t.values.map fun v => (v.1, v.2 data)

end Table

/-- What a function was called for when it failed. -/
inductive Purpose where
  | result
  | action
  | secretAction
  | transition
  | initial
deriving DecidableEq

def Purpose.word : Purpose → String
  | result => "result"
  | action => "action"
  | secretAction => "secret action"
  | transition => "transition"
  | initial => "initial"

/-- A function failed: what for, which one, and its own words. -/
structure FunctionError where
  stage : Purpose
  name : String
  text : String
deriving DecidableEq

def FunctionError.message (e : FunctionError) : String :=
  e.stage.word ++ " function '" ++ e.name ++ "' failed: " ++ e.text

end Statechart
