/-
# Machines

A live machine: a compiled design with the data, the queue of events, the timeline
of waits and repeaters, the pending operations, the log of transitions, and the
snapshot that its subscribers are shown. The journal holds what the machine did, the
latest first, for whoever wants to look on; nothing a machine does depends on it.

Key definitions: `Machine`, `MachineError`, `Happening`, `Machine.postpone`,
`Machine.commit`, `Machine.flush`, `Machine.can`.
Key theorems: `Machine.flush_owed`, `Machine.flush_snapshot`.
-/
import Statechart.Settings
import Statechart.Design.Compile
import Statechart.Snapshot
import Statechart.Timeline
import Statechart.Tree.Activation

namespace Statechart

/-- Work put off to a time: the rest of a waiting chain with its payload, or a
repeater and when it started. -/
inductive Task where
  | resume (rest : Continuation) (payload : Json)
  | repeating (chain : Chain) (started : Span)

/-- A pending operation: who launched it, what to do when it settles, the payload it
was launched with, and how often it was asked. -/
structure Job where
  owner : Lease
  awaiting : Awaiting
  payload : Json
  operation : Operation
  asked : Nat := 0

/-- Why a machine could not be made, or an operation failed. -/
inductive MachineError where
  | compile (problems : List Problem)
  | eval (event : String) (error : FunctionError)
  | unknownTarget (target : String)
  | transitionLoop (limit : Nat) (event : String)
deriving DecidableEq

namespace MachineError

def message : MachineError → String
  | compile problems => Problem.messages problems
  | eval event error => "while handling '" ++ event ++ "': " ++ error.message
  | unknownTarget target => "no state matches transition target '" ++ target ++ "'"
  | transitionLoop limit event =>
    "more than " ++ toString limit ++ " transitions or events while handling '" ++ event ++ "'"

/-- The error is one that production passes over. -/
def isStructural : MachineError → Bool
  | unknownTarget _ => true
  | transitionLoop .. => true
  | _ => false

end MachineError

/-- What a chain was run for, outside the handling of an event; for a repeater, the
time since it last ran and since it started. -/
inductive Role where
  | enter
  | exit
  | resume
  | repeating (interval elapsed : Span)
  | settlement
deriving DecidableEq

/-- The kinds of work that a machine puts off. -/
inductive Deferral where
  | wait
  | repeater
  | operation
deriving DecidableEq

/-- Something a machine did. -/
inductive Happening (D : Type) where
  | queued (event : Event)
  | handled (event : Event)
  /-- A chain of a node was run at a time. -/
  | ran (owner : Lease) (role : Role) (time : Span)
  /-- What runs came to was taken over; these are the handlers that passed in them. -/
  | committed (passed : List Handler)
  | deferred (owner : Lease) (work : Deferral)
  /-- An activation, successful or not, led to this tree. -/
  | reached (tree : Tree)
  | moved (transition : Transition)
  | notified (subscriber : Nat) (snapshot : Snapshot D)
  /-- All repeaters were stopped. -/
  | stoppedRepeaters

structure Machine (D : Type) where
  design : Design D
  settings : Settings
  id : String
  table : Table D
  tree : Tree
  data : D
  queue : List Event := []
  timeline : Timeline Task
  jobs : List Job := []
  log : Transition.Log
  /-- A notification is owed to the subscribers. -/
  owed : Bool := false
  snapshot : Snapshot D
  subscribers : List Nat := []
  nextSubscriber : Nat := 0
  journal : List (Happening D) := []

namespace Machine

variable {D : Type}

/-- What the machine calls functions with, for a payload. -/
def context (m : Machine D) (payload : Json) : Context D := ⟨m.table, payload⟩

/-- Write in the journal what the machine did. -/
def note (m : Machine D) (e : Happening D) : Machine D := { m with journal := e :: m.journal }

/-- The machine with nothing in its journal. -/
def clearJournal (m : Machine D) : Machine D := { m with journal := [] }

/-- The error, where errors of its kind are reported. -/
def structural (m : Machine D) (e : MachineError) : Option MachineError :=
  match m.settings.mode with
  | .development => some e
  | .production => none

/-- Put an event behind those in the queue. -/
def enqueue (m : Machine D) (e : Event) : Machine D :=
  { m with queue := m.queue ++ [e] }.note (.queued e)

/-- Put off the rest of a waiting chain. -/
def postpone (m : Machine D) (payload : Json) (owner : Lease) (rest : Continuation) : Machine D :=
  { m with timeline := m.timeline.setTimeout owner rest.delay (.resume rest payload) }.note
    (.deferred owner .wait)

/-- Take over what runs have come to: the data of the last one, if it wrote any, what
is owed, the waits, each under the lease of its node, and the events sent. -/
def commit (m : Machine D) (payload : Json) (runs : List (Lease × Run D)) : Machine D :=
  let data :=
    match runs.getLast? with
    | some (_, r) => if r.copy.isWritten then r.copy.value else m.data
    | none => m.data
  let owed := m.owed || runs.any fun (_, r) => r.notify
  let passed := runs.flatMap fun (_, r) => r.passed
  let m := { m with data, owed }.note (.committed passed)
  let waits := runs.filterMap fun (owner, r) => r.continuation?.map (owner, ·)
  let m := waits.foldl (fun m (owner, rest) => m.postpone payload owner rest) m
  (runs.flatMap (·.2.sends)).foldl enqueue m

/-- The transitions that runs asked for. -/
def requestsOf (runs : List (Lease × Run D)) : List Request := runs.flatMap (·.2.requests)

/-- What the machine shows of itself now. -/
def view (m : Machine D) : Snapshot D where
  id := m.id
  data := m.data
  active := m.tree.activePaths
  values := m.table.derive m.data

/-- Bring the snapshot up to date and, if it is owed, show it to every subscriber. -/
def flush (m : Machine D) : Machine D :=
  let m := { m with snapshot := m.view }
  if m.owed then
    m.subscribers.foldl (fun m s => m.note (.notified s m.snapshot)) { m with owed := false }
  else m

/-- Some handler for the event would pass its guards now. A failing function counts
as a guard that does not pass. -/
def can (m : Machine D) (e : Event) : Bool :=
  m.tree.activeNodes.any fun t =>
    match t.node.handlers.on.lookup e.name with
    | none => false
    | some chain =>
      match (m.context e.payload).wouldPass m.data chain with
      | .ok passes => passes
      | .error _ => false

/-- Add a subscriber. -/
def subscribe (m : Machine D) : Machine D × Nat :=
  ({ m with
    subscribers := m.subscribers ++ [m.nextSubscriber]
    nextSubscriber := m.nextSubscriber + 1 }, m.nextSubscriber)

/-- Remove a subscriber, and tell whether it was one. With the last one the
repeaters stop. -/
def unsubscribe (m : Machine D) (s : Nat) : Machine D × Bool :=
  let removed := m.subscribers.contains s
  let subscribers := m.subscribers.filter (· ≠ s)
  let m := { m with subscribers }
  if removed && subscribers.isEmpty then
    ({ m with timeline := m.timeline.clearRepeating }.note .stoppedRepeaters, removed)
  else (m, removed)

theorem notes_owed (m : Machine D) (ss : List Nat) (e : Machine D → Nat → Happening D) :
    (ss.foldl (fun m s => m.note (e m s)) m).owed = m.owed := by
  induction ss generalizing m with
  | nil => rfl
  | cons s ss ih => rw [List.foldl_cons, ih]; rfl

theorem notes_snapshot (m : Machine D) (ss : List Nat) (e : Machine D → Nat → Happening D) :
    (ss.foldl (fun m s => m.note (e m s)) m).snapshot = m.snapshot := by
  induction ss generalizing m with
  | nil => rfl
  | cons s ss ih => rw [List.foldl_cons, ih]; rfl

/-- After a flush nothing is owed. -/
@[simp] theorem flush_owed (m : Machine D) : m.flush.owed = false := by
  unfold flush
  dsimp only
  split
  · rw [notes_owed]
  · rename_i h; simpa using h

/-- After a flush the snapshot is what the machine was before it. -/
@[simp] theorem flush_snapshot (m : Machine D) : m.flush.snapshot = m.view := by
  unfold flush
  dsimp only
  split
  · rw [notes_snapshot]
  · rfl

end Machine
end Statechart
