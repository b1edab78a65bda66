/-
# What drives a machine

A step is one event sent, one startup, one thing due on the timeline, or one settled
operation, with all events it brings about. In each step at most so many transitions
are made, and at most so many events handled, as the settings allow. An event that
fails does not stop the ones behind it; the first failure is the step's.

Time moves by `Machine.advance`. Chains may send events and set waits of no length
without end, so an advance need not come to one: it takes a number of things due
that it will handle, and gives nothing if there were more.

Key definitions: `Machine.create`, `Machine.send`, `Machine.advance`,
`Machine.pollOperations`, `Machine.handle`, `Machine.drain`, `Machine.popStep`.
Key theorems: `Machine.drain_queue`, `Machine.popAll_mono`.
-/
import Statechart.Machine.Move

namespace Statechart
namespace Machine

variable {D : Type}

/-- Run chains in order on one copy, each under the lease of its node, up to the
first that fails or breaks off. -/
def traverse (ctx : Context D) : List (Lease × Chain) → WorkingCopy D → List (Lease × Run D)
  | [], _ => []
  | (owner, chain) :: rest, copy =>
    let r := ctx.run chain copy
    match r.stop with
    | some (.failed _) => [(owner, r)]
    | some .broke => [(owner, r)]
    | _ => (owner, r) :: traverse ctx rest r.copy

/-- The failure of a run. -/
def failure? (r : Run D) : Option FunctionError :=
  match r.stop with
  | some (.failed e) => some e
  | _ => none

/-- The chains for an event, by active node in pre-order. -/
def chainsFor (m : Machine D) (event : String) : List (Lease × Chain) :=
  m.tree.activeNodes.flatMap fun t =>
    (t.node.handlers.chains event).map fun c => (⟨t.node.index, t.activity.generation⟩, c)

/-- Handle an event: run its chains and make the transitions they ask for. If one
fails, the event changes nothing. -/
def handle (m : Machine D) (budget : Nat) (e : Event) : Machine D × Nat × Option MachineError :=
  let m := m.note (.handled e)
  let runs := traverse (m.context e.payload) (m.chainsFor e.name) { base := m.data }
  match runs.findSome? fun r => failure? r.2 with
  | some failure => (m, budget, some (.eval e.name failure))
  | none => moveAll e.payload e.name budget (requestsOf runs) (m.commit e.payload runs)

/-- Handle the events in the queue, at most so many. If there are more, they go. The
result is the first failure, `first` being one from before. -/
def drain (first : Option MachineError) : Nat → Nat → Machine D → Machine D × Option MachineError
  | events, budget, m =>
    match m.queue with
    | [] => (m, first)
    | e :: queue =>
      match events with
      | 0 =>
        ({ m with queue := [] },
          first.or (m.structural (.transitionLoop m.settings.maxTransitions e.name)))
      | events + 1 =>
        let (m, budget, failure) := { m with queue }.handle budget e
        drain (first.or failure) events budget m.flush

/-- Drain the queue at the end of a step that has a budget left. -/
def finish (m : Machine D) (budget : Nat) (first : Option MachineError) :
    Machine D × Option MachineError :=
  m.drain first m.settings.maxTransitions budget

/-- Send an event and handle all it brings about. -/
def send (m : Machine D) (e : Event) : Machine D × Option MachineError :=
  (m.enqueue e).finish m.settings.maxTransitions none

/-- What a repeater is given: the time since it last ran and since it started, in
seconds. -/
def repeatPayload (interval elapsed : Span) : Json :=
  .obj [("elapsed", .float elapsed.toSeconds), ("interval", .float interval.toSeconds)]

/-- Do a task that is due, `interval` after it was last. One whose lease has run out
is dropped. -/
def fire (m : Machine D) (budget : Nat) (owner : Lease) (task : Task) (interval : Span) :
    Machine D × Nat × Option MachineError :=
  if !m.tree.isCurrent owner then (m, budget, none)
  else
    let (payload, event, result) :=
      match task with
      | .resume rest payload =>
        (payload, "wait", m.execute owner.node .resume payload "wait" fun ctx copy =>
          ctx.resume rest copy)
      | .repeating chain started =>
        let elapsed := m.timeline.now.sub started
        let payload := repeatPayload interval elapsed
        (payload, "repeat", m.execute owner.node (.repeating interval elapsed) payload "repeat"
          fun ctx copy => ctx.run chain copy)
    match result with
    | (m, .error e) => (m, budget, some e)
    | (m, .ok requests) => moveAll payload event budget requests m

/-- Do the tasks of a frame in order. A failure of one does not stop the others. -/
def fireAll (interval : Span) : List (Lease × Task) → Nat → Machine D →
    Machine D × Nat × Option MachineError
  | [], budget, m => (m, budget, none)
  | (owner, task) :: rest, budget, m =>
    let (m, budget, failure) := m.fire budget owner task interval
    let (m, budget, later) := fireAll interval rest budget m
    (m, budget, failure.or later)

/-- Do the first thing due up to the horizon, with all it brings about; `none` if
nothing is due. -/
def popStep (m : Machine D) (horizon : Span) : Option (Machine D × Option MachineError) :=
  match m.timeline.popDue horizon with
  | none => none
  | some (due, timeline) =>
    let m := { m with timeline }
    let (m, budget, failure) :=
      match due with
      | .timer owner task period => m.fire m.settings.maxTransitions owner task (period.getD .zero)
      | .frame tasks interval => fireAll interval tasks m.settings.maxTransitions m
    some (m.flush.finish budget failure)

/-- Do all that is due up to the horizon, unless that is more than `limit` things. -/
def popAll (horizon : Span) : Nat → Option MachineError → Machine D →
    Option (Machine D × Option MachineError)
  | limit, first, m =>
    match m.popStep horizon with
    | none => some (m, first)
    | some (m, failure) =>
      match limit with
      | 0 => none
      | limit + 1 => popAll horizon limit (first.or failure) m

/-- Ask every pending operation once. The result is those that settled, in order; the
others stay. -/
def poll (gates : Gates) (m : Machine D) : Machine D × List (Job × Settlement) :=
  let answers := m.jobs.map fun job => (job, job.operation.ask gates job.asked)
  let jobs := answers.filterMap fun (job, answer) =>
    if answer.isNone then some { job with asked := job.asked + 1 } else none
  ({ m with jobs }, answers.filterMap fun (job, answer) => answer.map (job, ·))

/-- Run the chain for a settlement. A rejection without one changes nothing. -/
def settle (m : Machine D) (job : Job) (s : Settlement) : Machine D × Nat × Option MachineError :=
  let (chain, result) :=
    match s with
    | .resolved value => (some job.awaiting.onResolve, value)
    | .rejected reason => (job.awaiting.onReject, reason)
  let budget := m.settings.maxTransitions
  match chain with
  | none => (m, budget, none)
  | some chain =>
    let run ctx copy := Context.run ctx chain copy result
    match m.execute job.owner.node .settlement job.payload "async" run with
    | (m, .error e) => (m, budget, some e)
    | (m, .ok requests) => moveAll job.payload "async" budget requests m

/-- Settle operations in order, each in a step of its own. One whose lease has run
out is dropped. -/
def settleAll (first : Option MachineError) : List (Job × Settlement) → Machine D →
    Machine D × Option MachineError
  | [], m => (m, first)
  | (job, s) :: rest, m =>
    if !m.tree.isCurrent job.owner then settleAll first rest m
    else
      let (m, budget, failure) := m.settle job s
      let (m, failure) := m.finish budget failure
      settleAll (first.or failure) rest m.flush

/-- Poll and settle, again while anything settles, for so many rounds. -/
def settleRounds (gates : Gates) : Nat → Option MachineError → Machine D →
    Machine D × Option MachineError
  | 0, first, m => (m, first)
  | rounds + 1, first, m =>
    match m.poll gates with
    | (m, []) => (m, first)
    | (m, settled) =>
      let (m, first) := settleAll first settled m
      settleRounds gates rounds first m

/-- Poll the pending operations and handle what settles, at most as many rounds as a
step may take transitions, and at least one. -/
def pollOperations (gates : Gates) (m : Machine D) : Machine D × Option MachineError :=
  let (m, failure) := settleRounds gates (max m.settings.maxTransitions 1) none m
  (m.flush, failure)

/-- Move the clock on: do all that is due on the way, in order of time, then poll the
pending operations. `none` if more than `limit` things were due. -/
def advance (limit : Nat) (gates : Gates) (by_ : Span) (m : Machine D) :
    Option (Machine D × Option MachineError) :=
  let horizon := m.timeline.now.add by_
  match popAll horizon limit none m with
  | none => none
  | some (m, first) =>
    let (m, failure) := { m with timeline := m.timeline.settle horizon }.pollOperations gates
    some (m, first.or failure)

/-- The machine of a compiled design before its start. -/
def initial (design : Design D) (settings : Settings) (c : Compiled D) : Machine D where
  design
  settings
  id := c.id
  table := c.table
  tree := c.tree
  data := design.data
  timeline := .new settings.frameInterval
  log := .new settings.logCapacity
  snapshot := { id := c.id, data := design.data, active := [], values := [] }

/-- Enter the states that a machine starts in. -/
def start (m : Machine D) : Except MachineError (Machine D) :=
  let choose := (m.context .null).initialChild m.data
  match m.tree.activate choose (fun _ => false) (.target .fresh) with
  | (_, some e) => .error (.eval "start" e)
  | (tree, none) =>
    let m := { m with tree }.note (.reached tree)
    match forNodes (enter .null "start") (tree.activeNodes.map Tree.node) m with
    | (_, .error e) => .error e
    | (m, .ok requests) =>
      let (m, budget, failure) := moveAll .null "start" m.settings.maxTransitions requests m
      match m.finish budget failure with
      | (_, some e) => .error e
      | (m, none) => .ok m.flush

/-- A machine of a design, under the id of the design or, without one, under a fresh
one. -/
def create (design : Design D) (settings : Settings) (fresh : String) :
    Except MachineError (Machine D) :=
  match design.compile (design.id.getD fresh) with
  | .error problems => .error (.compile problems)
  | .ok c => (initial design settings c).start

/-- A new machine of the same design and settings. -/
def cloneFresh (m : Machine D) (fresh : String) : Except MachineError (Machine D) :=
  create m.design m.settings fresh

/-- A drained queue is empty. -/
theorem drain_queue (first : Option MachineError) (events budget : Nat) (m : Machine D) :
    (m.drain first events budget).1.queue = [] := by
  induction events generalizing first budget m with
  | zero =>
    unfold drain
    split
    · assumption
    · rfl
  | succ events ih =>
    unfold drain
    split
    · assumption
    · exact ih _ _ _

/-- Doing all that is due does not depend on the limit, once that is enough. -/
theorem popAll_mono {horizon : Span} {n k : Nat} (h : n ≤ k) {first : Option MachineError}
    {m : Machine D} {r : Machine D × Option MachineError} (hr : popAll horizon n first m = some r) :
    popAll horizon k first m = some r := by
  induction n generalizing k first m with
  | zero =>
    unfold popAll at hr ⊢
    split at hr
    · exact hr
    · cases hr
  | succ n ih =>
    obtain ⟨k, rfl⟩ : ∃ j, k = j + 1 := ⟨k - 1, by omega⟩
    unfold popAll at hr ⊢
    split at hr
    · exact hr
    · exact ih (by omega) hr

end Machine
end Statechart
