/-
# Transitions of a machine

A transition enters its target from the root, then leaves the nodes that are no
longer active, the innermost first, and enters the new ones, the outermost first.
The chains run on the way may ask for transitions in turn; these come before the
ones asked for earlier and not yet made. A budget counts the transitions that one
step may still make: it goes down by one with each of them, so a step ends.

Where a function fails, what was done before stays done, and nothing after it is.

Key definitions: `Machine.execute`, `Machine.move`, `Machine.moveAll`.
Key theorems: `Machine.moveAll_nil`, `Machine.moveAll_zero`.
-/
import Statechart.Machine

namespace Statechart
namespace Machine

variable {D : Type}

/-- Run a chain of a node and commit it, or change nothing if it fails. The result is
the transitions it asked for. -/
def execute (m : Machine D) (owner : Nat) (role : Role) (payload : Json) (event : String)
    (run : Context D → WorkingCopy D → Run D) : Machine D × Except MachineError (List Request) :=
  let r := run (m.context payload) { base := m.data }
  let m := m.note (.ran (m.tree.lease owner) role m.timeline.now)
  match r.stop with
  | some (.failed e) => (m, .error (.eval event e))
  | _ =>
    let runs := [(m.tree.lease owner, r)]
    (m.commit payload runs, .ok (requestsOf runs))

/-- Run a chain of a node from its start, if the node has it. -/
def executeChain (m : Machine D) (owner : Nat) (role : Role) (payload : Json) (event : String) :
    Option Chain → Machine D × Except MachineError (List Request)
  | none => (m, .ok [])
  | some chain => m.execute owner role payload event fun ctx copy => ctx.run chain copy

/-- Leave a node that is no longer active: its timers and operations go, then its
exit chain runs. -/
def leave (payload : Json) (event : String) (n : Node) (m : Machine D) :
    Machine D × Except MachineError (List Request) :=
  let m := { m with
    timeline := m.timeline.cancel n.index
    jobs := m.jobs.filter fun job => job.owner.node ≠ n.index }
  m.executeChain n.index .exit payload event n.handlers.onExit

/-- Start the repeater of a node. -/
def startRepeater (m : Machine D) (payload : Json) (owner : Lease) : Option Repeater → Machine D
  | none => m
  | some r =>
    let task := .repeating r.chain m.timeline.now
    let timeline :=
      match r.delay with
      | none => m.timeline.addFrame owner task
      | some d => m.timeline.setInterval owner ((m.context payload).delay m.data .null d) task
    { m with timeline }.note (.deferred owner .repeater)

/-- Launch the operation of a node. -/
def launch (m : Machine D) (payload : Json) (owner : Lease) : Option Awaiting → Machine D
  | none => m
  | some awaiting =>
    let operation := m.table.fn .operation awaiting.operation m.data payload .null
    let job : Job := { owner, awaiting, payload, operation }
    { m with jobs := m.jobs ++ [job] }.note (.deferred owner .operation)

/-- Enter a node that has become active: its repeater starts, its entry chain runs,
and then its operation is launched. -/
def enter (payload : Json) (event : String) (n : Node) (m : Machine D) :
    Machine D × Except MachineError (List Request) :=
  let owner := m.tree.lease n.index
  let m := m.startRepeater payload owner n.handlers.repeater
  match m.executeChain n.index .enter payload event n.handlers.onEnter with
  | (m, .error e) => (m, .error e)
  | (m, .ok requests) => (m.launch payload owner n.handlers.awaiting, .ok requests)

/-- Do something for each node in order, up to the first failure, and collect the
transitions asked for. -/
def forNodes (f : Node → Machine D → Machine D × Except MachineError (List Request)) :
    List Node → Machine D → Machine D × Except MachineError (List Request)
  | [], m => (m, .ok [])
  | n :: ns, m =>
    match f n m with
    | (m, .error e) => (m, .error e)
    | (m, .ok requests) =>
      match forNodes f ns m with
      | (m, .error e) => (m, .error e)
      | (m, .ok more) => (m, .ok (requests ++ more))

/-- Make a transition. The result is the transitions asked for on the way. -/
def move (target : Tree) (recalls : Recall) (payload : Json) (event : String) (m : Machine D) :
    Machine D × Except MachineError (List Request) :=
  let before := m.tree.activeNodes.map Tree.node
  let choose := (m.context payload).initialChild m.data
  match m.tree.activate choose m.tree.wasActive (.down target.node.trail recalls) with
  | (tree, some e) => ({ m with tree }.note (.reached tree), .error (.eval event e))
  | (tree, none) =>
    let exited := before.filter fun n => !tree.activeAt n.index
    let entered := (tree.activeNodes.map Tree.node).filter fun n => !m.tree.wasActive n.index
    let transition : Transition := {
      target := target.node.path
      recalls
      exited := exited.map (·.path)
      entered := entered.map (·.path)
      time := m.timeline.now.nanos }
    let m := ({ m with tree, log := m.log.record transition }.note (.reached tree)).note
      (.moved transition)
    match forNodes (leave payload event) exited.reverse m with
    | (m, .error e) => (m, .error e)
    | (m, .ok requests) =>
      match forNodes (enter payload event) entered m with
      | (m, .error e) => (m, .error e)
      | (m, .ok more) => (m, .ok (requests ++ more))

/-- The first request with a target that there is, with the requests behind it. A
target that there is not is an error, or passed over. -/
def nextTarget (m : Machine D) :
    List Request → Except MachineError (Option (Tree × Recall × List Request))
  | [] => .ok none
  | q :: rest =>
    let target := Target.parse q.target
    match m.tree.resolve target.query with
    | some t => .ok (some (t, target.recalls, rest))
    | none =>
      match m.structural (.unknownTarget q.target) with
      | some e => .error e
      | none => m.nextTarget rest

/-- Make transitions and those they ask for, up to the first failure, within a budget.
The result is what is left of the budget, and the failure. -/
def moveAll (payload : Json) (event : String) : Nat → List Request → Machine D →
    Machine D × Nat × Option MachineError
  | budget, [], m => (m, budget, none)
  | 0, _ :: _, m => (m, 0, m.structural (.transitionLoop m.settings.maxTransitions event))
  | budget + 1, q :: rest, m =>
    match m.nextTarget (q :: rest) with
    | .error e => (m, budget + 1, some e)
    | .ok none => (m, budget + 1, none)
    | .ok (some (target, recalls, rest)) =>
      match m.move target recalls payload event with
      | (m, .error e) => (m, budget, some e)
      | (m, .ok requests) => moveAll payload event budget (requests ++ rest) m

@[simp] theorem moveAll_nil (payload : Json) (event : String) (budget : Nat) (m : Machine D) :
    moveAll payload event budget [] m = (m, budget, none) := by
  cases budget <;> rfl

theorem moveAll_zero (payload : Json) (event : String) (q : Request) (rest : List Request)
    (m : Machine D) : moveAll payload event 0 (q :: rest) m =
      (m, 0, m.structural (.transitionLoop m.settings.maxTransitions event)) := rfl

end Machine
end Statechart
