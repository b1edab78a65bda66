/-
# Running a chain

A run takes a copy of the data through a chain, with one payload, and collects
what the chain asks for: transitions, events, a notification. It stops for one of
three reasons: a handler asked for transitions or broke off, a handler has to wait,
or a function failed. A waiting run leaves a continuation, which a later run picks
up with a copy of its own.

A continuation is a stack of frames, the innermost first: in each, the handlers of
one chain before and after the handler it is at, and what of that handler is left.

Key definitions: `Context`, `Run`, `Continuation`, `Context.run`, `Context.resume`,
`Context.wouldPass`.
Key theorems: `Frame.chain_length`, `Frame.index_lt`.
-/
import Statechart.Chain
import Statechart.WorkingCopy
import Statechart.Span
import Statechart.Table

namespace Statechart

/-- Where in a handler a frame goes on: at its start with the wait over, or after its
`then` chain, or after its `else` chain. -/
inductive ResumePoint where
  | wait
  | thenDone
  | elseDone
deriving DecidableEq

/-- One level of a waiting chain: the handlers gone by, the handler it is at, and
those to come. -/
structure Frame where
  before : List Handler
  handler : Handler
  rest : List Handler
  point : ResumePoint

namespace Frame

/-- The chain the frame is in. -/
def chain (f : Frame) : Chain := f.before ++ f.handler :: f.rest

/-- The place of the frame's handler in its chain. -/
def index (f : Frame) : Nat := f.before.length

theorem chain_length (f : Frame) : f.chain.length = f.index + 1 + f.rest.length := by
  simp [chain, index]; omega

theorem index_lt (f : Frame) : f.index < f.chain.length := by
  rw [chain_length]; omega

end Frame

/-- The rest of a waiting chain, and how long it waits. -/
structure Continuation where
  frames : List Frame
  delay : Span

/-- Why a run stopped. -/
inductive Stop where
  | broke
  | suspended (rest : Continuation)
  | failed (error : FunctionError)

/-- A run so far. `passed` are the handlers whose guards passed, in order. -/
structure Run (D : Type) where
  copy : WorkingCopy D
  result : Json := .null
  notify : Bool := false
  requests : List Request := []
  sends : List Event := []
  passed : List Handler := []
  stop : Option Stop := none

namespace Run

variable {D : Type}

/-- A run that has begun with nothing but a copy and a result. -/
def start (copy : WorkingCopy D) (result : Json := .null) : Run D := { copy, result }

def isStopped (r : Run D) : Bool := r.stop.isSome

def fail (r : Run D) (e : FunctionError) : Run D := { r with stop := some (.failed e) }

/-- The run stopped for a transition or a break. -/
def broke (r : Run D) : Bool :=
  match r.stop with
  | some .broke => true
  | _ => false

/-- What is left of a run that waits. -/
def continuation? (r : Run D) : Option Continuation :=
  match r.stop with
  | some (.suspended c) => some c
  | _ => none

/-- Put frames around what is left of a run that waits. -/
def enclose (r : Run D) (outer : List Frame) : Run D :=
  match r.stop with
  | some (.suspended c) =>
    { r with stop := some (.suspended { c with frames := c.frames ++ outer }) }
  | _ => r

end Run

/-- What a run calls functions with: the table and the payload. -/
structure Context (D : Type) where
  table : Table D
  payload : Json

namespace Context

variable {D : Type} (ctx : Context D)

/-- Call result functions in order, each with the result of the one before. -/
def gather (stage : Purpose) (data : D) : List Nat → Json → Except FunctionError Json
  | [], result => .ok result
  | i :: is, result =>
    match ctx.table.fn .result i data ctx.payload result with
    | .ok result => gather stage data is result
    | .error text => .error ⟨stage, ctx.table.nameOf .result i, text⟩

/-- The condition at a place holds. -/
def holds (data : D) (result : Json) (i : Nat) : Bool :=
  ctx.table.fn .condition i data ctx.payload result

/-- The guards pass. -/
def passes (data : D) (result : Json) (guards : Guards) : Bool :=
  guards.check (ctx.holds data result)

/-- How long a delay is. -/
def delay (data : D) (result : Json) : Delay → Span
  | .fixed seconds => .ofSeconds seconds
  | .computed i => .ofSeconds (ctx.table.fn .time i data ctx.payload result)

/-- The target of a destination. -/
def target (data : D) (result : Json) : Destination → Except FunctionError String
  | .path target => .ok target
  | .computed i =>
    match (ctx.table.target i).fn data ctx.payload result with
    | .ok target => .ok target
    | .error text => .error ⟨.transition, ctx.table.targetName i, text⟩

/-- The requests for destinations, all secret or none. -/
def requests (data : D) (result : Json) (secret : Bool) :
    List Destination → Except FunctionError (List Request)
  | [] => .ok []
  | d :: ds =>
    match ctx.target data result d with
    | .error e => .error e
    | .ok target => (requests data result secret ds).map (⟨target, secret⟩ :: ·)

/-- Call actions in order on the copy. An action that is not secret obliges to a
notification once it is done. -/
def act (stage : Purpose) : List Nat → Run D → Run D
  | [], r => r
  | i :: is, r =>
    let (data, failure) := ctx.table.fn .action i r.copy.value ctx.payload r.result
    let r := { r with copy := r.copy.write data }
    match failure with
    | some text => r.fail ⟨stage, ctx.table.nameOf .action i, text⟩
    | none => act stage is { r with notify := r.notify || stage = .action }

/-- What a handler does first when its guards pass: its actions, then its event. -/
def enact (h : Handler) (r : Run D) : Run D :=
  let r := ctx.act .action h.body.actions { r with passed := r.passed ++ [h] }
  if r.isStopped then r
  else
    let r := ctx.act .secretAction h.body.secretActions r
    if r.isStopped then r else { r with sends := r.sends ++ h.body.send.toList }

/-- Ask for the transitions of a handler, which ends the run. -/
def move (b : Handler.Body) (r : Run D) : Run D :=
  match ctx.requests r.copy.value r.result false b.targets,
    ctx.requests r.copy.value r.result true b.secretTargets with
  | .error e, _ => r.fail e
  | .ok _, .error e => r.fail e
  | .ok open_, .ok secret =>
    { r with
      requests := r.requests ++ open_ ++ secret
      notify := r.notify || !b.targets.isEmpty
      stop := some .broke }

/-- Break off if the handler's break condition holds. -/
def checkBreak (b : Handler.Body) (r : Run D) : Run D :=
  match b.breakWhen with
  | none => r
  | some i => if ctx.holds r.copy.value r.result i then { r with stop := some .broke } else r

mutual

/-- Run the handlers after those gone by. -/
def runChain (before : List Handler) : List Handler → Run D → Run D
  | [], r => r
  | h :: rest, r =>
    match h.body.wait with
    | some d =>
      { r with stop := some (.suspended {
          frames := [⟨before, h, rest, .wait⟩]
          delay := ctx.delay r.copy.value r.result d }) }
    | none =>
      let r := runHandler before rest h r
      if r.isStopped then r else runChain (before ++ [h]) rest r

/-- Run one handler of a chain, its wait over. -/
def runHandler (before rest : List Handler) : Handler → Run D → Run D
  | .mk body thenDo otherwise, r =>
    match ctx.gather .result r.copy.value body.get r.result with
    | .error e => r.fail e
    | .ok result =>
      let h := Handler.mk body thenDo otherwise
      let r := { r with result }
      if ctx.passes r.copy.value result body.guards then
        let r := ctx.enact h r
        if r.isStopped then r
        else if body.moves then ctx.move body r
        else
          match thenDo with
          | none => ctx.checkBreak body r
          | some chain =>
            let r := (runChain [] chain r).enclose [⟨before, h, rest, .thenDone⟩]
            if r.isStopped then r else ctx.checkBreak body r
      else
        match otherwise with
        | none => r
        | some chain => (runChain [] chain r).enclose [⟨before, h, rest, .elseDone⟩]

end

/-- Run a chain from its first handler. -/
def run (chain : Chain) (copy : WorkingCopy D) (result : Json := .null) : Run D :=
  ctx.runChain [] chain (.start copy result)

/-- Do what is left of a frame's handler. -/
def finish (f : Frame) (r : Run D) : Run D :=
  match f.point with
  | .wait => ctx.runHandler f.before f.rest f.handler r
  | .thenDone => ctx.checkBreak f.handler.body r
  | .elseDone => r

/-- Do what is left of a frame. -/
def resumeFrame (f : Frame) (r : Run D) : Run D :=
  let r := ctx.finish f r
  if r.isStopped then r else ctx.runChain (f.before ++ [f.handler]) f.rest r

/-- Do what is left of the frames, the first one first. -/
def resumeFrames : List Frame → Run D → Run D
  | [], r => r
  | f :: outer, r =>
    let r := ctx.resumeFrame f r
    if r.isStopped then r.enclose outer else resumeFrames outer r

/-- Pick up a waiting chain. The result before the wait is not kept. -/
def resume (c : Continuation) (copy : WorkingCopy D) : Run D :=
  ctx.resumeFrames c.frames (.start copy)

/-- The guards of some handler pass, as far as that can be told without acting: on
the data as they are, `else` chains looked into and waits passed over. -/
def probe (data : D) : List Handler → Json → Except FunctionError Bool
  | [], _ => .ok false
  | .mk body _ otherwise :: rest, result =>
    match ctx.gather .result data body.get result with
    | .error e => .error e
    | .ok result =>
      if ctx.passes data result body.guards then .ok true
      else
        match otherwise with
        | none => probe data rest result
        | some chain =>
          match probe data chain result with
          | .error e => .error e
          | .ok true => .ok true
          | .ok false => probe data rest result

/-- Some handler of the chain would pass its guards. -/
def wouldPass (data : D) (chain : Chain) : Except FunctionError Bool := ctx.probe data chain .null

end Context
end Statechart
