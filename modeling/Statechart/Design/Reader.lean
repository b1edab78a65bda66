/-
# Reading designs

A design is written as a JSON value. A dialect says how functions, targets and
lone actions are written in it and whether the states of a state, and the chains of
its events, are an object or a list of pairs; all else is one format. A record of
the format may be an object, whose keys may not repeat, or the list of its fields
in order, from which fields may be missing at the end. Null stands for a field that
may be absent.

In a document every function is a name (`Dialect.document`).

Key definitions: `Dialect`, `Dialect.document`, `Dialect.state?`, `Design.ofText?`.
-/
import Statechart.Design
import Statechart.Json.Reader

namespace Statechart

/-- The double nearest to a number. -/
def Json.number? : Json → Option Float
  | .int i => (Binary64.nearest? i.natAbs 1).map fun x => if i < 0 then -x else x
  | .float x => some x
  | _ => none

/-- What differs between the ways of writing a design. -/
structure Dialect (D : Type) where
  /-- A function of some kind. -/
  ref : (k : Kind) → Json → Option (Definition.Reference (k.Fn D))
  target : Json → Option (Definition.Target D)
  /-- A link that is an action alone. -/
  action : Json → Option (Definition.Reference (Kind.action.Fn D))
  /-- States and events are lists of pairs, not objects. -/
  pairs : Bool

namespace Dialect

variable {D : Type} (dialect : Dialect D)

/-- Every function is a name and every target a path. -/
def document : Dialect D where
  ref _ v := v.str?.map .named
  target v := v.str?.map .path
  action v := v.str?.map .named
  pairs := false

/-- One item, or a list of them. -/
def many {α : Type} (read : Json → Option α) : Json → Option (List α)
  | .arr items => items.mapM read
  | v => (read v).map ([·])

/-- A field that may be absent: null, or what `read` reads. -/
def maybe {α : Type} (read : Json → Option α) : Json → Option (Option α)
  | .null => some none
  | v => (read v).map some

/-- No key of `known` comes twice. -/
def distinct (known : List String) (fields : List (String × Json)) : Bool :=
  ((fields.map (·.1)).filter known.contains).Nodup

def time? (v : Json) : Option (Definition.Delay D) :=
  match v.number? with
  | some x => some (.seconds x)
  | none => (dialect.ref .time v).map .computed

/-- An event to send: its name, or an object with its name and its payload. -/
def send? : Json → Option Event
  | .str name => some { name }
  | .obj fields =>
    if distinct ["event", "payload"] fields then do
      let name ← fields.lookup "event"
      let name ← name.str?
      return { name, payload := ((fields.lookup "payload").getD .null).canonical }
    else none
  | _ => none

/-- Set one of the four clauses; `none` for a key that names none. -/
def guards? (g : Definition.Guards D) (key : String) (v : Json) : Option (Definition.Guards D) :=
  let refs := many (dialect.ref .condition) v
  match key with
  | "if" => refs.map fun all => { g with all }
  | "ifAny" => refs.map fun any => { g with any }
  | "unless" => refs.map fun noneOf => { g with noneOf }
  | "unlessAny" => refs.map fun notAll => { g with notAll }
  | _ => none

/-- The fields of a handler, in order. -/
def handlerKeys : List String :=
  ["get", "if", "ifAny", "unless", "unlessAny", "do", "secretlyDo", "to", "secretlyTo", "send",
    "wait", "break", "then", "else"]

/-- Set a field of a handler other than its chains; `none` for a key that names none. -/
def handler? (h : Definition.Handler D) (key : String) (v : Json) : Option (Definition.Handler D) :=
  match key with
  | "get" => (many (dialect.ref .result) v).map fun get => { h with get }
  | "do" => (many (dialect.ref .action) v).map fun actions => { h with actions }
  | "secretlyDo" => (many (dialect.ref .action) v).map fun secretActions => { h with secretActions }
  | "to" => (many dialect.target v).map fun targets => { h with targets }
  | "secretlyTo" => (many dialect.target v).map fun secretTargets => { h with secretTargets }
  | "send" => (maybe send? v).map fun send => { h with send }
  | "wait" => (maybe dialect.time? v).map fun wait => { h with wait }
  | "break" => (maybe (dialect.ref .condition) v).map fun breakWhen => { h with breakWhen }
  | key => (dialect.guards? h.guards key v).map fun guards => { h with guards }

/-- The handler of some fields. -/
structure HandlerFields (D : Type) where
  body : Definition.Handler D := {}
  thenDo : Option (Definition.Chain D) := none
  otherwise : Option (Definition.Chain D) := none

def HandlerFields.link (h : HandlerFields D) : Definition.Link D :=
  .handler h.body h.thenDo h.otherwise

mutual

/-- A chain. A list is the list of its links, or else a handler by its fields. -/
def chain? : Json → Option (Definition.Chain D)
  | .arr items =>
    match links? items with
    | some links => some (.many links)
    | none => (handlerItems? handlerKeys items {}).map fun h => .one h.link
  | .obj fields => (objectLink? (.obj fields) fields).map .one
  | v => (dialect.action v).map fun ref => .one (.action ref)

/-- A link of a chain. -/
def link? : Json → Option (Definition.Link D)
  | .arr items => (handlerItems? handlerKeys items {}).map HandlerFields.link
  | .obj fields => objectLink? (.obj fields) fields
  | v => (dialect.action v).map .action

def links? : List Json → Option (List (Definition.Link D))
  | [] => some []
  | v :: vs =>
    match link? v with
    | none => none
    | some link => (links? vs).map (link :: ·)

/-- A link that is an object `v` with these fields. -/
def objectLink? (v : Json) (fields : List (String × Json)) : Option (Definition.Link D) :=
  match dialect.action v with
  | some ref => some (.action ref)
  | none =>
    if distinct handlerKeys fields then (handlerFields? fields {}).map HandlerFields.link else none

/-- The fields of a handler; a key that names none is refused. -/
def handlerFields? : List (String × Json) → HandlerFields D → Option (HandlerFields D)
  | [], h => some h
  | (key, v) :: rest, h =>
    match handlerField? h key v with
    | none => none
    | some h => handlerFields? rest h

/-- The fields of a handler, in order. -/
def handlerItems? : List String → List Json → HandlerFields D → Option (HandlerFields D)
  | _, [], h => some h
  | [], _ :: _, _ => none
  | key :: keys, v :: vs, h =>
    match handlerField? h key v with
    | none => none
    | some h => handlerItems? keys vs h

/-- Set a field of a handler. -/
def handlerField? (h : HandlerFields D) (key : String) (v : Json) : Option (HandlerFields D) :=
  if key = "then" || key = "else" then
    let c := match v with
      | .null => some none
      | v => (chain? v).map some
    c.map fun c => if key = "then" then { h with thenDo := c } else { h with otherwise := c }
  else (dialect.handler? h.body key v).map fun body => { h with body }

end

/-- The fields of a decision, in order. -/
def decisionKeys : List String :=
  ["get", "if", "ifAny", "unless", "unlessAny", "to", "then", "else"]

/-- The fields of a decision so far. -/
structure DecisionFields (D : Type) where
  get : List (Definition.Reference (Kind.result.Fn D)) := []
  guards : Definition.Guards D := {}
  child : Option String := none
  thenDo : Option (Definition.Initial D) := none
  otherwise : Option (Definition.Initial D) := none

def DecisionFields.rule (d : DecisionFields D) : Definition.Initial D :=
  .decision d.get d.guards d.child d.thenDo d.otherwise

mutual

/-- An initial rule: the name of a child, or a decision. -/
def initial? : Json → Option (Definition.Initial D)
  | .str name => some (.child name)
  | .arr items => (decisionItems? decisionKeys items {}).map DecisionFields.rule
  | .obj fields =>
    if distinct decisionKeys fields then (decisionFields? fields {}).map DecisionFields.rule
    else none
  | _ => none

/-- The fields of a decision; a key that names none is refused. -/
def decisionFields? : List (String × Json) → DecisionFields D → Option (DecisionFields D)
  | [], d => some d
  | (key, v) :: rest, d =>
    match decisionField? d key v with
    | none => none
    | some d => decisionFields? rest d

/-- The fields of a decision, in order. -/
def decisionItems? : List String → List Json → DecisionFields D → Option (DecisionFields D)
  | _, [], d => some d
  | [], _ :: _, _ => none
  | key :: keys, v :: vs, d =>
    match decisionField? d key v with
    | none => none
    | some d => decisionItems? keys vs d

/-- Set a field of a decision. -/
def decisionField? (d : DecisionFields D) (key : String) (v : Json) : Option (DecisionFields D) :=
  if key = "then" || key = "else" then
    let rule := match v with
      | .null => some none
      | v => (initial? v).map some
    rule.map fun rule =>
      if key = "then" then { d with thenDo := rule } else { d with otherwise := rule }
  else
    match key with
    | "get" => (many (dialect.ref .result) v).map fun get => { d with get }
    | "to" => (maybe Json.str? v).map fun child => { d with child }
    | key => (dialect.guards? d.guards key v).map fun guards => { d with guards }

end

/-- The fields of a record with no others than `keys`. -/
def record? (keys : List String) : Json → Option (List (String × Json))
  | .obj fields =>
    if distinct keys fields && fields.all fun f => keys.contains f.1 then some fields else none
  | .arr items => if items.length ≤ keys.length then some (keys.zip items) else none
  | _ => none

/-- A field of a record that may be absent. -/
def optional? {α : Type} (read : Json → Option α) (key : String) (fields : List (String × Json)) :
    Option (Option α) :=
  maybe read ((fields.lookup key).getD .null)

/-- A field of a record that has to be there. -/
def required? {α : Type} (read : Json → Option α) (key : String) (fields : List (String × Json)) :
    Option α :=
  (fields.lookup key).bind read

def repeater? (v : Json) : Option (Definition.Repeater D) := do
  let fields ← record? ["onRepeat", "delay"] v
  let chain ← required? dialect.chain? "onRepeat" fields
  let delay ← optional? dialect.time? "delay" fields
  return { chain, delay }

def awaiting? (v : Json) : Option (Definition.Awaiting D) := do
  let fields ← record? ["await", "onResolve", "onReject"] v
  let operation ← required? (dialect.ref .operation) "await" fields
  let onResolve ← required? dialect.chain? "onResolve" fields
  let onReject ← optional? dialect.chain? "onReject" fields
  return { operation, onResolve, onReject }

/-- A pair of a name and a value. -/
def pair? : Json → Option (String × Json)
  | .arr [.str name, v] => some (name, v)
  | _ => none

/-- The entries of an object, or of a list of pairs, with their values read. -/
def entries? {α : Type} (read : Json → Option α) (v : Json) : Option (List (String × α)) := do
  let entries ← if dialect.pairs then v.items?.bind (·.mapM pair?) else v.fields?
  entries.mapM fun e => (read e.2).map (e.1, ·)

/-- The fields of a state, in order. -/
def stateKeys : List String :=
  ["initial", "on", "onEnter", "onExit", "onEvent", "repeat", "async", "states"]

/-- Set a field of a state other than its states; a key that names none changes
nothing. -/
def body? (b : Definition.State.Body D) (key : String) (v : Json) :
    Option (Definition.State.Body D) :=
  match key with
  | "initial" => (maybe dialect.initial? v).map fun initial => { b with initial }
  | "on" => (dialect.entries? dialect.chain? v).map fun on => { b with on }
  | "onEnter" => (maybe dialect.chain? v).map fun onEnter => { b with onEnter }
  | "onExit" => (maybe dialect.chain? v).map fun onExit => { b with onExit }
  | "onEvent" => (maybe dialect.chain? v).map fun onEvent => { b with onEvent }
  | "repeat" => (maybe dialect.repeater? v).map fun repeater => { b with repeater }
  | "async" => (maybe dialect.awaiting? v).map fun awaiting => { b with awaiting }
  | _ => some b

mutual

def state? : Json → Option (Definition.State D)
  | .obj fields => if distinct stateKeys fields then stateFields? fields {} [] else none
  | .arr items => stateItems? stateKeys items {} []
  | _ => none

/-- The fields of a state. -/
def stateFields? : List (String × Json) → Definition.State.Body D →
    List (String × Definition.State D) → Option (Definition.State D)
  | [], body, states => some (.mk body states)
  | (key, v) :: rest, body, states =>
    if key = "states" then
      match states? v with
      | none => none
      | some states => stateFields? rest body states
    else
      match dialect.body? body key v with
      | none => none
      | some body => stateFields? rest body states

/-- The fields of a state, in order. -/
def stateItems? : List String → List Json → Definition.State.Body D →
    List (String × Definition.State D) → Option (Definition.State D)
  | _, [], body, states => some (.mk body states)
  | [], _ :: _, _, _ => none
  | key :: keys, v :: vs, body, states =>
    if key = "states" then
      match states? v with
      | none => none
      | some states => stateItems? keys vs body states
    else
      match dialect.body? body key v with
      | none => none
      | some body => stateItems? keys vs body states

/-- The states in a state, in the order in which they are written. -/
def states? : Json → Option (List (String × Definition.State D))
  | .obj fields => if dialect.pairs then none else stateEntries? fields
  | .arr items => if dialect.pairs then statePairs? items else none
  | _ => none

def stateEntries? : List (String × Json) → Option (List (String × Definition.State D))
  | [] => some []
  | (name, v) :: rest =>
    match state? v with
    | none => none
    | some s => (stateEntries? rest).map ((name, s) :: ·)

def statePairs? : List Json → Option (List (String × Definition.State D))
  | [] => some []
  | .arr [.str name, v] :: rest =>
    match state? v with
    | none => none
    | some s => (statePairs? rest).map ((name, s) :: ·)
  | _ => none

end

end Dialect

namespace Design

variable {D : Type}

/-- The id and the root state of a document: an object with the fields of a state and
an id that may be null. -/
def document? (dialect : Dialect D) : Json → Option (Option String × Definition.State D)
  | .obj fields => do
    let ids := fields.filter (·.1 == "id")
    let id ← match ids with
      | [] => some none
      | [(_, v)] => Dialect.maybe Json.str? v
      | _ => none
    let root ← dialect.state? (.obj fields)
    return (id, root)
  | _ => none

/-- The design that a JSON text describes, with the functions its host offers. -/
def ofText? (text : String) (data : D) (host : Host D) : Option (Design D) := do
  let value ← Json.read? text
  let (id, root) ← document? Dialect.document value
  return { id, data, root, host }

end Design
end Statechart
