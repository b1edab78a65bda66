/-
# Hosts and designs with scripts

The functions of a host, and the inline functions of a design, given as scripts. An
inline function is an object: under `try` a script that may fail, under `fn` one
that never does, giving null, no text, zero or false instead of raising, and
keeping what an action changed.

Key definitions: `Script.host`, `Script.dialect`, `Script.design?`.
-/
import Statechart.Design.Reader
import Statechart.Script

namespace Statechart
namespace Script

/-- The value of a script. -/
def value (script : Json) (data payload result : Json) : Except String Json :=
  (Expr.ofJson script).eval ⟨data, payload, result⟩

/-- Seconds: a number, or a word for what JSON cannot write. -/
def seconds : Json → Float
  | .str "nan" => Float.ofBits 0x7ff8000000000000
  | .str "inf" => Float.ofBits 0x7ff0000000000000
  | .str "-inf" => Float.ofBits 0xfff0000000000000
  | v => v.number?.getD 0.0

def result (script : Json) : Kind.result.Fn Json := value script

/-- A condition holds when its script is `true`. -/
def condition (script : Json) : Kind.condition.Fn Json := fun data payload result =>
  ((value script data payload result).toOption.map Json.isTrue).getD false

def action (script : Json) : Kind.action.Fn Json := fun data payload result =>
  run payload result data (Stmt.ofBody script)

def time (script : Json) : Kind.time.Fn Json := fun data payload result =>
  ((value script data payload result).toOption.map seconds).getD 0.0

/-- A target is the text of a value. -/
def target (script : Json) : TargetFn Json := fun data payload result =>
  (value script data payload result).map text

/-- A derived value sees the data alone. -/
def derived (script : Json) : ValueFn Json := fun data =>
  ((value script data .null .null).toOption).getD .null

/-- An operation pends for some polls, then until its gate is open, whose settlement
is its own; without a gate it settles as its script said when it was launched. -/
def operation (spec : Json) : Kind.operation.Fn Json := fun data payload result =>
  let polls := (toInt ((spec.field? "polls").getD .null)).toNat
  let gate := (spec.field? "gate").bind Json.str?
  let settlement : Settlement :=
    match spec.field? "err" with
    | some script =>
      match value script data payload result with
      | .ok reason => .rejected reason
      | .error e => .rejected (.str e)
    | none =>
      match value ((spec.field? "ok").getD .null) data payload result with
      | .ok v => .resolved v
      | .error e => .rejected (.str e)
  { ask := fun gates asked =>
      if asked < polls then none
      else
        match gate with
        | some gate => gates.find? gate
        | none => some settlement }

/-- A function of some kind that may fail. -/
def function : (k : Kind) → Json → k.Fn Json
  | .result => result
  | .condition => condition
  | .action => action
  | .time => time
  | .operation => operation

/-- A function of some kind that does not fail. -/
def infallible : (k : Kind) → Json → k.Fn Json
  | .result => fun script data payload before =>
    .ok ((result script data payload before).toOption.getD .null)
  | .action => fun script data payload before => ((action script data payload before).1, none)
  | k => function k

/-- The functions under a key, by name. -/
def functionsUnder {F : Type} (make : Json → F) (fns : Json) (key : String) : Registry F :=
  .ofList ((((fns.field? key).bind Json.fields?).getD []).map fun f => (f.1, make f.2))

/-- The key under which the functions of a kind are given. -/
def keyOf : Kind → String
  | .result => "results"
  | .condition => "conditions"
  | .action => "actions"
  | .time => "times"
  | .operation => "asyncs"

/-- The host with the functions that a value gives. -/
def host (fns : Json) : Host Json where
  functions k := functionsUnder (function k) fns (keyOf k)
  values := functionsUnder derived fns "values"

/-- A name, or an inline function. -/
def ref? (k : Kind) : Json → Option (Definition.Reference (k.Fn Json))
  | .str name => some (.named name)
  | .obj [("fn", script)] => some (.inline (infallible k script))
  | .obj [("try", script)] => some (.inline (function k script))
  | _ => none

/-- A path, or an inline function that gives one. -/
def target? : Json → Option (Definition.Target Json)
  | .str path => some (.path path)
  | .obj [("fn", script)] =>
    some (.computed fun data payload result =>
      .ok ((target script data payload result).toOption.getD ""))
  | .obj [("try", script)] => some (.computed (target script))
  | _ => none

/-- A link that is an action alone: its name, or its script under `run` or `try`. -/
def action? : Json → Option (Definition.Reference (Kind.action.Fn Json))
  | .str name => some (.named name)
  | .obj [("run", script)] => some (.inline (infallible .action script))
  | .obj [("try", script)] => some (.inline (function .action script))
  | _ => none

/-- Designs with inline scripts; states and events are lists of pairs. -/
def dialect : Dialect Json where
  ref := ref?
  target := target?
  action := action?
  pairs := true

/-- The design with inline scripts that a value gives. -/
def design? (root : Json) (id : Option String) (data : Json) (host : Host Json) :
    Option (Design Json) :=
  (dialect.state? root).map fun root => { id, data, root, host }

end Script
end Statechart
