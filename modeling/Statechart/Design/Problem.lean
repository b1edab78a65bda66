/-
# Problems of a design

What can be wrong with a design, and the search that finds all of it in one pass,
in the order in which a reader meets it: the states inside a state first, then its
initial rule, then its handlers.

Key definitions: `Problem`, `Problem.message`, `Design.problems`.
-/
import Statechart.Design
import Statechart.Path

namespace Statechart

/-- Something wrong with the design of the state at `path`. -/
inductive Problem where
  | initialWithoutStates (path : String)
  | missingEntry (path : String) (kind : Kind) (name : String)
  | unknownInitial (path name : String)
  | invalidStateName (path name : String)
  | duplicateState (path name : String)
  | duplicateEvent (path event : String)
deriving DecidableEq

namespace Problem

def message : Problem → String
  | initialWithoutStates path =>
    "state '" ++ path ++ "' declares an initial state but has no child states"
  | missingEntry path kind name =>
    "state '" ++ path ++ "' references unknown " ++ kind.word ++ " '" ++ name ++ "'"
  | unknownInitial path name =>
    "state '" ++ path ++ "' has no child named '" ++ name ++ "' to start in"
  | invalidStateName path name =>
    "state '" ++ path ++ "' has an invalid child name '" ++ name ++ "'"
  | duplicateState path name =>
    "state '" ++ path ++ "' declares child '" ++ name ++ "' more than once"
  | duplicateEvent path event =>
    "state '" ++ path ++ "' handles event '" ++ event ++ "' more than once"

/-- The message for all problems of a design. -/
def messages (problems : List Problem) : String :=
  "invalid design: " ++ String.intercalate "; " (problems.map message)

end Problem

/-- A name that a state may have: not empty, without a dot, and none of the words that
ask for history. -/
def validStateName (name : String) : Bool :=
  !name.isEmpty && !name.toList.contains '.' && name != Recall.previous.word &&
    name != Recall.restore.word

namespace Host

variable {D : Type} (host : Host D) (path : String)

/-- The problem of a reference: its name is not offered. -/
def missing (k : Kind) : Definition.Reference (k.Fn D) → List Problem
  | .inline _ => []
  | .named name =>
    if ((host.functions k).find? name).isSome then [] else [.missingEntry path k name]

/-- The problems of references, in order. -/
def missingAll (k : Kind) (refs : List (Definition.Reference (k.Fn D))) : List Problem :=
  refs.flatMap (host.missing path k)

def guardsProblems (g : Definition.Guards D) : List Problem :=
  host.missingAll path .condition g.all ++ host.missingAll path .condition g.any ++
    host.missingAll path .condition g.noneOf ++ host.missingAll path .condition g.notAll

def timeProblems : Definition.Delay D → List Problem
  | .seconds _ => []
  | .computed ref => host.missing path .time ref

def handlerProblems (h : Definition.Handler D) : List Problem :=
  host.missingAll path .result h.get ++ host.guardsProblems path h.guards ++
    host.missingAll path .action h.actions ++ host.missingAll path .action h.secretActions ++
    (h.wait.elim [] (host.timeProblems path)) ++
    (h.breakWhen.elim [] (host.missing path .condition))

mutual

def linkProblems : Definition.Link D → List Problem
  | .action ref => host.missing path .action ref
  | .handler body thenDo otherwise =>
    host.handlerProblems path body ++
      (match thenDo with
        | some chain => chainProblems chain
        | none => []) ++
      (match otherwise with
        | some chain => chainProblems chain
        | none => [])

def chainProblems : Definition.Chain D → List Problem
  | .one link => linkProblems link
  | .many links => linksProblems links

def linksProblems : List (Definition.Link D) → List Problem
  | [] => []
  | link :: links => linkProblems link ++ linksProblems links

end

/-- The problem of an initial name: no child has it. -/
def childProblems (children : List String) (name : String) : List Problem :=
  if children.contains name then [] else [.unknownInitial path name]

def initialProblems (children : List String) : Definition.Initial D → List Problem
  | .child name => childProblems path children name
  | .decision get guards child thenDo otherwise =>
    (child.elim [] (childProblems path children)) ++ host.missingAll path .result get ++
      host.guardsProblems path guards ++
      (match thenDo with
        | some rule => initialProblems children rule
        | none => []) ++
      (match otherwise with
        | some rule => initialProblems children rule
        | none => [])

/-- The problems of chains by event. An event that came before is one, after those of
its chain. -/
def eventProblems : List String → List (String × Definition.Chain D) → List Problem
  | _, [] => []
  | seen, (event, chain) :: rest =>
    host.chainProblems path chain ++
      (if seen.contains event then [.duplicateEvent path event] else []) ++
      eventProblems (event :: seen) rest

def bodyProblems (b : Definition.State.Body D) : List Problem :=
  host.eventProblems path [] b.on ++
    (b.repeater.elim [] fun r =>
      host.chainProblems path r.chain ++ r.delay.elim [] (host.timeProblems path)) ++
    (b.awaiting.elim [] fun a =>
      host.chainProblems path a.onResolve ++ a.onReject.elim [] (host.chainProblems path) ++
        host.missing path .operation a.operation) ++
    b.onEnter.elim [] (host.chainProblems path) ++ b.onExit.elim [] (host.chainProblems path) ++
    b.onEvent.elim [] (host.chainProblems path)

/-- The names of the children a state comes to have: those that are valid, each
once. -/
def childNames (states : List (String × Definition.State D)) : List String :=
  ((states.map (·.1)).filter validStateName).eraseDups

/-- The problems of the rule a state starts by: it needs children. -/
def startProblems (initial : Option (Definition.Initial D)) (children : List String) :
    List Problem :=
  match initial with
  | none => []
  | some rule =>
    if children.isEmpty then [.initialWithoutStates path]
    else host.initialProblems path children rule

mutual

def stateProblems (path : String) : Definition.State D → List Problem
  | .mk body states =>
    statesProblems path [] states ++ host.startProblems path body.initial (childNames states) ++
      host.bodyProblems path body

/-- The problems of the states in a state. One whose name is not valid, or was there
before, is not looked into. -/
def statesProblems (path : String) : List String → List (String × Definition.State D) → List Problem
  | _, [] => []
  | seen, (name, state) :: rest =>
    if !validStateName name then .invalidStateName path name :: statesProblems path seen rest
    else if seen.contains name then .duplicateState path name :: statesProblems path seen rest
    else stateProblems (Path.join path name) state ++ statesProblems path (name :: seen) rest

end

end Host

/-- All problems of a design under an id. -/
def Design.problems {D : Type} (d : Design D) (id : String) : List Problem :=
  d.host.stateProblems id d.root

end Statechart
