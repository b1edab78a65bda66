/-
# Definitions of states

What a design says of a state: its initial rule, the chains for its events, for
entering and leaving it, its repeater, its operation and the states in it. A
definition refers to a function by name or holds it inline.

Key definitions: `Definition.Reference`, `Definition.Link`, `Definition.Chain`,
`Definition.Initial`, `Definition.State`.
-/
import Statechart.Chain
import Statechart.Table

namespace Statechart
namespace Definition

/-- A function, by name or inline. -/
inductive Reference (F : Type) where
  | named (name : String)
  | inline (fn : F)

/-- A target, or a function that gives one. -/
inductive Target (D : Type) where
  | path (target : String)
  | computed (fn : TargetFn D)

/-- Seconds, or a function that gives them. -/
inductive Delay (D : Type) where
  | seconds (x : Float)
  | computed (ref : Reference (Kind.time.Fn D))

/-- The four clauses of guards. -/
structure Guards (D : Type) where
  all : List (Reference (Kind.condition.Fn D)) := []
  any : List (Reference (Kind.condition.Fn D)) := []
  noneOf : List (Reference (Kind.condition.Fn D)) := []
  notAll : List (Reference (Kind.condition.Fn D)) := []

/-- A handler without the chains inside it. -/
structure Handler (D : Type) where
  get : List (Reference (Kind.result.Fn D)) := []
  guards : Guards D := {}
  actions : List (Reference (Kind.action.Fn D)) := []
  secretActions : List (Reference (Kind.action.Fn D)) := []
  targets : List (Target D) := []
  secretTargets : List (Target D) := []
  send : Option Event := none
  wait : Option (Delay D) := none
  breakWhen : Option (Reference (Kind.condition.Fn D)) := none

mutual

/-- A link of a chain: an action alone, or a handler with its chains. -/
inductive Link (D : Type) where
  | action (ref : Reference (Kind.action.Fn D))
  | handler (body : Handler D) (thenDo otherwise : Option (Chain D))

/-- A chain: one link, or a list of links. -/
inductive Chain (D : Type) where
  | one (link : Link D)
  | many (links : List (Link D))

end

/-- The links of a chain. -/
def Chain.links {D : Type} : Chain D → List (Link D)
  | one link => [link]
  | many links => links

inductive Initial (D : Type) where
  | child (name : String)
  | decision (get : List (Reference (Kind.result.Fn D))) (guards : Guards D) (child : Option String)
      (thenDo otherwise : Option (Initial D))

structure Repeater (D : Type) where
  chain : Chain D
  delay : Option (Delay D) := none

structure Awaiting (D : Type) where
  operation : Reference (Kind.operation.Fn D)
  onResolve : Chain D
  onReject : Option (Chain D) := none

/-- A state without the states in it. -/
structure State.Body (D : Type) where
  initial : Option (Initial D) := none
  on : List (String × Chain D) := []
  onEnter : Option (Chain D) := none
  onExit : Option (Chain D) := none
  onEvent : Option (Chain D) := none
  repeater : Option (Repeater D) := none
  awaiting : Option (Awaiting D) := none

inductive State (D : Type) where
  | mk (body : State.Body D) (states : List (String × State D))

namespace State

variable {D : Type}

def body : State D → Body D
  | mk body _ => body

/-- The states in a state, by name, in the order in which they were given. -/
def states : State D → List (String × State D)
  | mk _ states => states

end State

end Definition
end Statechart
