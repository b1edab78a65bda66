/-
# Initial rules

A rule says which child of a branch is entered when nothing else does: a fixed
child, or a decision that gathers results, checks guards, and gives a child or
hands over to another rule. A decision may give no child.

Key definitions: `InitialRule`, `Context.decide`, `Context.initialChild`.
-/
import Statechart.Chain.Run

namespace Statechart

inductive InitialRule where
  | child (name : String)
  | decision (get : List Nat) (guards : Guards) (child : Option String)
      (thenDo otherwise : Option InitialRule)

namespace Context

variable {D : Type} (ctx : Context D)

/-- The child a rule gives, starting from a result. -/
def decide (data : D) : InitialRule → Json → Except FunctionError (Option String)
  | .child name, _ => .ok (some name)
  | .decision get guards child thenDo otherwise, result =>
    match ctx.gather .initial data get result with
    | .error e => .error e
    | .ok result =>
      if ctx.passes data result guards then
        match child, thenDo with
        | some name, _ => .ok (some name)
        | none, some rule => decide data rule result
        | none, none => .ok none
      else
        match otherwise with
        | some rule => decide data rule result
        | none => .ok none

/-- The child a rule gives. -/
def initialChild (data : D) (rule : InitialRule) : Except FunctionError (Option String) :=
  ctx.decide data rule .null

end Context
end Statechart
