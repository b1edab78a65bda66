/-
# Handler chains

A chain is a list of handlers, run one after another. A handler first gathers
results, then checks its guards. If they pass it acts, sends an event, and either
asks for transitions or runs its `then` chain and checks whether to break off; if
they fail it runs its `else` chain. A handler may have to wait before any of it.

Key definitions: `Handler`, `Chain`, `Handler.body`, `Request`, `Event`.
Key theorems: `Chain.induction`.
-/
import Statechart.Guards
import Statechart.Json

namespace Statechart

/-- An event with its payload. -/
structure Event where
  name : String
  payload : Json := .null

/-- A transition asked for. A secret one obliges nobody to a notification. -/
structure Request where
  target : String
  secret : Bool
deriving DecidableEq

/-- Where a handler sends the machine: a target, or a function that gives one. -/
inductive Destination where
  | path (target : String)
  | computed (fn : Nat)
deriving DecidableEq

/-- How long a handler waits: seconds, or a function that gives them. -/
inductive Delay where
  | fixed (seconds : Float)
  | computed (fn : Nat)

/-- A handler without the chains inside it. Functions are given by their place in
the table. -/
structure Handler.Body where
  get : List Nat := []
  guards : Guards := {}
  actions : List Nat := []
  secretActions : List Nat := []
  targets : List Destination := []
  secretTargets : List Destination := []
  send : Option Event := none
  wait : Option Delay := none
  breakWhen : Option Nat := none

/-- A handler, with the chains it runs if its guards pass and if they fail. -/
inductive Handler where
  | mk (body : Handler.Body) (thenDo : Option (List Handler)) (otherwise : Option (List Handler))

/-- Handlers in the order in which they run. -/
abbrev Chain := List Handler

namespace Handler

def body : Handler → Body
  | mk body _ _ => body

/-- The chain to run if the guards pass. -/
def thenDo : Handler → Option Chain
  | mk _ thenDo _ => thenDo

/-- The chain to run if the guards fail. -/
def otherwise : Handler → Option Chain
  | mk _ _ otherwise => otherwise

/-- The handler asks for transitions. -/
def Body.moves (b : Body) : Bool := !b.targets.isEmpty || !b.secretTargets.isEmpty

/-- The handler of a single action. -/
def ofAction (fn : Nat) : Handler := mk { actions := [fn] } none none

end Handler

/-- What holds of no handlers, and of a handler before others if it holds of the
others and of the chains inside the handler, holds of every chain. -/
@[elab_as_elim]
theorem Chain.induction {P : Chain → Prop} (nil : P [])
    (cons : ∀ body thenDo otherwise rest, (∀ c, thenDo = some c → P c) →
      (∀ c, otherwise = some c → P c) → P rest → P (.mk body thenDo otherwise :: rest)) :
    ∀ chain, P chain := by
  refine Handler.rec_2 (motive_1 := fun h => ∀ rest, P rest → P (h :: rest))
    (motive_2 := fun o => ∀ c, o = some c → P c) (motive_3 := P) ?_ ?_ ?_ nil ?_
  · exact fun body thenDo otherwise ht ho rest hr => cons body thenDo otherwise rest ht ho hr
  · exact fun c h => nomatch h
  · rintro c hc _ ⟨⟩
    exact hc
  · exact fun h rest hh hr => hh rest hr

end Statechart
