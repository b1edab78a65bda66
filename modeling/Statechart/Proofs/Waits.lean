/-
# The waits in a chain

The handlers of a chain at every depth, the waits among them, and the chain with
its waits taken out: the same handlers, at the same places, none of which waits.

Key definitions: `Chain.bodies`, `Chain.waits`, `Chain.unwaited`.
Key theorems: `Chain.waits_unwaited`.
-/
import Statechart.Chain.Run

namespace Statechart

mutual

/-- The handlers in the chains of a handler, at every depth, without their chains. -/
def Handler.inner : Handler → List Handler.Body
  | .mk _ thenDo otherwise =>
    (match thenDo with
      | none => []
      | some chain => Chain.bodies chain) ++
    (match otherwise with
      | none => []
      | some chain => Chain.bodies chain)

/-- The handlers of a chain at every depth, without their chains, each before those in
it. -/
def Chain.bodies : List Handler → List Handler.Body
  | [] => []
  | h :: rest => h.body :: (h.inner ++ Chain.bodies rest)

end

mutual

/-- A handler that does not wait, with no wait in its chains either. -/
def Handler.unwaited : Handler → Handler
  | .mk body thenDo otherwise =>
    .mk { body with wait := none }
      (match thenDo with
        | none => none
        | some chain => some (Chain.unwaited chain))
      (match otherwise with
        | none => none
        | some chain => some (Chain.unwaited chain))

/-- A chain without its waits, at every depth. -/
def Chain.unwaited : List Handler → List Handler
  | [] => []
  | h :: rest => h.unwaited :: Chain.unwaited rest

end

/-- How many of some handlers wait. -/
def Handler.Body.waits (bodies : List Handler.Body) : Nat := bodies.countP (·.wait.isSome)

/-- How many handlers of a chain wait, at every depth. -/
def Chain.waits (chain : Chain) : Nat := Handler.Body.waits (Chain.bodies chain)

namespace Handler

theorem inner_mk (body : Body) (thenDo otherwise : Option Chain) :
    (mk body thenDo otherwise).inner =
      thenDo.elim [] Chain.bodies ++ otherwise.elim [] Chain.bodies := by
  cases thenDo <;> cases otherwise <;> rfl

theorem unwaited_mk (body : Body) (thenDo otherwise : Option Chain) :
    (mk body thenDo otherwise).unwaited =
      mk { body with wait := none } (thenDo.map Chain.unwaited) (otherwise.map Chain.unwaited) := by
  cases thenDo <;> cases otherwise <;> rfl

@[simp] theorem wait_unwaited (h : Handler) : h.unwaited.body.wait = none := by
  obtain ⟨body, thenDo, otherwise⟩ := h
  rfl

@[simp] theorem Body.waits_nil : Body.waits [] = 0 := rfl

@[simp] theorem Body.waits_cons (b : Body) (bodies : List Body) :
    Body.waits (b :: bodies) = Body.waits bodies + if b.wait.isSome then 1 else 0 :=
  List.countP_cons

@[simp] theorem Body.waits_append (bodies more : List Body) :
    Body.waits (bodies ++ more) = Body.waits bodies + Body.waits more := List.countP_append

end Handler

namespace Chain

theorem waits_cons (h : Handler) (rest : Chain) : waits (h :: rest) =
    (if h.body.wait.isSome then 1 else 0) + Handler.Body.waits h.inner + waits rest := by
  simp only [waits, bodies, Handler.Body.waits_cons, Handler.Body.waits_append]
  omega

theorem unwaited_append : ∀ chain more : Chain,
    unwaited (chain ++ more) = unwaited chain ++ unwaited more
  | [], _ => rfl
  | h :: rest, more => by simp [unwaited, unwaited_append rest more]

/-- Nothing in a chain without its waits waits. -/
theorem waits_unwaited (chain : Chain) : waits (unwaited chain) = 0 := by
  induction chain using Chain.induction with
  | nil => rfl
  | cons body thenDo otherwise rest ihThen ihElse ih =>
    have inner : ∀ o : Option Chain, (∀ c, o = some c → waits (unwaited c) = 0) →
        Handler.Body.waits ((o.map unwaited).elim [] bodies) = 0 := by
      rintro (_ | c) h
      · rfl
      · exact h c rfl
    rw [unwaited, waits_cons, ih, Handler.unwaited_mk, Handler.inner_mk, Handler.Body.waits_append,
      inner thenDo ihThen, inner otherwise ihElse]
    rfl

end Chain
end Statechart
