/-
# Compiling a design

A design without problems becomes a state tree and a table of functions. The
functions go into the table as the design is read: the states inside a state
first, then its initial rule, then its handlers. A function that is referred to by
name has one slot however often it is; an inline one has a slot of its own.

Key definitions: `Compiled`, `Design.compile`, `Host.refer`.
Key theorems: `Design.compile_eq_ok_iff`, `Design.compile_eq_error_iff`.
-/
import Statechart.Design.Problem
import Statechart.Tree

namespace Statechart

/-- A compiled design: the id it is compiled under, its states, none of them active,
and its functions. -/
structure Compiled (D : Type) where
  id : String
  tree : Tree
  table : Table D

/-- A step that adds functions to a table. -/
abbrev Filing (D : Type) := StateM (Table D)

namespace Host

variable {D : Type} (host : Host D)

/-- The place of a function of some kind, which gets a slot unless it is named and
has one. -/
def refer (k : Kind) (ref : Definition.Reference (k.Fn D)) : Filing D Nat := do
  let table ← get
  let slots := table.slots k
  match ref with
  | .inline fn =>
    set (table.withSlots k (slots ++ [{ source := none, fn }]))
    return slots.length
  | .named name =>
    match slots.findIdx? (·.source == some name) with
    | some i => return i
    | none =>
      let fn := ((host.functions k).find? name).getD k.absent
      set (table.withSlots k (slots ++ [{ source := some name, fn }]))
      return slots.length

/-- The places of functions, in order. -/
def referAll (k : Kind) : List (Definition.Reference (k.Fn D)) → Filing D (List Nat)
  | [] => return []
  | ref :: refs => return (← host.refer k ref) :: (← referAll k refs)

def guards (g : Definition.Guards D) : Filing D Guards := do
  let all ← host.referAll .condition g.all
  let any ← host.referAll .condition g.any
  let noneOf ← host.referAll .condition g.noneOf
  let notAll ← host.referAll .condition g.notAll
  return { all, any, noneOf, notAll }

/-- A computed target has a slot of its own. -/
def destination : Definition.Target D → Filing D Destination
  | .path target => return .path target
  | .computed fn => do
    let table ← get
    set { table with targets := table.targets ++ [{ source := none, fn : Slot (TargetFn D) }] }
    return .computed table.targets.length

def destinations : List (Definition.Target D) → Filing D (List Destination)
  | [] => return []
  | target :: rest => return (← destination target) :: (← destinations rest)

def delay : Definition.Delay D → Filing D Delay
  | .seconds x => return .fixed x
  | .computed ref => return .computed (← host.refer .time ref)

/-- Do what there is to do for something that may be absent. -/
def optional {α β : Type} (f : α → Filing D β) : Option α → Filing D (Option β)
  | none => return none
  | some a => return some (← f a)

def handlerBody (h : Definition.Handler D) : Filing D Handler.Body := do
  let get ← host.referAll .result h.get
  let guards ← host.guards h.guards
  let actions ← host.referAll .action h.actions
  let secretActions ← host.referAll .action h.secretActions
  let targets ← destinations h.targets
  let secretTargets ← destinations h.secretTargets
  let wait ← optional host.delay h.wait
  let breakWhen ← optional (host.refer .condition) h.breakWhen
  return {
    get, guards, actions, secretActions, targets, secretTargets, send := h.send, wait, breakWhen }

mutual

def link : Definition.Link D → Filing D Handler
  | .action ref => return .ofAction (← host.refer .action ref)
  | .handler body thenDo otherwise => do
    let body ← host.handlerBody body
    let thenDo ← match thenDo with
      | none => pure none
      | some c => some <$> chain c
    let otherwise ← match otherwise with
      | none => pure none
      | some c => some <$> chain c
    return .mk body thenDo otherwise

def chain : Definition.Chain D → Filing D Chain
  | .one l => return [← link l]
  | .many ls => links ls

def links : List (Definition.Link D) → Filing D Chain
  | [] => return []
  | l :: ls => return (← link l) :: (← links ls)

end

def initial : Definition.Initial D → Filing D InitialRule
  | .child name => return .child name
  | .decision get guards child thenDo otherwise => do
    let get ← host.referAll .result get
    let guards ← host.guards guards
    let thenDo ← match thenDo with
      | none => pure none
      | some rule => some <$> initial rule
    let otherwise ← match otherwise with
      | none => pure none
      | some rule => some <$> initial rule
    return .decision get guards child thenDo otherwise

def events : List (String × Definition.Chain D) → Filing D (List (String × Chain))
  | [] => return []
  | (event, c) :: rest => return (event, ← host.chain c) :: (← events rest)

def repeater (r : Definition.Repeater D) : Filing D Repeater := do
  let chain ← host.chain r.chain
  let delay ← optional host.delay r.delay
  return { chain, delay }

def awaiting (a : Definition.Awaiting D) : Filing D Awaiting := do
  let onResolve ← host.chain a.onResolve
  let onReject ← optional host.chain a.onReject
  let operation ← host.refer .operation a.operation
  return { operation, onResolve, onReject }

def handlers (b : Definition.State.Body D) : Filing D Handlers := do
  let on ← host.events b.on
  let repeater ← optional host.repeater b.repeater
  let awaiting ← optional host.awaiting b.awaiting
  let onEnter ← optional host.chain b.onEnter
  let onExit ← optional host.chain b.onExit
  let onEvent ← optional host.chain b.onEvent
  return { on, onEnter, onExit, onEvent, repeater, awaiting }

/-- What a state does with its children: nothing without any, its rule if it has one,
and all of them otherwise. -/
def shape (b : Definition.State.Body D) (children : List Tree) : Filing D Shape :=
  match b.initial with
  | none => return if children.isEmpty then .leaf else .parallel
  | some rule => return .branch (← host.initial rule)

mutual

/-- The tree of a state; its first node takes the place `first`, and the state itself
the last. -/
def state (name path : String) (trail : List String) (first : Nat) :
    Definition.State D → Filing D Tree
  | .mk body states => do
    let children ← children path trail first states
    let shape ← host.shape body children
    let handlers ← host.handlers body
    let index := first + (children.map Tree.size).sum
    return .mk { index, name, path, trail, shape, handlers } {} children

/-- The trees of the states in a state, in order. -/
def children (path : String) (trail : List String) (first : Nat) :
    List (String × Definition.State D) → Filing D (List Tree)
  | [] => return []
  | (name, def_) :: rest => do
    let t ← state name (Path.join path name) (trail ++ [name]) first def_
    let ts ← children path trail (first + t.size) rest
    return t :: ts

end

end Host

namespace Design

variable {D : Type}

/-- The tree and the table of a design that has no problems. -/
def build (d : Design D) (id : String) : Compiled D :=
  let (tree, table) := (d.host.state id id [] 0 d.root).run {}
  { id, tree, table := { table with values := d.host.values } }

/-- Compile a design under an id, or tell all its problems. -/
def compile (d : Design D) (id : String) : Except (List Problem) (Compiled D) :=
  match d.problems id with
  | [] => .ok (d.build id)
  | problems => .error problems

theorem compile_eq_ok_iff {d : Design D} {id : String} {c : Compiled D} :
    d.compile id = .ok c ↔ d.problems id = [] ∧ c = d.build id := by
  unfold compile
  split
  · rename_i h
    simp only [Except.ok.injEq, h, true_and]
    exact eq_comm
  · rename_i h
    simp only [reduceCtorEq, false_iff, not_and]
    exact fun e => absurd e h

theorem compile_eq_error_iff {d : Design D} {id : String} {ps : List Problem} :
    d.compile id = .error ps ↔ ps ≠ [] ∧ d.problems id = ps := by
  unfold compile
  split
  · rename_i h
    simp only [reduceCtorEq, h, false_iff, not_and]
    exact fun hne e => hne e.symm
  · rename_i h
    simp only [Except.error.injEq]
    exact ⟨fun e => ⟨e ▸ h, e⟩, fun e => e.2⟩

end Design
end Statechart
