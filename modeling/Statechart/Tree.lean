/-
# State trees

A tree holds the states of a compiled design: what each is, fixed once and for
all, and its activity, which changes. A branch has one active child while it is
active, a parallel state all of them.

Key definitions: `Tree`, `Tree.preorder`, `Tree.activeNodes`, `Tree.find?`,
`Tree.resolve`, `Tree.lease`, `Tree.isCurrent`.
Key theorems: `Tree.resolve_eq_none_iff`, `Tree.selects_of_resolve`.
-/
import Statechart.InitialRule
import Statechart.Lease
import Statechart.Path

namespace Statechart

/-- What a node does with its children. -/
inductive Shape where
  | leaf
  | branch (initial : InitialRule)
  | parallel

def Shape.isParallel : Shape → Bool
  | .parallel => true
  | _ => false

/-- A chain that is run again and again: with a delay between, or every frame. -/
structure Repeater where
  chain : Chain
  delay : Option Delay

/-- An operation that is launched on entry, with the chains for its settlement. -/
structure Awaiting where
  operation : Nat
  onResolve : Chain
  onReject : Option Chain

structure Handlers where
  on : List (String × Chain) := []
  onEnter : Option Chain := none
  onExit : Option Chain := none
  onEvent : Option Chain := none
  repeater : Option Repeater := none
  awaiting : Option Awaiting := none

/-- The chains for an event: the one under its name, then the one for every event. -/
def Handlers.chains (h : Handlers) (event : String) : List Chain :=
  (h.on.lookup event).toList ++ h.onEvent.toList

/-- What a state is: its place in the table of nodes, its name, its path, the names
below the root that lead to it, its shape and its handlers. -/
structure Node where
  index : Nat
  name : String
  path : String
  trail : List String
  shape : Shape
  handlers : Handlers

/-- How far below the root a node is. -/
def Node.depth (n : Node) : Nat := n.trail.length

/-- The changing part of a node: whether it is active, how often it was activated
and deactivated, and the names of the children a branch entered, latest last. -/
structure Activity where
  active : Bool := false
  generation : Nat := 0
  history : List String := []
deriving DecidableEq

inductive Tree where
  | mk (node : Node) (activity : Activity) (children : List Tree)

namespace Tree

def node : Tree → Node
  | mk node _ _ => node

def activity : Tree → Activity
  | mk _ activity _ => activity

def children : Tree → List Tree
  | mk _ _ children => children

def isActive (t : Tree) : Bool := t.activity.active

mutual

/-- Every node with what is below it, a parent before its children. -/
def preorder : Tree → List Tree
  | mk node activity children => mk node activity children :: preorderAll children

def preorderAll : List Tree → List Tree
  | [] => []
  | t :: ts => preorder t ++ preorderAll ts

end

mutual

/-- The active nodes that are reached through active nodes, in pre-order. -/
def activeNodes : Tree → List Tree
  | mk node activity children =>
    if activity.active then mk node activity children :: activeNodesAll children else []

def activeNodesAll : List Tree → List Tree
  | [] => []
  | t :: ts => activeNodes t ++ activeNodesAll ts

end

/-- The paths of the active nodes. -/
def activePaths (t : Tree) : List String := t.activeNodes.map (·.node.path)

/-- How many nodes there are. -/
def size (t : Tree) : Nat := t.preorder.length

/-- The node at a place. -/
def find? (t : Tree) (index : Nat) : Option Tree := t.preorder.find? (·.node.index == index)

/-- Where in a list of children the one of a name is. -/
def named (children : List Tree) (name : String) : Option Nat :=
  children.findIdx? (·.node.name == name)

/-- The child of a name. -/
def child? (t : Tree) (name : String) : Option Tree := t.children.find? (·.node.name == name)

/-- The nodes that a query selects, in pre-order. -/
def targets (t : Tree) (query : String) : List Tree :=
  t.preorder.filter fun u => Path.selects query u.node.path

/-- The deepest of some nodes, the last one of those. -/
def deepest : List Tree → Option Tree
  | [] => none
  | t :: ts =>
    match deepest ts with
    | some u => if t.node.depth ≤ u.node.depth then some u else some t
    | none => some t

/-- The node that a query stands for: the deepest it selects, the last one of those. -/
def resolve (t : Tree) (query : String) : Option Tree := deepest (t.targets query)

/-- The lease of the node at a place, as it is now. -/
def lease (t : Tree) (index : Nat) : Lease :=
  ⟨index, ((t.find? index).map (·.activity.generation)).getD 0⟩

/-- The node of a lease is active, in the generation of the lease. -/
def isCurrent (t : Tree) (l : Lease) : Bool :=
  match t.find? l.node with
  | some u => u.isActive && u.activity.generation == l.generation
  | none => false

/-- The node at a place is active. -/
def activeAt (t : Tree) (index : Nat) : Bool := ((t.find? index).map isActive).getD false

/-- The place is that of an active node. -/
def wasActive (t : Tree) (index : Nat) : Bool := t.activeNodes.any (·.node.index == index)

theorem deepest_mem {ts : List Tree} {t : Tree} (h : deepest ts = some t) : t ∈ ts := by
  induction ts generalizing t with
  | nil => cases h
  | cons u us ih =>
    unfold deepest at h
    split at h
    · rename_i v hv
      split at h <;> cases h
      · exact List.mem_cons_of_mem _ (ih hv)
      · exact List.mem_cons_self
    · cases h; exact List.mem_cons_self

theorem deepest_eq_none_iff {ts : List Tree} : deepest ts = none ↔ ts = [] := by
  cases ts with
  | nil => simp [deepest]
  | cons u us =>
    unfold deepest
    split
    · split <;> simp
    · simp

/-- No node that a query selects is deeper than the one it stands for. -/
theorem depth_le_of_deepest {ts : List Tree} {t : Tree} (h : deepest ts = some t) :
    ∀ u ∈ ts, u.node.depth ≤ t.node.depth := by
  induction ts generalizing t with
  | nil => cases h
  | cons v vs ih =>
    intro u hu
    unfold deepest at h
    split at h
    · rename_i w hw
      split at h <;> cases h <;> rcases List.mem_cons.mp hu with rfl | hu
      · assumption
      · exact ih hw u hu
      · exact Nat.le_refl _
      · exact Nat.le_trans (ih hw u hu) (by omega)
    · rename_i hn
      cases h
      rw [deepest_eq_none_iff.mp hn] at hu
      obtain rfl := List.mem_singleton.mp hu
      exact Nat.le_refl _

theorem resolve_eq_none_iff {t : Tree} {query : String} :
    t.resolve query = none ↔ ∀ u ∈ t.preorder, Path.selects query u.node.path = false := by
  simp [resolve, deepest_eq_none_iff, targets, List.filter_eq_nil_iff]

theorem selects_of_resolve {t u : Tree} {query : String} (h : t.resolve query = some u) :
    u ∈ t.preorder ∧ Path.selects query u.node.path = true :=
  List.mem_filter.mp (deepest_mem h)

end Tree
end Statechart
