/-
# Entering and leaving states

An activation goes down from a node. On the way to a target it follows the names
that lead there; at the target it recalls what it is asked to; below the target
and beside the way a branch keeps the child it had, if it was active before, and
otherwise follows its initial rule. The other children of a branch are
deactivated, with all below them.

An initial rule may fail. The activation then ends where it is: what was done
before stays done.

Key definitions: `Approach`, `Tree.activate`, `Tree.deactivate`, `Tree.activateAt`.
-/
import Statechart.Tree

namespace Statechart

/-- How a node is entered: on the way down to the target, by a name and those after
it, or as the target, or below the target or beside the way. -/
inductive Approach where
  | toward (name : String) (names : List String) (recalls : Recall)
  | target (recalls : Recall)
  | within (restore : Bool)
deriving DecidableEq

namespace Approach

/-- The way down some names; with none left, the node is the target. -/
def down : List String → Recall → Approach
  | [], recalls => target recalls
  | n :: names, recalls => toward n names recalls

/-- How a child of a parallel node is entered. -/
def region (e : Approach) (name : String) : Approach :=
  match e with
  | toward n names recalls => if name = n then down names recalls else within false
  | target .fresh => within false
  | target .previous => target .previous
  | target .restore => within true
  | within restore => within restore

end Approach

namespace Activity

/-- Active, in a new generation unless it was active already. -/
def enter (a : Activity) : Activity :=
  if a.active then a else { a with active := true, generation := a.generation + 1 }

/-- Not active, in a new generation. -/
def leave (a : Activity) : Activity := { a with active := false, generation := a.generation + 1 }

/-- The name goes behind the history, unless it is there already. -/
def remember (a : Activity) (name : String) : Activity :=
  if a.history.getLast? = some name then a else { a with history := a.history ++ [name] }

end Activity

namespace Tree

/-- How initial rules are decided during an activation. -/
abbrev Chooser := InitialRule → Except FunctionError (Option String)

mutual

/-- Leave a node and all below it. -/
def deactivate : Tree → Tree
  | mk node activity children => mk node activity.leave (deactivateAll children)

def deactivateAll : List Tree → List Tree
  | [] => []
  | t :: ts => deactivate t :: deactivateAll ts

end

/-- The child an initial rule gives, or the first one. -/
def initialIndex (choose : Chooser) (initial : InitialRule) (children : List Tree) :
    Except FunctionError Nat :=
  match choose initial with
  | .error e => .error e
  | .ok name => .ok ((name.bind (named children)).getD 0)

/-- The child that a history ends with. -/
def historyIndex (activity : Activity) (children : List Tree) : Option Nat :=
  activity.history.getLast?.bind (named children)

/-- The child a branch enters, and how. -/
def select (choose : Chooser) (initial : InitialRule) (activity : Activity) (wasActive : Bool)
    (children : List Tree) : Approach → Except FunctionError (Nat × Approach)
  | .toward n names recalls =>
    match named children n with
    | some i => .ok (i, .down names recalls)
    | none => (initialIndex choose initial children).map (·, .within false)
  | .target recalls =>
    let entry := .within (recalls = .restore)
    match if recalls = .fresh then none else historyIndex activity children with
    | some i => .ok (i, entry)
    | none => (initialIndex choose initial children).map (·, entry)
  | .within restore =>
    let recalled := if restore then historyIndex activity children else none
    let kept := if wasActive then children.findIdx? isActive else none
    match recalled, kept with
    | some i, _ => .ok (i, .within restore)
    | none, some i => .ok (i, .within restore)
    | none, none => (initialIndex choose initial children).map (·, .within restore)

mutual

/-- Enter a node. `before` tells the places of the nodes that were active when the
transition began. -/
def activate (choose : Chooser) (before : Nat → Bool) (entry : Approach) :
    Tree → Tree × Option FunctionError
  | mk node activity children =>
    let activity := activity.enter
    match node.shape with
    | .leaf => (mk node activity children, none)
    | .parallel =>
      let (children, failure) := activateAll choose before entry children
      (mk node activity children, failure)
    | .branch initial =>
      match select choose initial activity (before node.index) children entry with
      | .error e => (mk node activity children, some e)
      | .ok (i, entry) =>
        let activity := ((children[i]?).map (·.node.name)).elim activity activity.remember
        let (children, failure) := activateOnly choose before entry i children
        (mk node activity children, failure)

/-- Enter the children of a parallel node, in order. -/
def activateAll (choose : Chooser) (before : Nat → Bool) (entry : Approach) :
    List Tree → List Tree × Option FunctionError
  | [] => ([], none)
  | t :: ts =>
    match activate choose before (entry.region t.node.name) t with
    | (t, some e) => (t :: ts, some e)
    | (t, none) =>
      let (ts, failure) := activateAll choose before entry ts
      (t :: ts, failure)

/-- Enter one of the children of a branch and leave the others. -/
def activateOnly (choose : Chooser) (before : Nat → Bool) (entry : Approach) :
    Nat → List Tree → List Tree × Option FunctionError
  | _, [] => ([], none)
  | 0, t :: ts =>
    let (t, failure) := activate choose before entry t
    (t :: deactivateAll ts, failure)
  | i + 1, t :: ts =>
    let (ts, failure) := activateOnly choose before entry i ts
    (deactivate t :: ts, failure)

end

mutual

/-- Change the node at a place, with what is below it. -/
def change (index : Nat) (f : Tree → Tree × Option FunctionError) :
    Tree → Tree × Option FunctionError
  | mk node activity children =>
    if node.index = index then f (mk node activity children)
    else
      let (children, failure) := changeAll index f children
      (mk node activity children, failure)

def changeAll (index : Nat) (f : Tree → Tree × Option FunctionError) :
    List Tree → List Tree × Option FunctionError
  | [] => ([], none)
  | t :: ts =>
    let (t, failure) := change index f t
    let (ts, failure') := changeAll index f ts
    (t :: ts, failure.or failure')

end

/-- Enter the node at a place. -/
def activateAt (choose : Chooser) (before : Nat → Bool) (index : Nat) (entry : Approach)
    (t : Tree) : Tree × Option FunctionError :=
  t.change index (activate choose before entry)

/-- Leave the node at a place. -/
def deactivateAt (index : Nat) (t : Tree) : Tree := (t.change index fun u => (u.deactivate, none)).1

end Tree
end Statechart
