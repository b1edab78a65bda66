/-
# Snapshots

What a machine shows of itself: its id, its data, the paths of its active states
in pre-order, and the values derived from the data. Queries on a snapshot match
the active paths.

Key definitions: `Snapshot`, `Snapshot.isIn`, `Snapshot.isInAny`, `Snapshot.whenIn`,
`Snapshot.whenInAll`, `Snapshot.whenInFold`.
Key theorems: `Snapshot.whenIn_eq_getLast?`, `Snapshot.whenInFold_eq_foldl`.
-/
import Statechart.Json
import Statechart.Path

namespace Statechart

structure Snapshot (D : Type) where
  id : String
  data : D
  active : List String
  values : List (String × Json)

namespace Snapshot

variable {D : Type} {α β : Type}

/-- The query selects an active state. -/
def covers (s : Snapshot D) (query : String) : Bool := s.active.any (Path.selects query)

/-- Every query selects an active state. -/
def isIn (s : Snapshot D) (queries : List String) : Bool := queries.all s.covers

/-- Some query selects an active state. -/
def isInAny (s : Snapshot D) (queries : List String) : Bool := queries.any s.covers

/-- The keys that always count as active. -/
def alwaysKeys : List String := ["root", "default"]

/-- A key counts as active: it always does, or it selects an active state. -/
def keyActive (s : Snapshot D) (key : String) : Bool := alwaysKeys.contains key || s.covers key

/-- The values of the active keys, in the order of the entries. -/
def whenInAll (s : Snapshot D) (entries : List (String × α)) : List α :=
  (entries.filter fun e => s.keyActive e.1).map (·.2)

/-- The value of the last active key. -/
def whenIn (s : Snapshot D) (entries : List (String × α)) : Option α :=
  (entries.reverse.find? fun e => s.keyActive e.1).map (·.2)

/-- Fold over the entries with an active key, in their order. -/
def whenInFold (s : Snapshot D) (entries : List (String × α)) (start : β) (f : β → α → String → β) :
    β :=
  entries.foldl (fun acc e => if s.keyActive e.1 then f acc e.2 e.1 else acc) start

theorem whenIn_eq_getLast? (s : Snapshot D) (entries : List (String × α)) :
    s.whenIn entries = (s.whenInAll entries).getLast? := by
  rw [whenIn, whenInAll, List.getLast?_map, List.getLast?_eq_head?_reverse, ← List.filter_reverse,
    List.head?_filter]

theorem whenInFold_eq_foldl (s : Snapshot D) (entries : List (String × α)) (start : β)
    (f : β → α → String → β) :
    s.whenInFold entries start f =
      (entries.filter fun e => s.keyActive e.1).foldl (fun acc e => f acc e.2 e.1) start := by
  rw [whenInFold, List.foldl_filter]

end Snapshot
end Statechart
