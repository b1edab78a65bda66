/-
# Transitions and their log

A log of transitions keeps the last transitions, as many as its capacity.

Key definitions: `Transition`, `Transition.Log`, `Transition.Log.record`,
`Transition.Log.duration?`.
Key theorems: `Transition.Log.length_record_le`, `Transition.Log.records_record_suffix`.
-/
import Statechart.Path
import Statechart.Span

namespace Statechart

/-- A transition that was made: the path of its target, what it recalled, the paths
of the nodes left and entered in pre-order, and its time in nanoseconds on the
clock of whoever records it. -/
structure Transition where
  target : String
  recalls : Recall
  exited : List String
  entered : List String
  time : Int
deriving DecidableEq

/-- Some node was left or entered. -/
def Transition.changed (t : Transition) : Bool := !t.exited.isEmpty || !t.entered.isEmpty

/-- The transitions kept, oldest first. -/
structure Transition.Log where
  capacity : Nat
  records : List Transition
deriving DecidableEq

namespace Transition.Log

def defaultCapacity : Nat := 100

def new (capacity : Nat) : Transition.Log := ⟨capacity, []⟩

/-- Add a transition; the oldest ones beyond the capacity go. -/
def record (log : Transition.Log) (t : Transition) : Transition.Log :=
  if log.capacity = 0 then log
  else { log with records := log.records.drop (log.records.length + 1 - log.capacity) ++ [t] }

/-- The time from the first transition kept to the last, if it is a span. -/
def duration? (log : Transition.Log) : Option Span :=
  match log.records.head?, log.records.getLast? with
  | some first, some last =>
    if first.time ≤ last.time then Span.ofNanos? (last.time - first.time).toNat else none
  | _, _ => none

theorem length_record_le {log : Transition.Log} (h : log.records.length ≤ log.capacity)
    (t : Transition) : (log.record t).records.length ≤ (log.record t).capacity := by
  unfold record
  split
  · exact h
  · simp only [List.length_append, List.length_drop, List.length_cons, List.length_nil]
    omega

/-- What is kept is the end of what was kept with the new transition behind it. -/
theorem records_record_suffix {log : Transition.Log} (h : log.capacity ≠ 0) (t : Transition) :
    (log.record t).records <:+ log.records ++ [t] := by
  simp only [record, h, if_false]
  exact ⟨log.records.take (log.records.length + 1 - log.capacity), by
    rw [← List.append_assoc, List.take_append_drop]⟩

end Transition.Log
end Statechart
