/-
# The timeline: a clock and what is due on it

A timeline never waits. Its clock moves when its owner asks for what is due up to
a horizon: `Timeline.popDue` gives one thing at a time, in order of time, and sets
the clock to its time. A timeout is due once, an interval again and again, and all
frame tasks together at every tick of the frame clock. Everything belongs to a
node, under a lease.

Timers are kept in the order in which they are due, and among equals in the order
in which they were set: `insertTimer` puts a timer behind all that are due no
later.

Key definitions: `Timeline`, `Timeline.setTimeout`, `Timeline.setInterval`,
`Timeline.addFrame`, `Timeline.cancel`, `Timeline.clearRepeating`,
`Timeline.popDue`, `Timeline.settle`.
Key theorems: `Timeline.sorted_insertTimer`, `Timeline.mem_insertTimer`,
`Timeline.popDue_cases`, `Timeline.popDue_now_le`.
-/
import Statechart.Lease
import Statechart.Span

namespace Statechart

/-- A task set for a time, with its period if it is an interval. -/
structure Timer (T : Type) where
  due : Span
  owner : Lease
  period : Option Span
  task : T
deriving DecidableEq

/-- What came due: one timer, or every frame task for one tick. -/
inductive Due (T : Type) where
  | timer (owner : Lease) (task : T) (period : Option Span)
  | frame (tasks : List (Lease × T)) (interval : Span)
deriving DecidableEq

structure Timeline (T : Type) where
  now : Span
  timers : List (Timer T)
  frames : List (Lease × T)
  frameInterval : Span
  nextFrame : Option Span
deriving DecidableEq

namespace Timeline

variable {T : Type}

/-- The frame interval in place of one that is zero: a sixtieth of a second. -/
def defaultFrameInterval : Span := ⟨16667000, by decide⟩

/-- An idle timeline with its clock at zero. -/
def new (frameInterval : Span) : Timeline T where
  now := .zero
  timers := []
  frames := []
  frameInterval := if frameInterval = .zero then defaultFrameInterval else frameInterval
  nextFrame := none

/-- Put a timer behind all that are due no later. -/
def insertTimer (t : Timer T) : List (Timer T) → List (Timer T)
  | [] => [t]
  | u :: us => if t.due < u.due then t :: u :: us else u :: insertTimer t us

/-- Set a task for once after `delay`. -/
def setTimeout (s : Timeline T) (owner : Lease) (delay : Span) (task : T) : Timeline T :=
  { s with timers := insertTimer ⟨s.now.add delay, owner, none, task⟩ s.timers }

/-- Set a task for every tick of the frame clock. The first one starts it. -/
def addFrame (s : Timeline T) (owner : Lease) (task : T) : Timeline T :=
  { s with
    frames := s.frames ++ [(owner, task)]
    nextFrame := some (s.nextFrame.getD (s.now.add s.frameInterval)) }

/-- Set a task for every `period`, the first time after one. A zero period makes it
a frame task. -/
def setInterval (s : Timeline T) (owner : Lease) (period : Span) (task : T) : Timeline T :=
  if period = .zero then s.addFrame owner task
  else { s with timers := insertTimer ⟨s.now.add period, owner, some period, task⟩ s.timers }

/-- Drop all that belongs to a node. The frame clock stops with its last task. -/
def cancel (s : Timeline T) (node : Nat) : Timeline T :=
  let frames := s.frames.filter fun f => f.1.node ≠ node
  { s with
    timers := s.timers.filter fun t => t.owner.node ≠ node
    frames
    nextFrame := if frames.isEmpty then none else s.nextFrame }

/-- Drop intervals and frame tasks; timeouts stay. -/
def clearRepeating (s : Timeline T) : Timeline T :=
  { s with timers := s.timers.filter fun t => t.period.isNone, frames := [], nextFrame := none }

/-- How many timers and frame tasks there are. -/
def pending (s : Timeline T) : Nat := s.timers.length + s.frames.length

def isIdle (s : Timeline T) : Bool := s.timers.isEmpty && s.frames.isEmpty

/-- The first timer `t` before the timers `rest`, if it is due. An interval is set
again for one period later, unless that is past the end of time. -/
def popTimer (s : Timeline T) (t : Timer T) (rest : List (Timer T)) (horizon : Span) :
    Option (Due T × Timeline T) :=
  if horizon < t.due then none
  else
    let timers :=
      match t.period.bind t.due.add? with
      | some due => insertTimer { t with due } rest
      | none => rest
    some (.timer t.owner t.task t.period, { s with now := t.due, timers })

/-- The frame tick at `tick`, if it is due. -/
def popFrame (s : Timeline T) (tick horizon : Span) : Option (Due T × Timeline T) :=
  if horizon < tick then none
  else
    some (.frame s.frames s.frameInterval,
      { s with now := tick, nextFrame := tick.add? s.frameInterval })

/-- The first thing due up to the horizon, and the timeline at its time. A timer
comes before a frame tick of the same time. -/
def popDue (s : Timeline T) (horizon : Span) : Option (Due T × Timeline T) :=
  match s.timers, s.nextFrame with
  | [], none => none
  | [], some tick => s.popFrame tick horizon
  | t :: rest, none => s.popTimer t rest horizon
  | t :: rest, some tick =>
    if t.due ≤ tick then s.popTimer t rest horizon else s.popFrame tick horizon

/-- Move the clock on to `horizon` when nothing more is due. -/
def settle (s : Timeline T) (horizon : Span) : Timeline T :=
  if s.now < horizon then { s with now := horizon } else s

/-- The timers are in the order in which they are due. -/
def Sorted (timers : List (Timer T)) : Prop := timers.Pairwise fun t u => t.due ≤ u.due

@[simp] theorem mem_insertTimer {t u : Timer T} {us : List (Timer T)} :
    u ∈ insertTimer t us ↔ u = t ∨ u ∈ us := by
  induction us with
  | nil => simp [insertTimer]
  | cons v vs ih =>
    unfold insertTimer
    split
    · simp
    · simp only [List.mem_cons, ih]
      exact ⟨fun h => by rcases h with h | h | h <;> simp [h], fun h => by
        rcases h with h | h | h <;> simp [h]⟩

theorem sorted_insertTimer (t : Timer T) {us : List (Timer T)} (h : Sorted us) :
    Sorted (insertTimer t us) := by
  induction us with
  | nil => simp [Sorted, insertTimer]
  | cons v vs ih =>
    obtain ⟨hv, hvs⟩ := List.pairwise_cons.mp h
    unfold insertTimer
    split
    · rename_i hlt
      refine List.pairwise_cons.mpr ⟨fun u hu => ?_, h⟩
      have htv : t.due ≤ v.due := Nat.le_of_lt hlt
      rcases List.mem_cons.mp hu with rfl | hu
      · exact htv
      · exact Span.le_trans htv (hv u hu)
    · rename_i hlt
      refine List.pairwise_cons.mpr ⟨fun u hu => ?_, ih hvs⟩
      rcases mem_insertTimer.mp hu with rfl | hu
      · exact Span.not_lt.mp hlt
      · exact hv u hu

/-- What comes due is the first timer, which is set again if it is an interval, or the tick of
the frame clock. -/
theorem popDue_cases {s s' : Timeline T} {horizon : Span} {d : Due T}
    (h : s.popDue horizon = some (d, s')) :
    (∃ t rest, s.timers = t :: rest ∧ t.due ≤ horizon ∧ d = .timer t.owner t.task t.period ∧
      s' = { s with
        now := t.due
        timers := match t.period.bind t.due.add? with
          | some due => insertTimer { t with due } rest
          | none => rest }) ∨
    ∃ tick, s.nextFrame = some tick ∧ tick ≤ horizon ∧ d = .frame s.frames s.frameInterval ∧
      s' = { s with now := tick, nextFrame := tick.add? s.frameInterval } := by
  have timer : ∀ t rest, s.popTimer t rest horizon = some (d, s') → t.due ≤ horizon ∧
      d = .timer t.owner t.task t.period ∧
      s' = { s with
        now := t.due
        timers := match t.period.bind t.due.add? with
          | some due => insertTimer { t with due } rest
          | none => rest } := by
    intro t rest h
    unfold popTimer at h
    split at h
    · cases h
    · rename_i hle
      cases h
      exact ⟨Span.not_lt.mp hle, rfl, rfl⟩
  have frame : ∀ tick, s.popFrame tick horizon = some (d, s') → tick ≤ horizon ∧
      d = .frame s.frames s.frameInterval ∧
      s' = { s with now := tick, nextFrame := tick.add? s.frameInterval } := by
    intro tick h
    unfold popFrame at h
    split at h
    · cases h
    · rename_i hle
      cases h
      exact ⟨Span.not_lt.mp hle, rfl, rfl⟩
  unfold popDue at h
  split at h <;> rename_i hs hnext
  · cases h
  · exact Or.inr ⟨_, hnext, frame _ h⟩
  · exact Or.inl ⟨_, _, hs, timer _ _ h⟩
  · split at h
    · exact Or.inl ⟨_, _, hs, timer _ _ h⟩
    · exact Or.inr ⟨_, hnext, frame _ h⟩

/-- The clock never passes the horizon on its way. -/
theorem popDue_now_le {s s' : Timeline T} {horizon : Span} {d : Due T}
    (h : s.popDue horizon = some (d, s')) : s'.now ≤ horizon := by
  rcases popDue_cases h with ⟨t, rest, -, hle, -, rfl⟩ | ⟨tick, -, hle, -, rfl⟩
  · exact hle
  · exact hle

end Timeline
end Statechart
