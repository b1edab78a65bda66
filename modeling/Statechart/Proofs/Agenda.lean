/-
# What lies ahead on a timeline

Nothing on a timeline is due before its clock (`Timeline.Ahead`). The timers stand in the order
in which they are due, the period of an interval is never zero, as one of no length is a frame
task, and neither is the time from one tick of the frame clock to the next. So each thing that is
due is the first of all (`Timeline.popDue_first`), and when nothing is due up to a horizon,
everything is due after it (`Timeline.popDue_eq_none_iff`).

Key definitions: `Timeline.Ahead`, `Timeline.renew`.
Key theorems: `Timeline.popDue_first`, `Timeline.popDue_eq_none_iff`, `Timeline.Ahead.popDue`,
`Timeline.pairwise_insertTimer`.
-/
import Statechart.Timeline

namespace Statechart

namespace Span

theorem lt_of_le_of_ne {a b : Span} (h : a ≤ b) (hne : a ≠ b) : a < b :=
  not_le.mp fun hle => hne (le_antisymm h hle)

theorem lt_of_lt_of_le {a b c : Span} (h : a < b) (k : b ≤ c) : a < c := Nat.lt_of_lt_of_le h k

theorem lt_trans {a b c : Span} (h : a < b) (k : b < c) : a < c := Nat.lt_trans h k

theorem le_of_lt {a b : Span} (h : a < b) : a ≤ b := Nat.le_of_lt h

theorem nanos_pos {a : Span} (h : a ≠ zero) : 0 < a.nanos :=
  Nat.pos_of_ne_zero fun hzero => h (ext_nanos hzero)

/-- A sum with something that is not zero is later. -/
theorem lt_of_add? {a b c : Span} (h : a.add? b = some c) (hb : b ≠ zero) : a < c := by
  have hpos := nanos_pos hb
  have hsum := add?_eq_some_iff.mp h
  rw [lt_def]
  omega

end Span

namespace Timeline

variable {T : Type} {s s' : Timeline T} {t : Timer T} {us : List (Timer T)} {horizon : Span}

/-! ### Setting a timer -/

/-- A relation that holds along the timers still does with one more, if it holds between that one
and those due no later, and those due later. -/
theorem pairwise_insertTimer {R : Timer T → Timer T → Prop} (hsorted : Sorted us)
    (h : us.Pairwise R) (before : ∀ u ∈ us, u.due ≤ t.due → R u t)
    (after : ∀ u ∈ us, t.due < u.due → R t u) : (insertTimer t us).Pairwise R := by
  induction us with
  | nil => simp [insertTimer]
  | cons u us ih =>
    obtain ⟨hfirst, hrest⟩ := List.pairwise_cons.mp h
    obtain ⟨hle, hsorted⟩ := List.pairwise_cons.mp hsorted
    unfold insertTimer
    split
    · rename_i hlt
      refine List.pairwise_cons.mpr ⟨fun v hv => after v hv ?_, h⟩
      rcases List.mem_cons.mp hv with rfl | hv
      · exact hlt
      · exact Span.lt_of_lt_of_le hlt (hle v hv)
    · rename_i hlt
      have hrest := ih hsorted hrest (fun v hv => before v (List.mem_cons_of_mem _ hv))
        (fun v hv => after v (List.mem_cons_of_mem _ hv))
      refine List.pairwise_cons.mpr ⟨fun v hv => ?_, hrest⟩
      rcases mem_insertTimer.mp hv with rfl | hv
      · exact before u List.mem_cons_self (Span.not_lt.mp hlt)
      · exact hfirst v hv

/-- The timers after the first of them was due. -/
def renew (t : Timer T) (rest : List (Timer T)) : List (Timer T) :=
  match t.period.bind t.due.add? with
  | some due => insertTimer { t with due } rest
  | none => rest

theorem mem_renew {u : Timer T} (h : u ∈ renew t us) :
    (∃ due, t.period.bind t.due.add? = some due ∧ u = { t with due }) ∨ u ∈ us := by
  unfold renew at h
  split at h
  · rename_i due hdue
    rcases mem_insertTimer.mp h with rfl | h
    · exact Or.inl ⟨due, hdue, rfl⟩
    · exact Or.inr h
  · exact Or.inr h

/-- An interval is set again for a later time. -/
theorem lt_of_renewed {due : Span} (hperiod : t.period ≠ some .zero)
    (h : t.period.bind t.due.add? = some due) : t.due < due := by
  obtain ⟨period, hp, hsum⟩ := Option.bind_eq_some_iff.mp h
  exact Span.lt_of_add? hsum fun hzero => hperiod (hzero ▸ hp)

/-! ### What is due -/

theorem popTimer_eq_some {rest : List (Timer T)} {r : Due T × Timeline T}
    (h : s.popTimer t rest horizon = some r) :
    t.due ≤ horizon ∧
      r = (.timer t.owner t.task t.period, { s with now := t.due, timers := renew t rest }) := by
  unfold popTimer at h
  split at h
  · cases h
  · rename_i hle
    cases h
    exact ⟨Span.not_lt.mp hle, rfl⟩

theorem popFrame_eq_some {tick : Span} {r : Due T × Timeline T}
    (h : s.popFrame tick horizon = some r) :
    tick ≤ horizon ∧ r = (.frame s.frames s.frameInterval,
      { s with now := tick, nextFrame := tick.add? s.frameInterval }) := by
  unfold popFrame at h
  split at h
  · cases h
  · rename_i hle
    cases h
    exact ⟨Span.not_lt.mp hle, rfl⟩

/-- What is due first is the first timer, if the frame clock does not tick before it, or else
that tick. -/
theorem popDue_first {due : Due T} (h : s.popDue horizon = some (due, s')) :
    (∃ t rest, s.timers = t :: rest ∧ (∀ tick, s.nextFrame = some tick → t.due ≤ tick) ∧
      t.due ≤ horizon ∧ due = .timer t.owner t.task t.period ∧
      s' = { s with now := t.due, timers := renew t rest }) ∨
    ∃ tick, s.nextFrame = some tick ∧ (∀ t, s.timers.head? = some t → tick < t.due) ∧
      tick ≤ horizon ∧ due = .frame s.frames s.frameInterval ∧
      s' = { s with now := tick, nextFrame := tick.add? s.frameInterval } := by
  unfold popDue at h
  split at h <;> rename_i htimers hnext
  · cases h
  · obtain ⟨hle, heq⟩ := popFrame_eq_some h
    cases heq
    exact Or.inr ⟨_, hnext, by simp [htimers], hle, rfl, rfl⟩
  · obtain ⟨hle, heq⟩ := popTimer_eq_some h
    cases heq
    exact Or.inl ⟨_, _, htimers, by simp [hnext], hle, rfl, rfl⟩
  · split at h <;> rename_i hfirst
    · obtain ⟨hle, heq⟩ := popTimer_eq_some h
      cases heq
      refine Or.inl ⟨_, _, htimers, fun tick htick => ?_, hle, rfl, rfl⟩
      rw [hnext] at htick
      exact Option.some.inj htick ▸ hfirst
    · obtain ⟨hle, heq⟩ := popFrame_eq_some h
      cases heq
      refine Or.inr ⟨_, hnext, fun t ht => ?_, hle, rfl, rfl⟩
      rw [htimers] at ht
      exact Option.some.inj ht ▸ Span.not_le.mp hfirst

/-- Nothing is due just when the first timer and the next tick are after the horizon. -/
theorem popDue_eq_none_iff (s : Timeline T) (horizon : Span) :
    s.popDue horizon = none ↔ (∀ t, s.timers.head? = some t → horizon < t.due) ∧
      ∀ tick, s.nextFrame = some tick → horizon < tick := by
  have htimer : ∀ t rest, s.popTimer t rest horizon = none ↔ horizon < t.due := fun t rest => by
    unfold popTimer
    split <;> simp [*]
  have hframe : ∀ tick, s.popFrame tick horizon = none ↔ horizon < tick := fun tick => by
    unfold popFrame
    split <;> simp [*]
  unfold popDue
  split <;> rename_i htimers hnext
  · simp [htimers, hnext]
  · simp [htimers, hnext, hframe]
  · simp [htimers, hnext, htimer]
  · split <;> rename_i hle
    · simpa [htimers, hnext, htimer] using fun h => Span.lt_of_lt_of_le h hle
    · simpa [htimers, hnext, hframe] using fun h => Span.lt_trans h (Span.not_le.mp hle)

/-! ### Nothing lies behind -/

/-- Nothing on the timeline is due before its clock: the timers are in the order in which they
are due, and no interval is of no length, nor is the time between two ticks. -/
structure Ahead (s : Timeline T) : Prop where
  sorted : Sorted s.timers
  timers : ∀ t ∈ s.timers, s.now ≤ t.due
  ticks : ∀ tick, s.nextFrame = some tick → s.now ≤ tick
  periods : ∀ t ∈ s.timers, t.period ≠ some .zero
  interval : s.frameInterval ≠ .zero

theorem new_ahead (frameInterval : Span) : (new frameInterval : Timeline T).Ahead where
  sorted := .nil
  timers t ht := nomatch ht
  ticks tick htick := nomatch htick
  periods t ht := nomatch ht
  interval := by
    show (if frameInterval = .zero then defaultFrameInterval else frameInterval) ≠ .zero
    split
    · decide
    · assumption

theorem Ahead.insert (h : s.Ahead) (hdue : s.now ≤ t.due) (hperiod : t.period ≠ some .zero) :
    { s with timers := insertTimer t s.timers }.Ahead where
  sorted := sorted_insertTimer t h.sorted
  timers u hu := by
    rcases mem_insertTimer.mp hu with rfl | hu
    · exact hdue
    · exact h.timers u hu
  ticks := h.ticks
  periods u hu := by
    rcases mem_insertTimer.mp hu with rfl | hu
    · exact hperiod
    · exact h.periods u hu
  interval := h.interval

theorem Ahead.setTimeout (h : s.Ahead) (owner : Lease) (delay : Span) (task : T) :
    (s.setTimeout owner delay task).Ahead :=
  h.insert (Span.le_add _ _) nofun

theorem Ahead.addFrame (h : s.Ahead) (owner : Lease) (task : T) : (s.addFrame owner task).Ahead where
  sorted := h.sorted
  timers := h.timers
  ticks tick htick := by
    obtain rfl : s.nextFrame.getD (s.now.add s.frameInterval) = tick := Option.some.inj htick
    cases hnext : s.nextFrame with
    | none => exact Span.le_add _ _
    | some tick => exact h.ticks tick hnext
  periods := h.periods
  interval := h.interval

theorem Ahead.setInterval (h : s.Ahead) (owner : Lease) (period : Span) (task : T) :
    (s.setInterval owner period task).Ahead := by
  unfold Timeline.setInterval
  split
  · exact h.addFrame owner task
  · rename_i hperiod
    exact h.insert (Span.le_add _ _) fun heq => hperiod (Option.some.inj heq)

theorem Ahead.cancel (h : s.Ahead) (node : Nat) : (s.cancel node).Ahead where
  sorted := h.sorted.filter _
  timers t ht := h.timers t (List.mem_filter.mp ht).1
  ticks tick htick := by
    unfold Timeline.cancel at htick
    dsimp only at htick
    split at htick
    · cases htick
    · exact h.ticks tick htick
  periods t ht := h.periods t (List.mem_filter.mp ht).1
  interval := h.interval

theorem Ahead.clearRepeating (h : s.Ahead) : s.clearRepeating.Ahead where
  sorted := h.sorted.filter _
  timers t ht := h.timers t (List.mem_filter.mp ht).1
  ticks _ htick := nomatch htick
  periods t ht := h.periods t (List.mem_filter.mp ht).1
  interval := h.interval

/-- Of the timers, the first is due first. -/
theorem Sorted.le_of_head {rest : List (Timer T)} (h : Sorted (t :: rest)) :
    ∀ u ∈ rest, t.due ≤ u.due :=
  (List.pairwise_cons.mp h).1

/-- What is before the first timer is before them all. -/
theorem Sorted.lt_of_head (h : Sorted us) {time : Span}
    (hhead : ∀ t, us.head? = some t → time < t.due) : ∀ u ∈ us, time < u.due := by
  intro u hu
  cases us with
  | nil => cases hu
  | cons t rest =>
    have htime := hhead t rfl
    rcases List.mem_cons.mp hu with rfl | hu
    · exact htime
    · exact Span.lt_of_lt_of_le htime (h.le_of_head u hu)

theorem Ahead.le_of_head (h : s.Ahead) {rest : List (Timer T)} (hs : s.timers = t :: rest) :
    ∀ u ∈ rest, t.due ≤ u.due :=
  (hs ▸ h.sorted : Sorted (t :: rest)).le_of_head

theorem Ahead.lt_of_head (h : s.Ahead) {time : Span}
    (hhead : ∀ t, s.timers.head? = some t → time < t.due) : ∀ u ∈ s.timers, time < u.due :=
  h.sorted.lt_of_head hhead

/-- What is due is not before the clock, which it moves on. -/
theorem Ahead.now_le_popDue (h : s.Ahead) {due : Due T} (hpop : s.popDue horizon = some (due, s')) :
    s.now ≤ s'.now := by
  rcases popDue_first hpop with ⟨t, rest, hs, -, -, -, rfl⟩ | ⟨tick, hnext, -, -, -, rfl⟩
  · exact h.timers t (hs ▸ List.mem_cons_self)
  · exact h.ticks tick hnext

theorem Ahead.popDue (h : s.Ahead) {due : Due T} (hpop : s.popDue horizon = some (due, s')) :
    s'.Ahead := by
  rcases popDue_first hpop with ⟨t, rest, hs, htick, -, -, rfl⟩ | ⟨tick, hnext, hhead, -, -, rfl⟩
  · have hperiod := h.periods t (hs ▸ List.mem_cons_self)
    have hrest : ∀ u ∈ rest, u ∈ s.timers := fun u hu => hs ▸ List.mem_cons_of_mem t hu
    refine ⟨?_, fun u hu => ?_, htick, fun u hu => ?_, h.interval⟩
    · have hsorted := (List.pairwise_cons.mp (hs ▸ h.sorted)).2
      show Sorted (renew t rest)
      unfold renew
      split
      · exact sorted_insertTimer _ hsorted
      · exact hsorted
    · rcases mem_renew hu with ⟨due, hdue, rfl⟩ | hu
      · exact Span.le_of_lt (lt_of_renewed hperiod hdue)
      · exact h.le_of_head hs u hu
    · rcases mem_renew hu with ⟨due, hdue, rfl⟩ | hu
      · exact hperiod
      · exact h.periods u (hrest u hu)
  · refine ⟨h.sorted, fun u hu => Span.le_of_lt (h.lt_of_head hhead u hu), fun next hnext => ?_,
      h.periods, h.interval⟩
    exact Span.le_of_lt (Span.lt_of_add? hnext h.interval)

/-- When nothing is due up to a horizon, everything is due after it. -/
theorem Ahead.lt_of_popDue_eq_none (h : s.Ahead) (hnone : s.popDue horizon = none) :
    (∀ t ∈ s.timers, horizon < t.due) ∧ ∀ tick, s.nextFrame = some tick → horizon < tick := by
  obtain ⟨hhead, htick⟩ := (popDue_eq_none_iff s horizon).mp hnone
  exact ⟨h.lt_of_head hhead, htick⟩

theorem Ahead.settle (h : s.Ahead) (hnone : s.popDue horizon = none) : (s.settle horizon).Ahead := by
  obtain ⟨htimers, hticks⟩ := h.lt_of_popDue_eq_none hnone
  unfold Timeline.settle
  split
  · exact ⟨h.sorted, fun t ht => Span.le_of_lt (htimers t ht),
      fun tick htick => Span.le_of_lt (hticks tick htick), h.periods, h.interval⟩
  · exact h

end Timeline
end Statechart
