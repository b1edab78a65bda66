/-
# When an advance comes to its end

An advance does one thing after another that is due, and each may set more. With most of them
time goes on: what is due at one time are timers and a frame tick that stand already, and what
is set while they are done is due later (`Machine.progress_le`). There are two exceptions. A
wait of no length is due at the time at which it is set, and at the end of time all that is set
is due at once. A machine that from some point on has nothing else to do stalls: its clock
stands still, and there is always one more thing that is due (`Machine.Stalls`). An advance comes
to its end just when the machine does not stall (`Machine.Reached.advance_ends_iff`).

A machine with a chain that waits and sends the event that it answers has always one more thing
to do, so that it never comes past the end of time (`Machine.advance_tick`), nor past any time if
the wait is of no length. The transitions and events of each thing that is due are bounded, but
not the number of these.

Key definitions: `Task.isMomentary`, `Timeline.Arranges`, `Timeline.pressing`, `Machine.Dwells`,
`Machine.Stalls`.
Key theorems: `Timeline.Arranges.pressing_le`, `Machine.Reached.ahead`, `Machine.progress_le`,
`Machine.Reached.stalls_of_endless`, `Machine.Reached.advance_ends_iff`.
-/
import Mathlib.Data.Prod.Lex
import Statechart.Proofs.Agenda
import Statechart.Proofs.Atomicity
import Statechart.Proofs.Elapsing

namespace Statechart

theorem Span.lt_add {a b : Span} (ha : a ≠ max) (hb : b ≠ zero) : a < a.add b := by
  have hlast : a.nanos ≠ limit - 1 := fun h => ha (ext_nanos h)
  have hlt := a.nanos_lt_limit
  have hpos := nanos_pos hb
  rw [lt_def, nanos_add]
  omega

theorem Span.add_max (a : Span) : a.add max = max :=
  le_antisymm (le_max _) (by rw [le_def, nanos_add, show max.nanos = limit - 1 from rfl]; omega)

/-- The task is a wait of no length. -/
def Task.isMomentary : Task → Bool
  | resume rest _ => rest.delay = .zero
  | repeating .. => false

/-- What is due is a wait of no length. -/
def Due.isMomentary : Due Task → Bool
  | timer _ task _ => task.isMomentary
  | frame .. => false

namespace Timeline

variable {s s' : Timeline Task} {horizon : Span}

/-! ### What presses -/

/-- What a machine does to its timeline between one thing that is due and the next: it sets waits
and repeaters, and cancels what nodes have. -/
inductive Arranges : Timeline Task → Timeline Task → Prop
  | refl (s : Timeline Task) : Arranges s s
  | wait {s s' : Timeline Task} (h : Arranges s s') (owner : Lease) (rest : Continuation)
    (payload : Json) : Arranges s (s'.setTimeout owner rest.delay (.resume rest payload))
  | frame {s s' : Timeline Task} (h : Arranges s s') (owner : Lease) (task : Task) :
    Arranges s (s'.addFrame owner task)
  | interval {s s' : Timeline Task} (h : Arranges s s') (owner : Lease) (period : Span)
    (task : Task) : Arranges s (s'.setInterval owner period task)
  | cancel {s s' : Timeline Task} (h : Arranges s s') (node : Nat) : Arranges s (s'.cancel node)

theorem Arranges.trans {s₁ s₂ s₃ : Timeline Task} (h : Arranges s₁ s₂) (k : Arranges s₂ s₃) :
    Arranges s₁ s₃ := by
  induction k with
  | refl => exact h
  | wait _ owner rest payload ih => exact ih.wait owner rest payload
  | frame _ owner task ih => exact ih.frame owner task
  | interval _ owner period task ih => exact ih.interval owner period task
  | cancel _ node ih => exact ih.cancel node

/-- How many things are due now, apart from waits of no length. -/
def pressing (s : Timeline Task) : Nat :=
  (s.timers.filter fun t => t.due ≤ s.now && !t.task.isMomentary).length +
    if s.nextFrame.any (· ≤ s.now) then 1 else 0

/-- A timer that is not due now, or a wait of no length, does not press. -/
theorem pressing_insertTimer {t : Timer Task} (h : s.now < t.due ∨ t.task.isMomentary = true) :
    { s with timers := insertTimer t s.timers }.pressing = s.pressing := by
  have hnot : (decide (t.due ≤ s.now) && !t.task.isMomentary) = false := by
    rcases h with hlt | hmomentary
    · simp [Span.not_le.mpr hlt]
    · simp [hmomentary]
  unfold pressing
  rw [filter_insertTimer_of_neg hnot]

theorem pressing_setTimeout (hmax : s.now ≠ .max) (owner : Lease) (rest : Continuation)
    (payload : Json) :
    (s.setTimeout owner rest.delay (.resume rest payload)).pressing = s.pressing := by
  refine pressing_insertTimer ?_
  by_cases hdelay : rest.delay = .zero
  · exact Or.inr (decide_eq_true hdelay)
  · exact Or.inl (Span.lt_add hmax hdelay)

theorem pressing_addFrame (hs : s.Ahead) (hmax : s.now ≠ .max) (owner : Lease) (task : Task) :
    (s.addFrame owner task).pressing = s.pressing := by
  unfold pressing addFrame
  cases s.nextFrame with
  | none => simp [Span.not_le.mpr (Span.lt_add hmax hs.interval)]
  | some tick => rfl

theorem pressing_setInterval (hs : s.Ahead) (hmax : s.now ≠ .max) (owner : Lease) (period : Span)
    (task : Task) : (s.setInterval owner period task).pressing = s.pressing := by
  unfold setInterval
  split
  · exact pressing_addFrame hs hmax owner task
  · rename_i hperiod
    exact pressing_insertTimer (Or.inl (Span.lt_add hmax hperiod))

theorem pressing_cancel_le (s : Timeline Task) (node : Nat) :
    (s.cancel node).pressing ≤ s.pressing := by
  unfold pressing
  refine Nat.add_le_add ?_ ?_
  · exact (List.filter_sublist.filter _).length_le
  · unfold cancel
    dsimp only
    split <;> simp

theorem Arranges.ahead (h : Arranges s s') (hs : s.Ahead) : s'.Ahead := by
  induction h with
  | refl => exact hs
  | wait _ owner rest payload ih => exact ih.setTimeout owner _ _
  | frame _ owner task ih => exact ih.addFrame owner task
  | interval _ owner period task ih => exact ih.setInterval owner period task
  | cancel _ node ih => exact ih.cancel node

theorem Arranges.now_eq (h : Arranges s s') : s'.now = s.now := by
  induction h with
  | interval _ owner period task ih =>
    rw [← ih]
    unfold setInterval
    split <;> rfl
  | refl => rfl
  | _ => assumption

/-- Until the end of time, no more presses after an arrangement than did before. -/
theorem Arranges.pressing_le (h : Arranges s s') (hs : s.Ahead) (hmax : s.now ≠ .max) :
    s'.pressing ≤ s.pressing := by
  induction h with
  | refl => exact Nat.le_refl _
  | wait h owner rest payload ih =>
    rwa [pressing_setTimeout (h.now_eq ▸ hmax)]
  | frame h owner task ih => rwa [pressing_addFrame (h.ahead hs) (h.now_eq ▸ hmax)]
  | interval h owner period task ih =>
    rwa [pressing_setInterval (h.ahead hs) (h.now_eq ▸ hmax)]
  | cancel h node ih => exact Nat.le_trans (pressing_cancel_le _ node) ih

/-- When something is due now, less presses after it, unless it is a wait of no length. -/
theorem Ahead.pressing_popDue (hs : s.Ahead) {due : Due Task}
    (hpop : s.popDue horizon = some (due, s')) (hnow : s'.now = s.now) :
    s'.pressing + (if due.isMomentary then 0 else 1) ≤ s.pressing := by
  rcases popDue_first hpop with ⟨t, rest, hfirst, -, -, rfl, rfl⟩ | ⟨tick, hnext, -, -, rfl, rfl⟩
  · have hnow : t.due = s.now := hnow
    have hrenew : ((renew t rest).filter fun u => u.due ≤ t.due && !u.task.isMomentary) =
        rest.filter fun u => u.due ≤ t.due && !u.task.isMomentary := by
      unfold renew
      split
      · rename_i due hdue
        have hlt := lt_of_renewed (hs.periods t (hfirst ▸ List.mem_cons_self)) hdue
        exact filter_insertTimer_of_neg (by simp [Span.not_le.mpr hlt]) rest
      · rfl
    unfold pressing
    dsimp only
    rw [hrenew, hfirst, hnow, List.filter_cons]
    cases hmomentary : t.task.isMomentary
    · simp only [Due.isMomentary, hmomentary, hnow, Span.le_refl, Bool.false_eq_true,
        ↓reduceIte, decide_true, Bool.not_false, Bool.and_self, List.length_cons]
      omega
    · simp [Due.isMomentary, hmomentary]
  · have hnow : tick = s.now := hnow
    have hlater : ((tick.add? s.frameInterval).any fun next => next ≤ tick) = false := by
      cases hsum : tick.add? s.frameInterval with
      | none => rfl
      | some next => simp [Span.not_le.mpr (Span.lt_of_add? hsum hs.interval)]
    unfold pressing
    dsimp only
    rw [hlater, hnext, hnow]
    simp [Due.isMomentary, Span.le_refl]

end Timeline

namespace Machine

variable {D : Type} {m m' : Machine D} {horizon : Span}

/-! ### What a machine arranges -/

theorem Chore.arranges (h : Chore m m') : m.timeline.Arranges m'.timeline := by
  cases h with
  | postpone payload index rest => exact .wait (.refl _) _ rest payload
  | abandon index => exact .cancel (.refl _) index
  | startRepeater payload index r =>
    cases r with
    | none => exact .refl _
    | some r =>
      obtain ⟨chain, delay⟩ := r
      cases delay with
      | none => exact .frame (.refl _) _ _
      | some d => exact .interval (.refl _) _ _ _
  | launch payload index a => cases a <;> exact .refl _
  | _ => exact .refl _

theorem Acts.arranges (h : Acts m m') : m.timeline.Arranges m'.timeline := by
  induction h with
  | refl => exact .refl _
  | tail _ hstep ih =>
    refine ih.trans ?_
    cases hstep with
    | chore h => exact h.arranges
    | fall => exact .refl _
    | move => exact .refl _

theorem Deed.arranges (h : Deed m m') (hm : m.Faithful) : m.timeline.Arranges m'.timeline := by
  cases h with
  | @answer e rest queue =>
    exact (answer_chores (m := { m with queue := rest }) hm.wellFormed e).acts.arranges
  | move mem recalls payload event => exact (move_acts mem recalls payload event).arranges
  | work current kind due payload event run =>
    exact (work_chores current kind due payload event run).acts.arranges
  | flush =>
    obtain ⟨owed, journal, heq⟩ := flush_eq m
    rw [heq]
    exact .refl _
  | _ => exact .refl _

theorem Deeds.arranges (h : Deeds m m') (hm : m.Faithful) : m.timeline.Arranges m'.timeline := by
  induction h with
  | refl => exact .refl _
  | tail hdeeds hdeed ih => exact ih.trans (hdeed.arranges ((Deeds.changes hdeeds hm).faithful hm))

theorem popStep_eq_none_iff (m : Machine D) (horizon : Span) :
    m.popStep horizon = none ↔ m.timeline.popDue horizon = none := by
  unfold popStep
  split <;> simp [*]

/-- A step does not leave anything behind the clock. -/
theorem Step.ahead (h : Step m m') (hm : m.Faithful) (hs : m.timeline.Ahead) :
    m'.timeline.Ahead := by
  cases h with
  | send e => exact ((send_deeds m e).arranges hm).ahead hs
  | pop h =>
    obtain ⟨due, timeline, hpop, hdeeds⟩ := popStep_deeds h hm
    exact (hdeeds.arranges ((Change.pop hpop).faithful hm)).ahead (hs.popDue hpop)
  | settle done => exact hs.settle ((popStep_eq_none_iff m _).mp done)
  | poll gates => exact ((pollOperations_deeds gates hm).arranges hm).ahead hs
  | subscribe => exact hs
  | unsubscribe s =>
    unfold Machine.unsubscribe
    dsimp only
    split
    · exact hs.clearRepeating
    · exact hs

variable {design : Design D} {settings : Settings} {fresh : String}

/-- Nothing is due before the clock of a machine. -/
theorem Reached.ahead (h : Reached design settings fresh m) : m.timeline.Ahead := by
  obtain ⟨m₀, hcreate, hsteps⟩ := h
  obtain ⟨c, tree, m₁, requests, hc, htree, henter, hdeeds⟩ := create_deeds hcreate
  have hchores := started_chores henter
  have hstarted : m₁.Faithful := hchores.acts.faithful (faithful_begin hc htree)
  have hbegin : (begin design settings c tree).timeline.Ahead := Timeline.new_ahead _
  have hcreated := (hdeeds.arranges hstarted).ahead (hchores.acts.arranges.ahead hbegin)
  have hfaithful := (hdeeds.changes hstarted).faithful hstarted
  induction hsteps with
  | refl => exact hcreated
  | tail hbefore hstep ih =>
    exact hstep.ahead ((Steps.changes hbefore hfaithful).faithful hfaithful) ih

/-! ### Progress -/

/-- What is due first up to the horizon does not bring the machine on in time: it is a wait of no
length, or due at the end of time. -/
def Dwells (m : Machine D) (horizon : Span) : Prop :=
  ∃ due timeline, m.timeline.popDue horizon = some (due, timeline) ∧
    (due.isMomentary = true ∨ timeline.now = .max)

/-- The time up to the horizon, and how much presses before any of it passes. -/
def progress (m : Machine D) (horizon : Span) : Nat ×ₗ Nat :=
  toLex (horizon.nanos - m.timeline.now.nanos, m.timeline.pressing)

/-- Until the end of time, what is due does not throw the machine back, and it brings it on unless
the machine dwells. -/
theorem progress_le (hm : m.Faithful) (hs : m.timeline.Ahead)
    {r : Machine D × Option MachineError} (h : m.popStep horizon = some r)
    (hmax : r.1.timeline.now ≠ .max) : r.1.progress horizon ≤ m.progress horizon ∧
      (¬ m.Dwells horizon → r.1.progress horizon < m.progress horizon) := by
  obtain ⟨due, timeline, hpop, hdeeds⟩ := popStep_deeds h hm
  have harranges := hdeeds.arranges ((Change.pop hpop).faithful hm)
  have hnow : r.1.timeline.now = timeline.now := harranges.now_eq
  have hpressing : r.1.timeline.pressing ≤ timeline.pressing :=
    harranges.pressing_le (hs.popDue hpop) (hnow ▸ hmax)
  have hhorizon := Span.le_def.mp (Timeline.popDue_now_le hpop)
  unfold progress
  rw [hnow, Prod.Lex.toLex_le_toLex, Prod.Lex.toLex_lt_toLex]
  by_cases hsame : timeline.now = m.timeline.now
  · have hless := hs.pressing_popDue hpop hsame
    rw [hsame]
    refine ⟨Or.inr ⟨rfl, by omega⟩, fun hdwells => Or.inr ⟨rfl, ?_⟩⟩
    cases hmomentary : due.isMomentary with
    | true => exact absurd ⟨due, timeline, hpop, Or.inl hmomentary⟩ hdwells
    | false =>
      rw [hmomentary] at hless
      exact Nat.lt_of_le_of_lt hpressing hless
  · have hlt := Span.lt_def.mp (Span.lt_of_le_of_ne (hs.now_le_popDue hpop) (Ne.symm hsame))
    have hless : horizon.nanos - timeline.now.nanos < horizon.nanos - m.timeline.now.nanos := by
      omega
    exact ⟨Or.inl hless, fun _ => Or.inl hless⟩

theorem popStep_now_le (hm : m.Faithful) (hs : m.timeline.Ahead)
    {r : Machine D × Option MachineError} (h : m.popStep horizon = some r) :
    m.timeline.now ≤ r.1.timeline.now := by
  obtain ⟨due, timeline, hpop, hdeeds⟩ := popStep_deeds h hm
  rw [(hdeeds.arranges ((Change.pop hpop).faithful hm)).now_eq]
  exact hs.now_le_popDue hpop

/-! ### One thing after another -/

/-- The machine after so many things that are due are done, if there are so many. -/
def afterDue (horizon : Span) : Nat → Machine D → Option (Machine D)
  | 0, m => some m
  | n + 1, m => (m.popStep horizon).bind fun r => afterDue horizon n r.1

theorem afterDue_add {n : Nat} (h : afterDue horizon n m = some m') (k : Nat) :
    afterDue horizon (n + k) m = afterDue horizon k m' := by
  induction n generalizing m with
  | zero =>
    obtain rfl : m = m' := Option.some.inj h
    rw [Nat.zero_add]
  | succ n ih =>
    obtain ⟨r, hpop, hrest⟩ := Option.bind_eq_some_iff.mp h
    rw [show n + 1 + k = n + k + 1 by omega, afterDue, hpop]
    exact ih hrest

theorem afterDue_succ {n : Nat} {r : Machine D × Option MachineError}
    (h : afterDue horizon n m = some m') (hpop : m'.popStep horizon = some r) :
    afterDue horizon (n + 1) m = some r.1 := by
  rw [afterDue_add h, afterDue, hpop]
  rfl

theorem afterDue_steps {n : Nat} (h : afterDue horizon n m = some m') : Steps m m' := by
  induction n generalizing m with
  | zero =>
    obtain rfl : m = m' := Option.some.inj h
    exact .refl
  | succ n ih =>
    obtain ⟨r, hpop, hrest⟩ := Option.bind_eq_some_iff.mp h
    exact .head (.pop hpop) (ih hrest)

/-- All that is due is done just when there is a last thing. -/
theorem popAll_ends_iff (horizon : Span) (first : Option MachineError) (m : Machine D) :
    (∃ limit r, popAll horizon limit first m = some r) ↔
      ∃ n m', afterDue horizon n m = some m' ∧ m'.popStep horizon = none := by
  constructor
  · rintro ⟨limit, r, h⟩
    induction limit generalizing first m with
    | zero =>
      unfold popAll at h
      split at h
      · exact ⟨0, m, rfl, ‹_›⟩
      · cases h
    | succ limit ih =>
      unfold popAll at h
      split at h
      · exact ⟨0, m, rfl, ‹_›⟩
      · rename_i m₁ failure hpop
        obtain ⟨n, m', hafter, hnone⟩ := ih _ m₁ h
        refine ⟨n + 1, m', ?_, hnone⟩
        rw [afterDue, hpop]
        exact hafter
  · rintro ⟨n, m', hafter, hnone⟩
    induction n generalizing first m with
    | zero =>
      obtain rfl : m = m' := Option.some.inj hafter
      exact ⟨0, (m, first), by rw [popAll, hnone]⟩
    | succ n ih =>
      obtain ⟨⟨m₁, failure⟩, hpop, hrest⟩ := Option.bind_eq_some_iff.mp hafter
      obtain ⟨limit, r, hr⟩ := ih (first.or failure) m₁ hrest
      exact ⟨limit + 1, r, by rw [popAll, hpop]; exact hr⟩

/-- A machine stalls: from some point on it does one thing after another that is due, without an
end, and dwells at each. -/
def Stalls (m : Machine D) (horizon : Span) : Prop :=
  ∃ n, ∀ k, n ≤ k → ∃ m', afterDue horizon k m = some m' ∧ m'.Dwells horizon

/-- What is due, one thing after another, does not throw the machine back before the end of
time. -/
theorem Reached.afterDue_progress_le (hm : Reached design settings fresh m) {n : Nat}
    (h : afterDue horizon n m = some m') (hmax : m'.timeline.now ≠ .max) :
    m.timeline.now ≤ m'.timeline.now ∧ m'.progress horizon ≤ m.progress horizon := by
  induction n generalizing m with
  | zero =>
    obtain rfl : m = m' := Option.some.inj h
    exact ⟨Span.le_refl _, le_refl _⟩
  | succ n ih =>
    obtain ⟨r, hpop, hrest⟩ := Option.bind_eq_some_iff.mp h
    obtain ⟨hnow, hle⟩ := ih (hm.steps (.single (.pop hpop))) hrest
    have hnow₁ := popStep_now_le hm.arises.faithful hm.ahead hpop
    refine ⟨Span.le_trans hnow₁ hnow, le_trans hle ?_⟩
    refine (progress_le hm.arises.faithful hm.ahead hpop fun hlast => hmax ?_).1
    exact Span.le_antisymm (Span.le_max _) (hlast ▸ hnow)

/-- A machine with one thing after another to do without an end stalls: it makes progress at each
at which it does not dwell, and it cannot make progress without an end. -/
theorem Reached.stalls_of_endless (hm : Reached design settings fresh m)
    (h : ∀ n, ∃ m', afterDue horizon n m = some m') : m.Stalls horizon := by
  induction hp : m.progress horizon using WellFoundedLT.induction generalizing m with
  | ind p ih =>
    by_cases hdwells : ∀ k m', afterDue horizon k m = some m' → m'.Dwells horizon
    · exact ⟨0, fun k _ => (h k).imp fun m' hafter => ⟨hafter, hdwells k m' hafter⟩⟩
    · push Not at hdwells
      obtain ⟨k, m₁, hafter, hnot⟩ := hdwells
      have hm₁ : Reached design settings fresh m₁ := hm.steps (afterDue_steps hafter)
      obtain ⟨m', hnext⟩ := h (k + 1)
      rw [afterDue_add hafter] at hnext
      obtain ⟨r, hpop, -⟩ := Option.bind_eq_some_iff.mp hnext
      -- As the machine does not dwell, this is not the end of time, nor was anything before it.
      obtain ⟨due, timeline, hdue, hdeeds⟩ := popStep_deeds hpop hm₁.arises.faithful
      have hnow : r.1.timeline.now = timeline.now :=
        (hdeeds.arranges ((Change.pop hdue).faithful hm₁.arises.faithful)).now_eq
      have hmax : r.1.timeline.now ≠ .max := fun hlast =>
        hnot ⟨due, timeline, hdue, Or.inr (hnow ▸ hlast)⟩
      have hmax₁ : m₁.timeline.now ≠ .max := fun hlast => hmax
        (Span.le_antisymm (Span.le_max _)
          (hlast ▸ popStep_now_le hm₁.arises.faithful hm₁.ahead hpop))
      have hlt : r.1.progress horizon < p :=
        lt_of_lt_of_le ((progress_le hm₁.arises.faithful hm₁.ahead hpop hmax).2 hnot)
          (hp ▸ (hm.afterDue_progress_le hafter hmax₁).2)
      have hskip : ∀ j, afterDue horizon (k + 1 + j) m = afterDue horizon j r.1 :=
        afterDue_add (afterDue_succ hafter hpop)
      obtain ⟨n, hstall⟩ := ih _ hlt (hm₁.steps (.single (.pop hpop)))
        (fun j => hskip j ▸ h (k + 1 + j)) rfl
      refine ⟨k + 1 + n, fun j hj => ?_⟩
      have hrest := hstall (j - (k + 1)) (by omega)
      rwa [← hskip, show k + 1 + (j - (k + 1)) = j by omega] at hrest

/-- A machine that stalls has no last thing to do: it would not dwell there. -/
theorem Stalls.popStep_ne_none (h : m.Stalls horizon) {n : Nat}
    (hafter : afterDue horizon n m = some m') : m'.popStep horizon ≠ none := by
  intro hnone
  obtain ⟨k, hstall⟩ := h
  obtain ⟨m₁, hlater, due, timeline, hdue, -⟩ := hstall (n + k) (Nat.le_add_left k n)
  rw [afterDue_add hafter] at hlater
  cases k with
  | zero =>
    obtain rfl : m' = m₁ := Option.some.inj hlater
    rw [(popStep_eq_none_iff m' _).mp hnone] at hdue
    cases hdue
  | succ k =>
    obtain ⟨r, hpop, -⟩ := Option.bind_eq_some_iff.mp hlater
    rw [hnone] at hpop
    cases hpop

/-- An advance comes to its end when all that is due on the way does. -/
theorem exists_advance_iff (m : Machine D) (gates : Gates) (by_ : Span) :
    (∃ limit r, m.advance limit gates by_ = some r) ↔
      ∃ limit r, popAll (m.timeline.now.add by_) limit none m = some r := by
  constructor
  · rintro ⟨limit, r, hr⟩
    refine ⟨limit, ?_⟩
    unfold advance at hr
    dsimp only at hr
    split at hr
    · cases hr
    · rename_i hall
      exact ⟨_, hall⟩
  · rintro ⟨limit, r, hall⟩
    refine ⟨limit, ?_⟩
    unfold advance
    dsimp only
    rw [hall]
    exact ⟨_, rfl⟩

/-- **An advance comes to its end just when the machine does not stall**: unless from some point
on all that is due are waits of no length, or what is set at the end of time. So it does when
no such wait is due on the way, and the way does not lead to the end of time. -/
theorem Reached.advance_ends_iff (h : Reached design settings fresh m) (gates : Gates)
    (by_ : Span) : (∃ limit r, m.advance limit gates by_ = some r) ↔
      ¬ m.Stalls (m.timeline.now.add by_) := by
  rw [exists_advance_iff, popAll_ends_iff]
  constructor
  · rintro ⟨n, m', hafter, hnone⟩ hstalls
    exact hstalls.popStep_ne_none hafter hnone
  · intro hgoes
    by_contra hnever
    push Not at hnever
    refine hgoes (h.stalls_of_endless fun n => ?_)
    induction n with
    | zero => exact ⟨m, rfl⟩
    | succ n ih =>
      obtain ⟨m', hafter⟩ := ih
      obtain ⟨r, hpop⟩ := Option.ne_none_iff_exists'.mp (hnever n m' hafter)
      exact ⟨r.1, afterDue_succ hafter hpop⟩

/-- The pulse goes on by a frame, and so it does not stall. -/
theorem advance_ends_pulse :
    let frame : Span := ⟨16667000, by decide⟩
    ∃ m : Machine Nat, Reached Design.pulse {} "m" m ∧
      (∃ limit r, m.advance limit [] frame = some r) ∧ ¬ m.Stalls (m.timeline.now.add frame) := by
  intro frame
  obtain ⟨m, hcreate, hrun⟩ : ∃ m, create Design.pulse {} "m" = .ok m ∧
      (m.advance 9 [] frame).isSome = true := ⟨_, rfl, by decide +kernel⟩
  have hreached : Reached Design.pulse {} "m" m := .of_create hcreate
  have hends : ∃ limit r, m.advance limit [] frame = some r :=
    ⟨9, Option.isSome_iff_exists.mp hrun⟩
  exact ⟨m, hreached, hends, (hreached.advance_ends_iff [] frame).mp hends⟩

end Machine

/-! ### An advance without an end -/

/-- A ticker: "TICK" waits, and then sends itself. -/
def Design.ticker (seconds : Float) : Design Unit where
  id := none
  data := ()
  host := .empty
  root := .mk
    { on := [("TICK", .one (.handler
        { wait := some (.seconds seconds), send := some ⟨"TICK", .null⟩ } none none))] }
    []

/-- The handler of a ticker. -/
def Handler.tick (seconds : Float) : Handler :=
  .mk { wait := some (.fixed seconds), send := some ⟨"TICK", .null⟩ } none none

/-- What is left of its chain when it waits. -/
def Continuation.tick (seconds : Float) : Continuation where
  frames := [⟨[], .tick seconds, [], .wait⟩]
  delay := .ofSeconds seconds

/-- Its tree. -/
def Tree.ticker (seconds : Float) : Tree :=
  .mk { index := 0, name := "m", path := "m", trail := [], shape := .leaf,
        handlers := { on := [("TICK", [.tick seconds])] } } {} []

theorem Design.compile_ticker (seconds : Float) :
    ∃ c, (Design.ticker seconds).compile "m" = .ok c ∧ c.tree = .ticker seconds := by
  have hproblems : (Design.ticker seconds).problems "m" = [] := by
    unfold Design.problems Design.ticker
    simp only [Host.stateProblems, Host.statesProblems, Host.bodyProblems, Host.eventProblems,
      Host.chainProblems, Host.linkProblems, Host.handlerProblems]
    rfl
  exact ⟨_, Design.compile_eq_ok_iff.mpr ⟨hproblems, rfl⟩, rfl⟩

namespace Machine

variable {seconds : Float} {m : Machine Unit}

/-- The wait of a ticker. -/
def tickAt (seconds : Float) (due : Span) : Timer Task :=
  ⟨due, ⟨0, 1⟩, none, .resume (.tick seconds) .null⟩

/-- A ticker in operation. -/
structure Ticks (seconds : Float) (m : Machine Unit) : Prop where
  current : m.tree.isCurrent ⟨0, 1⟩ = true
  chains : m.chainsFor "TICK" = [(⟨0, 1⟩, [.tick seconds])]
  budget : 0 < m.settings.maxTransitions
  nextFrame : m.timeline.nextFrame = none

theorem drain_of_queue_eq_nil {D : Type} {m : Machine D} {first : Option MachineError}
    {events budget : Nat} (h : m.queue = []) : m.drain first events budget = (m, first) := by
  unfold drain
  rw [h]

/-- At "TICK" a ticker sets its wait. -/
theorem answer_tick (h : Ticks seconds m) : ∃ owed journal, m.answer ⟨"TICK", .null⟩ = ({ m with
    owed, journal
    timeline := m.timeline.setTimeout ⟨0, 1⟩ (.ofSeconds seconds)
      (.resume (.tick seconds) .null) }, .ok []) := by
  have hruns : m.runsFor ⟨"TICK", .null⟩ = [(⟨0, 1⟩,
      { copy := { base := m.data }, stop := some (.suspended (.tick seconds)) })] := by
    unfold runsFor
    rw [h.chains]
    rfl
  unfold answer
  rw [hruns]
  exact ⟨_, _, rfl⟩

/-- A ticker with a "TICK" and no wait comes to have a wait and no "TICK". -/
theorem Ticks.finish (h : Ticks seconds m) (hqueue : m.queue = [⟨"TICK", .null⟩])
    (htimers : m.timeline.timers = []) (budget : Nat) :
    ∃ m' next, m.finish budget none = (m', none) ∧ Ticks seconds m' ∧ m'.queue = [] ∧
      m'.timeline.timers = [tickAt seconds next] := by
  obtain ⟨events, hevents⟩ := Nat.exists_eq_add_one.mpr h.budget
  have htaken : Ticks seconds { m with queue := [] } := ⟨h.current, h.chains, h.budget, h.nextFrame⟩
  obtain ⟨owed, journal, hanswer⟩ := answer_tick htaken
  have hhandle : handle { m with queue := [] } budget ⟨"TICK", .null⟩ = ({ m with
      owed, journal
      queue := []
      timeline := m.timeline.setTimeout ⟨0, 1⟩ (.ofSeconds seconds)
        (.resume (.tick seconds) .null) }, budget, none) := by
    rw [handle_eq_follow, hanswer]
    exact moveAll_nil _ _ _ _
  obtain ⟨owed', journal', hflush⟩ := flush_eq { m with
    owed, journal
    queue := []
    timeline := m.timeline.setTimeout ⟨0, 1⟩ (.ofSeconds seconds) (.resume (.tick seconds) .null) }
  unfold Machine.finish
  rw [hevents, drain, hqueue]
  dsimp only
  rw [hhandle]
  dsimp only
  rw [hflush]
  refine ⟨_, m.timeline.now.add (.ofSeconds seconds), drain_of_queue_eq_nil rfl,
    ⟨h.current, h.chains, h.budget, h.nextFrame⟩, rfl, ?_⟩
  show Timeline.insertTimer _ m.timeline.timers = _
  rw [htimers]
  rfl

/-- When its wait is over a ticker sends "TICK". -/
theorem execute_tick (seconds : Float) (hqueue : m.queue = []) : ∃ owed journal,
    m.execute 0 .resume .null "wait" (fun ctx copy => ctx.resume (.tick seconds) copy) =
      ({ m with owed, journal, queue := [⟨"TICK", .null⟩] }, .ok []) := by
  obtain ⟨design, settings, id, table, tree, data, queue⟩ := m
  obtain rfl : queue = [] := hqueue
  exact ⟨_, _, rfl⟩

/-- So it waits again. -/
theorem Ticks.popStep {due : Span} (h : Ticks seconds m) (hqueue : m.queue = [])
    (htimers : m.timeline.timers = [tickAt seconds due]) :
    ∃ m' next, m.popStep .max = some (m', none) ∧ Ticks seconds m' ∧ m'.queue = [] ∧
      m'.timeline.timers = [tickAt seconds next] := by
  let timeline : Timeline Task := { m.timeline with now := due, timers := [] }
  have hpop : m.timeline.popDue .max =
      some (.timer ⟨0, 1⟩ (.resume (.tick seconds) .null) none, timeline) := by
    unfold Timeline.popDue
    simp only [htimers, h.nextFrame]
    exact if_neg (Span.not_lt.mpr (Span.le_max due))
  obtain ⟨owed, journal, hexecute⟩ := execute_tick (m := { m with timeline }) seconds hqueue
  have hperform : perform { m with timeline }
      (.timer ⟨0, 1⟩ (.resume (.tick seconds) .null) none) = ({ m with
        timeline, owed, journal
        queue := [⟨"TICK", .null⟩] }, m.settings.maxTransitions, none) := by
    unfold perform fire
    dsimp only
    rw [show m.tree.isCurrent ⟨0, 1⟩ = true from h.current, hexecute]
    exact moveAll_nil _ _ _ _
  obtain ⟨owed', journal', hflush⟩ := flush_eq { m with
    timeline, owed, journal, queue := [⟨"TICK", .null⟩] }
  have hdone : Ticks seconds
      (Machine.flush { m with timeline, owed, journal, queue := [⟨"TICK", .null⟩] }) := by
    rw [hflush]
    exact ⟨h.current, h.chains, h.budget, h.nextFrame⟩
  obtain ⟨m', next, hfinish, hticks, hquiet, hwaits⟩ :=
    hdone.finish (by rw [hflush]) (by rw [hflush]) m.settings.maxTransitions
  exact ⟨m', next, (popStep_eq hpop hperform).trans (congrArg some hfinish), hticks, hquiet, hwaits⟩

/-- A ticker that waits has one thing after another to do, up to the end of time and then
without an end. -/
theorem popAll_tick {due : Span} (h : Ticks seconds m) (hqueue : m.queue = [])
    (htimers : m.timeline.timers = [tickAt seconds due]) (limit : Nat)
    (first : Option MachineError) : popAll .max limit first m = none := by
  induction limit generalizing m due first with
  | zero =>
    obtain ⟨m', next, hpop, -⟩ := h.popStep hqueue htimers
    rw [popAll, hpop]
  | succ limit ih =>
    obtain ⟨m', next, hpop, hticks, hquiet, hwaits⟩ := h.popStep hqueue htimers
    rw [popAll, hpop]
    exact ih hticks hquiet hwaits _

/-- A ticker starts with nothing to do. -/
theorem create_ticker (seconds : Float) : ∃ m, create (Design.ticker seconds) {} "m" = .ok m ∧
    Ticks seconds m ∧ m.queue = [] ∧ m.timeline.timers = [] := by
  have hstart : ∀ c : Compiled Unit, c.tree = .ticker seconds →
      ∃ m, (initial (Design.ticker seconds) {} c).start = .ok m ∧
        Ticks seconds m ∧ m.queue = [] ∧ m.timeline.timers = [] := by
    rintro ⟨id, tree, table⟩ rfl
    exact ⟨_, rfl, ⟨rfl, rfl, Nat.succ_pos 199, rfl⟩, rfl, rfl⟩
  obtain ⟨c, hcompile, htree⟩ := Design.compile_ticker seconds
  have hcreate : create (Design.ticker seconds) {} "m" =
      (initial (Design.ticker seconds) {} c).start := by
    have hid : (Design.ticker seconds).id.getD "m" = "m" := rfl
    rw [create, hid, hcompile]
  rw [hcreate]
  exact hstart c htree

/-- However long it waits, a ticker that is moved on to the end of time never gets there. -/
theorem advance_tick (seconds : Float) : ∃ m, Reached (Design.ticker seconds) {} "m" m ∧
    ∀ limit gates, m.advance limit gates .max = none := by
  obtain ⟨m, hcreate, hstarted, hqueue, htimers⟩ := create_ticker seconds
  have hticks : Ticks seconds (m.enqueue ⟨"TICK", .null⟩) :=
    ⟨hstarted.current, hstarted.chains, hstarted.budget, hstarted.nextFrame⟩
  obtain ⟨m', due, hsend, hticks, hquiet, hwaits⟩ := hticks.finish
    (by show m.queue ++ _ = _; rw [hqueue]; rfl) htimers m.settings.maxTransitions
  have hsend : m.send ⟨"TICK", .null⟩ = (m', none) := hsend
  have hstep := Step.send m ⟨"TICK", .null⟩
  rw [hsend] at hstep
  refine ⟨m', (Reached.of_create hcreate).steps (.single hstep), fun limit gates => ?_⟩
  unfold advance
  dsimp only
  rw [Span.add_max, popAll_tick hticks hquiet hwaits]

/-- An advance need not come to an end: one of a ticker that waits for no time does not. -/
theorem endless_ticker : ∃ m, Reached (Design.ticker 0.0) {} "m" m ∧
    ∀ limit gates, m.advance limit gates .max = none := advance_tick 0.0

end Machine
end Statechart
