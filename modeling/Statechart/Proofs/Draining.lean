/-
# Draining a timeline

A timeline is drained up to a horizon by taking what is due from it, one thing after another,
until nothing is (`Timeline.drain`). That comes to an end (`Timeline.Reached.afterPops_ends`):
with each thing that is due there is one less to come up to the horizon
(`Timeline.Regular.outstanding_popDue`), as an interval is set again for a later time, if there is
one, and so is the frame tick.

What one node has is drained beside what the others have. Without it, all else comes at the same
times, in the same order, with the same tasks and periods (`Timeline.Reached.drain_cancel`): a
timer that is set again goes behind those that are due no later, whether or not there are others
among them, and the frame clock goes on with the tasks that are left. Only what the node had is
gone, and the ticks that come to be without tasks.

Key definitions: `Timeline.Reached`, `Timeline.Regular`, `Timeline.outstanding`,
`Timeline.afterPops`, `Timeline.drain`, `Due.without`.
Key theorems: `Timeline.Reached.regular`, `Timeline.Regular.outstanding_popDue`,
`Timeline.Reached.afterPops_ends`, `Timeline.filter_insertTimer`,
`Timeline.Regular.popDue_cancel`, `Timeline.Reached.drain_cancel`.
-/
import Mathlib.Algebra.BigOperators.Group.List.Basic
import Mathlib.Algebra.GroupWithZero.Nat
import Statechart.Proofs.Agenda
import Statechart.Proofs.Faithful
import Statechart.Proofs.Schedules

namespace Statechart

variable {T : Type}

namespace Timeline

variable {s s' : Timeline T} {t : Timer T} {us : List (Timer T)} {horizon : Span} {due : Due T}

/-! ### Timelines that operations lead to -/

/-- A timeline that operations lead to from a new one, in any order. The clock may be moved on
also while something is due. -/
inductive Reached (frameInterval : Span) : Timeline T → Prop
  | new : Reached frameInterval (.new frameInterval)
  | setTimeout {s : Timeline T} (h : Reached frameInterval s) (owner : Lease) (delay : Span)
    (task : T) : Reached frameInterval (s.setTimeout owner delay task)
  | setInterval {s : Timeline T} (h : Reached frameInterval s) (owner : Lease) (period : Span)
    (task : T) : Reached frameInterval (s.setInterval owner period task)
  | addFrame {s : Timeline T} (h : Reached frameInterval s) (owner : Lease) (task : T) :
    Reached frameInterval (s.addFrame owner task)
  | cancel {s : Timeline T} (h : Reached frameInterval s) (node : Nat) :
    Reached frameInterval (s.cancel node)
  | clearRepeating {s : Timeline T} (h : Reached frameInterval s) :
    Reached frameInterval s.clearRepeating
  | popDue {s s' : Timeline T} {horizon : Span} {due : Due T} (h : Reached frameInterval s)
    (hpop : s.popDue horizon = some (due, s')) : Reached frameInterval s'
  | settle {s : Timeline T} (h : Reached frameInterval s) (horizon : Span) :
    Reached frameInterval (s.settle horizon)

/-- The timers are in the order in which they are due, no interval is of no length, and neither
is the time between two ticks. -/
structure Regular (s : Timeline T) : Prop where
  sorted : Sorted s.timers
  periods : ∀ t ∈ s.timers, t.period ≠ some .zero
  interval : s.frameInterval ≠ .zero

namespace Regular

theorem insert (h : s.Regular) (hperiod : t.period ≠ some .zero) :
    { s with timers := insertTimer t s.timers }.Regular where
  sorted := sorted_insertTimer t h.sorted
  periods u hu := by
    rcases mem_insertTimer.mp hu with rfl | hu
    · exact hperiod
    · exact h.periods u hu
  interval := h.interval

theorem filter (h : s.Regular) (p : Timer T → Bool) (frames : List (Lease × T))
    (nextFrame : Option Span) :
    { s with timers := s.timers.filter p, frames, nextFrame }.Regular :=
  ⟨h.sorted.filter p, fun t ht => h.periods t (List.mem_filter.mp ht).1, h.interval⟩

theorem cancel (h : s.Regular) (node : Nat) : (s.cancel node).Regular := h.filter _ _ _

theorem sorted_renew {rest : List (Timer T)} (h : s.Regular) (hs : s.timers = t :: rest) :
    Sorted rest ∧ Sorted (renew t rest) := by
  have hrest : Sorted rest := (List.pairwise_cons.mp (hs ▸ h.sorted)).2
  refine ⟨hrest, ?_⟩
  unfold renew
  split
  · exact sorted_insertTimer _ hrest
  · exact hrest

theorem popDue (h : s.Regular) (hpop : s.popDue horizon = some (due, s')) : s'.Regular := by
  rcases popDue_first hpop with ⟨t, rest, hs, -, -, -, rfl⟩ | ⟨tick, -, -, -, -, rfl⟩
  · refine ⟨(h.sorted_renew hs).2, fun u hu => ?_, h.interval⟩
    rcases mem_renew hu with ⟨due, -, rfl⟩ | hu
    · exact h.periods t (hs ▸ List.mem_cons_self)
    · exact h.periods u (hs ▸ List.mem_cons_of_mem t hu)
  · exact ⟨h.sorted, h.periods, h.interval⟩

end Regular

theorem Reached.regular {frameInterval : Span} (h : Reached frameInterval s) : s.Regular := by
  induction h with
  | new => exact ⟨.nil, nofun, (new_ahead frameInterval).interval⟩
  | setTimeout _ owner delay task ih => exact ih.insert nofun
  | setInterval _ owner period task ih =>
    unfold Timeline.setInterval
    split
    · exact ⟨ih.sorted, ih.periods, ih.interval⟩
    · rename_i hperiod
      exact ih.insert fun heq => hperiod (Option.some.inj heq)
  | addFrame _ owner task ih => exact ⟨ih.sorted, ih.periods, ih.interval⟩
  | cancel _ node ih => exact ih.cancel node
  | clearRepeating _ ih => exact ih.filter _ _ _
  | popDue _ hpop ih => exact ih.popDue hpop
  | settle _ horizon ih =>
    unfold Timeline.settle
    split
    · exact ⟨ih.sorted, ih.periods, ih.interval⟩
    · exact ih

/-! ### What is due up to a horizon becomes less -/

/-- How often something with this period, due first at `due`, is due up to the horizon. No time
past the end of time counts, as no horizon is past it. -/
def occurrences (horizon : Span) (period : Option Span) (due : Span) : Nat :=
  if horizon < due then 0
  else
    match period with
    | none => 1
    | some period => (horizon.nanos - due.nanos) / period.nanos + 1

/-- How many things are due up to the horizon. -/
def outstanding (horizon : Span) (s : Timeline T) : Nat :=
  (s.timers.map fun t => occurrences horizon t.period t.due).sum +
    s.nextFrame.elim 0 (occurrences horizon (some s.frameInterval))

/-- Once something was due, it is due once less. -/
theorem occurrences_renewed {period : Option Span} {due : Span} (hdue : due ≤ horizon)
    (hperiod : period ≠ some .zero) :
    (period.bind due.add?).elim 0 (occurrences horizon period) + 1 =
      occurrences horizon period due := by
  have hnow : ¬ horizon < due := Span.not_lt.mpr hdue
  cases period with
  | none => simp [occurrences, hnow]
  | some period =>
    have hpos := Span.nanos_pos fun hzero => hperiod (congrArg some hzero)
    have hle : due.nanos ≤ horizon.nanos := hdue
    -- What is left is too short for another period: it would end past the horizon or past all time.
    have hshort : horizon.nanos < due.nanos + period.nanos →
        occurrences horizon (some period) due = 1 := fun hlt => by
      have hdiv : (horizon.nanos - due.nanos) / period.nanos = 0 := Nat.div_eq_of_lt (by omega)
      simp [occurrences, hnow, hdiv]
    rw [Option.bind_some]
    cases hsum : due.add? period with
    | none =>
      have hlimit : Span.limit ≤ due.nanos + period.nanos := by
        by_contra hlt
        have hsome := Span.add?_eq_some_iff (c := ⟨_, Nat.lt_of_not_le hlt⟩).mpr rfl
        cases hsum.symm.trans hsome
      have hhorizon := horizon.nanos_lt_limit
      rw [hshort (by omega)]
      rfl
    | some next =>
      have hnext := Span.add?_eq_some_iff.mp hsum
      rw [Option.elim_some]
      by_cases hlater : horizon < next
      · have hlt : horizon.nanos < next.nanos := hlater
        rw [hshort (by omega), occurrences, if_pos hlater]
      · have hnot : next.nanos ≤ horizon.nanos := Span.not_lt.mp hlater
        have hdiff : horizon.nanos - due.nanos = horizon.nanos - next.nanos + period.nanos := by
          omega
        simp only [occurrences, hlater, hnow, if_false]
        rw [hdiff, Nat.add_div_right _ hpos]

/-- With each thing that is due there is one thing less to come. -/
theorem Regular.outstanding_popDue (h : s.Regular) (hpop : s.popDue horizon = some (due, s')) :
    s'.outstanding horizon + 1 = s.outstanding horizon := by
  rcases popDue_first hpop with ⟨t, rest, hs, -, hle, -, rfl⟩ | ⟨tick, hnext, -, hle, -, rfl⟩
  · have honce := occurrences_renewed hle (h.periods t (hs ▸ List.mem_cons_self))
    have hrenew : ((renew t rest).map fun t => occurrences horizon t.period t.due).sum =
        (t.period.bind t.due.add?).elim 0 (occurrences horizon t.period) +
          (rest.map fun t => occurrences horizon t.period t.due).sum := by
      unfold renew
      split <;> rename_i hdue <;> rw [hdue]
      · have hperm := insertTimer_perm { t with due := ‹Span› } rest
        exact (hperm.map fun t => occurrences horizon t.period t.due).sum_eq.trans List.sum_cons
      · exact (Nat.zero_add _).symm
    unfold outstanding
    dsimp only
    rw [hrenew, hs, List.map_cons, List.sum_cons]
    omega
  · have hperiod : some s.frameInterval ≠ some .zero := fun hzero =>
      h.interval (Option.some.inj hzero)
    have honce := occurrences_renewed hle hperiod
    rw [Option.bind_some] at honce
    unfold outstanding
    dsimp only
    rw [hnext, Nat.add_assoc, honce]
    rfl

/-- There is nothing to come just when nothing is due. -/
theorem Regular.outstanding_eq_zero_iff (h : s.Regular) :
    s.outstanding horizon = 0 ↔ s.popDue horizon = none := by
  constructor
  · intro hzero
    cases hpop : s.popDue horizon with
    | none => rfl
    | some popped =>
      have hless := h.outstanding_popDue hpop
      omega
  · intro hnone
    obtain ⟨hhead, htick⟩ := (popDue_eq_none_iff s horizon).mp hnone
    have htimers : (s.timers.map fun t => occurrences horizon t.period t.due).sum = 0 := by
      refine List.sum_eq_zero fun n hn => ?_
      obtain ⟨t, ht, rfl⟩ := List.mem_map.mp hn
      exact if_pos (h.sorted.lt_of_head hhead t ht)
    have hframe : s.nextFrame.elim 0 (occurrences horizon (some s.frameInterval)) = 0 := by
      cases hnext : s.nextFrame with
      | none => rfl
      | some tick => exact if_pos (htick tick hnext)
    rw [outstanding, htimers, hframe]

/-- What is left of a timeline once so many things that were due up to the horizon, one after the
other, have been taken from it, if there were as many. -/
def afterPops (horizon : Span) : Nat → Timeline T → Option (Timeline T)
  | 0, s => some s
  | n + 1, s => (s.popDue horizon).bind fun popped => afterPops horizon n popped.2

theorem Regular.outstanding_afterPops : ∀ {n : Nat} {s : Timeline T}, s.Regular →
    afterPops horizon n s = some s' → s'.Regular ∧ s'.outstanding horizon + n = s.outstanding horizon
  | 0, s, h, hpops => by
    obtain rfl : s = s' := Option.some.inj hpops
    exact ⟨h, rfl⟩
  | n + 1, s, h, hpops => by
    obtain ⟨⟨due, s₁⟩, hpop, hrest⟩ := Option.bind_eq_some_iff.mp hpops
    obtain ⟨hregular, hcount⟩ := outstanding_afterPops (h.popDue hpop) hrest
    have hless := h.outstanding_popDue hpop
    exact ⟨hregular, by omega⟩

theorem Regular.exists_afterPops : ∀ {n : Nat} {s : Timeline T}, s.Regular →
    n ≤ s.outstanding horizon → ∃ s', afterPops horizon n s = some s'
  | 0, s, _, _ => ⟨s, rfl⟩
  | n + 1, s, h, hn => by
    cases hpop : s.popDue horizon with
    | none =>
      have hzero := h.outstanding_eq_zero_iff.mpr hpop
      omega
    | some popped =>
      have hless := h.outstanding_popDue hpop
      obtain ⟨s', hrest⟩ := exists_afterPops (h.popDue hpop) (n := n) (by omega)
      exact ⟨s', by rw [afterPops, hpop, Option.bind_some, hrest]⟩

/-- **Draining a timeline comes to an end.** From each timeline that operations lead to, whatever
its frame interval, and up to each horizon, the end of time too, there is something to take as often
as the timers and the frame clock are due up to the horizon, and after that nothing is due. -/
theorem Reached.afterPops_ends {frameInterval : Span} (h : Reached frameInterval s)
    (horizon : Span) :
    (∃ s', afterPops horizon (s.outstanding horizon) s = some s' ∧ s'.popDue horizon = none) ∧
      ∀ n, afterPops horizon n s = none ↔ s.outstanding horizon < n := by
  have hregular := h.regular
  constructor
  · obtain ⟨s', hpops⟩ := hregular.exists_afterPops (Nat.le_refl (s.outstanding horizon))
    obtain ⟨hleft, hcount⟩ := hregular.outstanding_afterPops hpops
    exact ⟨s', hpops, hleft.outstanding_eq_zero_iff.mp (by omega)⟩
  · intro n
    constructor
    · intro hnone
      by_contra hle
      obtain ⟨s', hpops⟩ := hregular.exists_afterPops (Nat.le_of_not_lt hle)
      cases hnone.symm.trans hpops
    · intro hlt
      cases hpops : afterPops horizon n s with
      | none => rfl
      | some s' =>
        obtain ⟨-, hcount⟩ := hregular.outstanding_afterPops hpops
        omega

/-- Frames of no length and an interval of no length, an interval of four seconds, and a timeout
at the end of time. -/
def restless : Timeline String :=
  (((new .zero).setInterval ⟨1, 0⟩ .zero "spin").setInterval ⟨2, 0⟩ ⟨4000000000, by decide⟩
    "tick").setTimeout ⟨2, 0⟩ .max "end"

/-- Up to the end of time there are more than 10 ^ 21 things due, and then none. -/
theorem afterPops_restless : Reached .zero restless ∧
    (∃ s', afterPops .max 1111394194790825036911 restless = some s' ∧ s'.popDue .max = none) ∧
      afterPops .max 1111394194790825036912 restless = none := by
  have h : Reached .zero restless :=
    ((Reached.new.setInterval _ _ _).setInterval _ _ _).setTimeout _ _ _
  have hcount : restless.outstanding .max = 1111394194790825036911 := by decide
  obtain ⟨hends, hnone⟩ := h.afterPops_ends .max
  rw [hcount] at hends hnone
  exact ⟨h, hends, (hnone _).mpr (by decide)⟩

/-- All that is due up to the horizon, each thing with its time. -/
def drain (horizon : Span) (s : Timeline T) (h : s.Regular) : List (Span × Due T) :=
  match hpop : s.popDue horizon with
  | none => []
  | some (due, s') => (s'.now, due) :: drain horizon s' (h.popDue hpop)
termination_by s.outstanding horizon
decreasing_by
  have hless := h.outstanding_popDue hpop
  omega

theorem drain_of_none (h : s.Regular) (hnone : s.popDue horizon = none) :
    s.drain horizon h = [] := by
  rw [drain]
  split
  · rfl
  · rename_i hpop
    cases hnone.symm.trans hpop

theorem drain_of_some (h : s.Regular) (hpop : s.popDue horizon = some (due, s')) :
    s.drain horizon h = (s'.now, due) :: s'.drain horizon (h.popDue hpop) := by
  rw [drain]
  split
  · rename_i hnone
    cases hnone.symm.trans hpop
  · rename_i hpop'
    cases hpop.symm.trans hpop'
    rfl

end Timeline

/-! ### What is due without one node -/

/-- What is left of what came due without the tasks of a node, if anything is. -/
def Due.without (node : Nat) : Due T → Option (Due T)
  | timer owner task period => if owner.node = node then none else some (timer owner task period)
  | frame tasks interval =>
    let left := tasks.filter fun f => f.1.node ≠ node
    if left.isEmpty then none else some (frame left interval)

theorem Due.node_ne_of_without {node : Nat} {due left : Due T} (h : due.without node = some left) :
    ∀ p ∈ left.tasks, p.1.node ≠ node := by
  intro p hp
  cases due with
  | timer owner task period =>
    obtain ⟨hnode, rfl⟩ : owner.node ≠ node ∧ .timer owner task period = left := by
      simpa [Due.without] using h
    exact List.mem_singleton.mp hp ▸ hnode
  | frame tasks interval =>
    unfold Due.without at h
    dsimp only at h
    split at h
    · cases h
    · cases h
      simpa using (List.mem_filter.mp hp).2

namespace Timeline

variable {s s' : Timeline T} {t : Timer T} {us : List (Timer T)} {horizon : Span} {due : Due T}
variable {node : Nat}

/-- A timer before which nothing is due is due first. -/
theorem popDue_of_timer {rest : List (Timer T)} (hs : s.timers = t :: rest)
    (hfirst : ∀ tick, s.nextFrame = some tick → t.due ≤ tick) (hle : t.due ≤ horizon) :
    s.popDue horizon =
      some (.timer t.owner t.task t.period, { s with now := t.due, timers := renew t rest }) := by
  have hhead : s.timers.head? = some t := by rw [hs]; rfl
  obtain ⟨⟨due, s'⟩, hpop⟩ := Option.ne_none_iff_exists'.mp fun hnone =>
    Span.not_lt.mpr hle (((popDue_eq_none_iff s horizon).mp hnone).1 t hhead)
  rcases popDue_first hpop with ⟨u, rest', hs', -, -, rfl, rfl⟩ | ⟨tick, hnext, hlt, -⟩
  · cases hs.symm.trans hs'
    exact hpop
  · exact absurd (hlt t hhead) (Span.not_lt.mpr (hfirst tick hnext))

/-- A tick before all timers is due first. -/
theorem popDue_of_tick {tick : Span} (hnext : s.nextFrame = some tick)
    (hfirst : ∀ u ∈ s.timers, tick < u.due) (hle : tick ≤ horizon) :
    s.popDue horizon = some (.frame s.frames s.frameInterval,
      { s with now := tick, nextFrame := tick.add? s.frameInterval }) := by
  obtain ⟨⟨due, s'⟩, hpop⟩ := Option.ne_none_iff_exists'.mp fun hnone =>
    Span.not_lt.mpr hle (((popDue_eq_none_iff s horizon).mp hnone).2 tick hnext)
  rcases popDue_first hpop with ⟨u, rest, hs, hsooner, -⟩ | ⟨tick', hnext', -, -, rfl, rfl⟩
  · exact absurd (hfirst u (hs ▸ List.mem_cons_self)) (Span.not_lt.mpr (hsooner tick hnext))
  · cases hnext.symm.trans hnext'
    exact hpop

theorem drain_now (h : s.Regular) (now : Span) (h' : ({ s with now } : Timeline T).Regular) :
    ({ s with now } : Timeline T).drain horizon h' = s.drain horizon h := by
  cases hpop : s.popDue horizon with
  | none => rw [drain_of_none h hpop, drain_of_none h' hpop]
  | some popped => rw [drain_of_some h hpop, drain_of_some h' hpop]

theorem insertTimer_of_lt (h : ∀ u ∈ us, t.due < u.due) : insertTimer t us = t :: us := by
  cases us with
  | nil => rfl
  | cons u us => exact if_pos (h u List.mem_cons_self)

/-- A timer goes to the same place among those that are chosen from the timers. -/
theorem filter_insertTimer {p : Timer T → Bool} (ht : p t = true) (hsorted : Sorted us) :
    (insertTimer t us).filter p = insertTimer t (us.filter p) := by
  induction us with
  | nil => simp [insertTimer, ht]
  | cons u us ih =>
    have hle := hsorted.le_of_head
    have hrest := (List.pairwise_cons.mp hsorted).2
    by_cases hlt : t.due < u.due
    · have hall : ∀ v ∈ u :: us, t.due < v.due := List.forall_mem_cons.mpr
        ⟨hlt, fun v hv => Span.lt_of_lt_of_le hlt (hle v hv)⟩
      rw [insertTimer_of_lt hall, List.filter_cons_of_pos ht,
        insertTimer_of_lt fun v hv => hall v (List.mem_filter.mp hv).1]
    · rw [insertTimer, if_neg hlt]
      by_cases hu : p u
      · rw [List.filter_cons_of_pos hu, List.filter_cons_of_pos hu, insertTimer, if_neg hlt, ih hrest]
      · rw [List.filter_cons_of_neg hu, List.filter_cons_of_neg hu, ih hrest]

/-- What is chosen from the timers once one of them was due. It is set again among them if it is
chosen itself. -/
theorem filter_renew {p : Timer T → Bool} (howner : ∀ due, p { t with due } = p t)
    (hsorted : Sorted us) :
    (renew t us).filter p = if p t then renew t (us.filter p) else us.filter p := by
  unfold renew
  split
  · rename_i due _
    split <;> rename_i ht
    · exact filter_insertTimer ((howner due).trans ht) hsorted
    · exact filter_insertTimer_of_neg ((howner due).trans (Bool.not_eq_true _ ▸ ht)) us
  · rw [ite_self]

theorem nextFrame_of_cancel {tick : Span} (h : (s.cancel node).nextFrame = some tick) :
    s.nextFrame = some tick := by
  unfold Timeline.cancel at h
  dsimp only at h
  split at h
  · cases h
  · exact h

/-- When nothing is due, nothing is without a node. -/
theorem Regular.popDue_cancel_of_none (h : s.Regular) (hnone : s.popDue horizon = none)
    (node : Nat) : (s.cancel node).popDue horizon = none := by
  obtain ⟨hhead, htick⟩ := (popDue_eq_none_iff s horizon).mp hnone
  refine (popDue_eq_none_iff _ horizon).mpr ⟨fun t ht => ?_, fun tick hnext => ?_⟩
  · exact h.sorted.lt_of_head hhead t (List.mem_filter.mp (List.mem_of_head? ht)).1
  · exact htick tick (nextFrame_of_cancel hnext)

/-- What is due first is due first without a node as well, as far as it is left. When nothing of
it is left, the node is all that it was about. -/
theorem Regular.popDue_cancel (h : s.Regular) (hpop : s.popDue horizon = some (due, s'))
    (node : Nat) :
    (due.without node = none ∧ s'.cancel node = { s.cancel node with now := s'.now }) ∨
      ∃ left, due.without node = some left ∧
        (s.cancel node).popDue horizon = some (left, s'.cancel node) := by
  rcases popDue_first hpop with
    ⟨t, rest, hs, hfirst, hle, rfl, rfl⟩ | ⟨tick, hnext, hhead, hle, rfl, rfl⟩
  · have hrenew := filter_renew (p := fun u => u.owner.node ≠ node) (t := t) (fun _ => rfl)
      (h.sorted_renew hs).1
    by_cases hnode : t.owner.node = node
    · refine Or.inl ⟨if_pos hnode, ?_⟩
      rw [if_neg (by simpa using hnode)] at hrenew
      unfold Timeline.cancel
      dsimp only
      rw [hrenew, hs, List.filter_cons_of_neg (by simpa using hnode)]
    · refine Or.inr ⟨_, if_neg hnode, ?_⟩
      rw [if_pos (by simpa using hnode)] at hrenew
      have htimers : (s.cancel node).timers = t :: rest.filter fun u => u.owner.node ≠ node := by
        unfold Timeline.cancel
        dsimp only
        rw [hs, List.filter_cons_of_pos (by simpa using hnode)]
      have hticks : ∀ tick, (s.cancel node).nextFrame = some tick → t.due ≤ tick :=
        fun tick htick => hfirst tick (nextFrame_of_cancel htick)
      rw [popDue_of_timer htimers hticks hle, ← hrenew]
      rfl
  · by_cases hleft : (s.frames.filter fun f => f.1.node ≠ node).isEmpty
    · refine Or.inl ⟨if_pos hleft, ?_⟩
      unfold Timeline.cancel
      dsimp only
      rw [if_pos hleft, if_pos hleft]
    · refine Or.inr ⟨_, if_neg hleft, ?_⟩
      have hnext : (s.cancel node).nextFrame = some tick := (if_neg hleft).trans hnext
      have hfirst : ∀ u ∈ (s.cancel node).timers, tick < u.due := fun u hu =>
        h.sorted.lt_of_head hhead u (List.mem_filter.mp hu).1
      rw [popDue_of_tick hnext hfirst hle]
      unfold Timeline.cancel
      dsimp only
      rw [if_neg hleft]

/-- Draining without a node gives what draining with it gives, less what the node had. -/
theorem Regular.drain_of_cancel (h : s.Regular) (node : Nat) (horizon : Span) :
    (s.cancel node).drain horizon (h.cancel node) =
      (s.drain horizon h).filterMap fun d => (d.2.without node).map (d.1, ·) := by
  fun_induction drain horizon s h with
  | case1 s h hnone => rw [drain_of_none _ (h.popDue_cancel_of_none hnone node), List.filterMap_nil]
  | case2 s h due s' hpop ih =>
    rcases h.popDue_cancel hpop node with ⟨hwithout, hcancelled⟩ | ⟨left, hwithout, hpop'⟩
    · rw [List.filterMap_cons_none (by rw [hwithout]; rfl), ← ih]
      have hregular : ({ s.cancel node with now := s'.now } : Timeline T).Regular :=
        hcancelled ▸ (h.popDue hpop).cancel node
      rw [← drain_now (h.cancel node) s'.now hregular]
      congr 1
      exact hcancelled.symm
    · rw [List.filterMap_cons_some (by rw [hwithout]; rfl), ← ih, drain_of_some _ hpop']
      rfl

/-- **Cancelling a node leaves the others alone.** Draining a timeline without a node gives the
same as draining it with the node, at the same times and in the same order, less the timers of
the node, its tasks at each tick, and the ticks that have no other. Nothing of the node is in
it. -/
theorem Reached.drain_cancel {frameInterval : Span} (h : Reached frameInterval s) (node : Nat)
    (horizon : Span) :
    (s.cancel node).drain horizon (h.cancel node).regular =
        (s.drain horizon h.regular).filterMap (fun d => (d.2.without node).map (d.1, ·)) ∧
      ∀ d ∈ (s.cancel node).drain horizon (h.cancel node).regular,
        ∀ p ∈ d.2.tasks, p.1.node ≠ node := by
  have hdrain := h.regular.drain_of_cancel node horizon
  refine ⟨hdrain, fun d hd => ?_⟩
  obtain ⟨d', -, hleft⟩ := List.mem_filterMap.mp (hdrain ▸ hd)
  obtain ⟨left, hwithout, rfl⟩ := Option.map_eq_some_iff.mp hleft
  exact Due.node_ne_of_without hwithout

/-- Two nodes have a frame task each, the first an interval as well, and the second a timeout,
which is due with the interval's second time and was set before it. -/
def shared : Timeline String :=
  (((((new ⟨10, by decide⟩).addFrame ⟨1, 0⟩ "spin").addFrame ⟨2, 0⟩ "turn").setInterval ⟨1, 0⟩
    ⟨4, by decide⟩ "tick").setTimeout ⟨2, 0⟩ ⟨8, by decide⟩ "wake")

theorem shared_reached : Reached ⟨10, by decide⟩ shared :=
  (((Reached.new.addFrame _ _).addFrame _ _).setInterval _ _ _).setTimeout _ _ _

theorem drain_shared : shared.drain ⟨12, by decide⟩ shared_reached.regular =
    [(⟨4, by decide⟩, .timer ⟨1, 0⟩ "tick" (some ⟨4, by decide⟩)),
      (⟨8, by decide⟩, .timer ⟨2, 0⟩ "wake" none),
      (⟨8, by decide⟩, .timer ⟨1, 0⟩ "tick" (some ⟨4, by decide⟩)),
      (⟨10, by decide⟩, .frame [(⟨1, 0⟩, "spin"), (⟨2, 0⟩, "turn")] ⟨10, by decide⟩),
      (⟨12, by decide⟩, .timer ⟨1, 0⟩ "tick" (some ⟨4, by decide⟩))] := by
  rw [drain_of_some _ rfl, drain_of_some _ rfl, drain_of_some _ rfl, drain_of_some _ rfl,
    drain_of_some _ rfl, drain_of_none _ rfl]
  rfl

/-- Without the first node, the timeout and the tick stay. -/
theorem drain_shared_cancel :
    (shared.cancel 1).drain ⟨12, by decide⟩ (shared_reached.cancel 1).regular =
        [(⟨8, by decide⟩, .timer ⟨2, 0⟩ "wake" none),
          (⟨10, by decide⟩, .frame [(⟨2, 0⟩, "turn")] ⟨10, by decide⟩)] := by
  have h := shared_reached.drain_cancel 1 ⟨12, by decide⟩
  rw [drain_shared] at h
  exact h.1

end Timeline

end Statechart
