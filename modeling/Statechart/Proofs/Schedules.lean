/-
# What a timeline holds

A timeline holds repeaters, which are the intervals and the frame tasks, and timeouts. A
repeater stays until its node is cancelled or all repeaters are cleared: when an interval is due
it is set again, unless its next tick would be past the end of time (`Timeline.RunsOut`). A
timeout goes when it is due or its node is cancelled.

Key definitions: `Timeline.repeating`, `Timeline.RunsOut`.
Key theorems: `Timeline.repeating_setInterval`, `Timeline.repeating_cancel`,
`Timeline.holds_of_popDue`.
-/
import Mathlib.Data.List.Perm.Basic
import Statechart.Proofs.Atomicity

namespace Statechart
namespace Timeline

variable {T : Type} {s s' : Timeline T} {owner : Lease} {task : T}

/-- The leases of the intervals and of the frame tasks. -/
def repeating (s : Timeline T) : List Lease :=
  (s.timers.filter fun t => t.period.isSome).map (·.owner) ++ s.frames.map (·.1)

/-- An interval is due up to the horizon, first of all that is, and its next tick would be past
the end of time. -/
def RunsOut (s : Timeline T) (horizon : Span) : Prop :=
  ∃ owner task period s', s.popDue horizon = some (.timer owner task (some period), s') ∧
    s'.now.add? period = none

theorem insertTimer_perm (t : Timer T) (us : List (Timer T)) : (insertTimer t us).Perm (t :: us) := by
  induction us with
  | nil => exact .refl _
  | cons u us ih =>
    unfold insertTimer
    split
    · exact .refl _
    · exact (ih.cons u).trans (.swap t u us)

/-! ### Setting and cancelling -/

theorem repeating_setTimeout (s : Timeline T) (owner : Lease) (delay : Span) (task : T) :
    (s.setTimeout owner delay task).repeating = s.repeating := by
  show (List.filter _ (insertTimer _ s.timers)).map _ ++ _ = _
  rw [filter_insertTimer_of_neg rfl]
  rfl

theorem mem_timeouts_setTimeout {delay : Span} {t : Timer T}
    (h : t ∈ (s.setTimeout owner delay task).timeouts) : t.owner = owner ∨ t ∈ s.timeouts := by
  obtain ⟨hmem, honce⟩ := List.mem_filter.mp h
  rcases mem_insertTimer.mp hmem with rfl | hmem
  · exact Or.inl rfl
  · exact Or.inr (List.mem_filter.mpr ⟨hmem, honce⟩)

theorem repeating_addFrame (s : Timeline T) (owner : Lease) (task : T) :
    (s.addFrame owner task).repeating.Perm (owner :: s.repeating) := by
  show (_ ++ (s.frames ++ [(owner, task)]).map _).Perm _
  rw [List.map_append, ← List.append_assoc]
  exact List.perm_append_singleton owner s.repeating

theorem repeating_insertTimer (s : Timeline T) {t : Timer T} {period : Span}
    (repeats : t.period = some period) :
    { s with timers := insertTimer t s.timers }.repeating.Perm (t.owner :: s.repeating) := by
  have htimers := ((insertTimer_perm t s.timers).filter fun t => t.period.isSome).map (·.owner)
  rw [List.filter_cons_of_pos (by rw [repeats]; rfl)] at htimers
  exact htimers.append_right _

theorem repeating_setInterval (s : Timeline T) (owner : Lease) (period : Span) (task : T) :
    (s.setInterval owner period task).repeating.Perm (owner :: s.repeating) := by
  unfold setInterval
  split
  · exact repeating_addFrame s owner task
  · exact repeating_insertTimer s rfl

theorem repeating_cancel (s : Timeline T) (node : Nat) :
    (s.cancel node).repeating = s.repeating.filter fun l => l.node ≠ node := by
  rw [repeating, repeating, List.filter_append, List.filter_map, List.filter_map]
  show (List.filter _ (List.filter _ s.timers)).map _ ++ (List.filter _ s.frames).map _ = _
  rw [List.filter_filter, List.filter_filter]
  simp only [Bool.and_comm, Function.comp_def]

theorem mem_timeouts_cancel {node : Nat} {t : Timer T} (h : t ∈ (s.cancel node).timeouts) :
    t ∈ s.timeouts ∧ t.owner.node ≠ node := by
  obtain ⟨hmem, honce⟩ := List.mem_filter.mp h
  obtain ⟨hmem, hnode⟩ := List.mem_filter.mp hmem
  exact ⟨List.mem_filter.mpr ⟨hmem, honce⟩, by simpa using hnode⟩

theorem repeating_clearRepeating (s : Timeline T) : s.clearRepeating.repeating = [] := by
  have htimers : (s.timers.filter fun t => t.period.isNone).filter (fun t => t.period.isSome) = [] := by
    rw [List.filter_filter, List.filter_eq_nil_iff]
    rintro ⟨due, owner, period, task⟩ -
    cases period <;> simp
  show ((s.timers.filter fun t => t.period.isNone).filter fun t => t.period.isSome).map _ ++ [] = []
  rw [htimers]
  rfl

theorem mem_timeouts_clearRepeating {t : Timer T} (h : t ∈ s.clearRepeating.timeouts) :
    t ∈ s.timeouts := by
  obtain ⟨hmem, honce⟩ := List.mem_filter.mp h
  exact List.mem_filter.mpr ⟨(List.mem_filter.mp hmem).1, honce⟩

/-! ### What is due -/

/-- What is due leaves the repeaters as they are, unless an interval runs out, and adds no
timeout. -/
theorem holds_of_popDue {horizon : Span} {due : Due T} (h : s.popDue horizon = some (due, s'))
    (lasts : ¬ s.RunsOut horizon) :
    s'.repeating.Perm s.repeating ∧ ∀ t ∈ s'.timeouts, t ∈ s.timeouts := by
  have hdue := h
  rcases popDue_cases h with ⟨⟨time, owner, period, task⟩, rest, hs, -, rfl, rfl⟩ | ⟨tick, -, -, -, rfl⟩
  · unfold repeating timeouts
    rw [hs]
    cases period with
    | none => exact ⟨.refl _, fun u hu => List.mem_cons_of_mem _ hu⟩
    | some period =>
      -- The interval is set again, as it does not run out.
      obtain ⟨next, hnext⟩ := Option.ne_none_iff_exists'.mp fun hend =>
        lasts ⟨owner, task, period, _, hdue, hend⟩
      dsimp only at hnext
      have hset := (insertTimer_perm ⟨next, owner, some period, task⟩ rest).filter fun t =>
        t.period.isSome
      have htimeouts : (insertTimer ⟨next, owner, some period, task⟩ rest).filter
          (fun t => t.period.isNone) = rest.filter fun t => t.period.isNone :=
        filter_insertTimer_of_neg rfl rest
      dsimp only [Option.bind_some]
      rw [hnext]
      dsimp only
      rw [htimeouts]
      exact ⟨(hset.map (·.owner)).append_right _, fun u hu => hu⟩
  · exact ⟨.refl _, fun t ht => ht⟩

/-- Without intervals none runs out. -/
theorem not_runsOut (h : s.timers.all fun t => t.period.isNone) (horizon : Span) :
    ¬ s.RunsOut horizon := by
  rintro ⟨owner, task, period, s', hpop, -⟩
  rcases popDue_cases hpop with ⟨t, rest, hs, -, hdue, -⟩ | ⟨tick, -, -, hdue, -⟩
  · have hnone := List.all_eq_true.mp h t (hs ▸ List.mem_cons_self)
    injection hdue with howner htask hperiod
    rw [← hperiod] at hnone
    cases hnone
  · cases hdue

end Timeline
end Statechart
