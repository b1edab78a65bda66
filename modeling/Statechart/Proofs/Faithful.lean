/-
# Faithful journals

The journal of a machine is faithful (`Machine.Faithful`) when it is sound, ends with the
tree of the machine, and has the work that is under way, each piece under its lease. Every
change keeps it so (`Machine.Change.faithful`): no work is on the timeline or among the
operations that was not put off, and none is done but under a lease that is current.

Key definitions: `Timeline.tasks`, `Due.tasks`, `Machine.Faithful`.
Key theorems: `Timeline.mem_tasks_of_popDue`, `Machine.Chore.faithful`,
`Machine.Change.faithful`.
-/
import Statechart.Proofs.Changes

namespace Statechart

/-! ### What is on a timeline -/

namespace Timeline

variable {T : Type}

/-- The tasks of a timeline, each with its lease. -/
def tasks (s : Timeline T) : List (Lease × T) := s.timers.map (fun t => (t.owner, t.task)) ++ s.frames

theorem mem_tasks {s : Timeline T} {p : Lease × T} :
    p ∈ s.tasks ↔ (∃ t ∈ s.timers, (t.owner, t.task) = p) ∨ p ∈ s.frames := by
  rw [tasks, List.mem_append, List.mem_map]

theorem mem_tasks_of_timers {s s' : Timeline T} {p : Lease × T} (hp : p ∈ s'.tasks)
    (timers : ∀ t ∈ s'.timers, t ∈ s.timers) (frames : ∀ f ∈ s'.frames, f ∈ s.frames) :
    p ∈ s.tasks := by
  rcases mem_tasks.mp hp with ⟨t, ht, rfl⟩ | hp
  · exact mem_tasks.mpr (Or.inl ⟨t, timers t ht, rfl⟩)
  · exact mem_tasks.mpr (Or.inr (frames p hp))

theorem mem_tasks_insertTimer {s : Timeline T} {t : Timer T} {p : Lease × T}
    (hp : p ∈ ({ s with timers := insertTimer t s.timers } : Timeline T).tasks) :
    p = (t.owner, t.task) ∨ p ∈ s.tasks := by
  rcases mem_tasks.mp hp with ⟨u, hu, rfl⟩ | hp
  · rcases mem_insertTimer.mp hu with rfl | hu
    · exact Or.inl rfl
    · exact Or.inr (mem_tasks.mpr (Or.inl ⟨u, hu, rfl⟩))
  · exact Or.inr (mem_tasks.mpr (Or.inr hp))

theorem mem_tasks_addFrame {s : Timeline T} {owner : Lease} {task : T} {p : Lease × T}
    (hp : p ∈ (s.addFrame owner task).tasks) : p = (owner, task) ∨ p ∈ s.tasks := by
  rcases mem_tasks.mp hp with hp | hp
  · exact Or.inr (mem_tasks.mpr (Or.inl hp))
  · rcases List.mem_append.mp hp with hp | hp
    · exact Or.inr (mem_tasks.mpr (Or.inr hp))
    · exact Or.inl (List.mem_singleton.mp hp)

theorem mem_tasks_setInterval {s : Timeline T} {owner : Lease} {period : Span} {task : T}
    {p : Lease × T} (hp : p ∈ (s.setInterval owner period task).tasks) :
    p = (owner, task) ∨ p ∈ s.tasks := by
  unfold setInterval at hp
  split at hp
  · exact mem_tasks_addFrame hp
  · exact mem_tasks_insertTimer hp

theorem mem_tasks_cancel {s : Timeline T} {node : Nat} {p : Lease × T}
    (hp : p ∈ (s.cancel node).tasks) : p ∈ s.tasks :=
  mem_tasks_of_timers hp (fun _ ht => (List.mem_filter.mp ht).1) fun _ hf => (List.mem_filter.mp hf).1

theorem mem_tasks_clearRepeating {s : Timeline T} {p : Lease × T}
    (hp : p ∈ s.clearRepeating.tasks) : p ∈ s.tasks :=
  mem_tasks_of_timers hp (fun _ ht => (List.mem_filter.mp ht).1) fun _ hf => nomatch hf

end Timeline

/-- The tasks that came due, each with its lease. -/
def Due.tasks {T : Type} : Due T → List (Lease × T)
  | timer owner task _ => [(owner, task)]
  | frame tasks _ => tasks

namespace Timeline

variable {T : Type}

/-- What comes due was on the timeline, and nothing else comes on it. -/
theorem mem_tasks_of_popDue {s s' : Timeline T} {horizon : Span} {due : Due T}
    (h : s.popDue horizon = some (due, s')) :
    (∀ p ∈ due.tasks, p ∈ s.tasks) ∧ ∀ p ∈ s'.tasks, p ∈ s.tasks := by
  rcases popDue_cases h with ⟨t, rest, hs, -, rfl, rfl⟩ | ⟨tick, -, -, rfl, rfl⟩
  · have ht : (t.owner, t.task) ∈ s.tasks :=
      mem_tasks.mpr (Or.inl ⟨t, hs ▸ List.mem_cons_self, rfl⟩)
    have hrest : ∀ u ∈ rest, (u.owner, u.task) ∈ s.tasks := fun u hu =>
      mem_tasks.mpr (Or.inl ⟨u, hs ▸ List.mem_cons_of_mem t hu, rfl⟩)
    refine ⟨fun p hp => List.mem_singleton.mp hp ▸ ht, fun p hp => ?_⟩
    rcases mem_tasks.mp hp with ⟨u, hu, rfl⟩ | hp
    · dsimp only at hu
      split at hu
      · rcases mem_insertTimer.mp hu with rfl | hu
        · exact ht
        · exact hrest u hu
      · exact hrest u hu
    · exact mem_tasks.mpr (Or.inr hp)
  · exact ⟨fun p hp => mem_tasks.mpr (Or.inr hp),
      fun p hp => mem_tasks_of_timers hp (fun _ h => h) fun _ h => h⟩

end Timeline

/-! ### Faithful journals -/

namespace Machine

variable {D : Type} {m m' : Machine D}

/-- The journal is sound, ends with the tree of the machine, and has all that is under way. -/
structure Faithful (m : Machine D) : Prop where
  plain : m.tree.plain.WellFormed
  reached : Journal.lastTree m.journal = some m.tree
  sound : Journal.Sound m.journal
  tasks : ∀ p ∈ m.timeline.tasks, .deferred p.1 p.2.deferral ∈ m.journal
  jobs : ∀ job ∈ m.jobs, .deferred job.owner .operation ∈ m.journal

namespace Faithful

theorem wellFormed (h : m.Faithful) : m.tree.WellFormed := .of_mapActivity h.plain

/-- Another entry that fits, about the same tree. -/
theorem note (h : m.Faithful) {e : Happening D} (fits : e.Fits m.journal)
    (same : ∀ es : List (Happening D), Journal.lastTree (e :: es) = Journal.lastTree es) :
    (m.note e).Faithful where
  plain := h.plain
  reached := (same _).trans h.reached
  sound := ⟨fits, h.sound⟩
  tasks p hp := List.mem_cons_of_mem e (h.tasks p hp)
  jobs job hjob := List.mem_cons_of_mem e (h.jobs job hjob)

/-- Nothing new is under way. -/
theorem of_fewer (h : m.Faithful) (tree : m'.tree = m.tree) (journal : m'.journal = m.journal)
    (tasks : ∀ p ∈ m'.timeline.tasks, p ∈ m.timeline.tasks)
    (jobs : ∀ job ∈ m'.jobs, ∃ job' ∈ m.jobs, job'.owner = job.owner) : m'.Faithful where
  plain := tree ▸ h.plain
  reached := by rw [journal, tree, h.reached]
  sound := journal ▸ h.sound
  tasks p hp := journal ▸ h.tasks p (tasks p hp)
  jobs job hjob := by
    obtain ⟨job', hjob', howner⟩ := jobs job hjob
    rw [journal, ← howner]
    exact h.jobs job' hjob'

/-- The same is under way. -/
theorem of_eq (h : m.Faithful) (tree : m'.tree = m.tree) (journal : m'.journal = m.journal)
    (timeline : m'.timeline = m.timeline) (jobs : m'.jobs = m.jobs) : m'.Faithful :=
  h.of_fewer tree journal (fun _ hp => timeline ▸ hp) fun job hjob => ⟨job, jobs ▸ hjob, rfl⟩

/-- A task more is under way, and the journal says so. -/
theorem of_task (h : m.Faithful) (task : Task) {index : Nat} {timeline : Timeline Task}
    (tasks : ∀ p ∈ timeline.tasks, p = (m.tree.lease index, task) ∨ p ∈ m.timeline.tasks) :
    ({ m with timeline }.note (.deferred (m.tree.lease index) task.deferral)).Faithful where
  plain := h.plain
  reached := h.reached
  sound := ⟨⟨m.tree, h.reached, rfl⟩, h.sound⟩
  tasks p hp := by
    rcases tasks p hp with rfl | hp
    · exact List.mem_cons_self
    · exact List.mem_cons_of_mem _ (h.tasks p hp)
  jobs job hjob := List.mem_cons_of_mem _ (h.jobs job hjob)

/-- A new tree is reached. -/
theorem of_enters (h : m.Faithful) {tree : Tree} (enters : m.Enters tree)
    {log : Transition.Log} : ({ m with tree, log }.note (.reached tree)).Faithful where
  plain := enters.plain_eq.symm ▸ h.plain
  reached := rfl
  sound := by
    refine ⟨fun u hu => ?_, h.sound⟩
    obtain rfl : m.tree = u := Option.some.inj (h.reached.symm.trans hu)
    exact enters.later
  tasks p hp := List.mem_cons_of_mem _ (h.tasks p hp)
  jobs job hjob := List.mem_cons_of_mem _ (h.jobs job hjob)

end Faithful

theorem Chore.faithful (h : Chore m m') (hm : m.Faithful) : m'.Faithful := by
  cases h with
  | run exit due => exact hm.note ⟨m.tree, hm.reached, rfl, exit, due⟩ fun _ => rfl
  | takeOver data owed passed =>
    have hm' : ({ m with data, owed } : Machine D).Faithful := hm.of_eq rfl rfl rfl rfl
    exact hm'.note trivial fun _ => rfl
  | postpone payload index rest =>
    exact hm.of_task (.resume rest payload) fun p hp => Timeline.mem_tasks_insertTimer hp
  | enqueue e =>
    have hm' : ({ m with queue := m.queue ++ [e] } : Machine D).Faithful := hm.of_eq rfl rfl rfl rfl
    exact hm'.note trivial fun _ => rfl
  | abandon index =>
    refine hm.of_fewer rfl rfl (fun p hp => Timeline.mem_tasks_cancel hp) fun job hjob => ?_
    exact ⟨job, (List.mem_filter.mp hjob).1, rfl⟩
  | startRepeater payload index r =>
    cases r with
    | none => exact hm
    | some r =>
      refine hm.of_task (.repeating r.chain m.timeline.now) fun p hp => ?_
      split at hp
      · exact Timeline.mem_tasks_addFrame hp
      · exact Timeline.mem_tasks_setInterval hp
  | launch payload index a =>
    cases a with
    | none => exact hm
    | some a =>
      refine ⟨hm.plain, hm.reached, ⟨⟨m.tree, hm.reached, rfl⟩, hm.sound⟩, fun p hp => ?_,
        fun job hjob => ?_⟩
      · exact List.mem_cons_of_mem _ (hm.tasks p hp)
      · rcases List.mem_append.mp hjob with hjob | hjob
        · exact List.mem_cons_of_mem _ (hm.jobs job hjob)
        · obtain rfl := List.mem_singleton.mp hjob
          exact List.mem_cons_self

theorem Act.faithful (h : Act m m') (hm : m.Faithful) : m'.Faithful := by
  cases h with
  | chore h => exact h.faithful hm
  | fall mem h => exact hm.of_enters ⟨_, mem, _, _, (congrArg Prod.fst h).symm⟩
  | move mem h =>
    exact (hm.of_enters ⟨_, mem, _, _, (congrArg Prod.fst h).symm⟩).note trivial fun _ => rfl

theorem Change.faithful (h : Change m m') (hm : m.Faithful) : m'.Faithful := by
  cases h with
  | act h => exact h.faithful hm
  | receive e => exact (Chore.enqueue m e).faithful hm
  | @take _ rest queue =>
    have hm' : ({ m with queue := rest } : Machine D).Faithful := hm.of_eq rfl rfl rfl rfl
    exact hm'.note trivial fun _ => rfl
  | drop => exact hm.of_eq rfl rfl rfl rfl
  | refresh owed => exact hm.of_eq rfl rfl rfl rfl
  | notify s => exact hm.note trivial fun _ => rfl
  | pop h =>
    exact hm.of_fewer rfl rfl (Timeline.mem_tasks_of_popDue h).2 fun job hjob => ⟨job, hjob, rfl⟩
  | settle horizon =>
    refine hm.of_fewer rfl rfl (fun p hp => ?_) fun job hjob => ⟨job, hjob, rfl⟩
    dsimp only [Timeline.settle] at hp
    split at hp <;> exact hp
  | poll gates =>
    refine hm.of_fewer rfl rfl (fun p hp => hp) fun job hjob => ?_
    obtain ⟨⟨job', answer⟩, hin, hjob⟩ := List.mem_filterMap.mp hjob
    obtain ⟨_, hjob', heq⟩ := List.mem_map.mp hin
    cases heq
    dsimp only at hjob
    split at hjob
    · cases hjob
      exact ⟨job', hjob', rfl⟩
    · cases hjob
  | subscribe => exact hm.of_eq rfl rfl rfl rfl
  | unsubscribe s =>
    let m₁ : Machine D := { m with subscribers := m.subscribers.filter (· ≠ s) }
    let m₂ : Machine D := { m₁ with timeline := m.timeline.clearRepeating }
    have hm₁ : m₁.Faithful := hm.of_eq rfl rfl rfl rfl
    have hm₂ : m₂.Faithful := hm₁.of_fewer rfl rfl
      (fun p hp => Timeline.mem_tasks_clearRepeating hp) fun job hjob => ⟨job, hjob, rfl⟩
    unfold Machine.unsubscribe
    dsimp only
    split
    · exact hm₂.note trivial fun _ => rfl
    · exact hm₁

theorem Changes.faithful (h : Changes m m') (hm : m.Faithful) : m'.Faithful := by
  induction h with
  | refl => exact hm
  | tail _ hstep ih => exact hstep.faithful ih

theorem Acts.faithful (h : Acts m m') (hm : m.Faithful) : m'.Faithful := h.changes.faithful hm

end Machine
end Statechart
