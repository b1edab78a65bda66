/-
# Work that was put off

Waits, repeaters and operations belong to a node under the lease that it had when they were
put off. A lease that has run out is never current again, as the generation of a node only
grows (`Machine.Faithful.isCurrent_eq_false`); so work under it is dropped whenever its turn
comes (`Machine.Ignores`), and work that is done belongs to a node that was active all the
time since (`Journal.Sound.holdsFrom`). What an exit chain puts off is under a lease that has
run out already.

Key definitions: `Journal.HoldsFrom`, `Machine.Ignores`.
Key theorems: `Journal.Sound.holdsFrom`, `Machine.ignores_of_isCurrent`,
`Machine.mem_tasks_of_leave`, `Machine.Reached.no_stale_work`.
-/
import Statechart.Proofs.Rest

namespace Statechart

variable {D : Type}

namespace Journal

/-- The lease is current at all times from the end of one journal to that of a later one. -/
def HoldsFrom (l : Lease) (old new : List (Happening D)) : Prop :=
  ∀ es, old <:+ es → es <:+ new → Holds l es

/-- A lease that is current has been so since work was put off under it. -/
theorem Sound.holdsFrom {since before : List (Happening D)} {l : Lease} {work : Deferral}
    (h : Sound (since ++ .deferred l work :: before))
    (hl : Holds l (since ++ .deferred l work :: before)) :
    HoldsFrom l (.deferred l work :: before) (since ++ .deferred l work :: before) := by
  obtain ⟨t, ht, hlease⟩ := h.fits
  rintro es ⟨mid, rfl⟩ ⟨late, heq⟩
  rw [← heq] at h hl
  exact h.holds ht hlease hl

/-- Work that is done was put off, and its lease has been current ever since. -/
theorem Sound.due {late early : List (Happening D)} {l : Lease} {role : Role} {time : Span}
    {work : Deferral} (h : Sound (late ++ .ran l role time :: early))
    (hrole : role.deferral = some work) :
    .deferred l work ∈ early ∧ ∀ since before w, early = since ++ .deferred l w :: before →
      HoldsFrom l (.deferred l w :: before) early := by
  obtain ⟨t, ht, -, -, hdue⟩ := h.fits
  obtain ⟨hcurrent, hmem⟩ := hdue work hrole
  refine ⟨hmem, ?_⟩
  rintro since before w rfl
  exact Sound.holdsFrom h.of_append.2 ⟨t, ht, hcurrent⟩

end Journal

namespace Machine

variable {m m' : Machine D}

/-! ### Leases that have run out -/

/-- A lease that work was put off under, and that is not current, is never current again. -/
theorem Faithful.isCurrent_eq_false (hm : m.Faithful) {owner : Lease} {work : Deferral}
    (hmem : .deferred owner work ∈ m.journal) (hstale : m.tree.isCurrent owner = false)
    (hchanges : Changes m m') : m'.tree.isCurrent owner = false := by
  obtain ⟨since, before, hjournal⟩ := List.append_of_mem hmem
  have hsound := hm.sound
  rw [hjournal] at hsound
  obtain ⟨t, ht, hlease⟩ := hsound.fits
  -- The lease was taken in a generation that its node has reached; to be current again, the
  -- node would have to be active in that generation, and so it would be active in it now.
  have hthen : t.Later m.tree :=
    hsound.later ht (hjournal ▸ hm.reached)
  have hgeneration : owner.generation ≤ (m.tree.lease owner.node).generation := by
    have hle := hthen.generation_le owner.node
    rwa [hlease] at hle
  have hnow : m.tree.Later m'.tree := by
    have hm' := hchanges.faithful hm
    obtain ⟨late, hlate⟩ := hchanges.onward.journal
    have hsound' : Journal.Sound (late ++ m.journal) := hlate ▸ hm'.sound
    exact hsound'.later hm.reached (hlate ▸ hm'.reached)
  cases hcurrent : m'.tree.isCurrent owner with
  | false => rfl
  | true => exact (hnow.isCurrent hgeneration hcurrent).symm.trans hstale

/-! ### Work that is dropped -/

/-- Nothing comes of work under the lease, on the timeline or among the operations. -/
structure Ignores (m : Machine D) (owner : Lease) : Prop where
  fire : ∀ budget task interval, m.fire budget owner task interval = (m, budget, none)
  fireAll : ∀ interval task rest budget,
    fireAll interval ((owner, task) :: rest) budget m = fireAll interval rest budget m
  settleAll : ∀ first job s rest, job.owner = owner →
    settleAll first ((job, s) :: rest) m = settleAll first rest m
  popStep : m.AtRest → ∀ horizon task period timeline,
    m.timeline.popDue horizon = some (.timer owner task period, timeline) →
      m.popStep horizon = some ({ m with timeline }, none)

theorem ignores_of_isCurrent {owner : Lease} (h : m.tree.isCurrent owner = false) :
    m.Ignores owner := by
  have hfire : ∀ {m : Machine D}, m.tree.isCurrent owner = false → ∀ budget task interval,
      m.fire budget owner task interval = (m, budget, none) := by
    intro m h budget task interval
    unfold fire
    rw [h]
    rfl
  refine ⟨hfire h, fun interval task rest budget => ?_, fun first job s rest hjob => ?_,
    fun hrest horizon task period timeline hpop => ?_⟩
  · rw [fireAll, hfire h]
    rfl
  · rw [settleAll, hjob, h]
    rfl
  · have hrest' : ({ m with timeline } : Machine D).AtRest :=
      ⟨hrest.queue, hrest.owed, hrest.snapshot⟩
    have hdrop := hfire (m := { m with timeline }) h m.settings.maxTransitions task
      (period.getD .zero)
    unfold popStep
    rw [hpop]
    dsimp only
    rw [hdrop, flush_of_atRest hrest', finish_of_atRest hrest']

/-! ### What an exit chain puts off -/

theorem mem_tasks_of_postponeAll {payload : Json} {p : Lease × Task} :
    ∀ {waits : List (Lease × Continuation)} {m : Machine D},
      p ∈ (waits.foldl (fun m w => m.postpone payload w.1 w.2) m).timeline.tasks →
        p ∈ m.timeline.tasks ∨ ∃ w ∈ waits, p.1 = w.1
  | [], _, hp => Or.inl hp
  | w :: waits, m, hp => by
    rw [List.foldl_cons] at hp
    rcases mem_tasks_of_postponeAll hp with hp | ⟨v, hv, heq⟩
    · rcases Timeline.mem_tasks_insertTimer hp with rfl | hp
      · exact Or.inr ⟨w, List.mem_cons_self, rfl⟩
      · exact Or.inl hp
    · exact Or.inr ⟨v, List.mem_cons_of_mem w hv, heq⟩

theorem enqueueAll_timeline (events : List Event) (m : Machine D) :
    (events.foldl enqueue m).timeline = m.timeline := by
  induction events generalizing m with
  | nil => rfl
  | cons e events ih => exact ih (m.enqueue e)

/-- A commit puts work off under the leases of its runs. -/
theorem mem_tasks_of_commit {payload : Json} {runs : List (Lease × Run D)} {p : Lease × Task}
    (hp : p ∈ (m.commit payload runs).timeline.tasks) :
    p ∈ m.timeline.tasks ∨ ∃ r ∈ runs, p.1 = r.1 := by
  unfold commit at hp
  rw [enqueueAll_timeline] at hp
  rcases mem_tasks_of_postponeAll hp with hp | ⟨w, hw, heq⟩
  · exact Or.inl hp
  · obtain ⟨⟨owner, r⟩, hr, hwait⟩ := List.mem_filterMap.mp hw
    obtain ⟨rest, -, rfl⟩ := Option.map_eq_some_iff.mp hwait
    exact Or.inr ⟨(owner, r), hr, heq⟩

/-- When a node is left, its tasks go, and any new one is its own. -/
theorem mem_tasks_of_leave {n : Node} {payload : Json} {event : String} {p : Lease × Task}
    (hp : p ∈ (m.leave payload event n).1.timeline.tasks) :
    p ∈ m.timeline.tasks ∧ p.1.node ≠ n.index ∨ p.1.node = n.index := by
  have hcancel : ∀ q ∈ (m.timeline.cancel n.index).tasks,
      q ∈ m.timeline.tasks ∧ q.1.node ≠ n.index := by
    intro q hq
    refine ⟨Timeline.mem_tasks_cancel hq, ?_⟩
    rcases Timeline.mem_tasks.mp hq with ⟨t, ht, rfl⟩ | hq
    · simpa using (List.mem_filter.mp ht).2
    · simpa using (List.mem_filter.mp hq).2
  unfold leave at hp
  dsimp only at hp
  cases hchain : n.handlers.onExit with
  | none =>
    rw [hchain] at hp
    exact Or.inl (hcancel p hp)
  | some chain =>
    rw [hchain, executeChain, execute] at hp
    dsimp only at hp
    split at hp
    · exact Or.inl (hcancel p hp)
    · rcases mem_tasks_of_commit hp with hp | ⟨r, hr, heq⟩
      · exact Or.inl (hcancel p hp)
      · rw [heq, List.mem_singleton.mp hr]
        exact Or.inr rfl

/-! ### Runs -/

variable {design : Design D} {settings : Settings} {fresh : String}

namespace Arises

/-- Nothing comes of work under a lease, or the lease is current and has been since work was
put off under it: its node has been active without a break. -/
theorem ignores_or_holds (h : Arises design settings fresh m) (owner : Lease) :
    m.Ignores owner ∨ m.tree.isCurrent owner = true ∧
      ∀ since before work, m.journal = since ++ .deferred owner work :: before →
        Journal.HoldsFrom owner (.deferred owner work :: before) m.journal := by
  have hm := h.faithful
  by_cases hcurrent : m.tree.isCurrent owner = true
  · refine Or.inr ⟨hcurrent, fun since before work heq => ?_⟩
    have hnow : Journal.Holds owner m.journal := ⟨m.tree, hm.reached, hcurrent⟩
    have hsound := hm.sound
    rw [heq] at hnow hsound ⊢
    exact hsound.holdsFrom hnow
  · exact Or.inl (ignores_of_isCurrent (Bool.not_eq_true _ ▸ hcurrent))

/-- Once the lease of work has run out, nothing comes of the work at any later moment. -/
theorem ignores (h : Arises design settings fresh m) {owner : Lease} {work : Deferral}
    (hmem : .deferred owner work ∈ m.journal) (hstale : m.tree.isCurrent owner = false)
    (hchanges : Changes m m') : m'.Ignores owner :=
  ignores_of_isCurrent (h.faithful.isCurrent_eq_false hmem hstale hchanges)

/-- When a node is left, the tasks that it has after that are those that its exit chain put
off, and nothing ever comes of them. -/
theorem ignores_of_leave (h : Arises design settings fresh m) {n : Node}
    (hinactive : m.tree.activeAt n.index = false) (payload : Json) (event : String)
    {p : Lease × Task} (hp : p ∈ (m.leave payload event n).1.timeline.tasks) :
    p ∈ m.timeline.tasks ∧ p.1.node ≠ n.index ∨
      p.1.node = n.index ∧ ∀ m', Changes (m.leave payload event n).1 m' → m'.Ignores p.1 := by
  refine (mem_tasks_of_leave hp).imp_right fun hnode => ⟨hnode, fun m' hchanges => ?_⟩
  have hleave := leave_chores hinactive payload event
  have hafter : Arises design settings fresh (m.leave payload event n).1 :=
    h.changes hleave.acts.changes
  have hstale : (m.leave payload event n).1.tree.isCurrent p.1 = false := by
    refine Tree.isCurrent_of_activeAt ?_
    rw [hleave.tree_eq, hnode, hinactive]
  exact hafter.ignores (hafter.faithful.tasks p hp) hstale hchanges

end Arises

/-- **No stale work.** Whatever operations led to a machine, each time that it resumed a
chain, ran a repeater or ran the chain for a settlement, this had been put off, and its node
had been active without a break since work was put off under its lease; all that is still
under way was put off. At any moment of a run, also between the tasks of a batch and between
the operations that settled, nothing comes of work under a lease unless the lease is current
and has been since; once it has run out nothing comes of the work at any later moment; and
nothing ever comes of what the exit chain of a node puts off. -/
theorem Reached.no_stale_work (h : Reached design settings fresh m) :
    (∀ late early owner role time work, m.journal = late ++ .ran owner role time :: early →
      role.deferral = some work →
        .deferred owner work ∈ early ∧
          ∀ since before w, early = since ++ .deferred owner w :: before →
            Journal.HoldsFrom owner (.deferred owner w :: before) early) ∧
    (∀ p ∈ m.timeline.tasks, .deferred p.1 p.2.deferral ∈ m.journal) ∧
    (∀ job ∈ m.jobs, .deferred job.owner .operation ∈ m.journal) ∧
    ∀ m₁, Arises design settings fresh m₁ →
      (∀ owner, m₁.Ignores owner ∨ m₁.tree.isCurrent owner = true ∧
        ∀ since before work, m₁.journal = since ++ .deferred owner work :: before →
          Journal.HoldsFrom owner (.deferred owner work :: before) m₁.journal) ∧
      (∀ owner work, .deferred owner work ∈ m₁.journal → m₁.tree.isCurrent owner = false →
        ∀ m', Changes m₁ m' → m'.Ignores owner) ∧
      ∀ n payload event, m₁.tree.activeAt n.index = false →
        ∀ p ∈ (m₁.leave payload event n).1.timeline.tasks,
          p ∈ m₁.timeline.tasks ∧ p.1.node ≠ n.index ∨
            p.1.node = n.index ∧
              ∀ m', Changes (m₁.leave payload event n).1 m' → m'.Ignores p.1 := by
  have hm := h.arises.faithful
  refine ⟨fun late early owner role time work heq hrole => ?_, hm.tasks, hm.jobs,
    fun m₁ hm₁ => ⟨hm₁.ignores_or_holds, fun owner work hmem hstale m' hchanges => ?_,
      fun n payload event hinactive p hp => ?_⟩⟩
  · exact Journal.Sound.due (heq ▸ hm.sound) hrole
  · exact hm₁.ignores hmem hstale hchanges
  · exact hm₁.ignores_of_leave hinactive payload event hp

end Machine

/-- A lamp that is lit or dark, and counts a second after it is no longer lit. -/
def Design.lamp : Design Nat where
  id := none
  data := 0
  host := .empty
  root := .mk { initial := some (.child "lit") } [
    ("lit", .mk
      { on := [("OFF", .one (.handler { targets := [.path "dark"] } none none))]
        onExit := some (.many [
          .handler { wait := some (.seconds 1) } none none,
          .action (.inline fun n _ _ => (n + 1, none))]) } []),
    ("dark", .mk {} [])]

namespace Machine

/-- The lamp goes dark. The wait of its exit chain is under way, but nothing ever comes of
it. -/
theorem no_stale_work_lamp :
    ∃ m, Reached Design.lamp {} "m" m ∧ m.snapshot.active = ["m", "m.dark"] ∧
      ∃ p ∈ m.timeline.tasks, ∀ m', Changes m m' → m'.Ignores p.1 := by
  obtain ⟨m, hcreate, hactive, p, hp, hstale⟩ : ∃ m, create Design.lamp {} "m" = .ok m ∧
      (m.send ⟨"OFF", .null⟩).1.snapshot.active = ["m", "m.dark"] ∧
      ∃ p ∈ (m.send ⟨"OFF", .null⟩).1.timeline.tasks,
        (m.send ⟨"OFF", .null⟩).1.tree.isCurrent p.1 = false :=
    ⟨_, rfl, by decide +kernel, by decide +kernel⟩
  have hreached : Reached Design.lamp {} "m" (m.send ⟨"OFF", .null⟩).1 :=
    (Reached.of_create hcreate).steps (.single (.send m _))
  obtain ⟨-, htasks, -, hmoments⟩ := hreached.no_stale_work
  obtain ⟨-, hforever, -⟩ := hmoments _ hreached.arises
  exact ⟨_, hreached, hactive, p, hp, hforever p.1 _ (htasks p hp) hstale⟩

end Machine
end Statechart
