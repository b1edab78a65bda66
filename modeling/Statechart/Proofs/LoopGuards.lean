/-
# Loop guards

Chains may ask for transitions as nodes are left and entered, and send events as events are
handled, without end. What a step does is told here as a recursion without bounds: an event is its
chains and the requests that they ask for, and then the events behind it (`Machine.Drains`), and a
step is what it is about and then its events (`Machine.Bout`). It counts its transitions and
events up, and refuses more than the settings allow.

This recursion always comes to an end (`Machine.exists_bout`), and the operations come to what it
comes to (`Machine.Bout.run_eq`): what is left of their budgets is what it has not counted. So a
step makes no more transitions and handles no more events than the settings allow, it leaves no
event in the queue, and its failure is the first of the errors that are reported
(`Machine.loop_guards`). In development that is the refusal, unless another error was come upon
before; at the echo one is.

Key definitions: `Machine.Drains`, `Machine.Fires`, `Machine.Bout`, `Machine.Guarded`.
Key theorems: `Machine.Drains.drained`, `Machine.exists_drains`, `Machine.Bout.run_eq`,
`Machine.loop_guards`.
-/
import Statechart.Proofs.Requests

namespace Statechart

variable {D : Type}

/-- The time since what is due was last. -/
def Due.interval {T : Type} : Due T → Span
  | timer _ _ period => period.getD .zero
  | frame _ interval => interval

namespace Machine

variable {m m' : Machine D}

/-! ### Events -/

/-- The events in the queue are handled in order, with those that come in; once too many were, the
others go. Events are counted, and the transitions of all of them. -/
inductive Drains : Nat → Nat → Machine D → Machine D → List MachineError → Prop
  | done {made handled : Nat} {m : Machine D} (queue : m.queue = []) : Drains made handled m m []
  | guarded {made handled : Nat} {m : Machine D} {e : Event} {rest : List Event}
    (queue : m.queue = e :: rest) (spent : m.settings.maxTransitions ≤ handled) :
    Drains made handled m { m with queue := [] }
      [.transitionLoop m.settings.maxTransitions e.name]
  | next {made made₁ handled : Nat} {m m₁ m' : Machine D} {e : Event} {rest : List Event}
    {met met' : List MachineError} (queue : m.queue = e :: rest)
    (left : handled < m.settings.maxTransitions)
    (first : Follows e.payload e.name made ({ m with queue := rest }.answer e) m₁ made₁ met)
    (more : Drains made₁ (handled + 1) m₁.flush m' met') :
    Drains made handled m m' (met ++ met')

/-- What draining the queue comes to, with so many transitions made and events handled before. -/
structure Drained (m m' : Machine D) (made handled : Nat) (met : List MachineError) : Prop where
  queue : m'.queue = []
  spends : ∃ a k, made + a ≤ m.settings.maxTransitions ∧ handled + k ≤ m.settings.maxTransitions ∧
    Spends m m' a k
  limit : ∀ limit event, .transitionLoop limit event ∈ met → limit = m.settings.maxTransitions
  drain_eq : ∀ first, m.drain first (m.settings.maxTransitions - handled)
    (m.settings.maxTransitions - made) = (m', first.or (met.find? m.reports))

/-- An event is taken from the queue, its chains are run, the requests they ask for are made, and
the machine is flushed. -/
theorem Follows.counts_flush {made made' : Nat} {e : Event} {rest : List Event}
    {met : List MachineError}
    (h : Follows e.payload e.name made ({ m with queue := rest }.answer e) m' made' met)
    (hmade : made ≤ m.settings.maxTransitions) :
    m'.flush.settings = m.settings ∧ made ≤ made' ∧ made' ≤ m.settings.maxTransitions ∧
      Spends m m'.flush (made' - made) 1 ∧
      (∀ limit event, .transitionLoop limit event ∈ met → limit = m.settings.maxTransitions) ∧
      { m with queue := rest }.handle (m.settings.maxTransitions - made) e =
        (m', m.settings.maxTransitions - made', met.find? m.reports) := by
  have hanswer : Spends m ({ m with queue := rest }.answer e).1 0 1 :=
    answer_spends { m with queue := rest } e
  have hsettings : ({ m with queue := rest }.answer e).1.settings = m.settings := hanswer.1
  obtain ⟨hcounts, heq⟩ := h.follow_eq (answer_accounts _ e) (by rw [hsettings]; exact hmade)
  rw [hsettings, reports_congr hsettings] at heq
  have hspends : Spends m m'.flush (0 + (made' - made) + 0) (1 + 0 + 0) :=
    (hanswer.trans hcounts.spends).trans (flush_spends m')
  rw [Nat.zero_add, Nat.add_zero] at hspends
  refine ⟨hspends.1, hcounts.le, ?_, hspends, ?_, ?_⟩
  · rw [← hsettings]
    exact hcounts.le_max
  · rw [← hsettings]
    exact hcounts.limit
  · rw [handle_eq_follow]
    exact heq

theorem Drains.drained {made handled : Nat} {met : List MachineError}
    (h : Drains made handled m m' met) (hmade : made ≤ m.settings.maxTransitions)
    (hhandled : handled ≤ m.settings.maxTransitions) : Drained m m' made handled met := by
  induction h with
  | @done made handled m queue =>
    refine ⟨queue, ⟨0, 0, hmade, hhandled, .refl m⟩, (fun _ _ hmem => nomatch hmem), fun first => ?_⟩
    cases m.settings.maxTransitions - handled <;> simp [drain, queue]
  | @guarded made handled m e rest queue spent =>
    have hnone : m.settings.maxTransitions - handled = 0 := by omega
    refine ⟨rfl, ⟨0, 0, hmade, hhandled, rfl, [], rfl, rfl, rfl, rfl⟩, fun limit event hmem => ?_,
      fun first => ?_⟩
    · cases List.mem_singleton.mp hmem
      rfl
    · rw [hnone, drain, queue]
      dsimp only
      rw [structural_eq m rfl]
  | @next made made₁ handled m m₁ m' e rest met met' queue left first more ih =>
    obtain ⟨hsettings, hle, hle_max, hspends, hlimit, heq⟩ := first.counts_flush hmade
    rw [hsettings] at ih
    obtain ⟨hqueue, ⟨a, k, ha, hk, hspends'⟩, hlimit', heq'⟩ := ih hle_max left
    rw [hsettings] at ha hk hlimit' heq'
    rw [reports_congr hsettings] at heq'
    refine ⟨hqueue, ⟨made₁ - made + a, 1 + k, by omega, by omega, hspends.trans hspends'⟩, ?_, ?_⟩
    · intro limit event hmem
      rcases List.mem_append.mp hmem with hmem | hmem
      · exact hlimit limit event hmem
      · exact hlimit' limit event hmem
    · intro f
      obtain ⟨events, hevents⟩ := Nat.exists_eq_add_one_of_ne_zero (Nat.sub_ne_zero_of_lt left)
      have hrest : m.settings.maxTransitions - (handled + 1) = events := by omega
      rw [hrest] at heq'
      rw [hevents, drain, queue]
      dsimp only
      rw [heq]
      dsimp only
      rw [heq', List.find?_append, Option.or_assoc]

/-- Events come to an end, whatever events they send. -/
theorem exists_drains (left : Nat) : ∀ (made handled : Nat) (m : Machine D),
    made ≤ m.settings.maxTransitions → m.settings.maxTransitions ≤ handled + left →
      ∃ m' met, Drains made handled m m' met := by
  induction left with
  | zero =>
    intro made handled m hmade hleft
    cases queue : m.queue with
    | nil => exact ⟨_, _, .done queue⟩
    | cons e rest => exact ⟨_, _, .guarded queue hleft⟩
  | succ left ih =>
    intro made handled m hmade hleft
    cases queue : m.queue with
    | nil => exact ⟨_, _, .done queue⟩
    | cons e rest =>
      by_cases hlt : handled < m.settings.maxTransitions
      · have hanswer : ({ m with queue := rest }.answer e).1.settings = m.settings :=
          (answer_spends { m with queue := rest } e).1
        have hmade' : made ≤ ({ m with queue := rest }.answer e).1.settings.maxTransitions := by
          rw [hanswer]
          exact hmade
        obtain ⟨m₁, made₁, met, hfirst⟩ := exists_follows e.payload e.name hmade'
        obtain ⟨hsettings, -, hle_max, -⟩ := hfirst.counts_flush hmade
        obtain ⟨m', met', hmore⟩ := ih made₁ (handled + 1) m₁.flush
          (by rw [hsettings]; exact hle_max) (by rw [hsettings]; omega)
        exact ⟨_, _, .next queue hlt hfirst hmore⟩
      · exact ⟨_, _, .guarded queue (Nat.le_of_not_lt hlt)⟩

/-! ### Tasks and operations -/

/-- Run the chain of a task. With what it comes to go the payload and the event it is run for. -/
def attend (m : Machine D) (owner : Lease) (interval : Span) :
    Task → Json × String × (Machine D × Except MachineError (List Request))
  | .resume rest payload =>
    (payload, "wait", m.execute owner.node .resume payload "wait" fun ctx copy =>
      ctx.resume rest copy)
  | .repeating chain started =>
    let elapsed := m.timeline.now.sub started
    let payload := repeatPayload interval elapsed
    (payload, "repeat", m.execute owner.node (.repeating interval elapsed) payload "repeat"
      fun ctx copy => ctx.run chain copy)

theorem fire_eq {owner : Lease} (current : m.tree.isCurrent owner = true) (budget : Nat)
    (task : Task) (interval : Span) :
    m.fire budget owner task interval = follow (m.attend owner interval task).1
      (m.attend owner interval task).2.1 budget (m.attend owner interval task).2.2 := by
  unfold fire
  rw [current]
  cases task <;> rfl

theorem attend_accounts (m : Machine D) (owner : Lease) (interval : Span) (task : Task) :
    Accounts m (m.attend owner interval task).2.2 := by
  cases task with
  | resume rest payload =>
    exact execute_accounts m owner.node .resume payload "wait" fun ctx copy => ctx.resume rest copy
  | repeating chain started =>
    let elapsed := m.timeline.now.sub started
    exact execute_accounts m owner.node (.repeating interval elapsed)
      (repeatPayload interval elapsed) "repeat" fun ctx copy => ctx.run chain copy

theorem attend_spends (m : Machine D) (owner : Lease) (interval : Span) (task : Task) :
    Spends m (m.attend owner interval task).2.2.1 0 0 := by
  cases task with
  | resume rest payload => exact execute_spends m _ _ _ _ _
  | repeating chain started => exact execute_spends m _ _ _ _ _

/-- Run the chain for a settlement, if there is one. -/
def settlement (m : Machine D) (job : Job) :
    Settlement → Machine D × Except MachineError (List Request)
  | .resolved value => m.execute job.owner.node .settlement job.payload "async" fun ctx copy =>
      ctx.run job.awaiting.onResolve copy value
  | .rejected reason =>
    match job.awaiting.onReject with
    | none => (m, .ok [])
    | some chain => m.execute job.owner.node .settlement job.payload "async" fun ctx copy =>
        ctx.run chain copy reason

theorem settle_eq (m : Machine D) (job : Job) (s : Settlement) : m.settle job s =
    follow job.payload "async" m.settings.maxTransitions (m.settlement job s) := by
  unfold settle settlement
  cases s with
  | resolved value => rfl
  | rejected reason =>
    cases job.awaiting.onReject with
    | none => exact (moveAll_nil _ _ _ _).symm
    | some chain => rfl

theorem settlement_accounts (m : Machine D) (job : Job) (s : Settlement) :
    Accounts m (m.settlement job s) := by
  unfold settlement
  split
  · exact execute_accounts m _ _ _ _ _
  · split
    · exact .ok rfl
    · exact execute_accounts m _ _ _ _ _

theorem settlement_spends (m : Machine D) (job : Job) (s : Settlement) :
    Spends m (m.settlement job s).1 0 0 := by
  unfold settlement
  split
  · exact execute_spends m _ _ _ _ _
  · split
    · exact .refl m
    · exact execute_spends m _ _ _ _ _

/-- Tasks are done in order, with the requests they ask for, unless their lease has run out. The
transitions of all of them are counted. -/
inductive Fires (interval : Span) :
    Nat → List (Lease × Task) → Machine D → Machine D → Nat → List MachineError → Prop
  | nil (made : Nat) (m : Machine D) : Fires interval made [] m m made []
  | stale {made made' : Nat} {owner : Lease} {task : Task} {rest : List (Lease × Task)}
    {m m' : Machine D} {met : List MachineError} (stale : m.tree.isCurrent owner = false)
    (more : Fires interval made rest m m' made' met) :
    Fires interval made ((owner, task) :: rest) m m' made' met
  | next {made made₁ made' : Nat} {owner : Lease} {task : Task} {rest : List (Lease × Task)}
    {m m₁ m' : Machine D} {met met' : List MachineError} (current : m.tree.isCurrent owner = true)
    (first : Follows (m.attend owner interval task).1 (m.attend owner interval task).2.1 made
      (m.attend owner interval task).2.2 m₁ made₁ met)
    (more : Fires interval made₁ rest m₁ m' made' met') :
    Fires interval made ((owner, task) :: rest) m m' made' (met ++ met')

theorem Fires.fireAll_eq {interval : Span} {made made' : Nat} {tasks : List (Lease × Task)}
    {met : List MachineError} (h : Fires interval made tasks m m' made' met)
    (hmade : made ≤ m.settings.maxTransitions) :
    Counts m m' made made' met ∧
      fireAll interval tasks (m.settings.maxTransitions - made) m =
        (m', m.settings.maxTransitions - made', met.find? m.reports) := by
  induction h with
  | nil => exact ⟨.of_spends (.refl _) hmade (fun _ _ hmem => nomatch hmem), rfl⟩
  | @stale made made' owner task rest m m' met stale more ih =>
    obtain ⟨hcounts, heq⟩ := ih hmade
    refine ⟨hcounts, ?_⟩
    have hfire : m.fire (m.settings.maxTransitions - made) owner task interval =
        (m, m.settings.maxTransitions - made, none) := by
      unfold fire
      rw [stale]
      rfl
    rw [fireAll, hfire]
    dsimp only
    rw [heq]
    rfl
  | @next made made₁ made' owner task rest m m₁ m' met met' current first more ih =>
    obtain ⟨hcounts, heq⟩ := first.counts (attend_accounts m owner interval task)
      (attend_spends m owner interval task) hmade
    obtain ⟨hcounts', heq'⟩ := ih (by rw [hcounts.settings_eq]; exact hcounts.le_max)
    rw [hcounts.settings_eq, reports_congr hcounts.settings_eq] at heq'
    refine ⟨hcounts.trans hcounts', ?_⟩
    rw [fireAll, fire_eq current, heq]
    dsimp only
    rw [heq', List.find?_append]

theorem exists_fires (interval : Span) (tasks : List (Lease × Task)) : ∀ (made : Nat)
    (m : Machine D), made ≤ m.settings.maxTransitions →
      ∃ m' made' met, Fires interval made tasks m m' made' met := by
  induction tasks with
  | nil => exact fun made m _ => ⟨_, _, _, .nil made m⟩
  | cons t rest ih =>
    obtain ⟨owner, task⟩ := t
    intro made m hmade
    cases current : m.tree.isCurrent owner with
    | false =>
      obtain ⟨m', made', met, hmore⟩ := ih made m hmade
      exact ⟨_, _, _, .stale current hmore⟩
    | true =>
      have hspends := attend_spends m owner interval task
      have hmade' : made ≤ (m.attend owner interval task).2.2.1.settings.maxTransitions := by
        rw [hspends.1]
        exact hmade
      obtain ⟨m₁, made₁, met, hfirst⟩ := exists_follows (m.attend owner interval task).1
        (m.attend owner interval task).2.1 hmade'
      have hcounts := (hfirst.counts (attend_accounts m owner interval task) hspends hmade).1
      obtain ⟨m', made', met', hmore⟩ := ih made₁ m₁ (by rw [hcounts.settings_eq]; exact hcounts.le_max)
      exact ⟨_, _, _, .next current hfirst hmore⟩

/-! ### Steps -/

/-- What a step is about: an event that was sent, what is due on the timeline, an operation that
settled, or the requests of the first nodes that were entered. -/
inductive Stimulus where
  | event (e : Event)
  | due (due : Due Task)
  | settled (job : Job) (s : Settlement)
  | entered (requests : List Request)

/-- A step from its stimulus on: the first requests, and then the events in the queue. -/
inductive Bout (m : Machine D) : Stimulus → Machine D → List MachineError → Prop
  | event {e : Event} {m' : Machine D} {met : List MachineError}
    (drains : Drains 0 0 (m.enqueue e) m' met) : Bout m (.event e) m' met
  | due {due : Due Task} {m₁ m' : Machine D} {made : Nat} {met met' : List MachineError}
    (fires : Fires due.interval 0 due.tasks m m₁ made met) (drains : Drains made 0 m₁.flush m' met') :
    Bout m (.due due) m' (met ++ met')
  | settled {job : Job} {s : Settlement} {m₁ m' : Machine D} {made : Nat}
    {met met' : List MachineError}
    (follows : Follows job.payload "async" 0 (m.settlement job s) m₁ made met)
    (drains : Drains made 0 m₁ m' met') : Bout m (.settled job s) m' (met ++ met')
  | entered {requests : List Request} {m₁ m' : Machine D} {made : Nat}
    {met met' : List MachineError}
    (transits : TransitsAll .null "start" 0 requests m m₁ made met)
    (drains : Drains made 0 m₁ m' met') : Bout m (.entered requests) m' (met ++ met')

/-- What the operations do in a step. -/
def run (m : Machine D) : Stimulus → Machine D × Option MachineError
  | .event e => m.send e
  | .due due =>
    let (m, budget, failure) := m.perform due
    m.flush.finish budget failure
  | .settled job s =>
    let (m, budget, failure) := m.settle job s
    m.finish budget failure
  | .entered requests =>
    let (m, budget, failure) := moveAll .null "start" m.settings.maxTransitions requests m
    m.finish budget failure

theorem perform_eq (m : Machine D) (due : Due Task) :
    m.perform due = fireAll due.interval due.tasks m.settings.maxTransitions m := by
  cases due with
  | frame tasks interval => rfl
  | timer owner task period =>
    simp only [perform, Due.interval, Due.tasks, fireAll, Option.or_none]

/-- A step comes to a machine with an empty queue and to the first error that is reported, and
makes no more transitions and handles no more events than the settings allow. -/
structure Ends (m : Machine D) (r : Machine D × Option MachineError) (met : List MachineError) :
    Prop where
  failure : r.2 = met.find? m.reports
  queue : r.1.queue = []
  spends : ∃ a k, a ≤ m.settings.maxTransitions ∧ k ≤ m.settings.maxTransitions ∧ Spends m r.1 a k
  limit : ∀ limit event, .transitionLoop limit event ∈ met → limit = m.settings.maxTransitions

/-- The first part of a step and the draining after it, together. -/
theorem Counts.ends {m₁ : Machine D} {made : Nat} {met met' : List MachineError}
    (h : Counts m m₁ 0 made met) (drains : Drains made 0 m₁ m' met')
    {r : Machine D × Option MachineError}
    (hr : r = m₁.finish (m.settings.maxTransitions - made) (met.find? m.reports)) :
    r.1 = m' ∧ Ends m r (met ++ met') := by
  have hsettings := h.settings_eq
  obtain ⟨hqueue, ⟨a, k, ha, hk, hspends⟩, hlimit, heq⟩ :=
    drains.drained (by rw [hsettings]; exact h.le_max) (Nat.zero_le _)
  rw [hsettings] at ha hk hlimit heq
  rw [reports_congr hsettings, Nat.sub_zero] at heq
  have hall : Spends m m' (made + a) k := by
    have hboth := h.spends.trans hspends
    rwa [Nat.sub_zero, Nat.zero_add] at hboth
  rw [hr, Machine.finish, hsettings, heq, ← List.find?_append]
  refine ⟨rfl, rfl, hqueue, ⟨made + a, k, ha, by omega, hall⟩, fun limit event hmem => ?_⟩
  rcases List.mem_append.mp hmem with hmem | hmem
  · exact h.limit limit event hmem
  · exact hlimit limit event hmem

/-- A step of the operations is what the recursion says. -/
theorem Bout.run_eq {s : Stimulus} {met : List MachineError} (h : Bout m s m' met) :
    (m.run s).1 = m' ∧ Ends m (m.run s) met := by
  have hzero := Nat.zero_le m.settings.maxTransitions
  cases h with
  | @event e _ _ drains =>
    have hqueued : Counts m (m.enqueue e) 0 0 [] :=
      .of_spends (.of_note rfl rfl rfl rfl rfl) hzero fun _ _ hmem => nomatch hmem
    exact hqueued.ends drains rfl
  | @due due m₁ _ made met _ fires drains =>
    obtain ⟨hcounts, heq⟩ := fires.fireAll_eq hzero
    refine hcounts.flush.ends drains ?_
    rw [Nat.sub_zero, ← perform_eq] at heq
    rw [run, heq]
  | @settled job s m₁ _ made _ _ follows drains =>
    obtain ⟨hcounts, heq⟩ :=
      follows.counts (settlement_accounts m job s) (settlement_spends m job s) hzero
    refine hcounts.ends drains ?_
    rw [Nat.sub_zero, ← settle_eq] at heq
    rw [run, heq]
  | @entered requests m₁ _ made _ _ transits drains =>
    obtain ⟨hcounts, heq⟩ := transits.comes hzero
    refine hcounts.ends drains ?_
    rw [Nat.sub_zero] at heq
    rw [run, heq]

/-- Draining comes to an end after whatever was counted before. -/
theorem Counts.exists_drains {m₁ : Machine D} {made : Nat} {met : List MachineError}
    (h : Counts m m₁ 0 made met) : ∃ m' met', Drains made 0 m₁ m' met' := by
  have hsettings := h.settings_eq
  exact Machine.exists_drains m₁.settings.maxTransitions made 0 m₁
    (by rw [hsettings]; exact h.le_max) (Nat.le_add_left _ _)

theorem exists_bout (m : Machine D) (s : Stimulus) : ∃ m' met, Bout m s m' met := by
  have hzero := Nat.zero_le m.settings.maxTransitions
  cases s with
  | event e =>
    obtain ⟨m', met, h⟩ := exists_drains m.settings.maxTransitions 0 0 (m.enqueue e) hzero
      (Nat.le_add_left _ _)
    exact ⟨m', met, .event h⟩
  | due due =>
    obtain ⟨m₁, made, met, hfires⟩ := exists_fires due.interval due.tasks 0 m hzero
    obtain ⟨m', met', h⟩ := (hfires.fireAll_eq hzero).1.flush.exists_drains
    exact ⟨m', met ++ met', .due hfires h⟩
  | settled job s =>
    have hspends := settlement_spends m job s
    obtain ⟨m₁, made, met, hfollows⟩ := exists_follows job.payload "async"
      (Nat.zero_le (m.settlement job s).1.settings.maxTransitions)
    have hcounts := (hfollows.counts (settlement_accounts m job s) hspends hzero).1
    obtain ⟨m', met', h⟩ := hcounts.exists_drains
    exact ⟨m', met ++ met', .settled hfollows h⟩
  | entered requests =>
    obtain ⟨m₁, made, met, htransits⟩ := exists_transitsAll .null "start" m.settings.maxTransitions
      requests 0 m hzero (Nat.le_add_left _ _)
    obtain ⟨m', met', h⟩ := (htransits.comes hzero).1.exists_drains
    exact ⟨m', met ++ met', .entered htransits h⟩

/-! ### The guards -/

/-- In development, where a guard refuses something the failure is that it did, unless another
error was come upon first, which is the failure then. -/
theorem Ends.loop {r : Machine D × Option MachineError} {met : List MachineError}
    (h : Ends m r met) (development : m.settings.mode = .development) {limit : Nat} {event : String}
    (hmem : .transitionLoop limit event ∈ met) : limit = m.settings.maxTransitions ∧
      ((∃ event, r.2 = some (.transitionLoop m.settings.maxTransitions event)) ∨
        ∃ e, met.head? = some e ∧ (∀ limit event, e ≠ .transitionLoop limit event) ∧ r.2 = some e) := by
  refine ⟨h.limit limit event hmem, ?_⟩
  cases met with
  | nil => cases hmem
  | cons e met =>
    have hfailure : r.2 = some e := by
      have hreports : m.reports e = true := by simp [reports, development]
      rw [h.failure, List.find?_cons, hreports]
    by_cases hloop : ∃ limit event, e = .transitionLoop limit event
    · obtain ⟨limit, event, rfl⟩ := hloop
      rw [h.limit limit event List.mem_cons_self] at hfailure
      exact Or.inl ⟨event, hfailure⟩
    · exact Or.inr ⟨e, rfl, fun limit event heq => hloop ⟨limit, event, heq⟩, hfailure⟩

/-- The guards bound a step: it comes to an end, and whatever way it takes it comes to this
machine, with an empty queue, and this failure. Its tree is what the last of the activations led
to, and these are as few as the settings allow, like the events. -/
structure Guarded (m : Machine D) (s : Stimulus) (r : Machine D × Option MachineError) : Prop where
  ends : ∃ met, Bout m s r.1 met
  only : ∀ m' met, Bout m s m' met → m' = r.1 ∧ r.2 = met.find? m.reports
  queue : r.1.queue = []
  bounded : ∃ es, r.1.journal = es ++ m.journal ∧ r.1.tree = (Journal.lastTree es).getD m.tree ∧
    Journal.activated es ≤ m.settings.maxTransitions ∧
    (Journal.handled es).length ≤ m.settings.maxTransitions
  loops : m.settings.mode = .development → ∀ m' met, Bout m s m' met →
    ∀ limit event, .transitionLoop limit event ∈ met → limit = m.settings.maxTransitions ∧
      ((∃ event, r.2 = some (.transitionLoop m.settings.maxTransitions event)) ∨
        ∃ e, met.head? = some e ∧ (∀ limit event, e ≠ .transitionLoop limit event) ∧ r.2 = some e)

theorem run_guarded (m : Machine D) (s : Stimulus) : Guarded m s (m.run s) := by
  obtain ⟨m', met, hbout⟩ := exists_bout m s
  obtain ⟨rfl, hends⟩ := hbout.run_eq
  obtain ⟨a, k, ha, hk, -, es, hjournal, htree, rfl, rfl⟩ := hends.spends
  refine ⟨⟨met, hbout⟩, fun m' met' hbout' => ?_, hends.queue, ⟨es, hjournal, htree, ha, hk⟩, ?_⟩
  · obtain ⟨heq, hends'⟩ := hbout'.run_eq
    exact ⟨heq.symm, hends'.failure⟩
  · intro development m' met' hbout' limit event hmem
    exact hbout'.run_eq.2.loop development hmem

/-- **The loop guards.** In every step of a machine, a send, what is due at once, an operation that
settles, or the start from the requests of its first nodes on, with all events it brings about, no
more transitions are made and no more events handled than the settings allow. However chains ask
for transitions and send events, the step comes to an end, with an empty queue. In development,
where a guard refused something the failure is that it did, unless another error was come upon
before. -/
theorem loop_guards (m : Machine D) :
    (∀ e, Guarded m (.event e) (m.send e)) ∧
    (∀ horizon due timeline, m.timeline.popDue horizon = some (due, timeline) →
      ∃ r, m.popStep horizon = some r ∧ Guarded { m with timeline } (.due due) r) ∧
    (∀ first job s rest, m.tree.isCurrent job.owner = true →
      ∃ r, settleAll first ((job, s) :: rest) m = settleAll (first.or r.2) rest r.1.flush ∧
        Guarded m (.settled job s) r) ∧
    ∀ tree m₁ requests,
      m.tree.activate ((m.context .null).initialChild m.data) (fun _ => false) (.target .fresh) =
        (tree, none) →
      forNodes (enter .null "start") (tree.activeNodes.map Tree.node)
        ({ m with tree }.note (.reached tree)) = (m₁, .ok requests) →
      Spends ({ m with tree }.note (.reached tree)) m₁ 0 0 ∧
        ∃ r, Guarded m₁ (.entered requests) r ∧
          m.start = match r.2 with
            | some e => .error e
            | none => .ok r.1.flush := by
  refine ⟨fun e => run_guarded m (.event e), fun horizon due timeline hpop => ?_,
    fun first job s rest hcurrent => ?_, fun tree m₁ requests htree henter => ?_⟩
  · exact ⟨_, popStep_eq hpop rfl, run_guarded { m with timeline } (.due due)⟩
  · refine ⟨m.run (.settled job s), ?_, run_guarded m (.settled job s)⟩
    rw [settleAll, hcurrent]
    rfl
  · refine ⟨?_, m₁.run (.entered requests), run_guarded m₁ (.entered requests), ?_⟩
    · have hspends := spends_lasts.forNodes (spends_lasts.enter .null "start") henter
      exact hspends
    · unfold start
      dsimp only
      rw [htree]
      dsimp only
      rw [henter]
      dsimp only [run]
      generalize (moveAll .null "start" m₁.settings.maxTransitions requests m₁).1.finish _ _ = r
      obtain ⟨m₂, failure⟩ := r
      cases failure <;> rfl

end Machine

/-- An echo: "PING" sends itself, and "SNAG" sends "PING" and goes to where nothing is. -/
def Design.echo : Design Unit where
  id := none
  data := ()
  host := .empty
  root := .mk
    { on := [
        ("PING", .one (.handler { send := some ⟨"PING", .null⟩ } none none)),
        ("SNAG", .one (.handler { send := some ⟨"PING", .null⟩, targets := [.path "nowhere"] } none none))] }
    []

namespace Machine

/-- At the echo one "PING" is handled, and the second is refused. -/
theorem loop_guards_echo :
    ∃ m, Reached Design.echo { maxTransitions := 1 } "m" m ∧
      Guarded m (.event ⟨"PING", .null⟩) (m.send ⟨"PING", .null⟩) ∧
      (m.send ⟨"PING", .null⟩).1.queue = [] ∧
      (m.send ⟨"PING", .null⟩).2 = some (.transitionLoop 1 "PING") := by
  obtain ⟨m, hcreate, hfailure⟩ :
      ∃ m, create Design.echo { maxTransitions := 1 } "m" = .ok m ∧
        (m.send ⟨"PING", .null⟩).2 = some (.transitionLoop 1 "PING") :=
    ⟨_, rfl, by decide +kernel⟩
  have hguarded := (loop_guards m).1 ⟨"PING", .null⟩
  exact ⟨m, .of_create hcreate, hguarded, hguarded.queue, hfailure⟩

/-- At the echo "SNAG" is handled and "PING" is refused, but the failure is that there is no target
for "SNAG". -/
theorem loop_passed_over_echo :
    ∃ m, Reached Design.echo { maxTransitions := 1 } "m" m ∧ m.settings.mode = .development ∧
      ¬ m.GuardHolds ⟨"SNAG", .null⟩ ∧
      (∃ m' met, Bout m (.event ⟨"SNAG", .null⟩) m' met ∧ .transitionLoop 1 "PING" ∈ met) ∧
      (m.send ⟨"SNAG", .null⟩).2 = some (.unknownTarget "nowhere") := by
  -- the answer to "SNAG" asks for a transition that has no target, and leaves a "PING" behind
  obtain ⟨m, hcreate, hmode, hguard, hbout, hfailure⟩ :
      ∃ m, create Design.echo { maxTransitions := 1 } "m" = .ok m ∧
        m.settings.mode = .development ∧
        (process m.settings.maxTransitions m.settings.maxTransitions
          (m.enqueue ⟨"SNAG", .null⟩)).2.queue.length ≠ 0 ∧
        (∃ m' met, Bout m (.event ⟨"SNAG", .null⟩) m' met ∧ .transitionLoop 1 "PING" ∈ met) ∧
        (m.send ⟨"SNAG", .null⟩).2 = some (.unknownTarget "nowhere") :=
    ⟨_, rfl, rfl, by decide +kernel,
      ⟨_, _, .event (.next rfl Nat.zero_lt_one
        (.asked (.stop (.unknown Nat.zero_lt_one rfl) ⟨_, List.mem_singleton_self _, rfl⟩))
        (.guarded rfl (Nat.le_refl 1))), by decide⟩, by decide +kernel⟩
  exact ⟨m, .of_create hcreate, hmode, fun h => hguard (List.length_eq_zero_iff.mpr h), hbout,
    hfailure⟩

end Machine
end Statechart
