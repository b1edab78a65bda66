/-
# Notifications

A machine owes its subscribers a notification once something was taken over that obliges to one:
a run in which an action was done or targets were come to, other than secret ones. The obligation
is collected over the nodes of an event, the transitions, the chains run on the way and the tasks
of a frame, up to the next flush (`Machine.Owes`), whatever fails in between; until then nobody is
called. A flush pays it, to each subscriber once, and shows the machine as it is then
(`Machine.Informs`). Handling an event is one round of this (`Machine.Rounds.informs`), and so is
all that is due at once (`Machine.popStep_informs`).

Key definitions: `Journal.calls`, `Journal.Obliges`, `Machine.Owes`, `Machine.Informs`,
`Machine.Rounds`.
Key theorems: `Machine.commit_owes`, `Machine.Passage.owes`, `Machine.handle_owes`,
`Machine.fireAll_owes`, `Machine.Owes.informs`, `Machine.Rounds.informs`,
`Machine.Reached.notifies_once`.
-/
import Statechart.Proofs.Deeds
import Statechart.Proofs.Obligations

namespace Statechart

variable {D : Type}

/-! ### Notifications in a journal -/

/-- The call of a subscriber, with what it was shown. -/
def Happening.call? : Happening D → Option (Nat × Snapshot D)
  | notified s snapshot => some (s, snapshot)
  | _ => none

/-- What was taken over obliges to a notification. -/
def Happening.obliges : Happening D → Bool
  | committed passed => passed.any Handler.obliges
  | _ => false

namespace Journal

/-- The calls of subscribers, the first one first. -/
def calls (es : List (Happening D)) : List (Nat × Snapshot D) := es.reverse.filterMap (·.call?)

/-- A chain that was taken over ran an action, or came to a handler with targets, that was not
secret. -/
def Obliges (es : List (Happening D)) : Prop :=
  ∃ passed, .committed passed ∈ es ∧ ∃ h ∈ passed, h.body.actions ≠ [] ∨ h.body.targets ≠ []

theorem calls_append (late early : List (Happening D)) :
    calls (late ++ early) = calls early ++ calls late := by
  rw [calls, List.reverse_append, List.filterMap_append, calls, calls]

theorem any_obliges_iff {es : List (Happening D)} :
    es.any Happening.obliges = true ↔ Obliges es := by
  simp only [List.any_eq_true, Obliges]
  constructor
  · rintro ⟨e, he, hobliges⟩
    cases e with
    | committed passed =>
      obtain ⟨h, hh, hhandler⟩ := List.any_eq_true.mp hobliges
      exact ⟨passed, he, h, hh, by simpa [Handler.obliges] using hhandler⟩
    | _ => cases hobliges
  · rintro ⟨passed, he, h, hh, hhandler⟩
    exact ⟨_, he, List.any_eq_true.mpr ⟨h, hh, by simpa [Handler.obliges] using hhandler⟩⟩

end Journal

namespace Machine

variable {m : Machine D}

/-! ### What is owed -/

/-- No subscriber is called, and a notification is owed if it was before or what was taken over
obliges to one. -/
def Owes (m m' : Machine D) : Prop :=
  ∃ es, m'.journal = es ++ m.journal ∧ Journal.calls es = [] ∧
    m'.owed = (m.owed || es.any Happening.obliges) ∧ m'.subscribers = m.subscribers

theorem Owes.refl (m : Machine D) : Owes m m :=
  ⟨[], rfl, rfl, (Bool.or_false _).symm, rfl⟩

theorem Owes.trans {m₁ m₂ m₃ : Machine D} (h : Owes m₁ m₂) (k : Owes m₂ m₃) : Owes m₁ m₃ := by
  obtain ⟨es, hjournal, hcalls, howed, hsubscribers⟩ := h
  obtain ⟨fs, kjournal, kcalls, kowed, ksubscribers⟩ := k
  refine ⟨fs ++ es, ?_, ?_, ?_, ksubscribers.trans hsubscribers⟩
  · rw [kjournal, hjournal, List.append_assoc]
  · rw [Journal.calls_append, hcalls, kcalls]
    rfl
  · rw [kowed, howed, List.any_append, Bool.or_assoc, Bool.or_comm (es.any _)]

/-- One thing is written that calls nobody, and what it obliges to is owed. -/
theorem Owes.of_note {m m' : Machine D} {e : Happening D} (journal : m'.journal = e :: m.journal)
    (call : e.call? = none) (owed : m'.owed = (m.owed || e.obliges))
    (subscribers : m'.subscribers = m.subscribers) : Owes m m' := by
  refine ⟨[e], journal, ?_, ?_, subscribers⟩
  · simp [Journal.calls, call]
  · simpa using owed

/-- Nothing is written, and nothing is owed that was not. -/
theorem Owes.of_eq {m m' : Machine D} (journal : m'.journal = m.journal)
    (owed : m'.owed = m.owed) (subscribers : m'.subscribers = m.subscribers) : Owes m m' :=
  ⟨[], journal, rfl, owed.trans (Bool.or_false _).symm, subscribers⟩

theorem Owes.note (m : Machine D) {e : Happening D} (call : e.call? = none)
    (obliges : e.obliges = false) : Owes m (m.note e) :=
  .of_note rfl call (by rw [obliges, Bool.or_false]; rfl) rfl

theorem enqueueAll_owes (events : List Event) (m : Machine D) :
    Owes m (events.foldl enqueue m) := by
  induction events generalizing m with
  | nil => exact .refl m
  | cons e events ih =>
    have hfirst : Owes m (m.enqueue e) := .of_note rfl rfl (Bool.or_false _).symm rfl
    exact hfirst.trans (ih _)

theorem postponeAll_owes (payload : Json) (waits : List (Lease × Continuation)) (m : Machine D) :
    Owes m (waits.foldl (fun m w => m.postpone payload w.1 w.2) m) := by
  induction waits generalizing m with
  | nil => exact .refl m
  | cons w waits ih =>
    have hfirst : Owes m (m.postpone payload w.1 w.2) := .of_note rfl rfl (Bool.or_false _).symm rfl
    exact hfirst.trans (ih _)

/-- What runs that did not fail come to is taken over with what it obliges to. -/
theorem commit_owes (payload : Json) {runs : List (Lease × Run D)}
    (h : ∀ r ∈ runs, r.2.notify = r.2.passed.any Handler.obliges) :
    Owes m (m.commit payload runs) := by
  have howed : (runs.any fun r => r.2.notify) =
      (runs.flatMap fun r => r.2.passed).any Handler.obliges := by
    rw [List.any_flatMap]
    refine Bool.eq_iff_iff.mpr ?_
    simp only [List.any_eq_true]
    exact exists_congr fun r => and_congr_right fun hr => by rw [h r hr, List.any_eq_true]
  unfold commit
  dsimp only
  refine Owes.trans ?_ (enqueueAll_owes _ _)
  refine Owes.trans ?_ (postponeAll_owes payload _ _)
  refine .of_note rfl rfl ?_ rfl
  exact congrArg (m.owed || ·) howed

theorem execute_owes {run : Context D → WorkingCopy D → Run D}
    (honest : ∀ ctx copy, (run ctx copy).Honest) (m : Machine D) (index : Nat) (role : Role)
    (payload : Json) (event : String) : Owes m (m.execute index role payload event run).1 := by
  have hran : Owes m (m.note (.ran (m.tree.lease index) role m.timeline.now)) := .note m rfl rfl
  unfold execute
  dsimp only
  split
  · exact hran
  · rename_i hstop
    refine hran.trans (commit_owes payload fun r hr => ?_)
    obtain rfl := List.mem_singleton.mp hr
    exact (honest _ _).notify_eq hstop

/-! ### What is owed in a transition -/

theorem owes_lasts : Lasts (Owes (D := D)) where
  refl := .refl
  trans h k := h.trans k
  run m index role payload event chain :=
    execute_owes (fun ctx copy => ctx.run_honest chain copy .null) m index role payload event
  abandon _ _ _ := .of_eq rfl rfl rfl
  defer _ _ _ _ _ := .of_note rfl rfl (Bool.or_false _).symm rfl

/-- A transition obliges to what the chains do that are run on the way, wherever it fails. -/
theorem Passage.owes {target : Tree} {recalls : Recall} {payload : Json} {event : String}
    {r : Machine D × Except MachineError (List Request)}
    (h : Passage m target recalls payload event r) : Owes m r.1 := by
  have hreached : ∀ tree log, Owes m ({ m with tree, log }.note (.reached tree)) := fun tree log =>
    .of_note rfl rfl (Bool.or_false _).symm rfl
  rcases owes_lasts.passage h with ⟨tree, heq⟩ | ⟨tree, hafter⟩
  · rw [heq]
    exact hreached tree m.log
  · have harrive : Owes m (m.arrive target recalls tree) := (hreached tree _).trans (.note _ rfl rfl)
    exact harrive.trans hafter

theorem moveAll_owes (payload : Json) (event : String) : ∀ (budget : Nat)
    (requests : List Request) (m : Machine D), Owes m (moveAll payload event budget requests m).1
  | budget, [], m => by
    rw [moveAll_nil]
    exact .refl m
  | 0, _ :: _, m => .refl m
  | budget + 1, q :: rest, m => by
    unfold moveAll
    split
    · exact .refl m
    · exact .refl m
    · rename_i target recalls rest h
      have hmove := (move_passage m target recalls payload event).owes
      split <;> rename_i heq <;> rw [heq] at hmove
      · exact hmove
      · exact hmove.trans (moveAll_owes payload event budget _ _)

theorem follow_owes {out : Machine D × Except MachineError (List Request)} (h : Owes m out.1)
    (payload : Json) (event : String) (budget : Nat) :
    Owes m (follow payload event budget out).1 := by
  obtain ⟨m', e | requests⟩ := out
  · exact h
  · exact h.trans (moveAll_owes payload event budget requests m')

/-! ### What is owed for events and tasks -/

theorem traverse_honest {ctx : Context D} : ∀ {chains : List (Lease × Chain)}
    {copy : WorkingCopy D} {r : Lease × Run D}, r ∈ traverse ctx chains copy → r.2.Honest
  | (owner, chain) :: rest, copy, r, h => by
    have hfirst : r = (owner, ctx.run chain copy) → r.2.Honest := by
      rintro rfl
      exact ctx.run_honest chain copy .null
    rw [traverse] at h
    split at h
    · exact hfirst (List.mem_singleton.mp h)
    · exact hfirst (List.mem_singleton.mp h)
    · rcases List.mem_cons.mp h with heq | h
      · exact hfirst heq
      · exact traverse_honest h

theorem handle_owes (m : Machine D) (budget : Nat) (e : Event) :
    Owes (m.note (.handled e)) (m.handle budget e).1 := by
  have hanswer : Owes (m.note (.handled e)) (m.answer e).1 := by
    unfold answer
    split
    · exact .refl _
    · rename_i hnone
      refine commit_owes e.payload fun r hr => (traverse_honest hr).notify_eq fun failure hstop => ?_
      have hfailure := List.findSome?_eq_none_iff.mp hnone r hr
      simp [failure?, hstop] at hfailure
  rw [handle_eq_follow]
  exact follow_owes hanswer e.payload e.name budget

theorem fire_owes (m : Machine D) (budget : Nat) (owner : Lease) (task : Task) (interval : Span) :
    Owes m (m.fire budget owner task interval).1 := by
  unfold fire
  split
  · exact .refl m
  · cases task with
    | resume rest payload =>
      exact follow_owes (execute_owes (fun ctx copy => ctx.resume_honest rest copy) m owner.node
        .resume payload "wait") payload "wait" budget
    | repeating chain started =>
      let elapsed := m.timeline.now.sub started
      exact follow_owes (execute_owes (fun ctx copy => ctx.run_honest chain copy .null) m owner.node
        (.repeating interval elapsed) (repeatPayload interval elapsed) "repeat")
        (repeatPayload interval elapsed) "repeat" budget

/-- The tasks of a frame together oblige to what each of them does. -/
theorem fireAll_owes (interval : Span) : ∀ (tasks : List (Lease × Task)) (budget : Nat)
    (m : Machine D), Owes m (fireAll interval tasks budget m).1
  | [], _, m => .refl m
  | (owner, task) :: rest, budget, m =>
    (fire_owes m budget owner task interval).trans (fireAll_owes interval rest _ _)

/-! ### Subscribers -/

/-- Every subscriber is there once, and none under a number that is still to be given. -/
structure Enrolled (m : Machine D) : Prop where
  distinct : m.subscribers.Nodup
  known : ∀ s ∈ m.subscribers, s < m.nextSubscriber

theorem Enrolled.subscribe (h : m.Enrolled) : m.subscribe.1.Enrolled where
  distinct := by
    have hnew : m.nextSubscriber ∉ m.subscribers := fun hmem => Nat.lt_irrefl _ (h.known _ hmem)
    refine List.nodup_append.mpr ⟨h.distinct, List.nodup_singleton _, fun s hs t ht heq => hnew ?_⟩
    rw [← List.mem_singleton.mp ht, ← heq]
    exact hs
  known s hs := by
    rcases List.mem_append.mp hs with hs | hs
    · exact Nat.lt_succ_of_lt (h.known s hs)
    · exact List.mem_singleton.mp hs ▸ Nat.lt_succ_self _

theorem Enrolled.unsubscribe (h : m.Enrolled) (s : Nat) : (m.unsubscribe s).1.Enrolled := by
  have hfewer : ({ m with subscribers := m.subscribers.filter (· ≠ s) } : Machine D).Enrolled :=
    ⟨h.distinct.filter _, fun s hs => h.known s (List.mem_of_mem_filter hs)⟩
  unfold Machine.unsubscribe
  dsimp only
  split <;> exact ⟨hfewer.distinct, hfewer.known⟩

theorem Change.enrolled {m m' : Machine D} (h : Change m m') (hm : m.Enrolled) : m'.Enrolled := by
  cases h with
  | act h =>
    cases h with
    | chore h =>
      cases h with
      | startRepeater payload index r => cases r <;> exact ⟨hm.distinct, hm.known⟩
      | launch payload index a => cases a <;> exact ⟨hm.distinct, hm.known⟩
      | _ => exact ⟨hm.distinct, hm.known⟩
    | _ => exact ⟨hm.distinct, hm.known⟩
  | subscribe => exact hm.subscribe
  | unsubscribe s => exact hm.unsubscribe s
  | _ => exact ⟨hm.distinct, hm.known⟩

theorem Changes.enrolled {m m' : Machine D} (h : Changes m m') (hm : m.Enrolled) :
    m'.Enrolled := by
  induction h with
  | refl => exact hm
  | tail _ hstep ih => exact hstep.enrolled ih

theorem Arises.enrolled {design : Design D} {settings : Settings} {fresh : String}
    (h : Arises design settings fresh m) : m.Enrolled := by
  obtain ⟨c, tree, -, -, hchanges⟩ := h
  exact hchanges.enrolled ⟨List.nodup_nil, fun s hs => nomatch hs⟩

/-! ### Flushing what is owed -/

theorem notes_journal (subscribers : List Nat) (m : Machine D) :
    (subscribers.foldl (fun m s => m.note (.notified s m.snapshot)) m).journal =
      (subscribers.map fun s => .notified s m.snapshot).reverse ++ m.journal := by
  induction subscribers generalizing m with
  | nil => rfl
  | cons s subscribers ih =>
    rw [List.foldl_cons, ih, List.map_cons, List.reverse_cons, List.append_assoc]
    rfl

/-- A flush calls every subscriber with what the machine shows, if that is owed, and writes nothing
but this. -/
theorem flush_journal (m : Machine D) : m.flush.journal =
    (if m.owed then (m.subscribers.map fun s => .notified s m.view).reverse else []) ++ m.journal := by
  unfold flush
  dsimp only
  split
  · exact notes_journal _ { m with snapshot := m.view, owed := false }
  · rfl

theorem flush_subscribers (m : Machine D) : m.flush.subscribers = m.subscribers := by
  obtain ⟨owed, journal, heq⟩ := flush_eq m
  rw [heq]

/-- From `m` to `m'` and the flush of it, every subscriber is called at most once: once if
something obliges to it on the way, and not otherwise. It is shown `m'`. -/
structure Informs (m m' : Machine D) (es : List (Happening D)) : Prop where
  journal : m'.flush.journal = es ++ m.journal
  at_most_once : ∀ s, ((Journal.calls es).map (·.1)).count s ≤ 1
  exactly_once : ∀ s ∈ m.subscribers,
    ((Journal.calls es).map (·.1)).count s = 1 ↔ Journal.Obliges es
  /-- Nobody is called for handlers that have secret actions and targets alone. -/
  secret : (∀ passed, .committed passed ∈ es → ∀ h ∈ passed,
    h.body.actions = [] ∧ h.body.targets = []) → Journal.calls es = []
  shown : ∀ c ∈ Journal.calls es, c.1 ∈ m.subscribers ∧ c.2 = m'.view

theorem Owes.informs {m' : Machine D} (h : Owes m m') (owed : m.owed = false)
    (distinct : m.subscribers.Nodup) : ∃ es, Informs m m' es := by
  obtain ⟨es, hjournal, hcalls, howed, hsubscribers⟩ := h
  rw [owed, Bool.false_or] at howed
  let shown : List (Happening D) :=
    if m'.owed then (m'.subscribers.map fun s => .notified s m'.view).reverse else []
  have hshown : Journal.calls (shown ++ es) =
      if m'.owed then m.subscribers.map fun s => (s, m'.view) else [] := by
    rw [Journal.calls_append, hcalls, List.nil_append, ← hsubscribers]
    simp only [shown]
    split
    · simp [Journal.calls, List.filterMap_map, Happening.call?]
    · rfl
  have hobliges : Journal.Obliges (shown ++ es) ↔ m'.owed = true := by
    have hnone : shown.any Happening.obliges = false := by
      simp only [shown]
      split
      · simp [Happening.obliges]
      · rfl
    rw [← Journal.any_obliges_iff, List.any_append, hnone, Bool.false_or, howed]
  refine ⟨shown ++ es, ?_, fun s => ?_, fun s hs => ?_, fun hsecret => ?_, fun c hc => ?_⟩
  · rw [flush_journal, hjournal, List.append_assoc]
  · rw [hshown]
    split
    · simpa [Function.comp_def] using List.nodup_iff_count_le_one.mp distinct s
    · exact Nat.zero_le _
  · rw [hshown, hobliges]
    split
    · rename_i hm'
      simpa [Function.comp_def, hm'] using List.count_eq_one_of_mem distinct hs
    · rename_i hm'
      simp [hm']
  · rw [hshown, if_neg]
    rintro howed
    obtain ⟨passed, hpassed, h, hh, hactions | htargets⟩ := hobliges.mpr howed
    · exact hactions (hsecret passed hpassed h hh).1
    · exact htargets (hsecret passed hpassed h hh).2
  · rw [hshown] at hc
    split at hc
    · obtain ⟨s, hs, rfl⟩ := List.mem_map.mp hc
      exact ⟨hs, rfl⟩
    · cases hc

/-! ### Rounds of a drain -/

/-- Events are taken from the queue and handled one after another. Each round is from the machine
that takes an event to what handling it comes to, and the flush of that is where the next begins. -/
inductive Rounds : Machine D → List (Machine D × Machine D) → Machine D → Prop
  | nil (m : Machine D) : Rounds m [] m
  | cons {m m' : Machine D} {e : Event} {rest : List Event} {budget : Nat}
    {rounds : List (Machine D × Machine D)} (queue : m.queue = e :: rest)
    (more : Rounds ({ m with queue := rest }.handle budget e).1.flush rounds m') :
    Rounds m ((m, ({ m with queue := rest }.handle budget e).1) :: rounds) m'

theorem drain_rounds (first : Option MachineError) (events budget : Nat) (m : Machine D) :
    ∃ rounds m', Rounds m rounds m' ∧ (m.drain first events budget).1 = { m' with queue := [] } := by
  have hdone : m.queue = [] → m = { m with queue := [] } := fun h => by rw [← h]
  induction events generalizing first budget m with
  | zero =>
    unfold drain
    split
    · rename_i hqueue
      exact ⟨[], m, .nil m, hdone hqueue⟩
    · exact ⟨[], m, .nil m, rfl⟩
  | succ events ih =>
    unfold drain
    split
    · rename_i hqueue
      exact ⟨[], m, .nil m, hdone hqueue⟩
    · rename_i e rest hqueue
      obtain ⟨rounds, m', hrounds, heq⟩ := ih (first.or ({ m with queue := rest }.handle budget e).2.2)
        ({ m with queue := rest }.handle budget e).2.1 ({ m with queue := rest }.handle budget e).1.flush
        (fun h => by rw [← h])
      exact ⟨_, m', .cons hqueue hrounds, heq⟩

/-- In every round every subscriber is informed. -/
theorem Rounds.informs {m m' : Machine D} {rounds : List (Machine D × Machine D)}
    (h : Rounds m rounds m') (owed : m.owed = false) (distinct : m.subscribers.Nodup) :
    ∀ r ∈ rounds, r.1.subscribers = m.subscribers ∧ ∃ es, Informs r.1 r.2 es := by
  induction h with
  | nil => exact fun r hr => nomatch hr
  | @cons m m' e rest budget rounds queue more ih =>
    have htake : Owes m ({ m with queue := rest }.note (.handled e)) :=
      .of_note rfl rfl (Bool.or_false _).symm rfl
    have hhandle := htake.trans (handle_owes { m with queue := rest } budget e)
    have hsubscribers : ({ m with queue := rest }.handle budget e).1.flush.subscribers =
        m.subscribers := by
      obtain ⟨_, -, -, -, hsubscribers⟩ := hhandle
      rw [flush_subscribers, hsubscribers]
    intro r hr
    rcases List.mem_cons.mp hr with rfl | hr
    · exact ⟨rfl, hhandle.informs owed distinct⟩
    · obtain ⟨heq, hinforms⟩ := ih (flush_owed _) (by rw [hsubscribers]; exact distinct) r hr
      exact ⟨heq.trans hsubscribers, hinforms⟩

theorem perform_owes (m : Machine D) (due : Due Task) : Owes m (m.perform due).1 := by
  cases due with
  | timer owner task period => exact fire_owes m _ owner task _
  | frame tasks interval => exact fireAll_owes interval tasks _ m

/-! ### Notifications of the operations -/

theorem send_informs (owed : m.owed = false) (distinct : m.subscribers.Nodup) (e : Event) :
    ∃ rounds m', Rounds (m.enqueue e) rounds m' ∧ (m.send e).1 = { m' with queue := [] } ∧
      ∀ r ∈ rounds, r.1.subscribers = m.subscribers ∧ ∃ es, Informs r.1 r.2 es := by
  obtain ⟨rounds, m', hrounds, heq⟩ := drain_rounds none m.settings.maxTransitions
    m.settings.maxTransitions (m.enqueue e)
  exact ⟨rounds, m', hrounds, heq, hrounds.informs owed distinct⟩

theorem popStep_informs (owed : m.owed = false) (distinct : m.subscribers.Nodup) {horizon : Span}
    {due : Due Task} {timeline : Timeline Task}
    (h : m.timeline.popDue horizon = some (due, timeline)) :
    ∃ m₁ es rounds m', ({ m with timeline }.perform due).1 = m₁ ∧ Informs m m₁ es ∧
      Rounds m₁.flush rounds m' ∧ (m.popStep horizon).map (·.1) = some { m' with queue := [] } ∧
      ∀ r ∈ rounds, r.1.subscribers = m.subscribers ∧ ∃ es, Informs r.1 r.2 es := by
  obtain ⟨m₁, budget, failure, hdue⟩ : ∃ m₁ budget failure,
      { m with timeline }.perform due = (m₁, budget, failure) := ⟨_, _, _, rfl⟩
  have hperform : Owes m m₁ := by
    have howes := perform_owes { m with timeline } due
    rw [hdue] at howes
    exact howes
  have hsubscribers : m₁.flush.subscribers = m.subscribers := by
    obtain ⟨_, -, -, -, hsubscribers⟩ := hperform
    rw [flush_subscribers, hsubscribers]
  obtain ⟨es, hinforms⟩ := hperform.informs owed distinct
  obtain ⟨rounds, m', hrounds, heq⟩ :=
    drain_rounds failure m₁.flush.settings.maxTransitions budget m₁.flush
  refine ⟨m₁, es, rounds, m', congrArg Prod.fst hdue, hinforms, hrounds, ?_, fun r hr => ?_⟩
  · rw [popStep_eq h hdue]
    exact congrArg some heq
  · obtain ⟨hr', hes⟩ := hrounds.informs (flush_owed _) (by rw [hsubscribers]; exact distinct) r hr
    exact ⟨hr'.trans hsubscribers, hes⟩

variable {design : Design D} {settings : Settings} {fresh : String}

/-- **Notifications.** While a machine that a design gives handles an event that was sent, or one
of those that come of it, with all the transitions of the event and whatever fails, every
subscriber is called at most once, and exactly once if and only if a chain was taken over that ran
an action or came to a handler with targets, other than secret ones. It is shown what the machine
is at the end of that event; the send calls nobody else. All tasks that are due at once oblige
to one such call, before the events they sent are handled, each in a round of its own. -/
theorem Reached.notifies_once (h : Reached design settings fresh m) :
    (∀ e, ∃ rounds m', Rounds (m.enqueue e) rounds m' ∧ (m.send e).1 = { m' with queue := [] } ∧
      ∀ r ∈ rounds, r.1.subscribers = m.subscribers ∧ ∃ es, Informs r.1 r.2 es) ∧
    ∀ horizon due timeline, m.timeline.popDue horizon = some (due, timeline) →
      ∃ m₁ es rounds m', ({ m with timeline }.perform due).1 = m₁ ∧ Informs m m₁ es ∧
        Rounds m₁.flush rounds m' ∧ (m.popStep horizon).map (·.1) = some { m' with queue := [] } ∧
        ∀ r ∈ rounds, r.1.subscribers = m.subscribers ∧ ∃ es, Informs r.1 r.2 es := by
  have howed := h.atRest.owed
  have hdistinct := h.arises.enrolled.distinct
  exact ⟨send_informs howed hdistinct, fun _ _ _ hpop => popStep_informs howed hdistinct hpop⟩

end Machine

/-- A bell that counts: "RING" does so openly, "HUSH" in secret. -/
def Design.bell : Design Nat where
  id := none
  data := 0
  host := .empty
  root := .mk
    { on := [
        ("RING", .one (.action (.inline fun n _ _ => (n + 1, none)))),
        ("HUSH", .one (.handler
          { secretActions := [.inline fun n _ _ => (n + 1, none)] } none none))] }
    []

namespace Machine

/-- The one subscriber of the bell is called when it rings, with the count, and not when it is
hushed. -/
theorem notifies_once_bell :
    ∃ m, Reached Design.bell { maxTransitions := 1 } "m" m ∧ m.subscribers = [0] ∧
      (Journal.calls (m.send ⟨"RING", .null⟩).1.journal).map (fun c => (c.1, c.2.data)) = [(0, 1)] ∧
      (Journal.calls (m.send ⟨"HUSH", .null⟩).1.journal).length = 0 ∧
      ∃ rounds m', Rounds (m.enqueue ⟨"RING", .null⟩) rounds m' ∧
        (m.send ⟨"RING", .null⟩).1 = { m' with queue := [] } ∧
        ∀ r ∈ rounds, r.1.subscribers = m.subscribers ∧ ∃ es, Informs r.1 r.2 es := by
  obtain ⟨m, hcreate, hsubscribers, hring, hhush⟩ :
      ∃ m, create Design.bell { maxTransitions := 1 } "m" = .ok m ∧
        m.subscribe.1.subscribers = [0] ∧
        (Journal.calls (m.subscribe.1.send ⟨"RING", .null⟩).1.journal).map
          (fun c => (c.1, c.2.data)) = [(0, 1)] ∧
        (Journal.calls (m.subscribe.1.send ⟨"HUSH", .null⟩).1.journal).length = 0 :=
    ⟨_, rfl, by decide +kernel, by decide +kernel, by decide +kernel⟩
  have hreached : Reached Design.bell { maxTransitions := 1 } "m" m.subscribe.1 :=
    (Reached.of_create hcreate).steps (.single (.subscribe m))
  exact ⟨_, hreached, hsubscribers, hring, hhush, hreached.notifies_once.1 _⟩

end Machine
end Statechart
