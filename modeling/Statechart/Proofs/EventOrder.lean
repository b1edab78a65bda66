/-
# The order of events

Events are handled in the order in which they came into the queue. What was in the queue and
what came into it is what was handled and what is still there (`Machine.Fifo`); this holds of
all that happens while an event is handled, as events only ever come in behind the others
(`Machine.Acts.appends`). A machine that drains its queue handles one event after another
(`Machine.process`), and tells the first failure among them (`Machine.drain_eq_process`).

Key definitions: `Journal.queued`, `Journal.handled`, `Machine.Appends`, `Machine.Fifo`,
`Machine.process`.
Key theorems: `Machine.Acts.appends`, `Machine.handle_appends`, `Machine.process_fifo`,
`Machine.drain_eq_process`, `Machine.Reached.events_in_order`.
-/
import Statechart.Proofs.Rest

namespace Statechart

variable {D : Type}

/-! ### Events in a journal -/

/-- The event that came into the queue. -/
def Happening.queued? : Happening D → Option Event
  | queued e => some e
  | _ => none

/-- The event that was handled. -/
def Happening.handled? : Happening D → Option Event
  | handled e => some e
  | _ => none

namespace Journal

/-- The events that came into the queue, the first one first. -/
def queued (es : List (Happening D)) : List Event := es.reverse.filterMap (·.queued?)

/-- The events that were handled, the first one first. -/
def handled (es : List (Happening D)) : List Event := es.reverse.filterMap (·.handled?)

@[simp] theorem queued_append (late early : List (Happening D)) :
    queued (late ++ early) = queued early ++ queued late := by
  rw [queued, List.reverse_append, List.filterMap_append, queued, queued]

@[simp] theorem handled_append (late early : List (Happening D)) :
    handled (late ++ early) = handled early ++ handled late := by
  rw [handled, List.reverse_append, List.filterMap_append, handled, handled]

end Journal

namespace Machine

/-! ### Events come in behind the others -/

/-- No event is handled, and events only come into the queue behind those in it. -/
def Appends (m m' : Machine D) : Prop :=
  ∃ es, m'.journal = es ++ m.journal ∧ m'.queue = m.queue ++ Journal.queued es ∧
    Journal.handled es = []

theorem Appends.refl (m : Machine D) : Appends m m := ⟨[], rfl, (List.append_nil _).symm, rfl⟩

theorem Appends.trans {m₁ m₂ m₃ : Machine D} (h : Appends m₁ m₂) (k : Appends m₂ m₃) :
    Appends m₁ m₃ := by
  obtain ⟨es, hjournal, hqueue, hhandled⟩ := h
  obtain ⟨fs, kjournal, kqueue, khandled⟩ := k
  refine ⟨fs ++ es, ?_, ?_, ?_⟩
  · rw [kjournal, hjournal, List.append_assoc]
  · rw [kqueue, hqueue, Journal.queued_append, List.append_assoc]
  · rw [Journal.handled_append, hhandled, khandled]
    rfl

/-- Nothing is written, or one thing that is about no event. -/
theorem Appends.of_note {m m' : Machine D} (queue : m'.queue = m.queue) {e : Happening D}
    (journal : m'.journal = e :: m.journal) (queued : e.queued? = none)
    (handled : e.handled? = none) : Appends m m' := by
  refine ⟨[e], journal, ?_, ?_⟩
  · simp [Journal.queued, queued, queue]
  · simp [Journal.handled, handled]

theorem enqueue_appends (m : Machine D) (e : Event) : Appends m (m.enqueue e) :=
  ⟨[.queued e], rfl, rfl, rfl⟩

theorem Chore.appends {m m' : Machine D} (h : Chore m m') : Appends m m' := by
  cases h with
  | run exit due => exact .of_note rfl rfl rfl rfl
  | takeOver data owed passed => exact .of_note rfl rfl rfl rfl
  | postpone payload index rest => exact .of_note rfl rfl rfl rfl
  | enqueue e => exact enqueue_appends m e
  | abandon index => exact ⟨[], rfl, (List.append_nil _).symm, rfl⟩
  | startRepeater payload index r =>
    cases r with
    | none => exact .refl m
    | some r => exact .of_note rfl rfl rfl rfl
  | launch payload index a =>
    cases a with
    | none => exact .refl m
    | some a => exact .of_note rfl rfl rfl rfl

theorem Act.appends {m m' : Machine D} (h : Act m m') : Appends m m' := by
  cases h with
  | chore h => exact h.appends
  | fall mem h => exact .of_note rfl rfl rfl rfl
  | @move payload target recalls tree mem h =>
    have hreached : Appends m ({ m with
        tree
        log := m.log.record (m.transition target recalls tree) }.note (.reached tree)) :=
      .of_note rfl rfl rfl rfl
    exact hreached.trans (.of_note rfl rfl rfl rfl)

theorem Acts.appends {m m' : Machine D} (h : Acts m m') : Appends m m' := by
  induction h with
  | refl => exact .refl m
  | tail _ hstep ih => exact ih.trans hstep.appends

theorem notes_appends (subscribers : List Nat) (m : Machine D) :
    Appends m (subscribers.foldl (fun m s => m.note (.notified s m.snapshot)) m) := by
  induction subscribers generalizing m with
  | nil => exact .refl m
  | cons s subscribers ih =>
    have hnote : Appends m (m.note (.notified s m.snapshot)) := .of_note rfl rfl rfl rfl
    exact hnote.trans (ih _)

theorem flush_appends (m : Machine D) : Appends m m.flush := by
  unfold flush
  dsimp only
  split
  · exact notes_appends _ { m with snapshot := m.view, owed := false }
  · exact ⟨[], rfl, (List.append_nil _).symm, rfl⟩

/-- While an event is handled, whatever fails, events only come in behind the others. -/
theorem handle_appends {m : Machine D} (hm : m.tree.WellFormed) (budget : Nat) (e : Event) :
    Appends (m.note (.handled e)) (m.handle budget e).1 := (handle_acts hm budget e).appends

theorem enqueueAll_queue (events : List Event) (m : Machine D) :
    (events.foldl enqueue m).queue = m.queue ++ events := by
  induction events generalizing m with
  | nil => exact (List.append_nil _).symm
  | cons e events ih =>
    rw [List.foldl_cons, ih]
    exact List.append_assoc m.queue [e] events

theorem postponeAll_queue (payload : Json) (waits : List (Lease × Continuation)) (m : Machine D) :
    (waits.foldl (fun m w => m.postpone payload w.1 w.2) m).queue = m.queue := by
  induction waits generalizing m with
  | nil => rfl
  | cons w waits ih => exact ih (m.postpone payload w.1 w.2)

/-- What runs send comes into the queue in their order, behind what is there. -/
theorem commit_queue (m : Machine D) (payload : Json) (runs : List (Lease × Run D)) :
    (m.commit payload runs).queue = m.queue ++ runs.flatMap (·.2.sends) := by
  unfold commit
  rw [enqueueAll_queue, postponeAll_queue]
  rfl

/-! ### First in, first out -/

/-- The events `done` were handled, in this order: what was in the queue and what came into it
is these and what is there now. -/
def Fifo (m : Machine D) (done : List Event) (m' : Machine D) : Prop :=
  ∃ es, m'.journal = es ++ m.journal ∧ Journal.handled es = done ∧
    m.queue ++ Journal.queued es = done ++ m'.queue

theorem Fifo.refl (m : Machine D) : Fifo m [] m := ⟨[], rfl, rfl, List.append_nil _⟩

theorem Fifo.trans {m₁ m₂ m₃ : Machine D} {d₁ d₂ : List Event} (h : Fifo m₁ d₁ m₂)
    (k : Fifo m₂ d₂ m₃) : Fifo m₁ (d₁ ++ d₂) m₃ := by
  obtain ⟨es, hjournal, hhandled, hqueue⟩ := h
  obtain ⟨fs, kjournal, khandled, kqueue⟩ := k
  refine ⟨fs ++ es, ?_, ?_, ?_⟩
  · rw [kjournal, hjournal, List.append_assoc]
  · rw [Journal.handled_append, hhandled, khandled]
  · calc m₁.queue ++ Journal.queued (fs ++ es)
      _ = (m₁.queue ++ Journal.queued es) ++ Journal.queued fs := by
        rw [Journal.queued_append, List.append_assoc]
      _ = d₁ ++ (m₂.queue ++ Journal.queued fs) := by rw [hqueue, List.append_assoc]
      _ = (d₁ ++ d₂) ++ m₃.queue := by rw [kqueue, List.append_assoc]

theorem Appends.fifo {m m' : Machine D} (h : Appends m m') : Fifo m [] m' := by
  obtain ⟨es, hjournal, hqueue, hhandled⟩ := h
  exact ⟨es, hjournal, hhandled, hqueue.symm⟩

theorem take_fifo {m : Machine D} {e : Event} {rest : List Event} (h : m.queue = e :: rest) :
    Fifo m [e] ({ m with queue := rest }.note (.handled e)) :=
  ⟨[.handled e], rfl, rfl, by rw [h]; exact List.append_nil _⟩

/-- Handling the first event of the queue. -/
theorem handle_fifo {m : Machine D} (hm : m.tree.WellFormed) {e : Event} {rest : List Event}
    (h : m.queue = e :: rest) (budget : Nat) :
    Fifo m [e] ({ m with queue := rest }.handle budget e).1.flush := by
  have hevent : Appends _ ({ m with queue := rest }.handle budget e).1 :=
    handle_appends (m := { m with queue := rest }) hm budget e
  exact (take_fifo h).trans (hevent.trans (flush_appends _)).fifo

/-! ### Draining a queue -/

/-- Handle the events in the queue and those that come in, at most so many. The result is
what was handled, with the failures. -/
def process : Nat → Nat → Machine D → List (Event × Option MachineError) × Machine D
  | 0, _, m => ([], m)
  | events + 1, budget, m =>
    match m.queue with
    | [] => ([], m)
    | e :: queue =>
      let (m, budget, failure) := { m with queue }.handle budget e
      let (done, m) := process events budget m.flush
      ((e, failure) :: done, m)

theorem process_fifo (events budget : Nat) {m : Machine D} (hm : m.Faithful) :
    Fifo m ((process events budget m).1.map (·.1)) (process events budget m).2 := by
  induction events generalizing budget m with
  | zero => exact .refl m
  | succ events ih =>
    unfold process
    split
    · exact .refl m
    · rename_i e rest hqueue
      have hafter := (handle_changes hm hqueue budget).faithful hm
      exact (handle_fifo hm.wellFormed hqueue budget).trans (ih _ hafter)

/-- Draining handles the events in the queue and gives the first failure. If there are more
than it may handle, the others go. -/
theorem drain_eq_process (first : Option MachineError) (events budget : Nat) (m : Machine D) :
    m.drain first events budget =
      let (done, m') := process events budget m
      let failure := first.or (done.findSome? (·.2))
      match m'.queue with
      | [] => (m', failure)
      | e :: _ => ({ m' with queue := [] },
          failure.or (m'.structural (.transitionLoop m'.settings.maxTransitions e.name))) := by
  induction events generalizing first budget m with
  | zero =>
    cases hqueue : m.queue with
    | nil => simp only [drain, process, hqueue, List.findSome?_nil, Option.or_none]
    | cons e rest => simp only [drain, process, hqueue, List.findSome?_nil, Option.or_none]
  | succ events ih =>
    unfold drain process
    cases hqueue : m.queue with
    | nil => simp [hqueue]
    | cons e rest =>
      dsimp only
      rw [ih]
      have hfirst : ∀ (failure : Option MachineError) (done : List (Event × Option MachineError)),
          (first.or failure).or (done.findSome? (·.2)) =
            first.or (((e, failure) :: done).findSome? (·.2)) := by
        intro failure done
        rw [Option.or_assoc, List.findSome?_cons]
        cases failure <;> rfl
      dsimp only
      rw [hfirst]

/-! ### Sending events -/

/-- The events that sending one brings about are no more than a step may handle. -/
def GuardHolds (m : Machine D) (e : Event) : Prop :=
  (process m.settings.maxTransitions m.settings.maxTransitions (m.enqueue e)).2.queue = []

variable {design : Design D} {settings : Settings} {fresh : String} {m : Machine D}

theorem send_eq_process {e : Event} (guard : m.GuardHolds e) :
    m.send e =
      ((process m.settings.maxTransitions m.settings.maxTransitions (m.enqueue e)).2,
        (process m.settings.maxTransitions m.settings.maxTransitions (m.enqueue e)).1.findSome?
          (·.2)) := by
  unfold send finish
  rw [drain_eq_process]
  dsimp only
  rw [show (process (m.enqueue e).settings.maxTransitions m.settings.maxTransitions
    (m.enqueue e)).2.queue = [] from guard]
  rfl

/-- **The order of events.** Let the guard hold while an event is sent. Then the events that
were handled are those that came into the queue, in the same order, the one sent first; none
is left; and the result is the failure of the first of them that failed. While an event is
handled, at any moment, events only come in behind those that wait, and what is committed
sends its events in the order of its runs. -/
theorem Reached.events_in_order (h : Reached design settings fresh m) {e : Event}
    (guard : m.GuardHolds e) :
    (∃ done m' es,
      process m.settings.maxTransitions m.settings.maxTransitions (m.enqueue e) = (done, m') ∧
      m.send e = (m', done.findSome? (·.2)) ∧ m'.queue = [] ∧
      m'.journal = es ++ m.journal ∧
      Journal.queued es = done.map (·.1) ∧ Journal.handled es = done.map (·.1) ∧
      (done.map (·.1)).head? = some e) ∧
    (∀ m₁, Arises design settings fresh m₁ → ∀ e' rest, m₁.queue = e' :: rest → ∀ budget,
      Appends ({ m₁ with queue := rest }.note (.handled e'))
        ({ m₁ with queue := rest }.handle budget e').1) ∧
    ∀ (m₁ : Machine D) payload runs,
      (m₁.commit payload runs).queue = m₁.queue ++ runs.flatMap (·.2.sends) := by
  refine ⟨?_, fun m₁ hm₁ e' rest _ budget => ?_, commit_queue⟩
  · have henqueue : Change m (m.enqueue e) := .receive m e
    have hqueue : (m.enqueue e).queue = [e] := by
      rw [show (m.enqueue e).queue = m.queue ++ [e] from rfl, h.atRest.queue]
      rfl
    obtain ⟨es, hjournal, hhandled, hfifo⟩ := process_fifo m.settings.maxTransitions
      m.settings.maxTransitions (henqueue.faithful h.arises.faithful)
    rw [guard, List.append_nil, hqueue] at hfifo
    refine ⟨_, _, es ++ [.queued e], rfl, send_eq_process guard, guard, ?_, ?_, ?_, ?_⟩
    · rw [hjournal, List.append_assoc]
      rfl
    · rw [Journal.queued_append]
      exact hfifo
    · rw [Journal.handled_append, hhandled]
      rfl
    · rw [← hfifo]
      rfl
  · exact handle_appends (m := { m₁ with queue := rest }) hm₁.faithful.wellFormed budget e'

end Machine

/-- A relay: "A" sends "B" and "C", and "B" sends "D" but fails. -/
def Design.relay : Design Unit where
  id := none
  data := ()
  host := .empty
  root := .mk
    { on := [
        ("A", .many [.handler { send := some ⟨"B", .null⟩ } none none,
          .handler { send := some ⟨"C", .null⟩ } none none]),
        ("B", .many [.handler { send := some ⟨"D", .null⟩ } none none,
          .action (.inline fun _ _ _ => ((), some "lost"))])] }
    []

namespace Machine

/-- At the relay three events are handled when "A" is sent, and the failure is that of
"B". -/
theorem events_in_order_relay :
    ∃ m, Reached Design.relay { maxTransitions := 3 } "m" m ∧ m.GuardHolds ⟨"A", .null⟩ ∧
      (m.send ⟨"A", .null⟩).1.queue = [] ∧
      (m.send ⟨"A", .null⟩).2 = some (.eval "B" ⟨.action, "<inline action>", "lost"⟩) ∧
      ∃ es, (m.send ⟨"A", .null⟩).1.journal = es ++ m.journal ∧
        (Journal.queued es).map (·.name) = ["A", "B", "C"] ∧
        Journal.handled es = Journal.queued es := by
  obtain ⟨m, hcreate, hnames, hguard, hfailure⟩ :
      ∃ m, create Design.relay { maxTransitions := 3 } "m" = .ok m ∧
        ((process m.settings.maxTransitions m.settings.maxTransitions
          (m.enqueue ⟨"A", .null⟩)).1.map (·.1)).map (·.name) = ["A", "B", "C"] ∧
        (process m.settings.maxTransitions m.settings.maxTransitions
          (m.enqueue ⟨"A", .null⟩)).2.queue.length = 0 ∧
        (m.send ⟨"A", .null⟩).2 = some (.eval "B" ⟨.action, "<inline action>", "lost"⟩) :=
    ⟨_, rfl, by decide +kernel, by decide +kernel, by decide +kernel⟩
  have hreached : Reached Design.relay { maxTransitions := 3 } "m" m := .of_create hcreate
  have hguard : m.GuardHolds ⟨"A", .null⟩ := List.length_eq_zero_iff.mp hguard
  obtain ⟨done, m', es, hprocess, hsend, hqueue, hjournal, hqueued, hhandled, -⟩ :=
    (hreached.events_in_order hguard).1
  rw [hprocess] at hnames
  refine ⟨m, hreached, hguard, ?_, hfailure, es, ?_, ?_, hhandled.trans hqueued.symm⟩
  · rw [hsend]
    exact hqueue
  · rw [hsend]
    exact hjournal
  · rw [hqueued]
    exact hnames

end Machine
end Statechart
