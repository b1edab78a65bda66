/-
# What leaves repeaters alone

Most of what a machine does has nothing to do with its repeaters. To run a chain that is not of a
repeater, to leave a node, to launch an operation or to notify subscribers neither starts a
repeater nor runs one (`Happening.spares`), and on the timeline it sets nothing but waits, though
repeaters may go (`Timeline.Spares`). So all that the journal tells of a repeater, and of when
repeaters start, stays as it is (`Journal.ticks_of_spares`, `Journal.started?_of_spares`).

Key definitions: `Tick`, `Journal.ticks`, `Journal.started?`, `Happening.spares`,
`Timeline.Spares`, `Machine.Spares`.
Key theorems: `Machine.execute_spares`, `Machine.leave_spares`, `Machine.enter_spares`,
`Machine.answer_spares`, `Machine.flush_spares`.
-/
import Statechart.Proofs.Failures
import Statechart.Proofs.Schedules

namespace Statechart

variable {D : Type}

/-! ### What a journal tells of a repeater -/

/-- A run of a repeater: the time since it last ran and the time since it started, as they were
handed to it, and when it was. -/
structure Tick where
  interval : Span
  elapsed : Span
  time : Span
deriving DecidableEq

namespace Happening

/-- The run of the repeater of a lease, if the entry tells of one. -/
def tick? (owner : Lease) : Happening D → Option Tick
  | ran l (.repeating interval elapsed) time =>
    if l = owner then some ⟨interval, elapsed, time⟩ else none
  | _ => none

/-- The entry tells of no repeater that is started or run, and of no transition. -/
def spares : Happening D → Bool
  | ran _ (.repeating ..) _ => false
  | deferred _ .repeater => false
  | moved _ => false
  | _ => true

theorem tick?_of_spares {e : Happening D} (h : e.spares = true) (owner : Lease) :
    e.tick? owner = none := by
  unfold tick?
  split
  · cases h
  · rfl

theorem spares_ran {role : Role} (h : role.deferral ≠ some .repeater) (l : Lease) (time : Span) :
    (ran l role time : Happening D).spares = true := by
  cases role with
  | repeating => exact absurd rfl h
  | _ => rfl

end Happening

namespace Journal

/-- The runs of the repeater of a lease, the latest first. -/
def ticks (owner : Lease) (es : List (Happening D)) : List Tick := es.filterMap (·.tick? owner)

/-- The time of the last transition. A machine enters its first states at zero. -/
def arrival : List (Happening D) → Nat
  | [] => 0
  | .moved t :: _ => t.time.toNat
  | _ :: es => arrival es

/-- When the repeater of a lease was started, if it was: it is in the transition in which its node
is entered. -/
def started? (owner : Lease) : List (Happening D) → Option Nat
  | [] => none
  | .deferred l .repeater :: es => if l = owner then some (arrival es) else started? owner es
  | _ :: es => started? owner es

variable {late es : List (Happening D)} {owner : Lease}

theorem ticks_of_spares (h : ∀ e ∈ late, e.spares = true) (owner : Lease)
    (es : List (Happening D)) : ticks owner (late ++ es) = ticks owner es := by
  have hlate : late.filterMap (·.tick? owner) = [] :=
    List.filterMap_eq_nil_iff.mpr fun e he => Happening.tick?_of_spares (h e he) owner
  rw [ticks, List.filterMap_append, hlate, List.nil_append, ticks]

theorem arrival_of_spares (h : ∀ e ∈ late, e.spares = true) (es : List (Happening D)) :
    arrival (late ++ es) = arrival es := by
  induction late with
  | nil => rfl
  | cons e late ih =>
    obtain ⟨he, hlate⟩ := List.forall_mem_cons.mp h
    refine Eq.trans ?_ (ih hlate)
    cases e with
    | moved t => cases he
    | _ => rfl

theorem started?_of_spares (h : ∀ e ∈ late, e.spares = true) (owner : Lease)
    (es : List (Happening D)) : started? owner (late ++ es) = started? owner es := by
  induction late with
  | nil => rfl
  | cons e late ih =>
    obtain ⟨he, hlate⟩ := List.forall_mem_cons.mp h
    refine Eq.trans ?_ (ih hlate)
    cases e with
    | deferred l work =>
      cases work with
      | repeater => cases he
      | _ => rfl
    | _ => rfl

theorem deferred_mem_of_spares (h : ∀ e ∈ late, e.spares = true) {l : Lease} :
    .deferred l .repeater ∈ late ++ es ↔ .deferred l .repeater ∈ es := by
  refine ⟨fun hmem => (List.mem_append.mp hmem).resolve_left fun hlate => ?_,
    List.mem_append_right late⟩
  cases h _ hlate

/-- What started was put off. -/
theorem deferred_mem_of_started? {n : Nat} (h : started? owner es = some n) :
    .deferred owner .repeater ∈ es := by
  induction es with
  | nil => cases h
  | cons e es ih =>
    by_cases hfirst : e = .deferred owner .repeater
    · exact hfirst ▸ List.mem_cons_self
    · refine List.mem_cons_of_mem e (ih ?_)
      unfold started? at h
      split at h
      · rename_i heq
        cases heq
      · rename_i l es' heq
        obtain ⟨rfl, rfl⟩ := List.cons.inj heq
        have howner : l ≠ owner := fun heq => hfirst (heq ▸ rfl)
        rwa [if_neg howner] at h
      · rename_i heq
        obtain ⟨rfl, rfl⟩ := List.cons.inj heq
        exact h

end Journal

/-! ### Timelines -/

namespace Timeline

/-- Nothing but waits is set, and the frame clock goes on as it did, but that it stops with the
last frame task. Timers and frame tasks may go. -/
structure Spares (s s' : Timeline Task) : Prop where
  frameInterval : s'.frameInterval = s.frameInterval
  timers : ∀ t ∈ s'.timers, t ∈ s.timers ∨ t.period = none ∧ t.task.deferral = .wait
  frames : ∀ f ∈ s'.frames, f ∈ s.frames
  nextFrame : s'.nextFrame = s.nextFrame ∨ s'.frames = [] ∧ s'.nextFrame = none
  repeating : s'.repeating.Sublist s.repeating

namespace Spares

theorem refl (s : Timeline Task) : Spares s s :=
  ⟨rfl, fun _ => Or.inl, fun _ => id, Or.inl rfl, .refl _⟩

theorem trans {s₁ s₂ s₃ : Timeline Task} (h : Spares s₁ s₂) (k : Spares s₂ s₃) : Spares s₁ s₃ where
  frameInterval := k.frameInterval.trans h.frameInterval
  timers t ht := (k.timers t ht).elim (h.timers t) Or.inr
  frames f hf := h.frames f (k.frames f hf)
  nextFrame := by
    rcases k.nextFrame with heq | hstop
    · rcases h.nextFrame with heq' | ⟨hframes, hstop⟩
      · exact Or.inl (heq.trans heq')
      · refine Or.inr ⟨List.eq_nil_iff_forall_not_mem.mpr fun f hf => ?_, heq.trans hstop⟩
        have hf := k.frames f hf
        rw [hframes] at hf
        cases hf
    · exact Or.inr hstop
  repeating := k.repeating.trans h.repeating

end Spares

theorem setTimeout_spares (s : Timeline Task) (owner : Lease) (delay : Span)
    (rest : Continuation) (payload : Json) :
    Spares s (s.setTimeout owner delay (.resume rest payload)) where
  frameInterval := rfl
  timers t ht := by
    rcases mem_insertTimer.mp ht with rfl | ht
    · exact Or.inr ⟨rfl, rfl⟩
    · exact Or.inl ht
  frames _ hf := hf
  nextFrame := Or.inl rfl
  repeating := by rw [repeating_setTimeout]

theorem cancel_spares (s : Timeline Task) (node : Nat) : Spares s (s.cancel node) where
  frameInterval := rfl
  timers t ht := Or.inl (List.mem_filter.mp ht).1
  frames f hf := (List.mem_filter.mp hf).1
  nextFrame := by
    unfold cancel
    dsimp only
    split <;> rename_i hempty
    · exact Or.inr ⟨List.isEmpty_iff.mp hempty, rfl⟩
    · exact Or.inl rfl
  repeating := by
    rw [repeating_cancel]
    exact List.filter_sublist

theorem clearRepeating_spares (s : Timeline Task) : Spares s s.clearRepeating where
  frameInterval := rfl
  timers t ht := Or.inl (List.mem_filter.mp ht).1
  frames _ hf := nomatch hf
  nextFrame := Or.inr ⟨rfl, rfl⟩
  repeating := by
    rw [repeating_clearRepeating]
    exact List.nil_sublist _

theorem settle_spares (s : Timeline Task) (horizon : Span) : Spares s (s.settle horizon) := by
  unfold settle
  split
  · exact ⟨rfl, fun _ => Or.inl, fun _ => id, Or.inl rfl, .refl _⟩
  · exact .refl s

end Timeline

/-! ### Machines -/

namespace Machine

variable {m m' : Machine D}

/-- The repeaters are left alone while the clock stands. -/
structure Spares (m m' : Machine D) : Prop where
  now : m'.timeline.now = m.timeline.now
  timeline : m.timeline.Spares m'.timeline
  journal : ∃ late, m'.journal = late ++ m.journal ∧ ∀ e ∈ late, e.spares = true

namespace Spares

theorem of_eq (timeline : m'.timeline = m.timeline) (journal : m'.journal = m.journal) :
    Spares m m' :=
  ⟨timeline ▸ rfl, timeline ▸ .refl _, [], journal, nofun⟩

theorem refl (m : Machine D) : Spares m m := .of_eq rfl rfl

theorem of_note {e : Happening D} (timeline : m'.timeline = m.timeline)
    (journal : m'.journal = e :: m.journal) (h : e.spares = true) : Spares m m' :=
  ⟨timeline ▸ rfl, timeline ▸ .refl _, [e], journal, fun _ he => List.mem_singleton.mp he ▸ h⟩

theorem trans {m₁ m₂ m₃ : Machine D} (h : Spares m₁ m₂) (k : Spares m₂ m₃) : Spares m₁ m₃ := by
  obtain ⟨late, hjournal, hlate⟩ := h.journal
  obtain ⟨later, kjournal, klater⟩ := k.journal
  refine ⟨k.now.trans h.now, h.timeline.trans k.timeline, later ++ late, ?_, fun e he => ?_⟩
  · rw [kjournal, hjournal, List.append_assoc]
  · exact (List.mem_append.mp he).elim (klater e) (hlate e)

theorem foldl {α : Type} {f : Machine D → α → Machine D} (h : ∀ m a, Spares m (f m a))
    (as : List α) (m : Machine D) : Spares m (as.foldl f m) := by
  induction as generalizing m with
  | nil => exact .refl m
  | cons a as ih => exact (h m a).trans (ih (f m a))

theorem ticks_eq (h : Spares m m') (owner : Lease) :
    Journal.ticks owner m'.journal = Journal.ticks owner m.journal := by
  obtain ⟨late, hjournal, hlate⟩ := h.journal
  rw [hjournal, Journal.ticks_of_spares hlate]

theorem started?_eq (h : Spares m m') (owner : Lease) :
    Journal.started? owner m'.journal = Journal.started? owner m.journal := by
  obtain ⟨late, hjournal, hlate⟩ := h.journal
  rw [hjournal, Journal.started?_of_spares hlate]

theorem arrival_eq (h : Spares m m') : Journal.arrival m'.journal = Journal.arrival m.journal := by
  obtain ⟨late, hjournal, hlate⟩ := h.journal
  rw [hjournal, Journal.arrival_of_spares hlate]

theorem deferred_mem_iff (h : Spares m m') {l : Lease} :
    .deferred l .repeater ∈ m'.journal ↔ .deferred l .repeater ∈ m.journal := by
  obtain ⟨late, hjournal, hlate⟩ := h.journal
  rw [hjournal, Journal.deferred_mem_of_spares hlate]

end Spares

theorem postpone_spares (m : Machine D) (payload : Json) (owner : Lease) (rest : Continuation) :
    Spares m (m.postpone payload owner rest) :=
  ⟨rfl, Timeline.setTimeout_spares m.timeline owner rest.delay rest payload, [.deferred owner .wait],
    rfl, fun _ he => List.mem_singleton.mp he ▸ rfl⟩

theorem enqueue_spares (m : Machine D) (e : Event) : Spares m (m.enqueue e) := .of_note rfl rfl rfl

theorem commit_spares (m : Machine D) (payload : Json) (runs : List (Lease × Run D)) :
    Spares m (m.commit payload runs) := by
  let sends := runs.flatMap fun (r : Lease × Run D) => r.2.sends
  let passed := runs.flatMap fun (r : Lease × Run D) => r.2.passed
  obtain ⟨data, owed, hcommit⟩ : ∃ data owed, m.commit payload runs =
      sends.foldl enqueue ((waitsOf runs).foldl (fun m w => m.postpone payload w.1 w.2)
        ({ m with data, owed }.note (.committed passed))) := ⟨_, _, rfl⟩
  have hnote : Spares m ({ m with data, owed }.note (.committed passed)) := .of_note rfl rfl rfl
  have hwaits := Spares.foldl (fun m w => postpone_spares m payload w.1 w.2) (waitsOf runs)
    ({ m with data, owed }.note (.committed passed))
  have hsends := Spares.foldl (fun m e => enqueue_spares m e) sends
    ((waitsOf runs).foldl (fun m w => m.postpone payload w.1 w.2)
      ({ m with data, owed }.note (.committed passed)))
  rw [hcommit]
  exact (hnote.trans hwaits).trans hsends

/-- A chain is run that is not of a repeater. -/
theorem execute_spares (m : Machine D) (index : Nat) {role : Role}
    (h : role.deferral ≠ some .repeater) (payload : Json) (event : String)
    (run : Context D → WorkingCopy D → Run D) :
    Spares m (m.execute index role payload event run).1 := by
  let m₁ := m.note (.ran (m.tree.lease index) role m.timeline.now)
  have hran : Spares m m₁ := .of_note rfl rfl (Happening.spares_ran h _ _)
  rcases m.execute_cases index role payload event run with ⟨e, heq⟩ | ⟨r, heq⟩ <;> rw [heq]
  · exact hran
  · exact hran.trans (commit_spares m₁ payload [(m.tree.lease index, r)])

theorem executeChain_spares (m : Machine D) (index : Nat) {role : Role}
    (h : role.deferral ≠ some .repeater) (payload : Json) (event : String)
    (chain : Option Chain) : Spares m (m.executeChain index role payload event chain).1 := by
  cases chain with
  | none => exact .refl m
  | some chain => exact execute_spares m index h payload event fun ctx copy => ctx.run chain copy

theorem leave_spares (m : Machine D) (payload : Json) (event : String) (n : Node) :
    Spares m (m.leave payload event n).1 := by
  let m' : Machine D := { m with
    timeline := m.timeline.cancel n.index
    jobs := m.jobs.filter fun job => job.owner.node ≠ n.index }
  have habandon : Spares m m' := ⟨rfl, Timeline.cancel_spares m.timeline n.index, [], rfl, nofun⟩
  have hrole : Role.exit.deferral ≠ some .repeater := nofun
  exact habandon.trans (executeChain_spares m' n.index hrole payload event n.handlers.onExit)

theorem launch_spares (m : Machine D) (payload : Json) (owner : Lease) (a : Option Awaiting) :
    Spares m (m.launch payload owner a) := by
  cases a with
  | none => exact .refl m
  | some a => exact .of_note rfl rfl rfl

/-- As a node is entered its repeater is started, and then all are left alone. -/
theorem enter_spares (m : Machine D) (payload : Json) (event : String) (n : Node) :
    Spares (m.startRepeater payload (m.tree.lease n.index) n.handlers.repeater)
      (m.enter payload event n).1 := by
  have hrole : Role.enter.deferral ≠ some .repeater := nofun
  have hchain := executeChain_spares
    (m.startRepeater payload (m.tree.lease n.index) n.handlers.repeater) n.index hrole payload event
    n.handlers.onEnter
  unfold enter
  dsimp only
  split <;> rename_i heq <;> rw [heq] at hchain
  · exact hchain
  · exact hchain.trans (launch_spares _ payload _ n.handlers.awaiting)

theorem answer_spares (m : Machine D) (e : Event) : Spares m (m.answer e).1 := by
  have hhandled : Spares m (m.note (.handled e)) := .of_note rfl rfl rfl
  unfold answer
  split
  · exact hhandled
  · exact hhandled.trans (commit_spares _ e.payload _)

theorem flush_spares (m : Machine D) : Spares m m.flush := by
  have hnotes : ∀ m : Machine D, ∀ s, Spares m (m.note (.notified s m.snapshot)) :=
    fun m s => .of_note rfl rfl rfl
  unfold flush
  dsimp only
  split
  · let m₁ : Machine D := { m with snapshot := m.view, owed := false }
    have hrefresh : Spares m m₁ := .of_eq rfl rfl
    exact hrefresh.trans (Spares.foldl hnotes m.subscribers m₁)
  · exact .of_eq rfl rfl

theorem unsubscribe_spares (m : Machine D) (s : Nat) : Spares m (m.unsubscribe s).1 := by
  unfold unsubscribe
  dsimp only
  split
  · exact ⟨rfl, Timeline.clearRepeating_spares m.timeline, [.stoppedRepeaters], rfl,
      fun _ he => List.mem_singleton.mp he ▸ rfl⟩
  · exact .of_eq rfl rfl

end Machine
end Statechart
