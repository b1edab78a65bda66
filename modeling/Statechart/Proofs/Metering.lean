/-
# Repeaters that are due in time

A repeater that runs is handed the time since it last ran and the time since it started. The
second of these is always true. The first is the period of an interval, or the time from one tick
of the frame clock to the next, and it is true as long as the run comes when it is due, one such
time after the last (`Machine.Fair`). There are two ways in which it does not. At the end of time
there is no later moment, and what would be due past it is due then. And a repeater that starts
as a frame task while the frame clock is running joins it between two ticks (`Machine.Joins`): it
first runs at the next one, and is told that a whole frame has passed.

A machine is metered when all runs so far were fair and all repeaters are due as they should be,
those that are due now and wait for their turn among them (`Machine.Metered`). It stays so when a
repeater starts (`Machine.Metered.startRepeater`), when one runs (`Machine.Metered.ran`), and in
all that the machine does besides (`Machine.metered_durable`).

Key definitions: `Tick.last`, `Tick.Exact`, `Machine.Joins`, `Machine.Fair`, `Machine.Metered`.
Key theorems: `Machine.Metered.spare`, `Machine.Metered.startRepeater`, `Machine.Metered.ran`,
`Machine.Metered.move`, `Machine.metered_durable`.
-/
import Statechart.Proofs.Punctuality
import Statechart.Proofs.Sparing
import Statechart.Proofs.Staleness
import Statechart.Proofs.Stalling
import Statechart.Proofs.Upkeep

namespace Statechart

variable {D : Type}

/-! ### Sums of times -/

namespace Span

theorem add_eq_of_add? {a b c : Span} (h : a.add? b = some c) : a.add b = c := by
  have hsum := add?_eq_some_iff.mp h
  have hlt := c.nanos_lt_limit
  exact ext_nanos (by rw [nanos_add]; omega)

theorem add_eq_max {a b : Span} (h : a.add? b = none) : a.add b = max := by
  have hlimit : limit ≤ a.nanos + b.nanos := ofNanos?_eq_none_iff.mp h
  exact ext_nanos (by rw [nanos_add]; exact Nat.min_eq_right (by omega))

theorem add_le_add {a b : Span} (h : a ≤ b) (c : Span) : a.add c ≤ b.add c := by
  rw [le_def] at h ⊢
  rw [nanos_add, nanos_add]
  omega

end Span

/-! ### Runs of a repeater -/

namespace Tick

/-- When the latest of some runs was, or the start if there is none. -/
def last (start : Span) : List Tick → Span
  | [] => start
  | k :: _ => k.time

/-- Every run was told the time since the one before it, and the first one the time since the
start. -/
def Exact (start : Span) : List Tick → Prop
  | [] => True
  | k :: earlier => (last start earlier).nanos + k.interval.nanos = k.time.nanos ∧
      Exact start earlier

end Tick

namespace Machine

/-! ### Due in time -/

section

variable (design : Design D) (settings : Settings) (fresh : String)

/-- The repeater joined the frame clock between two ticks: it was started as a frame task when the
next tick was due already, in less than the time from one tick to the next. -/
def Joins (m : Machine D) (owner : Lease) (start interval tick : Span) : Prop :=
  ∃ m₀ payload r, Arises design settings fresh m₀ ∧ m₀.tree.lease owner.node = owner ∧
    m₀.timeline.now = start ∧ m₀.timeline.frameInterval = interval ∧
    m₀.timeline.nextFrame = some tick ∧ tick < start.add interval ∧
    (owner, .repeating r.chain start) ∈ (m₀.startRepeater payload owner (some r)).timeline.frames ∧
    Changes (m₀.startRepeater payload owner (some r)) m

/-- A run comes one interval after the last, or after the start, or it is the first one of a
repeater that joined the frame clock. The time since the start is as it was told. -/
structure Fair (m : Machine D) (owner : Lease) (start : Span) (earlier : List Tick) (k : Tick) :
    Prop where
  elapsed : start.nanos + k.elapsed.nanos = k.time.nanos
  last_le : Tick.last start earlier ≤ k.time
  interval : k.time = (Tick.last start earlier).add k.interval ∨
    earlier = [] ∧ Joins design settings fresh m owner start k.interval k.time

end

/-- A repeater started at a time, and ran last at a time, or not yet. -/
structure Since (m : Machine D) (owner : Lease) (start last : Span) : Prop where
  started : Journal.started? owner m.journal = some start.nanos
  last_eq : Tick.last start (Journal.ticks owner m.journal) = last
  start_le : start ≤ m.timeline.now
  last_le : last ≤ m.timeline.now

/-- A task is that of a repeater, and unless its lease has run out, it is due as it should be after
its start and its last run. -/
structure Tracked (m : Machine D) (owner : Lease) (task : Task) (due : Span → Span → Prop) :
    Prop where
  deferred : .deferred owner .repeater ∈ m.journal
  told : m.tree.isCurrent owner = true → ∃ chain start last,
    task = .repeating chain start ∧ m.Since owner start last ∧ due start last

/-- When the repeater of a lease that ran last at a time will have run last when the repeaters that
are due have run. -/
def lastRun (m : Machine D) (batch : List (Lease × Task)) (owner : Lease) (last : Span) : Span :=
  if owner ∈ batch.map Prod.fst then m.timeline.now else last

variable (design : Design D) (settings : Settings) (fresh : String)

/-- A repeater that is due now and yet to run is so one interval after its last run, or for the
first time as it joined the frame clock. -/
def DueNow (m : Machine D) (interval : Span) (owner : Lease) (start last : Span) : Prop :=
  m.timeline.now = last.add interval ∨ Journal.ticks owner m.journal = [] ∧
    Joins design settings fresh m owner start interval m.timeline.now

/-- The next tick of the frame clock is one frame after the last run of a repeater, or its first as
it joined. Without a next tick the end of time has come. -/
structure FrameDue (m : Machine D) (batch : List (Lease × Task)) (owner : Lease)
    (start last : Span) : Prop where
  tick : ∀ tick, m.timeline.nextFrame = some tick →
    tick = (m.lastRun batch owner last).add m.timeline.frameInterval ∨
      owner ∉ batch.map Prod.fst ∧ Journal.ticks owner m.journal = [] ∧
        Joins design settings fresh m owner start m.timeline.frameInterval tick
  ends : m.timeline.nextFrame = none →
    (m.lastRun batch owner last).add m.timeline.frameInterval = .max

/-- Every run so far was fair, and those to come will be: the repeaters that are due and yet to
run, `interval` after they did, and the others on the timeline. -/
structure Metered (m : Machine D) (interval : Span) (batch : List (Lease × Task)) : Prop where
  told : ∀ owner later k earlier, Journal.ticks owner m.journal = later ++ k :: earlier →
    ∃ start, Journal.started? owner m.journal = some start.nanos ∧
      Fair design settings fresh m owner start earlier k
  ready : ∀ p ∈ batch, m.Tracked p.1 p.2 (DueNow design settings fresh m interval p.1)
  timeouts : ∀ t ∈ m.timeline.timers, t.period = none → t.task.deferral = .wait
  intervals : ∀ t ∈ m.timeline.timers, ∀ period, t.period = some period →
    m.Tracked t.owner t.task fun _ last => t.due = (m.lastRun batch t.owner last).add period
  frames : ∀ f ∈ m.timeline.frames,
    m.Tracked f.1 f.2 (FrameDue design settings fresh m batch f.1)
  tick_le : ∀ tick, m.timeline.nextFrame = some tick →
    tick ≤ m.timeline.now.add m.timeline.frameInterval
  distinct : m.timeline.repeating.Nodup
  batch_distinct : (batch.map Prod.fst).Nodup

variable {design settings fresh} {m m' : Machine D} {owner : Lease} {start last interval : Span}
  {batch : List (Lease × Task)} {task : Task}

theorem lastRun_le (h : last ≤ m.timeline.now) : m.lastRun batch owner last ≤ m.timeline.now := by
  unfold lastRun
  split
  · exact Span.le_refl _
  · exact h

theorem lastRun_now (m : Machine D) (batch : List (Lease × Task)) (owner : Lease) :
    m.lastRun batch owner m.timeline.now = m.timeline.now := ite_self _

theorem lastRun_congr (now : m'.timeline.now = m.timeline.now ∨ batch = []) (owner : Lease)
    (last : Span) : m'.lastRun batch owner last = m.lastRun batch owner last := by
  rcases now with now | rfl
  · rw [lastRun, lastRun, now]
  · rfl

/-- It matters only whether the repeater itself is among those that are due. -/
theorem lastRun_of_iff {batch' : List (Lease × Task)}
    (hmem : owner ∈ batch'.map Prod.fst ↔ owner ∈ batch.map Prod.fst) (last : Span) :
    m.lastRun batch' owner last = m.lastRun batch owner last := if_congr hmem rfl rfl

theorem FrameDue.of_iff {batch' : List (Lease × Task)}
    (h : FrameDue design settings fresh m batch owner start last)
    (hmem : owner ∈ batch'.map Prod.fst ↔ owner ∈ batch.map Prod.fst) :
    FrameDue design settings fresh m batch' owner start last where
  tick tick htick := by
    rw [lastRun_of_iff hmem, hmem]
    exact h.tick tick htick
  ends hnone := by
    rw [lastRun_of_iff hmem]
    exact h.ends hnone

/-! ### What stays -/

theorem Joins.changes {tick : Span} (h : Joins design settings fresh m owner start interval tick)
    (hchanges : Changes m m') : Joins design settings fresh m' owner start interval tick := by
  obtain ⟨m₀, payload, r, hm₀, hlease, hnow, hinterval, hnext, hlt, hframe, hsince⟩ := h
  exact ⟨m₀, payload, r, hm₀, hlease, hnow, hinterval, hnext, hlt, hframe, hsince.trans hchanges⟩

theorem Fair.changes {earlier : List Tick} {k : Tick}
    (h : Fair design settings fresh m owner start earlier k) (hchanges : Changes m m') :
    Fair design settings fresh m' owner start earlier k :=
  ⟨h.elapsed, h.last_le, h.interval.imp_right fun hjoins => ⟨hjoins.1, hjoins.2.changes hchanges⟩⟩

/-- The journals of two machines tell the same of a repeater. -/
structure Agrees (m m' : Machine D) (owner : Lease) : Prop where
  ticks : Journal.ticks owner m'.journal = Journal.ticks owner m.journal
  started : Journal.started? owner m'.journal = Journal.started? owner m.journal

theorem Spares.agrees (h : Spares m m') (owner : Lease) : Agrees m m' owner :=
  ⟨h.ticks_eq owner, h.started?_eq owner⟩

theorem DueNow.carry (h : DueNow design settings fresh m interval owner start last)
    (changes : Changes m m') (now : m'.timeline.now = m.timeline.now)
    (agrees : Agrees m m' owner) : DueNow design settings fresh m' interval owner start last := by
  unfold DueNow
  rw [now, agrees.ticks]
  exact h.imp_right fun hjoins => ⟨hjoins.1, hjoins.2.changes changes⟩

theorem FrameDue.carry (h : FrameDue design settings fresh m batch owner start last)
    (changes : Changes m m') (now : m'.timeline.now = m.timeline.now ∨ batch = [])
    (agrees : Agrees m m' owner) (nextFrame : m'.timeline.nextFrame = m.timeline.nextFrame)
    (frameInterval : m'.timeline.frameInterval = m.timeline.frameInterval) :
    FrameDue design settings fresh m' batch owner start last where
  tick tick htick := by
    rw [frameInterval, agrees.ticks, lastRun_congr now]
    refine (h.tick tick (nextFrame ▸ htick)).imp_right fun hjoins => ?_
    exact ⟨hjoins.1, hjoins.2.1, hjoins.2.2.changes changes⟩
  ends hnone := by
    rw [frameInterval, lastRun_congr now]
    exact h.ends (nextFrame ▸ hnone)

theorem Since.carry (h : m.Since owner start last) (now : m.timeline.now ≤ m'.timeline.now)
    (agrees : Agrees m m' owner) : m'.Since owner start last where
  started := agrees.started.trans h.started
  last_eq := agrees.ticks.symm ▸ h.last_eq
  start_le := Span.le_trans h.start_le now
  last_le := Span.le_trans h.last_le now

namespace Tracked

variable {due due' : Span → Span → Prop}

/-- A lease that has run out does not become current again. -/
theorem carry (h : m.Tracked owner task due) (hm : m.Faithful) (changes : Changes m m')
    (now : m.timeline.now ≤ m'.timeline.now) (agrees : Agrees m m' owner)
    (hdue : ∀ start last, m.Since owner start last → due start last → due' start last) :
    m'.Tracked owner task due' where
  deferred := changes.onward.journal.subset h.deferred
  told hcurrent := by
    have hcurrent : m.tree.isCurrent owner = true := by
      by_contra hstale
      have hstale := hm.isCurrent_eq_false h.deferred (Bool.eq_false_of_not_eq_true hstale) changes
      exact Bool.false_ne_true (hstale.symm.trans hcurrent)
    obtain ⟨chain, start, last, htask, hsince, hdue₀⟩ := h.told hcurrent
    exact ⟨chain, start, last, htask, hsince.carry now agrees, hdue _ _ hsince hdue₀⟩

theorem imp (h : m.Tracked owner task due)
    (hdue : m.tree.isCurrent owner = true → ∀ start last, due start last → due' start last) :
    m.Tracked owner task due' where
  deferred := h.deferred
  told hcurrent := by
    obtain ⟨chain, start, last, htask, hsince, hdue₀⟩ := h.told hcurrent
    exact ⟨chain, start, last, htask, hsince, hdue hcurrent _ _ hdue₀⟩

end Tracked

namespace Metered

/-- A repeater on the timeline has been started. -/
theorem deferred_of_repeating (h : m.Metered design settings fresh interval batch) {l : Lease}
    (hl : l ∈ m.timeline.repeating) : .deferred l .repeater ∈ m.journal := by
  rcases List.mem_append.mp hl with hl | hl
  · obtain ⟨t, ht, rfl⟩ := List.mem_map.mp hl
    obtain ⟨ht, hrepeats⟩ := List.mem_filter.mp ht
    obtain ⟨period, hperiod⟩ := Option.isSome_iff_exists.mp hrepeats
    exact (h.intervals t ht period hperiod).deferred
  · obtain ⟨f, hf, rfl⟩ := List.mem_map.mp hl
    exact (h.frames f hf).deferred

/-- A repeater that was never started has never run. -/
theorem ticks_eq_nil (h : m.Metered design settings fresh interval batch)
    (new : .deferred owner .repeater ∉ m.journal) : Journal.ticks owner m.journal = [] := by
  cases hticks : Journal.ticks owner m.journal with
  | nil => rfl
  | cons k earlier =>
    obtain ⟨start, hstart, -⟩ := h.told owner [] k earlier hticks
    exact absurd (Journal.deferred_mem_of_started? hstart) new

theorem told_carry (h : m.Metered design settings fresh interval batch) (changes : Changes m m')
    (ticks : ∀ l, Journal.ticks l m'.journal = Journal.ticks l m.journal)
    (agrees : ∀ {l}, .deferred l .repeater ∈ m.journal → Agrees m m' l) (owner : Lease)
    (later : List Tick) (k : Tick) (earlier : List Tick)
    (heq : Journal.ticks owner m'.journal = later ++ k :: earlier) :
    ∃ start, Journal.started? owner m'.journal = some start.nanos ∧
      Fair design settings fresh m' owner start earlier k := by
  obtain ⟨start, hstart, hfair⟩ := h.told owner later k earlier (ticks owner ▸ heq)
  have howner := agrees (Journal.deferred_mem_of_started? hstart)
  exact ⟨start, howner.started.trans hstart, hfair.changes changes⟩

/-- Repeaters are left alone, while the clock stands or when none is due. -/
theorem spare (h : m.Metered design settings fresh interval batch) (hm : m.Faithful)
    (changes : Changes m m') (agrees : ∀ owner, Agrees m m' owner)
    (timeline : m.timeline.Spares m'.timeline)
    (now : m'.timeline.now = m.timeline.now ∨ batch = [] ∧ m.timeline.now ≤ m'.timeline.now) :
    m'.Metered design settings fresh interval batch := by
  have hle : m.timeline.now ≤ m'.timeline.now := now.elim (· ▸ Span.le_refl _) And.right
  have hnow : m'.timeline.now = m.timeline.now ∨ batch = [] := now.imp_right And.left
  refine ⟨h.told_carry changes (fun l => (agrees l).ticks) fun _ => agrees _, fun p hp => ?_,
    fun t ht hperiod => ?_, fun t ht period hperiod => ?_, fun f hf => ?_, fun tick htick => ?_,
    h.distinct.sublist timeline.repeating, h.batch_distinct⟩
  · have hnow : m'.timeline.now = m.timeline.now :=
      hnow.resolve_right (List.ne_nil_of_mem hp)
    exact (h.ready p hp).carry hm changes hle (agrees _) fun _ _ _ hdue =>
      hdue.carry changes hnow (agrees _)
  · exact (timeline.timers t ht).elim (fun ht => h.timeouts t ht hperiod) And.right
  · rcases timeline.timers t ht with ht | ⟨hnone, -⟩
    · refine (h.intervals t ht period hperiod).carry hm changes hle (agrees _) fun _ _ _ hdue => ?_
      rwa [lastRun_congr hnow]
    · cases hnone.symm.trans hperiod
  · have hnext : m'.timeline.nextFrame = m.timeline.nextFrame :=
      timeline.nextFrame.resolve_right fun hstop => List.ne_nil_of_mem hf hstop.1
    exact (h.frames f (timeline.frames f hf)).carry hm changes hle (agrees _) fun _ _ _ hdue =>
      hdue.carry changes hnow (agrees _) hnext timeline.frameInterval
  · have hold : m.timeline.nextFrame = some tick := by
      rcases timeline.nextFrame with heq | ⟨-, hstop⟩
      · exact heq ▸ htick
      · cases hstop.symm.trans htick
    rw [timeline.frameInterval]
    exact Span.le_trans (h.tick_le tick hold) (Span.add_le_add hle _)

theorem of_spares (h : m.Metered design settings fresh interval batch) (hm : m.Faithful)
    (changes : Changes m m') (spares : Spares m m') :
    m'.Metered design settings fresh interval batch :=
  h.spare hm changes spares.agrees spares.timeline (Or.inl spares.now)

/-- When no repeater is due it does not matter what the interval would be. -/
theorem idle (h : m.Metered design settings fresh interval []) (other : Span) :
    m.Metered design settings fresh other [] :=
  ⟨h.told, nofun, h.timeouts, h.intervals, h.frames, h.tick_le, h.distinct, .nil⟩

end Metered

/-! ### A repeater starts -/

/-- A repeater has started under a new lease, just as the machine arrived. -/
structure Starts (m m' : Machine D) (owner : Lease) : Prop where
  changes : Changes m m'
  now : m'.timeline.now = m.timeline.now
  journal : m'.journal = .deferred owner .repeater :: m.journal
  new : .deferred owner .repeater ∉ m.journal
  arrived : Journal.arrival m.journal = m.timeline.now.nanos
  never : Journal.ticks owner m.journal = []

namespace Starts

theorem ticks_eq (h : Starts m m' owner) (l : Lease) :
    Journal.ticks l m'.journal = Journal.ticks l m.journal := by
  rw [h.journal]
  rfl

theorem agrees (h : Starts m m' owner) {l : Lease} (hl : .deferred l .repeater ∈ m.journal) :
    Agrees m m' l := by
  have hne : owner ≠ l := fun heq => h.new (heq ▸ hl)
  refine ⟨h.ticks_eq l, ?_⟩
  rw [h.journal]
  exact if_neg hne

theorem since (h : Starts m m' owner) : m'.Since owner m.timeline.now m.timeline.now where
  started := by
    rw [h.journal, ← h.arrived]
    exact if_pos rfl
  last_eq := by
    rw [h.ticks_eq, h.never]
    rfl
  start_le := h.now ▸ Span.le_refl _
  last_le := h.now ▸ Span.le_refl _

theorem tracked (h : Starts m m' owner) {due : Span → Span → Prop} (chain : Chain)
    (hdue : due m.timeline.now m.timeline.now) :
    m'.Tracked owner (.repeating chain m.timeline.now) due where
  deferred := h.journal ▸ List.mem_cons_self
  told _ := ⟨chain, _, _, rfl, h.since, hdue⟩

theorem carry (h : Starts m m' owner) (hm : m.Faithful) {l : Lease} {due due' : Span → Span → Prop}
    (hl : m.Tracked l task due)
    (hdue : ∀ start last, m.Since l start last → due start last → due' start last) :
    m'.Tracked l task due' :=
  hl.carry hm h.changes (h.now ▸ Span.le_refl _) (h.agrees hl.deferred) hdue

end Starts

namespace Metered

theorem ready_starts (h : m.Metered design settings fresh interval batch) (hm : m.Faithful)
    (hstarts : Starts m m' owner) :
    ∀ p ∈ batch, m'.Tracked p.1 p.2 (DueNow design settings fresh m' interval p.1) :=
  fun p hp => hstarts.carry hm (h.ready p hp) fun _ _ _ hdue =>
    hdue.carry hstarts.changes hstarts.now (hstarts.agrees (h.ready p hp).deferred)

theorem intervals_starts (h : m.Metered design settings fresh interval batch) (hm : m.Faithful)
    (hstarts : Starts m m' owner) : ∀ t ∈ m.timeline.timers, ∀ period, t.period = some period →
      m'.Tracked t.owner t.task fun _ last =>
        t.due = (m'.lastRun batch t.owner last).add period :=
  fun t ht period hperiod => hstarts.carry hm (h.intervals t ht period hperiod) fun _ _ _ hdue => by
    rwa [lastRun_congr (Or.inl hstarts.now)]

/-- An interval that starts is due one period later. -/
theorem starts_interval (h : m.Metered design settings fresh interval batch) (hm : m.Faithful)
    (hstarts : Starts m m' owner) (hdistinct : m'.timeline.repeating.Nodup) {chain : Chain}
    {period : Span} (heq : m'.timeline = { m.timeline with
      timers := Timeline.insertTimer ⟨m.timeline.now.add period, owner, some period,
        .repeating chain m.timeline.now⟩ m.timeline.timers }) :
    m'.Metered design settings fresh interval batch := by
  have htimers : ∀ t ∈ m'.timeline.timers, t = ⟨m.timeline.now.add period, owner, some period,
      .repeating chain m.timeline.now⟩ ∨ t ∈ m.timeline.timers := fun t ht => by
    rw [heq] at ht
    exact Timeline.mem_insertTimer.mp ht
  have hnext : m'.timeline.nextFrame = m.timeline.nextFrame := by rw [heq]
  have hF : m'.timeline.frameInterval = m.timeline.frameInterval := by rw [heq]
  have hframes : m'.timeline.frames = m.timeline.frames := by rw [heq]
  refine ⟨h.told_carry hstarts.changes hstarts.ticks_eq hstarts.agrees, h.ready_starts hm hstarts,
    fun t ht hperiod => ?_, fun t ht every hperiod => ?_, fun f hf => ?_, fun tick htick => ?_,
    hdistinct, h.batch_distinct⟩
  · rcases htimers t ht with rfl | ht
    · cases hperiod
    · exact h.timeouts t ht hperiod
  · rcases htimers t ht with rfl | ht
    · obtain rfl := Option.some.inj hperiod
      refine hstarts.tracked chain ?_
      rw [lastRun_congr (Or.inl hstarts.now), lastRun_now]
    · exact h.intervals_starts hm hstarts t ht every hperiod
  · have hf := h.frames f (hframes ▸ hf)
    exact hstarts.carry hm hf fun _ _ _ hdue =>
      hdue.carry hstarts.changes (Or.inl hstarts.now) (hstarts.agrees hf.deferred) hnext hF
  · rw [hF, hstarts.now]
    exact h.tick_le tick (hnext ▸ htick)

end Metered

/-- A frame task that starts is due at the next tick of the frame clock, or it starts the clock. -/
theorem nextFrame_addFrame {s s' : Timeline Task} (heq : s' = s.addFrame owner task) {tick : Span}
    (h : s'.nextFrame = some tick) :
    s.nextFrame = some tick ∨ s.nextFrame = none ∧ tick = s.now.add s.frameInterval := by
  subst heq
  have htick : s.nextFrame.getD (s.now.add s.frameInterval) = tick := Option.some.inj h
  cases hnext : s.nextFrame with
  | some old =>
    rw [hnext] at htick
    exact Or.inl (congrArg some htick)
  | none =>
    rw [hnext] at htick
    exact Or.inr ⟨rfl, htick.symm⟩

/-- What was due at the next tick still is. -/
theorem FrameDue.starts {l : Lease} (h : FrameDue design settings fresh m batch l start last)
    (hstarts : Starts m m' owner) (heq : m'.timeline = m.timeline.addFrame owner task)
    (hle : last ≤ m.timeline.now) : FrameDue design settings fresh m' batch l start last := by
  have hsome : m'.timeline.nextFrame ≠ none := by rw [heq]; nofun
  have hF : m'.timeline.frameInterval = m.timeline.frameInterval := by rw [heq]; rfl
  refine ⟨fun tick htick => ?_, (absurd · hsome)⟩
  rw [hF, lastRun_congr (Or.inl hstarts.now), hstarts.ticks_eq]
  rcases nextFrame_addFrame heq htick with hold | ⟨hnone, rfl⟩
  · refine (h.tick tick hold).imp_right fun hjoins => ?_
    exact ⟨hjoins.1, hjoins.2.1, hjoins.2.2.changes hstarts.changes⟩
  · -- There was no next tick, so the task was due past the end of time, and all are now.
    refine Or.inl (Span.le_antisymm ?_ ?_)
    · rw [h.ends hnone]
      exact Span.le_max _
    · exact Span.add_le_add (lastRun_le hle) _

namespace Metered

/-- A frame task that starts is due one frame later, or it joins the frame clock. -/
theorem due_starts (h : m.Metered design settings fresh interval batch)
    (hstarts : Starts m m' owner) (heq : m'.timeline = m.timeline.addFrame owner task)
    (hjoins : ∀ tick, m.timeline.nextFrame = some tick →
      tick < m.timeline.now.add m.timeline.frameInterval →
      Joins design settings fresh m' owner m.timeline.now m.timeline.frameInterval tick) :
    FrameDue design settings fresh m' batch owner m.timeline.now m.timeline.now := by
  have hsome : m'.timeline.nextFrame ≠ none := by rw [heq]; nofun
  have hF : m'.timeline.frameInterval = m.timeline.frameInterval := by rw [heq]; rfl
  have hbatch : owner ∉ batch.map Prod.fst := fun hmem => by
    obtain ⟨p, hp, howner⟩ := List.mem_map.mp hmem
    exact hstarts.new (howner ▸ (h.ready p hp).deferred)
  refine ⟨fun tick htick => ?_, (absurd · hsome)⟩
  rw [hF, lastRun_congr (Or.inl hstarts.now), hstarts.ticks_eq, lastRun_now]
  rcases nextFrame_addFrame heq htick with hold | ⟨-, rfl⟩
  · by_cases hlt : tick < m.timeline.now.add m.timeline.frameInterval
    · exact Or.inr ⟨hbatch, hstarts.never, hjoins tick hold hlt⟩
    · exact Or.inl (Span.le_antisymm (h.tick_le tick hold) (Span.not_lt.mp hlt))
  · exact Or.inl rfl

theorem starts_frame (h : m.Metered design settings fresh interval batch) (hm : m.Faithful)
    (hstarts : Starts m m' owner) (hdistinct : m'.timeline.repeating.Nodup) {chain : Chain}
    (heq : m'.timeline = m.timeline.addFrame owner (.repeating chain m.timeline.now))
    (hjoins : ∀ tick, m.timeline.nextFrame = some tick →
      tick < m.timeline.now.add m.timeline.frameInterval →
      Joins design settings fresh m' owner m.timeline.now m.timeline.frameInterval tick) :
    m'.Metered design settings fresh interval batch := by
  have htimers : m'.timeline.timers = m.timeline.timers := by rw [heq]; rfl
  have hF : m'.timeline.frameInterval = m.timeline.frameInterval := by rw [heq]; rfl
  have hframes : m'.timeline.frames =
      m.timeline.frames ++ [(owner, .repeating chain m.timeline.now)] := by rw [heq]; rfl
  refine ⟨h.told_carry hstarts.changes hstarts.ticks_eq hstarts.agrees, h.ready_starts hm hstarts,
    htimers ▸ h.timeouts, htimers ▸ h.intervals_starts hm hstarts, fun f hf => ?_,
    fun tick htick => ?_, hdistinct, h.batch_distinct⟩
  · rcases List.mem_append.mp (hframes ▸ hf) with hf | hf
    · exact hstarts.carry hm (h.frames f hf) fun _ _ hsince hdue =>
        hdue.starts hstarts heq hsince.last_le
    · obtain rfl := List.mem_singleton.mp hf
      exact hstarts.tracked chain (h.due_starts hstarts heq hjoins)
  · rw [hF, hstarts.now]
    rcases nextFrame_addFrame heq htick with hold | ⟨-, rfl⟩
    · exact h.tick_le tick hold
    · exact Span.le_refl _

end Metered

/-- A repeater starts as a frame task or as an interval. -/
theorem startRepeater_cases (m : Machine D) (payload : Json) (owner : Lease) (r : Repeater) :
    (m.startRepeater payload owner (some r)).timeline =
        m.timeline.addFrame owner (.repeating r.chain m.timeline.now) ∨
      ∃ period, (m.startRepeater payload owner (some r)).timeline = { m.timeline with
        timers := Timeline.insertTimer ⟨m.timeline.now.add period, owner, some period,
          .repeating r.chain m.timeline.now⟩ m.timeline.timers } := by
  obtain ⟨chain, delay⟩ := r
  cases delay with
  | none => exact Or.inl rfl
  | some d =>
    unfold startRepeater
    dsimp only [note]
    unfold Timeline.setInterval
    split
    · exact Or.inl rfl
    · exact Or.inr ⟨_, rfl⟩

theorem Metered.startRepeater (h : m.Metered design settings fresh interval batch)
    (hm : Arises design settings fresh m) {index : Nat}
    (new : .deferred (m.tree.lease index) .repeater ∉ m.journal)
    (arrived : Journal.arrival m.journal = m.timeline.now.nanos) (payload : Json)
    (r : Option Repeater) : (m.startRepeater payload (m.tree.lease index) r).Metered
      design settings fresh interval batch := by
  cases r with
  | none => exact h
  | some r =>
    have hchore := Chore.startRepeater m payload index (some r)
    have hstarts : Starts m (m.startRepeater payload (m.tree.lease index) (some r))
        (m.tree.lease index) :=
      ⟨.single (.act (.chore hchore)), hchore.now_eq, rfl, new, arrived, h.ticks_eq_nil new⟩
    have hdistinct := (repeating_startRepeater m payload (m.tree.lease index) r).nodup_iff.mpr
      (List.nodup_cons.mpr ⟨fun hl => new (h.deferred_of_repeating hl), h.distinct⟩)
    rcases startRepeater_cases m payload (m.tree.lease index) r with heq | ⟨period, heq⟩
    · refine h.starts_frame hm.faithful hstarts hdistinct heq fun tick hnext hlt => ?_
      refine ⟨m, payload, r, hm, rfl, rfl, rfl, hnext, hlt, ?_, .refl⟩
      rw [heq]
      exact List.mem_append_right _ (List.mem_singleton_self _)
    · exact h.starts_interval hm.faithful hstarts hdistinct heq

/-! ### A repeater runs -/

theorem lastRun_cons_self (m : Machine D) (owner : Lease) (task : Task) (last : Span) :
    m.lastRun ((owner, task) :: batch) owner last = m.timeline.now :=
  if_pos List.mem_cons_self

theorem mem_owners_of_ne {l : Lease} (hne : l ≠ owner) :
    l ∈ ((owner, task) :: batch).map Prod.fst ↔ l ∈ batch.map Prod.fst :=
  List.mem_cons.trans (or_iff_right hne)

theorem ne_of_stale {l : Lease} (hstale : m.tree.isCurrent owner = false)
    (hcurrent : m.tree.isCurrent l = true) : l ≠ owner := by
  rintro rfl
  exact Bool.false_ne_true (hstale.symm.trans hcurrent)

/-- A repeater that is due, but whose lease has run out, is dropped. -/
theorem Metered.drop (h : m.Metered design settings fresh interval ((owner, task) :: batch))
    (hstale : m.tree.isCurrent owner = false) : m.Metered design settings fresh interval batch where
  told := h.told
  ready p hp := h.ready p (List.mem_cons_of_mem _ hp)
  timeouts := h.timeouts
  intervals t ht period hperiod :=
    (h.intervals t ht period hperiod).imp fun hcurrent start last hdue => by
      rwa [← lastRun_of_iff (mem_owners_of_ne (ne_of_stale hstale hcurrent))]
  frames f hf := (h.frames f hf).imp fun hcurrent start last hdue =>
    hdue.of_iff (mem_owners_of_ne (ne_of_stale hstale hcurrent)).symm
  tick_le := h.tick_le
  distinct := h.distinct
  batch_distinct := (List.nodup_cons.mp h.batch_distinct).2

/-- A repeater runs now, and is told of an interval and of the time since its start. -/
def tell (m : Machine D) (owner : Lease) (interval start : Span) : Machine D :=
  m.note (.ran owner (.repeating interval (m.timeline.now.sub start)) m.timeline.now)

theorem ticks_tell (m : Machine D) (owner : Lease) (interval start : Span) :
    Journal.ticks owner (m.tell owner interval start).journal =
      ⟨interval, m.timeline.now.sub start, m.timeline.now⟩ :: Journal.ticks owner m.journal :=
  List.filterMap_cons_some (if_pos rfl)

theorem tell_agrees {l : Lease} (hne : l ≠ owner) (m : Machine D) (interval start : Span) :
    Agrees m (m.tell owner interval start) l :=
  ⟨List.filterMap_cons_none (if_neg hne.symm), rfl⟩

theorem tell_changes (hcurrent : m.tree.isCurrent owner = true)
    (hdeferred : .deferred owner .repeater ∈ m.journal) (interval start : Span) :
    Changes m (m.tell owner interval start) := by
  have hlease : m.tree.lease owner.node = owner := Tree.lease_eq_of_isCurrent hcurrent
  have hrun : Chore m (m.note (.ran (m.tree.lease owner.node)
      (.repeating interval (m.timeline.now.sub start)) m.timeline.now)) := by
    refine .run nofun ?_
    rintro work ⟨⟩
    rw [hlease]
    exact ⟨hcurrent, hdeferred⟩
  rw [hlease] at hrun
  exact .single (.act (.chore hrun))

/-- After its run, a repeater is due one interval after now. -/
theorem Tracked.ran {due due' : Span → Span → Prop} {start' : Span}
    (h : m.Tracked owner task due) (hcurrent : m.tree.isCurrent owner = true)
    (hdue : ∀ start last, due start last → due' start m.timeline.now) :
    (m.tell owner interval start').Tracked owner task due' where
  deferred := List.mem_cons_of_mem _ h.deferred
  told _ := by
    obtain ⟨chain, start, last, htask, hsince, hdue₀⟩ := h.told hcurrent
    refine ⟨chain, start, m.timeline.now, htask, ⟨hsince.started, ?_, hsince.start_le, ?_⟩,
      hdue _ _ hdue₀⟩
    · rw [ticks_tell]
      rfl
    · exact Span.le_refl _

/-- What a repeater that is due is told is fair. -/
theorem Metered.told_tell {chain : Chain}
    (h : m.Metered design settings fresh interval ((owner, .repeating chain start) :: batch))
    (hcurrent : m.tree.isCurrent owner = true) (changes : Changes m (m.tell owner interval start))
    (l : Lease) (later : List Tick) (k : Tick) (earlier : List Tick)
    (heq : Journal.ticks l (m.tell owner interval start).journal = later ++ k :: earlier) :
    ∃ start', Journal.started? l (m.tell owner interval start).journal = some start'.nanos ∧
      Fair design settings fresh (m.tell owner interval start) l start' earlier k := by
  by_cases hl : l = owner
  · subst hl
    rw [ticks_tell] at heq
    cases later with
    | nil =>
      obtain ⟨rfl, rfl⟩ := List.cons.inj heq
      obtain ⟨_, _, last, ⟨⟩, hsince, hdue⟩ := (h.ready _ List.mem_cons_self).told hcurrent
      refine ⟨start, hsince.started, Nat.add_sub_of_le hsince.start_le, ?_, ?_⟩
      · rw [hsince.last_eq]
        exact hsince.last_le
      · rw [hsince.last_eq]
        exact hdue.imp_right fun hjoins => ⟨hjoins.1, hjoins.2.changes changes⟩
    | cons _ later =>
      obtain ⟨start', hstart, hfair⟩ := h.told l later k earlier (List.cons.inj heq).2
      exact ⟨start', hstart, hfair.changes changes⟩
  · have hagrees := tell_agrees hl m interval start
    obtain ⟨start', hstart, hfair⟩ := h.told l later k earlier (hagrees.ticks ▸ heq)
    exact ⟨start', hagrees.started.trans hstart, hfair.changes changes⟩

/-- A repeater that is due runs, and it is due again in time. -/
theorem Metered.ran {chain : Chain}
    (h : m.Metered design settings fresh interval ((owner, .repeating chain start) :: batch))
    (hm : m.Faithful) (hcurrent : m.tree.isCurrent owner = true) :
    (m.tell owner interval start).Metered design settings fresh interval batch := by
  let m' := m.tell owner interval start
  have changes : Changes m m' :=
    tell_changes hcurrent (h.ready _ List.mem_cons_self).deferred interval start
  obtain ⟨hnot, hdistinct⟩ := List.nodup_cons.mp h.batch_distinct
  have hlast : m'.lastRun batch owner m.timeline.now = m.timeline.now := lastRun_now m batch owner
  have hother : ∀ {l : Lease} {task : Task} {due due' : Span → Span → Prop}, l ≠ owner →
      m.Tracked l task due → (∀ start last, due start last → due' start last) →
      m'.Tracked l task due' := fun hne hl himp =>
    hl.carry hm changes (Span.le_refl _) (tell_agrees hne m interval start) fun _ _ _ => himp _ _
  -- With the repeater out of the batch its own timer or frame task is to be due after this run,
  -- as it was while the run was to come. For all others the batch is the same.
  refine ⟨h.told_tell hcurrent changes, fun p hp => ?_, h.timeouts, fun t ht period hperiod => ?_,
    fun f hf => ?_, h.tick_le, h.distinct, hdistinct⟩
  · have hne : p.1 ≠ owner := fun heq => hnot (List.mem_map.mpr ⟨p, hp, heq⟩)
    exact hother hne (h.ready p (List.mem_cons_of_mem _ hp)) fun _ _ hdue =>
      hdue.carry changes rfl (tell_agrees hne m interval start)
  · have ht := h.intervals t ht period hperiod
    by_cases howner : t.owner = owner
    · rw [howner] at ht ⊢
      refine ht.ran hcurrent fun _ last hdue => ?_
      rw [lastRun_cons_self] at hdue
      rw [hlast]
      exact hdue
    · refine hother howner ht fun _ last hdue => ?_
      rwa [lastRun_of_iff (mem_owners_of_ne howner)] at hdue
  · have hf := h.frames f hf
    by_cases howner : f.1 = owner
    · rw [howner] at hf ⊢
      refine hf.ran hcurrent fun _ last hdue => ⟨fun tick htick => ?_, fun hnone => ?_⟩
      · have htick := (hdue.tick tick htick).resolve_right fun hjoins =>
          hjoins.1 List.mem_cons_self
        rw [lastRun_cons_self] at htick
        rw [hlast]
        exact Or.inl htick
      · have hends := hdue.ends hnone
        rw [lastRun_cons_self] at hends
        rw [hlast]
        exact hends
    · exact hother howner hf fun _ _ hdue =>
        (hdue.of_iff (mem_owners_of_ne howner).symm).carry changes (Or.inl rfl)
          (tell_agrees howner m interval start) rfl rfl

/-! ### Transitions -/

theorem enter_arrival (m : Machine D) (payload : Json) (event : String) (n : Node) :
    Journal.arrival (m.enter payload event n).1.journal = Journal.arrival m.journal := by
  rw [(enter_spares m payload event n).arrival_eq]
  cases n.handlers.repeater <;> rfl

theorem deferred_of_enter {payload : Json} {event : String} {n : Node} {l : Lease}
    (h : .deferred l .repeater ∈ (m.enter payload event n).1.journal) :
    l = m.tree.lease n.index ∨ .deferred l .repeater ∈ m.journal := by
  rw [(enter_spares m payload event n).deferred_mem_iff] at h
  cases hr : n.handlers.repeater with
  | none =>
    rw [hr] at h
    exact Or.inr h
  | some r =>
    rw [hr] at h
    rcases List.mem_cons.mp h with h | h
    · cases h
      exact Or.inl rfl
    · exact Or.inr h

namespace Metered

theorem enter (h : m.Metered design settings fresh interval batch)
    (hm : Arises design settings fresh m) {n : Node}
    (new : .deferred (m.tree.lease n.index) .repeater ∉ m.journal)
    (arrived : Journal.arrival m.journal = m.timeline.now.nanos) (payload : Json)
    (event : String) : (m.enter payload event n).1.Metered design settings fresh interval batch := by
  have hstart := h.startRepeater hm new arrived payload n.handlers.repeater
  have hbegun : Arises design settings fresh
      (m.startRepeater payload (m.tree.lease n.index) n.handlers.repeater) :=
    hm.changes (.single (.act (.chore (.startRepeater m payload n.index _))))
  exact hstart.of_spares hbegun.faithful (enter_started_chores m n payload event).acts.changes
    (enter_spares m payload event n)

/-- Nodes are entered one after another, each under a lease that is new. -/
theorem enterAll {payload : Json} {event : String} : ∀ {ns : List Node} {m : Machine D}
    {r : Machine D × Except MachineError (List Request)},
      m.Metered design settings fresh interval batch → Arises design settings fresh m →
      (∀ n ∈ ns, .deferred (m.tree.lease n.index) .repeater ∉ m.journal) →
      (ns.map (·.index)).Nodup → Journal.arrival m.journal = m.timeline.now.nanos →
      forNodes (Machine.enter payload event) ns m = r →
        r.1.Metered design settings fresh interval batch
  | [], _, _, h, _, _, _, _, rfl => h
  | n :: ns, m, _, h, hm, hnew, hnodup, harrived, rfl => by
    obtain ⟨hn, hns⟩ := List.forall_mem_cons.mp hnew
    obtain ⟨hindex, hnodup⟩ := List.nodup_cons.mp hnodup
    have hchores := enter_chores m n payload event
    have hentered := h.enter hm hn harrived payload event
    have hnew' : ∀ k ∈ ns, .deferred ((m.enter payload event n).1.tree.lease k.index) .repeater ∉
        (m.enter payload event n).1.journal := by
      intro k hk hmem
      rw [hchores.tree_eq] at hmem
      rcases deferred_of_enter hmem with heq | hmem
      · exact hindex (List.mem_map.mpr ⟨k, hk, congrArg Lease.node heq⟩)
      · exact hns k hk hmem
    have harrived' : Journal.arrival (m.enter payload event n).1.journal =
        (m.enter payload event n).1.timeline.now.nanos := by
      rw [enter_arrival, hchores.acts.now_eq, harrived]
    have hothers : (forNodes (Machine.enter payload event) ns
        (m.enter payload event n).1).1.Metered design settings fresh interval batch :=
      enterAll hentered (hm.changes hchores.acts.changes) hnew' hnodup harrived' rfl
    rw [forNodes]
    split <;> rename_i heq <;> rw [heq] at hentered hothers
    · exact hentered
    · split <;> rename_i heq' <;> rw [heq'] at hothers <;> exact hothers

end Metered

/-- All nodes that are left are left alone by repeaters. -/
theorem leaveAll_spares {tree : Tree} {target : Tree} {recalls : Recall} {payload : Json}
    {event : String} {r : Machine D × Except MachineError (List Request)}
    (h : forNodes (leave payload event) (m.leaves tree).reverse (m.arrive target recalls tree) = r) :
    r.1.tree = tree ∧ Changes (m.arrive target recalls tree) r.1 ∧
      Spares (m.arrive target recalls tree) r.1 := by
  refine forNodes_keeps (P := fun m' => m'.tree = tree ∧ Changes (m.arrive target recalls tree) m' ∧
    Spares (m.arrive target recalls tree) m') h (fun n hn m' hm' => ?_) ⟨rfl, .refl, .refl _⟩
  obtain ⟨htree, hchanges, hspares⟩ := hm'
  have hinactive : m'.tree.activeAt n.index = false := by
    rw [htree]
    exact Bool.not_eq_true' _ ▸ (List.mem_filter.mp (List.mem_reverse.mp hn)).2
  have hleave := leave_chores hinactive payload event
  exact ⟨hleave.tree_eq.trans htree, hchanges.trans hleave.acts.changes,
    hspares.trans (leave_spares m' payload event n)⟩

/-- A node that is entered has a lease that no repeater has had. -/
theorem Arises.not_deferred_of_enters (hm : Arises design settings fresh m) {target tree : Tree}
    {recalls : Recall} (harrive : Changes m (m.arrive target recalls tree)) {n : Node}
    (hn : n ∈ m.enters tree) : .deferred (tree.lease n.index) .repeater ∉ m.journal := by
  have ht : Addressed tree := (hm.changes harrive).addressed
  obtain ⟨-, hactive, hinactive⟩ := (mem_enters hm.addressed ht harrive.plain_eq).mp hn
  intro hmem
  have hstale : m.tree.isCurrent (tree.lease n.index) = false := Tree.isCurrent_of_activeAt hinactive
  have hcurrent : tree.isCurrent (tree.lease n.index) = true := Tree.isCurrent_iff.mpr ⟨hactive, rfl⟩
  exact Bool.false_ne_true
    ((hm.faithful.isCurrent_eq_false hmem hstale harrive).symm.trans hcurrent)

namespace Metered

variable {target tree : Tree} {recalls : Recall} {payload : Json} {event : String}

/-- A machine arrives at a tree and leaves nodes. -/
theorem leaveAll (h : m.Metered design settings fresh interval batch)
    (hm : Arises design settings fresh m) (harrive : Changes m (m.arrive target recalls tree))
    {r : Machine D × Except MachineError (List Request)}
    (hleave : forNodes (leave payload event) (m.leaves tree).reverse (m.arrive target recalls tree) =
      r) : r.1.Metered design settings fresh interval batch ∧ Arises design settings fresh r.1 := by
  obtain ⟨-, hchanges, hspares⟩ := leaveAll_spares hleave
  have harrived := h.spare hm.faithful harrive (fun _ => ⟨rfl, rfl⟩) (.refl _) (Or.inl rfl)
  have hm' := hm.changes harrive
  exact ⟨harrived.of_spares hm'.faithful hchanges hspares, hm'.changes hchanges⟩

/-- Then it enters nodes. -/
theorem leaveAll_enterAll (h : m.Metered design settings fresh interval batch)
    (hm : Arises design settings fresh m) (harrive : Changes m (m.arrive target recalls tree))
    {m₁ : Machine D} {requests : List Request} {r : Machine D × Except MachineError (List Request)}
    (hleave : forNodes (leave payload event) (m.leaves tree).reverse (m.arrive target recalls tree) =
      (m₁, .ok requests))
    (henter : forNodes (Machine.enter payload event) (m.enters tree) m₁ = r) :
    r.1.Metered design settings fresh interval batch := by
  obtain ⟨hmetered, hm₁⟩ := h.leaveAll hm harrive hleave
  obtain ⟨htree, -, hspares⟩ := leaveAll_spares hleave
  refine hmetered.enterAll hm₁ (fun n hn hmem => ?_) (nodup_enters (hm.changes harrive).addressed)
    ?_ henter
  · rw [show m₁.tree = tree from htree, hspares.deferred_mem_iff] at hmem
    refine hm.not_deferred_of_enters harrive hn ?_
    rcases List.mem_cons.mp hmem with heq | hmem
    · cases heq
    · exact (List.mem_cons.mp hmem).resolve_left nofun
  · rw [hspares.arrival_eq, hspares.now]
    rfl

theorem move (h : m.Metered design settings fresh interval batch)
    (hm : Arises design settings fresh m) (mem : target ∈ m.tree.preorder) (recalls : Recall)
    (payload : Json) (event : String) :
    (m.move target recalls payload event).1.Metered design settings fresh interval batch := by
  have harrive : ∀ {tree : Tree}, m.activates target recalls payload = (tree, none) →
      Changes m (m.arrive target recalls tree) := fun hact => .single (.act (.move mem hact))
  have hpassage := m.move_passage target recalls payload event
  have hmove : Changes m (m.move target recalls payload event).1 :=
    (move_acts mem recalls payload event).changes
  generalize m.move target recalls payload event = r at hpassage hmove ⊢
  cases hpassage with
  | fallen => exact h.of_spares hm.faithful hmove (.of_note rfl rfl rfl)
  | leaving hact left => exact (h.leaveAll hm (harrive hact) left).1
  | entering hact left entered => exact h.leaveAll_enterAll hm (harrive hact) left entered
  | done hact left entered =>
    have hdone := h.leaveAll_enterAll hm (harrive hact) left entered
    exact hdone

end Metered

/-! ### Operations -/

/-- What a machine does but for the runs of repeaters keeps all due in time. -/
theorem metered_durable (interval : Span) (batch : List (Lease × Task)) :
    Durable fun m : Machine D => Arises design settings fresh m ∧
      m.Metered design settings fresh interval batch := by
  have htaken : ∀ (m : Machine D) (rest : List Event), Spares m { m with queue := rest } :=
    fun m rest => .of_eq rfl rfl
  have hdeed : ∀ {m m' : Machine D}, Arises design settings fresh m ∧
      m.Metered design settings fresh interval batch → Deed m m' → Spares m m' →
      Arises design settings fresh m' ∧ m'.Metered design settings fresh interval batch := by
    intro m m' h deed spares
    have hchanges := deed.changes h.1.faithful
    exact ⟨h.1.changes hchanges, h.2.of_spares h.1.faithful hchanges spares⟩
  refine ⟨fun e h => hdeed h (.receive _ e) (.of_note rfl rfl rfl), fun queue h => ?_,
    fun h => hdeed h (.drop _) (.of_eq rfl rfl), fun mem recalls payload event h => ?_,
    fun current kind other due payload event run h => ?_, fun h => hdeed h (.flush _) (flush_spares _),
    fun gates h => hdeed h (.poll _ gates) (.of_eq rfl rfl)⟩
  · exact hdeed h (.answer queue) ((htaken _ _).trans (answer_spares _ _))
  · have hchanges := (Deed.move mem recalls payload event).changes h.1.faithful
    exact ⟨h.1.changes hchanges, h.2.move h.1 mem recalls payload event⟩
  · have hrole : _ ≠ some Deferral.repeater := fun heq => other (Option.some.inj (kind.symm.trans heq))
    exact hdeed h (.work current kind due payload event run)
      (execute_spares _ _ hrole payload event run)

end Machine
end Statechart
