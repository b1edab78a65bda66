/-
# What repeaters are told of time

A repeater that runs is handed the time since it last ran and the time since it started. When it
is due, it is so one interval after its last run, or it has joined the frame clock
(`Machine.Metered`). The tasks that are due are taken off the timeline to run one after another
(`Machine.Metered.popDue`), what each of them is told is fair, and then each is due again in time
(`Machine.Metered.fireAll`). So it is between all steps of a machine (`Machine.Reached.metered`).

The time since the start is always true. The time since the last run is, but for the first run of
a repeater that joined the frame clock between two ticks, which is told of a whole frame, and at
the end of time (`Machine.Fair.exact_iff`). What a repeater is told is never too little, and it
adds up just when all of it was true (`Machine.Reached.told_times`).

Key definitions: `Due.repeaters`, `Tick.total`.
Key theorems: `Machine.Metered.popDue`, `Machine.Metered.fireAll`, `Machine.Step.metered`,
`Machine.Reached.metered`, `Tick.last_le_total`, `Machine.Fair.exact_iff`,
`Machine.Reached.told_times`.
-/
import Statechart.Proofs.LoopGuards
import Statechart.Proofs.Metering

namespace Statechart

variable {D : Type}

/-! ### Repeaters on a timeline -/

namespace Timeline

variable {T : Type} {s : Timeline T} {t : Timer T} {rest : List (Timer T)} {period : Span}

theorem mem_intervals (ht : t ∈ s.timers) (repeats : t.period = some period) :
    t.owner ∈ (s.timers.filter fun t => t.period.isSome).map (·.owner) := by
  refine List.mem_map_of_mem (List.mem_filter.mpr ⟨ht, ?_⟩)
  rw [repeats]
  rfl

theorem repeating_cons (h : s.timers = t :: rest) (repeats : t.period = some period) :
    s.repeating = t.owner :: { s with timers := rest }.repeating := by
  unfold repeating
  rw [h, List.filter_cons_of_pos (by rw [repeats]; rfl)]
  rfl

/-- Two intervals are of different repeaters. -/
theorem owner_ne_of_rest (distinct : s.repeating.Nodup) (h : s.timers = t :: rest)
    (repeats : t.period = some period) {u : Timer T} {every : Span} (hu : u ∈ rest)
    (again : u.period = some every) : u.owner ≠ t.owner := by
  intro heq
  rw [repeating_cons h repeats] at distinct
  have hmem := mem_intervals (s := { s with timers := rest }) hu again
  exact (List.nodup_cons.mp distinct).1 (heq ▸ List.mem_append_left _ hmem)

/-- An interval and a frame task are of different repeaters. -/
theorem owner_ne_of_frame (distinct : s.repeating.Nodup) (ht : t ∈ s.timers)
    (repeats : t.period = some period) {f : Lease × T} (hf : f ∈ s.frames) : t.owner ≠ f.1 :=
  (List.nodup_append.mp distinct).2.2 _ (mem_intervals ht repeats) _ (List.mem_map_of_mem hf)

theorem nodup_renew (distinct : s.repeating.Nodup) (h : s.timers = t :: rest)
    (repeats : t.period = some period) :
    { s with now := t.due, timers := renew t rest }.repeating.Nodup := by
  rw [repeating_cons h repeats] at distinct
  unfold renew
  split
  · rename_i due hdue
    have hset := repeating_insertTimer { s with now := t.due, timers := rest }
      (t := { t with due }) repeats
    exact hset.nodup_iff.mpr distinct
  · exact (List.nodup_cons.mp distinct).2

end Timeline

/-- The repeaters that are due. -/
def Due.repeaters {T : Type} : Due T → List (Lease × T)
  | timer _ _ none => []
  | timer owner task (some _) => [(owner, task)]
  | frame tasks _ => tasks

namespace Machine

variable {design : Design D} {settings : Settings} {fresh : String} {m m' : Machine D}
  {interval period : Span} {owner : Lease} {task : Task} {batch : List (Lease × Task)}

/-! ### What is due -/

namespace Metered

/-- A timeout is taken off the timeline. -/
theorem popTimeout (h : m.Metered design settings fresh .zero []) (hm : m.Faithful)
    (ahead : m.timeline.Ahead) {t : Timer Task} {rest : List (Timer Task)}
    (hs : m.timeline.timers = t :: rest)
    (changes : Changes m { m with timeline := { m.timeline with now := t.due, timers := rest } }) :
    { m with timeline := { m.timeline with now := t.due, timers := rest } }.Metered
      design settings fresh .zero [] := by
  have hsublist : rest.Sublist m.timeline.timers := hs ▸ List.sublist_cons_self t rest
  have hspares : m.timeline.Spares { m.timeline with now := t.due, timers := rest } :=
    ⟨rfl, fun u hu => Or.inl (hsublist.subset hu), fun _ hf => hf, Or.inl rfl,
      ((hsublist.filter _).map _).append_right _⟩
  have hle : m.timeline.now ≤ t.due := ahead.timers t (hs ▸ List.mem_cons_self)
  exact h.spare hm changes (fun _ => ⟨rfl, rfl⟩) hspares (Or.inr ⟨rfl, hle⟩)

/-- An interval that is due runs now, and it is due again a period later, if there is such a
time. -/
theorem popInterval (h : m.Metered design settings fresh .zero []) (hm : m.Faithful)
    (ahead : m.timeline.Ahead) {t : Timer Task} {rest : List (Timer Task)}
    (hs : m.timeline.timers = t :: rest) (repeats : t.period = some period)
    (changes : Changes m { m with timeline :=
      { m.timeline with now := t.due, timers := Timeline.renew t rest } }) :
    { m with timeline :=
      { m.timeline with now := t.due, timers := Timeline.renew t rest } }.Metered
      design settings fresh period [(t.owner, t.task)] := by
  let m' : Machine D :=
    { m with timeline := { m.timeline with now := t.due, timers := Timeline.renew t rest } }
  have ht : t ∈ m.timeline.timers := hs ▸ List.mem_cons_self
  have hrest : ∀ u ∈ rest, u ∈ m.timeline.timers := fun u hu => hs ▸ List.mem_cons_of_mem t hu
  have hle : m.timeline.now ≤ t.due := ahead.timers t ht
  have hagrees : ∀ l, Agrees m m' l := fun _ => ⟨rfl, rfl⟩
  have hself := h.intervals t ht period repeats
  refine ⟨h.told_carry changes (fun _ => rfl) fun _ => hagrees _, fun p hp => ?_,
    fun u hu hperiod => ?_, fun u hu every hperiod => ?_, fun f hf => ?_, fun tick htick => ?_,
    Timeline.nodup_renew h.distinct hs repeats, List.nodup_singleton _⟩
  · obtain rfl := List.mem_singleton.mp hp
    exact hself.carry hm changes hle (hagrees _) fun _ _ _ hdue => Or.inl hdue
  · rcases Timeline.mem_renew hu with ⟨due, -, rfl⟩ | hu
    · cases repeats.symm.trans hperiod
    · exact h.timeouts u (hrest u hu) hperiod
  · rcases Timeline.mem_renew hu with ⟨due, hdue, rfl⟩ | hu
    · obtain rfl : period = every := Option.some.inj (repeats.symm.trans hperiod)
      rw [repeats] at hdue
      refine hself.carry hm changes hle (hagrees _) fun _ _ _ _ => ?_
      rw [lastRun_cons_self]
      exact (Span.add_eq_of_add? hdue).symm
    · have hne := Timeline.owner_ne_of_rest h.distinct hs repeats hu hperiod
      refine (h.intervals u (hrest u hu) every hperiod).carry hm changes hle (hagrees _)
        fun _ _ _ hdue => ?_
      rwa [lastRun_of_iff (mem_owners_of_ne hne)]
  · have hne := Timeline.owner_ne_of_frame h.distinct ht repeats hf
    exact (h.frames f hf).carry hm changes hle (hagrees _) fun _ _ _ hdue =>
      (hdue.carry changes (Or.inr rfl) (hagrees _) rfl rfl).of_iff (mem_owners_of_ne hne.symm)
  · exact Span.le_trans (h.tick_le tick htick) (Span.add_le_add hle _)

/-- As the frame clock ticks the frame tasks run, and they are due again one frame later, if there
is such a time. -/
theorem popFrame (h : m.Metered design settings fresh .zero []) (hm : m.Faithful)
    (ahead : m.timeline.Ahead) {tick : Span} (hnext : m.timeline.nextFrame = some tick)
    (changes : Changes m { m with timeline := { m.timeline with
      now := tick, nextFrame := tick.add? m.timeline.frameInterval } }) :
    { m with timeline := { m.timeline with
      now := tick, nextFrame := tick.add? m.timeline.frameInterval } }.Metered
      design settings fresh m.timeline.frameInterval m.timeline.frames := by
  let m' : Machine D := { m with timeline := { m.timeline with
    now := tick, nextFrame := tick.add? m.timeline.frameInterval } }
  have hle : m.timeline.now ≤ tick := ahead.ticks tick hnext
  have hagrees : ∀ l, Agrees m m' l := fun _ => ⟨rfl, rfl⟩
  refine ⟨h.told_carry changes (fun _ => rfl) fun _ => hagrees _, fun f hf => ?_, h.timeouts,
    fun t ht every hperiod => ?_, fun f hf => ?_, fun next hsum => ?_, h.distinct,
    (List.nodup_append.mp h.distinct).2.1⟩
  · refine (h.frames f hf).carry hm changes hle (hagrees _) fun _ _ _ hdue => ?_
    exact (hdue.tick tick hnext).imp_right fun hjoins =>
      ⟨hjoins.2.1, hjoins.2.2.changes changes⟩
  · have hnot : t.owner ∈ m.timeline.frames.map Prod.fst ↔
        t.owner ∈ ([] : List (Lease × Task)).map Prod.fst := by
      refine iff_of_false (fun hmem => ?_) List.not_mem_nil
      obtain ⟨f, hf, howner⟩ := List.mem_map.mp hmem
      exact Timeline.owner_ne_of_frame h.distinct ht hperiod hf howner.symm
    refine (h.intervals t ht every hperiod).carry hm changes hle (hagrees _) fun _ _ _ hdue => ?_
    rwa [lastRun_of_iff hnot]
  · refine (h.frames f hf).carry hm changes hle (hagrees _) fun _ _ _ _ => ?_
    have hlast : ∀ last, m'.lastRun m.timeline.frames f.1 last = tick := fun last =>
      if_pos (List.mem_map_of_mem hf)
    refine ⟨fun next hsum => Or.inl ?_, fun hend => ?_⟩
    · rw [hlast]
      exact (Span.add_eq_of_add? hsum).symm
    · rw [hlast]
      exact Span.add_eq_max hend
  · rw [← Span.add_eq_of_add? hsum]
    exact Span.le_refl _

/-- What is due is taken off the timeline, and is to run now. -/
theorem popDue (h : m.Metered design settings fresh .zero []) (hm : m.Faithful)
    (ahead : m.timeline.Ahead) {horizon : Span} {due : Due Task} {timeline : Timeline Task}
    (hpop : m.timeline.popDue horizon = some (due, timeline)) :
    { m with timeline }.Metered design settings fresh due.interval due.repeaters := by
  have changes : Changes m { m with timeline } := .single (.pop hpop)
  rcases Timeline.popDue_first hpop with ⟨t, rest, hs, -, -, rfl, rfl⟩ | ⟨tick, hnext, -, -, rfl, rfl⟩
  · cases hperiod : t.period with
    | none =>
      have hrenew : Timeline.renew t rest = rest := by rw [Timeline.renew, hperiod]; rfl
      rw [hrenew] at changes ⊢
      exact h.popTimeout hm ahead hs changes
    | some period => exact h.popInterval hm ahead hs hperiod changes
  · exact h.popFrame hm ahead hnext changes

/-! ### What is done -/

/-- A repeater that is due runs, and what its run comes to is taken over. -/
theorem execute {chain : Chain} {start : Span}
    (h : m.Metered design settings fresh interval ((owner, .repeating chain start) :: batch))
    (hm : Arises design settings fresh m) (hcurrent : m.tree.isCurrent owner = true)
    (payload : Json) (event : String) (run : Context D → WorkingCopy D → Run D) :
    let out := m.execute owner.node (.repeating interval (m.timeline.now.sub start)) payload event run
    Arises design settings fresh out.1 ∧ out.1.Metered design settings fresh interval batch := by
  intro out
  have hdeferred := (h.ready _ List.mem_cons_self).deferred
  have hlease : m.tree.lease owner.node = owner := Tree.lease_eq_of_isCurrent hcurrent
  have htold : Arises design settings fresh (m.tell owner interval start) :=
    hm.changes (tell_changes hcurrent hdeferred interval start)
  have hran := h.ran hm.faithful hcurrent
  rcases m.execute_cases owner.node (.repeating interval (m.timeline.now.sub start)) payload event
    run with ⟨e, heq⟩ | ⟨r, heq⟩ <;> rw [hlease] at heq <;> rw [show out = _ from heq]
  · exact ⟨htold, hran⟩
  · have hcommit : Changes (m.tell owner interval start)
        ((m.tell owner interval start).commit payload [(owner, r)]) :=
      (commit_chores payload fun r hr => List.mem_singleton.mp hr ▸ hlease).acts.changes
    exact ⟨htold.changes hcommit,
      hran.of_spares htold.faithful hcommit (commit_spares _ payload [(owner, r)])⟩

/-- The first repeater that is due runs, unless its lease has run out. -/
theorem fire (h : m.Metered design settings fresh interval ((owner, task) :: batch))
    (hm : Arises design settings fresh m) (budget : Nat) :
    Arises design settings fresh (m.fire budget owner task interval).1 ∧
      (m.fire budget owner task interval).1.Metered design settings fresh interval batch := by
  cases hcurrent : m.tree.isCurrent owner with
  | false =>
    rw [(ignores_of_isCurrent hcurrent).fire]
    exact ⟨hm, h.drop hcurrent⟩
  | true =>
    obtain ⟨chain, start, -, rfl, -, -⟩ := (h.ready _ List.mem_cons_self).told hcurrent
    rw [fire_eq hcurrent]
    let payload := repeatPayload interval (m.timeline.now.sub start)
    have hdone := h.execute hm hcurrent payload "repeat" fun ctx copy => ctx.run chain copy
    exact (metered_durable interval batch).follow hdone payload "repeat" budget

/-- The repeaters that are due run one after another. -/
theorem fireAll : ∀ {batch : List (Lease × Task)} {m : Machine D} (budget : Nat),
    m.Metered design settings fresh interval batch → Arises design settings fresh m →
      Arises design settings fresh (fireAll interval batch budget m).1 ∧
        (fireAll interval batch budget m).1.Metered design settings fresh interval []
  | [], _, _, h, hm => ⟨hm, h⟩
  | (owner, task) :: _, m, budget, h, hm => by
    obtain ⟨hm', hfired⟩ := h.fire hm budget
    have hrest := fireAll (m.fire budget owner task interval).2.1 hfired hm'
    exact hrest

/-- A timeout is of a wait. -/
theorem waits_of_popDue (h : m.Metered design settings fresh .zero []) (hm : m.Faithful)
    {horizon : Span} {timeline : Timeline Task}
    (hpop : m.timeline.popDue horizon = some (.timer owner task none, timeline)) :
    task.deferral = .wait ∧ .deferred owner .wait ∈ m.journal := by
  obtain ⟨t, rest, hs, -, -, heq, -⟩ :=
    (Timeline.popDue_first hpop).resolve_right fun ⟨_, _, _, _, heq, _⟩ => nomatch heq
  injection heq with howner htask hperiod
  have hwait : task.deferral = .wait :=
    htask ▸ h.timeouts t (hs ▸ List.mem_cons_self) hperiod.symm
  have hdue : (owner, task) ∈ m.timeline.tasks :=
    (Timeline.mem_tasks_of_popDue hpop).1 _ List.mem_cons_self
  exact ⟨hwait, hwait ▸ hm.tasks _ hdue⟩

/-- When what is due has been done, no repeater is due. -/
theorem perform (h : m.Metered design settings fresh .zero []) (hm : Arises design settings fresh m)
    (ahead : m.timeline.Ahead) {horizon : Span} {due : Due Task} {timeline : Timeline Task}
    (hpop : m.timeline.popDue horizon = some (due, timeline)) :
    Arises design settings fresh (perform { m with timeline } due).1 ∧
      (perform { m with timeline } due).1.Metered design settings fresh .zero [] := by
  have hdue := h.popDue hm.faithful ahead hpop
  have hm' : Arises design settings fresh { m with timeline } := hm.changes (.single (.pop hpop))
  cases due with
  | timer owner task period =>
    cases period with
    | none =>
      obtain ⟨hwait, hdeferred⟩ := h.waits_of_popDue hm.faithful hpop
      exact (metered_durable .zero []).fire (m := { m with timeline }) hwait hdeferred _ _
        ⟨hm', hdue⟩
    | some period =>
      obtain ⟨hfired, hmetered⟩ := hdue.fire hm' m.settings.maxTransitions
      exact ⟨hfired, hmetered.idle .zero⟩
  | frame tasks interval =>
    obtain ⟨hfired, hmetered⟩ := hdue.fireAll m.settings.maxTransitions hm'
    exact ⟨hfired, hmetered.idle .zero⟩

end Metered

/-! ### Whole runs -/

theorem Step.metered (hstep : Step m m') (hm : Arises design settings fresh m)
    (ahead : m.timeline.Ahead) (h : m.Metered design settings fresh .zero []) :
    m'.Metered design settings fresh .zero [] := by
  have hdurable : Durable fun m : Machine D => Arises design settings fresh m ∧
      m.Metered design settings fresh .zero [] := metered_durable .zero []
  have hchanges := hstep.changes hm.faithful
  cases hstep with
  | send e => exact (hdurable.send e ⟨hm, h⟩).2
  | @pop _ horizon _ hstep =>
    cases hpop : m.timeline.popDue horizon with
    | none => cases hstep.symm.trans ((popStep_eq_none_iff m horizon).mpr hpop)
    | some p =>
      have hdone := hdurable.flush (h.perform hm ahead hpop)
      have hfinished := hdurable.finish ({ m with timeline := p.2 }.perform p.1).2.1
        ({ m with timeline := p.2 }.perform p.1).2.2 hdone
      obtain rfl := congrArg Prod.fst (Option.some.inj (hstep.symm.trans (popStep_eq hpop rfl)))
      exact hfinished.2
  | @settle horizon done =>
    have hsettle : m.timeline.Takes (.settle horizon) (m.timeline.settle horizon) :=
      .settle ((popStep_eq_none_iff m horizon).mp done)
    exact h.spare hm.faithful hchanges (fun _ => ⟨rfl, rfl⟩) (Timeline.settle_spares _ horizon)
      (Or.inr ⟨rfl, hsettle.now_le ahead⟩)
  | poll gates => exact (hdurable.pollOperations gates hm.faithful ⟨hm, h⟩).2
  | subscribe => exact h.of_spares hm.faithful hchanges (.of_eq rfl rfl)
  | unsubscribe s => exact h.of_spares hm.faithful hchanges (unsubscribe_spares m s)

/-- A machine that is about to enter its first states has no repeaters. -/
theorem begin_metered (c : Compiled D) (tree : Tree) :
    (begin design settings c tree).Metered design settings fresh .zero [] where
  told _ later _ _ heq := by cases later <;> cases heq
  ready := nofun
  timeouts := nofun
  intervals := nofun
  frames := nofun
  tick_le := nofun
  distinct := .nil
  batch_distinct := .nil

theorem create_metered (h : create design settings fresh = .ok m) :
    m.Metered design settings fresh .zero [] := by
  obtain ⟨c, tree, m₁, requests, hc, htree, henter, hdurable⟩ := create_started h
  have hbegin : Arises design settings fresh (begin design settings c tree) :=
    ⟨c, tree, hc, htree, .refl⟩
  have hnodup : ((tree.activeNodes.map Tree.node).map (·.index)).Nodup := by
    have ht : Addressed tree := hbegin.addressed
    refine ht.wellFormed.nodup_indices.sublist ?_
    rw [Tree.map_node_activeNodes ht.wellFormed ht.orderly]
    exact List.filter_sublist.map _
  have hstarted : m₁.Metered design settings fresh .zero [] :=
    (begin_metered c tree).enterAll hbegin (fun n _ => by nofun) hnodup rfl henter
  have hm₁ := hbegin.changes (started_chores henter).acts.changes
  exact (hdurable (metered_durable .zero []) ⟨hm₁, hstarted⟩).2

/-- Between the steps of a machine all repeaters are due as they should be. -/
theorem Reached.metered (h : Reached design settings fresh m) :
    m.Metered design settings fresh .zero [] := by
  obtain ⟨m₀, hcreate, hsteps⟩ := h
  induction hsteps with
  | refl => exact create_metered hcreate
  | tail hbefore hstep ih =>
    have hreached : Reached design settings fresh _ := ⟨m₀, hcreate, hbefore⟩
    exact hstep.metered hreached.arises hreached.ahead ih

end Machine

/-! ### True times -/

namespace Tick

/-- The sum of what was told of the time between the runs. -/
def total : List Tick → Nat
  | [] => 0
  | k :: earlier => k.interval.nanos + total earlier

/-- When no run was told of less time than had passed, what they were told adds up to the time
from the start to the last of them just when it was exact. -/
theorem last_le_total {start : Span} : ∀ {ks : List Tick},
    (∀ later k earlier, ks = later ++ k :: earlier → last start earlier ≤ k.time ∧
      k.time.nanos ≤ (last start earlier).nanos + k.interval.nanos) →
    (last start ks).nanos ≤ start.nanos + total ks ∧
      (start.nanos + total ks = (last start ks).nanos ↔ Exact start ks)
  | [], _ => ⟨Nat.le_refl _, iff_of_true rfl trivial⟩
  | k :: ks, h => by
    obtain ⟨-, hk⟩ := h [] k ks rfl
    obtain ⟨hle, hexact⟩ := last_le_total fun later k' earlier heq =>
      h (k :: later) k' earlier (congrArg (k :: ·) heq)
    refine ⟨?_, ?_⟩
    · show k.time.nanos ≤ start.nanos + (k.interval.nanos + total ks)
      omega
    · show start.nanos + (k.interval.nanos + total ks) = k.time.nanos ↔
        (last start ks).nanos + k.interval.nanos = k.time.nanos ∧ Exact start ks
      rw [← hexact]
      omega

end Tick

namespace Machine

variable {design : Design D} {settings : Settings} {fresh : String} {m : Machine D} {owner : Lease}
  {start : Span} {earlier : List Tick} {k : Tick}

theorem Joins.lt {interval tick : Span} (h : Joins design settings fresh m owner start interval tick) :
    tick < start.add interval := by
  obtain ⟨m₀, payload, r, -, -, -, -, -, hlt, -, -⟩ := h
  exact hlt

namespace Fair

variable (h : Fair design settings fresh m owner start earlier k)
include h

theorem le_add : k.time.nanos ≤ (Tick.last start earlier).nanos + k.interval.nanos := by
  rcases h.interval with heq | ⟨rfl, hjoins⟩
  · rw [heq, Span.nanos_add]
    exact Nat.min_le_left ..
  · have hlt := Span.lt_def.mp hjoins.lt
    rw [Span.nanos_add] at hlt
    show k.time.nanos ≤ start.nanos + k.interval.nanos
    omega

/-- What a run is told of the time since the last one is true, unless it is the first one of a
repeater that joined the frame clock, or the end of time has come before it would be due. -/
theorem exact_iff : (Tick.last start earlier).nanos + k.interval.nanos = k.time.nanos ↔
    ¬ (earlier = [] ∧ Joins design settings fresh m owner start k.interval k.time) ∧
      (Tick.last start earlier).nanos + k.interval.nanos < Span.limit := by
  constructor
  · intro heq
    refine ⟨fun hjoins => ?_, heq ▸ k.time.nanos_lt_limit⟩
    obtain ⟨rfl, hjoins⟩ := hjoins
    have hlt := Span.lt_def.mp hjoins.lt
    have heq : start.nanos + k.interval.nanos = k.time.nanos := heq
    rw [Span.nanos_add] at hlt
    omega
  · rintro ⟨hnot, hlt⟩
    rw [h.interval.resolve_right hnot, Span.nanos_add]
    omega

end Fair

/-- **What repeaters are told.** A repeater that runs is told how much time has passed since it
started. What it is told of the time since its last run, or since its start when it runs first, is
never too little. It is what has passed, but for the first run of a repeater that joined the frame
clock between two ticks, and at the end of time. So what a repeater has been told of the times
between its runs adds up to the time since it started just when all of it was exact. -/
theorem Reached.told_times (h : Reached design settings fresh m) {later : List Tick}
    (hticks : Journal.ticks owner m.journal = later ++ k :: earlier) :
    ∃ start, Journal.started? owner m.journal = some start.nanos ∧
      start.nanos + k.elapsed.nanos = k.time.nanos ∧ Tick.last start earlier ≤ k.time ∧
      ((Tick.last start earlier).nanos + k.interval.nanos = k.time.nanos ↔
        ¬ (earlier = [] ∧ Joins design settings fresh m owner start k.interval k.time) ∧
          (Tick.last start earlier).nanos + k.interval.nanos < Span.limit) ∧
      k.elapsed.nanos ≤ Tick.total (k :: earlier) ∧
      (Tick.total (k :: earlier) = k.elapsed.nanos ↔ Tick.Exact start (k :: earlier)) := by
  have hm := h.metered
  obtain ⟨start, hstart, hfair⟩ := hm.told owner later k earlier hticks
  -- A repeater starts once, so that all of its runs are fair to the same start.
  have hall : ∀ late k' early, k :: earlier = late ++ k' :: early →
      Tick.last start early ≤ k'.time ∧
        k'.time.nanos ≤ (Tick.last start early).nanos + k'.interval.nanos := by
    intro late k' early heq
    obtain ⟨start', hstart', hfair'⟩ := hm.told owner (later ++ late) k' early
      (by rw [hticks, heq, List.append_assoc])
    obtain rfl : start = start' := Span.ext_nanos (Option.some.inj (hstart.symm.trans hstart'))
    exact ⟨hfair'.last_le, hfair'.le_add⟩
  obtain ⟨hle, hexact⟩ := Tick.last_le_total hall
  have helapsed := hfair.elapsed
  have hlast : (Tick.last start (k :: earlier)).nanos = k.time.nanos := rfl
  rw [hlast, ← helapsed] at hle hexact
  refine ⟨start, hstart, helapsed, hfair.last_le, hfair.exact_iff, Nat.le_of_add_le_add_left hle, ?_⟩
  rw [← hexact]
  omega

end Machine

/-- A fan that turns a bit with every frame. When it is lit, its light blinks with every frame as
well. -/
def Design.fan : Design Nat where
  id := none
  data := 0
  host := .empty
  root := .mk
    { initial := some (.child "dark")
      on := [("LIGHT", .one (.handler { targets := [.path "lit"] } none none))]
      repeater := some ⟨.one (.action (.inline fun n _ _ => (n + 1, none))), none⟩ } [
    ("dark", .mk {} []),
    ("lit", .mk { repeater := some ⟨.one (.action (.inline fun n _ _ => (n + 1, none))), none⟩ } [])]

namespace Machine

/-- A frame lasts two halves, and the fan is lit after the first. Its light blinks at the end of
the frame, and at the end of the next one. -/
theorem ticks_fan :
    let half : Span := ⟨5000000, by decide⟩
    let frame := half.add half
    let light : Lease := ⟨1, 2⟩
    ∃ m, Reached Design.fan { frameInterval := frame } "m" m ∧
      Journal.started? light m.journal = some half.nanos ∧
      Journal.ticks light m.journal =
        [⟨frame, frame.add half, frame.add frame⟩, ⟨frame, half, frame⟩] := by
  intro half frame light
  let lit : Event := ⟨"LIGHT", .null⟩
  obtain ⟨m₀, hcreate, hrun⟩ :
      ∃ m₀, create Design.fan { frameInterval := frame } "m" = .ok m₀ ∧
        ((m₀.advance 9 [] half).bind fun r => (r.1.send lit).1.advance 9 [] (frame.add half)).map
            (fun r => (Journal.started? light r.1.journal, Journal.ticks light r.1.journal)) =
          some (some half.nanos,
            [⟨frame, frame.add half, frame.add frame⟩, ⟨frame, half, frame⟩]) :=
    ⟨_, rfl, by decide +kernel⟩
  obtain ⟨⟨m, _⟩, hrun, heq⟩ := Option.map_eq_some_iff.mp hrun
  obtain ⟨⟨m₁, _⟩, hfirst, hsecond⟩ := Option.bind_eq_some_iff.mp hrun
  obtain ⟨hstarted, hticks⟩ := Prod.mk.inj heq
  have hsteps : Steps m₀ m :=
    ((advance_steps hfirst).tail (.send m₁ lit)).trans (advance_steps hsecond)
  exact ⟨m, (Reached.of_create hcreate).steps hsteps, hstarted, hticks⟩

/-- What the light of the fan is told as it blinks again is true. What it has been told does not
add up, as it joined the frame clock when it blinked first. -/
theorem told_times_fan :
    let half : Span := ⟨5000000, by decide⟩
    let frame := half.add half
    let light : Lease := ⟨1, 2⟩
    ∃ m k first, Reached Design.fan { frameInterval := frame } "m" m ∧
      Journal.ticks light m.journal = [k, first] ∧
      first.time.nanos + k.interval.nanos = k.time.nanos ∧
      half.nanos + k.elapsed.nanos = k.time.nanos ∧
      Joins Design.fan { frameInterval := frame } "m" m light half first.interval first.time ∧
      ¬ Tick.Exact half [k, first] := by
  intro half frame light
  obtain ⟨m, hreached, hstarted, hticks⟩ := ticks_fan
  let k : Tick := ⟨frame, frame.add half, frame.add frame⟩
  let first : Tick := ⟨frame, half, frame⟩
  have hagain : Journal.ticks light m.journal = [] ++ k :: [first] := hticks
  have hfirst : Journal.ticks light m.journal = [k] ++ first :: [] := hticks
  obtain ⟨start, hstart, helapsed, -, htrue, -, hsum⟩ := hreached.told_times hagain
  obtain ⟨start', hstart', -, -, hjoined, -, -⟩ := hreached.told_times hfirst
  obtain rfl : start = half := Span.ext_nanos (Option.some.inj (hstart.symm.trans hstarted))
  obtain rfl : start' = half := Span.ext_nanos (Option.some.inj (hstart'.symm.trans hstarted))
  rw [show Tick.last half [first] = first.time from rfl] at htrue
  refine ⟨m, k, first, hreached, hticks, ?_, helapsed, ?_, fun hexact => ?_⟩
  · exact htrue.mpr ⟨fun hjoins => List.cons_ne_nil _ _ hjoins.1, by decide⟩
  · by_contra hnot
    have hfirst := hjoined.mpr ⟨fun hjoins => hnot hjoins.2, by decide⟩
    exact absurd hfirst (by decide)
  · exact absurd (hsum.mpr hexact) (by decide)

/-- When the light of the fan blinks first it is told that a whole frame has passed since it was
lit, but it was half a frame. -/
theorem first_tick_fan :
    let half : Span := ⟨5000000, by decide⟩
    let frame := half.add half
    let light : Lease := ⟨1, 2⟩
    ∃ m k first, Reached Design.fan { frameInterval := frame } "m" m ∧
      Journal.started? light m.journal = some half.nanos ∧
      Journal.ticks light m.journal = [k, first] ∧
      half.nanos + first.interval.nanos ≠ first.time.nanos ∧
      Tick.total [k, first] ≠ k.elapsed.nanos := by
  intro half frame light
  obtain ⟨m, hreached, hstarted, hticks⟩ := ticks_fan
  exact ⟨m, _, _, hreached, hstarted, hticks, by decide, by decide⟩

end Machine
end Statechart
