/-
# A timeline is punctual

A timer that is set has times: a timeout one, an interval one and then one every period as long
as there is such a time (`Timer.time?`). Those at which it was due in a course so far are the
first of its times, no more and no fewer than the course has come to, and unless it was dropped
it stands on the timeline for the next (`Timeline.Kept`). What was due so far is in order, and so
are the timers that are to come, which are all behind it: in order of time, and at equal times
in the order in which they were set or, when they were due before, set again
(`Timeline.InOrder`). The frame tasks stand in the order in which they were set
(`Timeline.Course.frames_inOrder`). All orders are those of the numbers of the turns
(`Timeline.Numbered`), which are part of what a course has come to (`Timeline.Exact`).

Key definitions: `Timer.time?`, `Timeline.Kept`, `Timeline.InOrder`, `Timeline.Exact`.
Key theorems: `Timeline.Course.kept`, `Timeline.Course.inOrder`, `Timeline.Course.frames_inOrder`,
`Timeline.Course.punctual`.
-/
import Statechart.Proofs.Courses
import Statechart.Proofs.Schedules

namespace Statechart

/-! ### The times of a timer -/

namespace Span

theorem ofNanos?_eq_some_iff {n : Nat} {a : Span} : ofNanos? n = some a ↔ n = a.nanos := by
  have hlt := a.nanos_lt_limit
  unfold ofNanos?
  split
  · exact ⟨fun h => Option.some.inj h ▸ rfl, fun h => congrArg some (ext_nanos h)⟩
  · exact ⟨fun h => absurd h (Option.some_ne_none a).symm, fun h => by omega⟩

theorem ofNanos?_eq_none_iff {n : Nat} : ofNanos? n = none ↔ limit ≤ n := by
  unfold ofNanos?
  split
  · exact ⟨fun h => absurd h (Option.some_ne_none _), fun h => by omega⟩
  · exact ⟨fun _ => by omega, fun _ => rfl⟩

end Span

namespace Timer

variable {T : Type}

/-- The times at which a timer is due: a timeout only once, an interval again after every period,
as long as there is such a time. -/
def time? (t : Timer T) (k : Nat) : Option Span :=
  match t.period with
  | none => if k = 0 then some t.due else none
  | some period => Span.ofNanos? (t.due.nanos + k * period.nanos)

theorem time?_zero (t : Timer T) : t.time? 0 = some t.due := by
  unfold time?
  split
  · rfl
  · exact Span.ofNanos?_eq_some_iff.mpr (by omega)

theorem time?_succ (t : Timer T) (k : Nat) :
    t.time? (k + 1) = (t.time? k).bind fun due => t.period.bind due.add? := by
  unfold time?
  cases t.period with
  | none => simp
  | some period =>
    have hsum : t.due.nanos + (k + 1) * period.nanos =
        t.due.nanos + k * period.nanos + period.nanos := by rw [Nat.succ_mul, Nat.add_assoc]
    dsimp only
    cases hk : Span.ofNanos? (t.due.nanos + k * period.nanos) with
    | none =>
      have hlimit := Span.ofNanos?_eq_none_iff.mp hk
      exact Span.ofNanos?_eq_none_iff.mpr (by omega)
    | some due =>
      rw [hsum, Span.ofNanos?_eq_some_iff.mp hk]
      rfl

/-- Before each of its times a timer has those that come earlier. -/
theorem exists_time?_of_le {t : Timer T} {j k : Nat} {due : Span} (h : t.time? k = some due)
    (hle : j ≤ k) : ∃ sooner, t.time? j = some sooner ∧ sooner ≤ due := by
  induction k generalizing due with
  | zero => exact ⟨due, Nat.le_zero.mp hle ▸ h, Span.le_refl due⟩
  | succ k ih =>
    rcases Nat.le_succ_iff.mp hle with hle | rfl
    · obtain ⟨last, hlast, hnext⟩ := Option.bind_eq_some_iff.mp (t.time?_succ k ▸ h)
      obtain ⟨period, -, hsum⟩ := Option.bind_eq_some_iff.mp hnext
      obtain ⟨sooner, hsooner, hle⟩ := ih hlast hle
      have hadd := Span.add?_eq_some_iff.mp hsum
      exact ⟨sooner, hsooner, Span.le_trans hle (Span.le_def.mpr (by omega))⟩
    · exact ⟨due, h, Span.le_refl due⟩

end Timer

namespace Timeline

variable {T : Type} {frameInterval : Span}

/-! ### When a timer was due -/

/-- The timer with a number is due. -/
def Moment.fires (n : Nat) (m : Moment (Nat × T)) : Bool :=
  match m.turn.due? with
  | some (.timer _ task _) => task.1 = n
  | _ => false

/-- The times at which the timer with a number was due, in order. -/
def firings (n : Nat) (past : List (Moment (Nat × T))) : List Span :=
  ((past.filter (Moment.fires n)).map Moment.time).reverse

/-- The number of the latest turn that set the timer with a number, or in which it was due and so
was set again. -/
def since (n : Nat) : List (Moment (Nat × T)) → Nat
  | [] => 0
  | m :: earlier => if n = earlier.length ∨ m.fires n then earlier.length else since n earlier

/-- All that was due, the latest first: its time, and the number of the turn that set it. Frame
tasks are set for each tick when it comes. -/
def pops : List (Moment (Nat × T)) → List (Span × Nat)
  | [] => []
  | m :: earlier =>
    match m.turn.due? with
    | some (.timer _ task _) => (m.time, since task.1 earlier) :: pops earlier
    | some (.frame ..) => (m.time, earlier.length) :: pops earlier
    | none => pops earlier

variable {past later earlier : List (Moment (Nat × T))} {m : Moment (Nat × T)}
  {s s' : Timeline (Nat × T)} {t : Timer (Nat × T)}

theorem firings_cons (n : Nat) (m : Moment (Nat × T)) (past : List (Moment (Nat × T))) :
    firings n (m :: past) = firings n past ++ if m.fires n then [m.time] else [] := by
  unfold firings
  rw [List.filter_cons]
  split <;> simp

/-- A timer is due only in a turn in which something is. -/
theorem fires_of_due?_eq_none (h : m.turn.due? = none) (n : Nat) : m.fires n = false := by
  unfold Moment.fires
  rw [h]

/-- In a tick no timer is due. -/
theorem fires_of_frame {tasks : List (Lease × (Nat × T))} {interval : Span}
    (h : m.turn.due? = some (.frame tasks interval)) (n : Nat) : m.fires n = false := by
  unfold Moment.fires
  rw [h]

theorem fires_of_timer {owner : Lease} {task : Nat × T} {period : Option Span}
    (h : m.turn.due? = some (.timer owner task period)) (n : Nat) :
    m.fires n = decide (task.1 = n) := by
  unfold Moment.fires
  rw [h]

/-! ### What becomes of a timer -/

/-- What has become of a timer since it was set: the times at which it was due are the first of
its times, and it stands for the next one, if there is one, unless it was dropped. -/
structure Kept (t : Timer (Nat × T)) (later : List (Moment (Nat × T)))
    (s : Timeline (Nat × T)) : Prop where
  fired : (firings t.task.1 later).map some =
    (List.range (firings t.task.1 later).length).map t.time?
  pending : (s.timers.filter fun u => u.task.1 = t.task.1) =
    if later.any fun m => m.turn.drops t.owner t.period.isSome then []
    else ((t.time? (firings t.task.1 later).length).map fun due => { t with due }).toList

/-- The timer that is due was set for just that time. -/
theorem Kept.time?_of_first {u : Timer (Nat × T)} {rest : List (Timer (Nat × T))}
    (h : Kept t later s) (hs : s.timers = u :: rest) (hu : u.task.1 = t.task.1) :
    (later.any fun m => m.turn.drops t.owner t.period.isSome) = false ∧
      t.time? (firings t.task.1 later).length = some u.due ∧ u = { t with due := u.due } ∧
      (rest.filter fun u => u.task.1 = t.task.1) = [] := by
  have hpending := h.pending
  rw [hs, List.filter_cons_of_pos (by simpa using hu)] at hpending
  split at hpending
  · cases hpending
  · rename_i hkept
    cases htime : t.time? (firings t.task.1 later).length with
    | none => simp [htime] at hpending
    | some due =>
      obtain ⟨rfl, hrest⟩ := List.cons.inj (htime ▸ hpending)
      exact ⟨by simpa using hkept, rfl, rfl, hrest⟩

/-- A turn in which the timer is not due only drops it, if it does. -/
theorem Kept.quiet (h : Kept t later s) (hfires : m.fires t.task.1 = false)
    (htimers : (s'.timers.filter fun u => u.task.1 = t.task.1) =
      (s.timers.filter fun u => u.task.1 = t.task.1).filter fun u =>
        !m.turn.drops u.owner u.period.isSome) : Kept t (m :: later) s' := by
  have hsame : firings t.task.1 (m :: later) = firings t.task.1 later := by
    rw [firings_cons, hfires]
    exact List.append_nil _
  refine ⟨by rw [hsame]; exact h.fired, ?_⟩
  rw [htimers, h.pending, hsame, List.any_cons]
  cases later.any fun m => m.turn.drops t.owner t.period.isSome with
  | true => simp
  | false =>
    cases hnow : m.turn.drops t.owner t.period.isSome <;>
      cases t.time? (firings t.task.1 later).length <;> simp [hnow]

/-- When the timer is due it has one time less to come. -/
theorem Kept.fire {u : Timer (Nat × T)} {rest : List (Timer (Nat × T))} (h : Kept t later s)
    (hu : u.task.1 = t.task.1) (hdue : m.turn.due? = some (.timer u.owner u.task u.period))
    (hdrops : ∀ owner repeats, m.turn.drops owner repeats = false) (hs : s.timers = u :: rest)
    (htime : m.time = u.due) (htimers : s'.timers = renew u rest) : Kept t (m :: later) s' := by
  obtain ⟨hkept, hnext, hsame, hrest⟩ := h.time?_of_first hs hu
  have hfires : m.fires t.task.1 = true := (fires_of_timer hdue _).trans (decide_eq_true hu)
  have hlast : firings t.task.1 (m :: later) = firings t.task.1 later ++ [u.due] := by
    rw [firings_cons, hfires, if_pos rfl, htime]
  have hany : ((m :: later).any fun m => m.turn.drops t.owner t.period.isSome) = false := by
    rw [List.any_cons, hkept, hdrops]
    rfl
  have hperiod : u.period = t.period := by rw [hsame]
  constructor
  · rw [hlast, List.length_append, List.length_singleton, List.range_succ, List.map_append,
      List.map_append, h.fired, List.map_singleton, List.map_singleton, hnext]
  · rw [hany, hlast, List.length_append, List.length_singleton, Timer.time?_succ, hnext, htimers]
    unfold renew
    rw [hperiod, Option.bind_some]
    split <;> rename_i hsum <;> rw [hsum]
    · have hset := (insertTimer_perm { u with due := ‹Span› } rest).filter
        fun u => u.task.1 = t.task.1
      rw [List.filter_cons_of_pos (by simpa using hu), hrest] at hset
      rw [hsame] at hset ⊢
      exact List.perm_singleton.mp hset
    · exact hrest

theorem Kept.turn (h : Kept t later s) (hshift : Shifts s m s')
    (hfresh : ∀ u, m.sets? = some u → u.task.1 ≠ t.task.1) : Kept t (m :: later) s' := by
  have hother : ∀ {u : Timer (Nat × T)}, u.task.1 ≠ t.task.1 → ∀ us,
      ((insertTimer u us).filter fun u => u.task.1 = t.task.1) =
        us.filter fun u => u.task.1 = t.task.1 := fun hu us =>
    filter_insertTimer_of_neg (by simpa using hu) us
  have hnone : (∀ owner repeats, m.turn.drops owner repeats = false) → ∀ us : List (Timer (Nat × T)),
      us.filter (fun u => !m.turn.drops u.owner u.period.isSome) = us := fun hdrops us =>
    List.filter_eq_self.mpr fun u _ => by simp [hdrops]
  cases hshift with
  | set sets due drops now timers =>
    refine h.quiet (fires_of_due?_eq_none due _) ?_
    rw [timers, hother (hfresh _ sets), hnone drops]
  | @fire u rest sets due drops first time timers =>
    by_cases hu : u.task.1 = t.task.1
    · exact h.fire hu due drops first time timers
    · refine h.quiet ((fires_of_timer due _).trans (decide_eq_false hu)) ?_
      rw [hnone drops, timers, first, List.filter_cons_of_neg (by simpa using hu)]
      unfold renew
      split
      · exact filter_insertTimer_of_neg (by simpa using hu) rest
      · rfl
  | tick sets due drops first timers =>
    refine h.quiet (fires_of_frame due _) ?_
    rw [timers, hnone drops]
  | keep sets due timers =>
    refine h.quiet (fires_of_due?_eq_none due _) ?_
    rw [timers, List.filter_filter, List.filter_filter]
    exact List.filter_congr fun u _ => Bool.and_comm _ _

/-- Every timer that stands was set in the turn of its number. -/
theorem Course.known (h : Course frameInterval past s) (hn : Numbered past) :
    ∀ u ∈ s.timers, ∃ later m earlier t, past = later ++ m :: earlier ∧ m.sets? = some t ∧
      u.task = t.task := by
  induction h with
  | new => exact nofun
  | @turn past s s' turn h takes ih =>
    have hold : ∀ u ∈ s.timers, ∃ later m earlier t, ⟨turn, s'.now⟩ :: past = later ++ m :: earlier ∧
        m.sets? = some t ∧ u.task = t.task := fun u hu =>
      have ⟨later, m, earlier, t, heq, hsets, htask⟩ := ih hn.tail u hu
      ⟨_ :: later, m, earlier, t, by rw [heq, List.cons_append], hsets, htask⟩
    intro u hu
    cases takes.shifts with
    | set sets due drops now timers =>
      rcases mem_insertTimer.mp (timers ▸ hu) with rfl | hu
      · exact ⟨[], _, past, u, rfl, sets, rfl⟩
      · exact hold u hu
    | @fire t rest sets due drops first time timers =>
      rcases mem_renew (timers ▸ hu) with ⟨due, -, rfl⟩ | hu
      · exact hold t (first ▸ List.mem_cons_self)
      · exact hold u (first ▸ List.mem_cons_of_mem t hu)
    | tick sets due drops first timers => exact hold u (timers ▸ hu)
    | keep sets due timers => exact hold u (List.mem_filter.mp (timers ▸ hu)).1

theorem Course.number_lt (h : Course frameInterval past s) (hn : Numbered past) :
    ∀ u ∈ s.timers, u.task.1 < past.length := by
  intro u hu
  obtain ⟨later, m, earlier, t, rfl, hsets, htask⟩ := h.known hn u hu
  have hnumber : u.task.1 = earlier.length := htask ▸ (hn later m earlier rfl).1 t hsets
  rw [List.length_append, List.length_cons]
  omega

/-- Each timer that was set has been due at its times so far, and stands for the next one unless
it was dropped. -/
theorem Course.kept (h : Course frameInterval past s) (hn : Numbered past)
    (heq : past = later ++ m :: earlier) (hsets : m.sets? = some t) : Kept t later s := by
  have hnumber : t.task.1 = earlier.length := (hn later m earlier heq).1 t hsets
  induction h generalizing later with
  | new => simp at heq
  | @turn past s s' turn h takes ih =>
    have hshift := takes.shifts
    cases later with
    | nil =>
      obtain ⟨rfl, rfl⟩ := List.cons.inj heq
      cases hshift with
      | @set u sets due drops now timers =>
        obtain rfl : u = t := Option.some.inj (sets.symm.trans hsets)
        have hnew : (s.timers.filter fun v => v.task.1 = u.task.1) = [] := by
          refine List.filter_eq_nil_iff.mpr fun v hv => ?_
          have hlt := h.number_lt hn.tail v hv
          simp only [decide_eq_true_eq]
          omega
        have hset := (insertTimer_perm u s.timers).filter fun v => v.task.1 = u.task.1
        rw [List.filter_cons_of_pos (by simp), hnew] at hset
        refine ⟨rfl, ?_⟩
        rw [timers, List.perm_singleton.mp hset]
        show _ = ((u.time? 0).map _).toList
        rw [Timer.time?_zero]
        rfl
      | fire sets => cases sets.symm.trans hsets
      | tick sets => cases sets.symm.trans hsets
      | keep sets => cases sets.symm.trans hsets
    | cons last later =>
      obtain ⟨rfl, hpast⟩ := List.cons.inj heq
      refine (ih hn.tail hpast).turn hshift fun u hu => ?_
      have hfresh := (hn [] _ past rfl).1 u hu
      have hlength : past.length = later.length + (earlier.length + 1) := by
        rw [hpast]
        exact List.length_append
      omega

/-! ### The order of what is due -/

/-- One thing is due before another: in time, or at the same time by the turns that set them. -/
def Before (a b : Span × Nat) : Prop := a.1 < b.1 ∨ a.1 = b.1 ∧ a.2 < b.2

/-- When a timer is due, and the turn that set it last. -/
def rank (past : List (Moment (Nat × T))) (t : Timer (Nat × T)) : Span × Nat :=
  (t.due, since t.task.1 past)

/-- What was due so far and what is still to come are in order: so is all that was due, so are
the timers that stand, and the former is before the latter. -/
structure InOrder (past : List (Moment (Nat × T))) (s : Timeline (Nat × T)) : Prop where
  popped : (pops past).Pairwise fun a earlier => Before earlier a
  timers : s.timers.Pairwise fun t u => Before (rank past t) (rank past u)
  ahead : ∀ a ∈ pops past, ∀ t ∈ s.timers, Before a (rank past t)

theorem Before.le {a b : Span × Nat} (h : Before a b) : a.1 ≤ b.1 := by
  rcases h with hlt | ⟨heq, -⟩
  · exact Span.le_of_lt hlt
  · exact heq ▸ Span.le_refl _

theorem Before.of_le {a b : Span × Nat} (h : a.1 ≤ b.1) (k : a.2 < b.2) : Before a b := by
  by_cases heq : a.1 = b.1
  · exact Or.inr ⟨heq, k⟩
  · exact Or.inl (Span.lt_of_le_of_ne h heq)

theorem since_le (n : Nat) (past : List (Moment (Nat × T))) : since n past ≤ past.length := by
  induction past with
  | nil => exact Nat.le_refl 0
  | cons m past ih =>
    unfold since
    split
    · exact Nat.le_succ _
    · exact Nat.le_succ_of_le ih

theorem since_lt {n : Nat} (h : n < past.length) : since n past < past.length := by
  cases past with
  | nil => cases h
  | cons m past =>
    unfold since
    split
    · exact Nat.lt_succ_self _
    · exact Nat.lt_succ_of_le (since_le n past)

theorem since_cons_of_set {n : Nat} (h : n = past.length ∨ m.fires n = true) :
    since n (m :: past) = past.length := if_pos h

theorem since_cons {n : Nat} (hn : n < past.length) (h : m.fires n = false) :
    since n (m :: past) = since n past :=
  if_neg fun hset => hset.elim (Nat.ne_of_lt hn) fun hfires => by rw [h] at hfires; cases hfires

theorem rank_cons (hn : t.task.1 < past.length) (h : m.fires t.task.1 = false) :
    rank (m :: past) t = rank past t :=
  congrArg (Prod.mk t.due) (since_cons hn h)

theorem pops_cons_of_none (h : m.turn.due? = none) : pops (m :: past) = pops past := by
  rw [pops]
  simp only [h]

theorem mem_pops {a : Span × Nat} (h : a ∈ pops past) :
    (∃ m ∈ past, a.1 = m.time) ∧ a.2 < past.length := by
  induction past with
  | nil => cases h
  | cons m past ih =>
    have hold : a ∈ pops past → (∃ m' ∈ m :: past, a.1 = m'.time) ∧ a.2 < past.length + 1 :=
      fun h =>
        have ⟨⟨m', hm', htime⟩, hlt⟩ := ih h
        ⟨⟨m', List.mem_cons_of_mem m hm', htime⟩, Nat.lt_succ_of_lt hlt⟩
    unfold pops at h
    split at h
    · rcases List.mem_cons.mp h with rfl | h
      · exact ⟨⟨m, List.mem_cons_self, rfl⟩, Nat.lt_succ_of_le (since_le _ past)⟩
      · exact hold h
    · rcases List.mem_cons.mp h with rfl | h
      · exact ⟨⟨m, List.mem_cons_self, rfl⟩, Nat.lt_succ_self _⟩
      · exact hold h
    · exact hold h

/-- What was due so far is not after the clock, and was set by the turns so far. -/
theorem Course.pops_le (h : Course frameInterval past s) {a : Span × Nat} (ha : a ∈ pops past) :
    a.1 ≤ s.now ∧ a.2 < past.length := by
  obtain ⟨⟨m, hm, htime⟩, hlt⟩ := mem_pops ha
  exact ⟨htime ▸ h.clock.2 m hm, hlt⟩

/-- The timers behind the first have other numbers. -/
theorem Course.number_ne (h : Course frameInterval past s) (hn : Numbered past)
    {rest : List (Timer (Nat × T))} (hs : s.timers = t :: rest) :
    ∀ u ∈ rest, u.task.1 ≠ t.task.1 := by
  obtain ⟨later, m, earlier, t₀, heq, hsets, htask⟩ := h.known hn t (hs ▸ List.mem_cons_self)
  have hrest := ((h.kept hn heq hsets).time?_of_first hs (congrArg Prod.fst htask)).2.2.2
  intro u hu hsame
  have hnot := List.filter_eq_nil_iff.mp hrest u hu
  simp [hsame, htask] at hnot

/-- Timers stay in order with one more that was set last. -/
theorem ranked_insertTimer {us : List (Timer (Nat × T))} (hsorted : Sorted us)
    (h : us.Pairwise fun t u => Before (rank past t) (rank past u))
    (hlast : ∀ u ∈ us, since u.task.1 past < since t.task.1 past) :
    (insertTimer t us).Pairwise fun t u => Before (rank past t) (rank past u) :=
  pairwise_insertTimer hsorted h (fun u hu hle => .of_le hle (hlast u hu))
    fun _ _ hlt => Or.inl hlt

/-- In a moment in which nothing is due, timers may be dropped. -/
theorem InOrder.quiet (h : InOrder past s) (hdue : m.turn.due? = none)
    (hnumber : ∀ u ∈ s.timers, u.task.1 < past.length)
    (hsub : s'.timers.Sublist s.timers) : InOrder (m :: past) s' := by
  have hpops : pops (m :: past) = pops past := pops_cons_of_none hdue
  have hrank : ∀ u ∈ s.timers, rank (m :: past) u = rank past u := fun u hu =>
    rank_cons (hnumber u hu) (fires_of_due?_eq_none hdue _)
  refine ⟨hpops ▸ h.popped, ?_, fun a ha u hu => ?_⟩
  · refine (h.timers.sublist hsub).imp_of_mem fun ht hu hbefore => ?_
    rw [hrank _ (hsub.subset ht), hrank _ (hsub.subset hu)]
    exact hbefore
  · rw [hrank u (hsub.subset hu)]
    exact h.ahead a (hpops ▸ ha) u (hsub.subset hu)

/-- A timer that is set is behind all that was set for the same time. -/
theorem InOrder.set (h : InOrder past s) (hcourse : Course frameInterval past s)
    (hnumber : ∀ u ∈ s.timers, u.task.1 < past.length) (hdue : m.turn.due? = none)
    (ht : t.task.1 = past.length) (hnow : s.now ≤ t.due)
    (htimers : s'.timers = insertTimer t s.timers) : InOrder (m :: past) s' := by
  have hkept : InOrder (m :: past) s := h.quiet hdue hnumber (.refl _)
  have hset : since t.task.1 (m :: past) = past.length := since_cons_of_set (Or.inl ht)
  refine ⟨hkept.popped, ?_, fun a ha u hu => ?_⟩
  · rw [htimers]
    refine ranked_insertTimer hcourse.ahead.sorted hkept.timers fun u hu => ?_
    rw [hset, since_cons (hnumber u hu) (fires_of_due?_eq_none hdue _)]
    exact since_lt (hnumber u hu)
  · rcases mem_insertTimer.mp (htimers ▸ hu) with rfl | hu
    · obtain ⟨htime, hlt⟩ := hcourse.pops_le (pops_cons_of_none hdue ▸ ha)
      exact .of_le (Span.le_trans htime hnow) (Nat.lt_of_lt_of_eq hlt hset.symm)
    · exact hkept.ahead a ha u hu

/-- The timer that is due was before the others. If it is set again, it is for a later time than
all that was due. -/
theorem InOrder.fire {rest : List (Timer (Nat × T))} (h : InOrder past s) (hs : s.Ahead)
    (hnumber : ∀ u ∈ s.timers, u.task.1 < past.length) (hne : ∀ u ∈ rest, u.task.1 ≠ t.task.1)
    (hdue : m.turn.due? = some (.timer t.owner t.task t.period)) (hfirst : s.timers = t :: rest)
    (htime : m.time = t.due) (htimers : s'.timers = renew t rest) : InOrder (m :: past) s' := by
  have ht : t ∈ s.timers := hfirst ▸ List.mem_cons_self
  have hmem : ∀ u ∈ rest, u ∈ s.timers := fun u hu => hfirst ▸ List.mem_cons_of_mem t hu
  have hpops : pops (m :: past) = rank past t :: pops past := by
    rw [pops]
    simp only [hdue, htime, rank]
  have hfires : ∀ n, m.fires n = decide (t.task.1 = n) := fires_of_timer hdue
  have hset : since t.task.1 (m :: past) = past.length :=
    since_cons_of_set (Or.inr ((hfires _).trans (decide_eq_true rfl)))
  have hsame : ∀ u ∈ rest, rank (m :: past) u = rank past u := fun u hu =>
    rank_cons (hnumber u (hmem u hu)) ((hfires _).trans (decide_eq_false (hne u hu).symm))
  obtain ⟨hlater, hrest⟩ := List.pairwise_cons.mp (hfirst ▸ h.timers)
  replace hrest : rest.Pairwise fun u v => Before (rank (m :: past) u) (rank (m :: past) v) :=
    hrest.imp_of_mem fun hu hv hbefore => by rwa [hsame _ hu, hsame _ hv]
  refine ⟨?_, ?_, fun a ha u hu => ?_⟩
  · rw [hpops]
    exact List.pairwise_cons.mpr ⟨fun a ha => h.ahead a ha t ht, h.popped⟩
  · rw [htimers]
    unfold renew
    split
    · refine ranked_insertTimer (List.pairwise_cons.mp (hfirst ▸ hs.sorted)).2 hrest fun u hu => ?_
      rw [hset, show since u.task.1 (m :: past) = since u.task.1 past from
        congrArg Prod.snd (hsame u hu)]
      exact since_lt (hnumber u (hmem u hu))
    · exact hrest
  · have hle : a.1 ≤ t.due := by
      rcases List.mem_cons.mp (hpops ▸ ha) with rfl | ha
      · exact Span.le_refl _
      · exact (h.ahead a ha t ht).le
    rcases mem_renew (htimers ▸ hu) with ⟨next, hnext, rfl⟩ | hu
    · exact Or.inl (Nat.lt_of_le_of_lt hle (lt_of_renewed (hs.periods t ht) hnext))
    · rw [hsame u hu]
      rcases List.mem_cons.mp (hpops ▸ ha) with rfl | ha
      · exact hlater u hu
      · exact h.ahead a ha u (hmem u hu)

/-- The frame clock ticks after all that was due, and before all timers. -/
theorem InOrder.tick {tasks : List (Lease × (Nat × T))} {interval : Span} (h : InOrder past s)
    (hs : s.Ahead) (hnumber : ∀ u ∈ s.timers, u.task.1 < past.length)
    (hpopped : ∀ a ∈ pops past, a.1 ≤ m.time ∧ a.2 < past.length)
    (hdue : m.turn.due? = some (.frame tasks interval))
    (hfirst : ∀ t, s.timers.head? = some t → m.time < t.due) (htimers : s'.timers = s.timers) :
    InOrder (m :: past) s' := by
  have hpops : pops (m :: past) = (m.time, past.length) :: pops past := by
    rw [pops]
    simp only [hdue]
  have hsame : ∀ u ∈ s.timers, rank (m :: past) u = rank past u := fun u hu =>
    rank_cons (hnumber u hu) (fires_of_frame hdue _)
  refine ⟨?_, ?_, fun a ha u hu => ?_⟩
  · rw [hpops]
    refine List.pairwise_cons.mpr ⟨fun a ha => ?_, h.popped⟩
    exact .of_le (hpopped a ha).1 (hpopped a ha).2
  · rw [htimers]
    exact h.timers.imp_of_mem fun hu hv hbefore => by rwa [hsame _ hu, hsame _ hv]
  · rw [htimers] at hu
    rw [hsame u hu]
    rcases List.mem_cons.mp (hpops ▸ ha) with rfl | ha
    · exact Or.inl (hs.lt_of_head hfirst u hu)
    · exact h.ahead a ha u hu

theorem Course.inOrder (h : Course frameInterval past s) (hn : Numbered past) :
    InOrder past s := by
  induction h with
  | new => exact ⟨.nil, .nil, nofun⟩
  | @turn past s s' turn h takes ih =>
    have ih := ih hn.tail
    have hnumber := h.number_lt hn.tail
    cases takes.shifts with
    | set sets due drops now timers =>
      exact ih.set h hnumber due ((hn [] _ past rfl).1 _ sets) now timers
    | fire sets due drops first time timers =>
      exact ih.fire h.ahead hnumber (h.number_ne hn.tail first) due first time timers
    | tick sets due drops first timers =>
      refine ih.tick h.ahead hnumber (fun a ha => ?_) due first timers
      obtain ⟨htime, hlt⟩ := h.pops_le ha
      exact ⟨Span.le_trans htime (takes.now_le h.ahead), hlt⟩
    | keep sets due timers => exact ih.quiet due hnumber (timers ▸ List.filter_sublist)

/-! ### Frame tasks -/

/-- The frame tasks are in the order in which they were set. -/
theorem Course.frames_inOrder (h : Course frameInterval past s) (hn : Numbered past) :
    s.frames.Pairwise fun f g => f.2.1 < g.2.1 := by
  induction h with
  | new => exact .nil
  | @turn past s s' turn h takes ih =>
    rw [takes.frames_eq]
    refine List.pairwise_append.mpr ⟨(ih hn.tail).filter _, ?_, fun f hf g hg => ?_⟩
    · cases turn.adds? <;> simp
    · obtain ⟨later, m, earlier, rfl, hadds, -⟩ := h.mem_frames.mp (List.mem_filter.mp hf).1
      have hf := (hn.tail later m earlier rfl).2 f hadds
      have hg := (hn [] _ _ rfl).2 g (Option.mem_toList.mp hg)
      rw [hf, hg, List.length_append, List.length_cons]
      omega

/-! ### Exactness -/

/-- What is due at a time is first of all that stands: the first timer, if no tick is before it,
or a tick with the frame tasks that there are, if it is before all timers. -/
def IsFirst (s : Timeline T) (time : Span) : Due T → Prop
  | .timer owner task period => (∀ tick, s.nextFrame = some tick → time ≤ tick) ∧
      ∃ rest, s.timers = ⟨time, owner, period, task⟩ :: rest
  | .frame tasks interval => s.nextFrame = some time ∧ (∀ t ∈ s.timers, time < t.due) ∧
      tasks = s.frames ∧ interval = s.frameInterval

/-- What a numbered course has come to. -/
structure Exact (past : List (Moment (Nat × T))) (s : Timeline (Nat × T)) : Prop where
  /-- Each task has the number of the turn that set it. -/
  numbered : Numbered past
  /-- The clock never goes back. -/
  clock : (past.Pairwise fun m earlier => earlier.time ≤ m.time) ∧ ∀ m ∈ past, m.time ≤ s.now
  /-- Nothing is due before the clock. -/
  ahead : s.Ahead
  /-- What is due comes at its time, which is up to the horizon, and before all else. -/
  first : ∀ horizon due s', s.popDue horizon = some (due, s') →
    s'.now ≤ horizon ∧ s.IsFirst s'.now due
  /-- Each timer was due at its first times, and stands for the next unless it was dropped. -/
  timers : ∀ later m earlier t, past = later ++ m :: earlier → m.sets? = some t →
    t.task.1 = earlier.length ∧ Kept t later s
  /-- All timers that stand were set. -/
  known : ∀ u ∈ s.timers, ∃ later m earlier t, past = later ++ m :: earlier ∧ m.sets? = some t ∧
    u.task = t.task
  /-- When nothing is due up to a horizon, each timer that was not dropped was due at all its times
  up to there, and all that stands is due later. -/
  done : ∀ horizon, s.popDue horizon = none →
    (∀ t ∈ s.timers, horizon < t.due) ∧ (∀ tick, s.nextFrame = some tick → horizon < tick) ∧
    ∀ later m earlier t, past = later ++ m :: earlier → m.sets? = some t →
      (later.any fun m => m.turn.drops t.owner t.period.isSome) = false →
      ∀ k due, t.time? k = some due → due ≤ horizon → k < (firings t.task.1 later).length
  /-- What was due, and after it what stands, is in order. -/
  order : InOrder past s
  /-- The frame tasks are those that were set and not dropped since, each once, in the order of the
  turns that set them. -/
  frames : (∀ f, f ∈ s.frames ↔ ∃ later m earlier, past = later ++ m :: earlier ∧
    m.turn.adds? = some f ∧ (later.any fun m => m.turn.drops f.1 true) = false) ∧
      s.frames.Pairwise fun f g => f.2.1 < g.2.1

/-- A timer that stands after its `k`th time was due at that. -/
theorem Kept.lt_of_due {horizon due : Span} {k : Nat} (h : Kept t later s)
    (hkept : (later.any fun m => m.turn.drops t.owner t.period.isSome) = false)
    (hlater : ∀ u ∈ s.timers, horizon < u.due) (hk : t.time? k = some due) (hdue : due ≤ horizon) :
    k < (firings t.task.1 later).length := by
  by_contra hnot
  obtain ⟨sooner, hsooner, hle⟩ := Timer.exists_time?_of_le hk (Nat.not_lt.mp hnot)
  have hpending := h.pending
  rw [hkept, hsooner] at hpending
  have hmem : { t with due := sooner } ∈ s.timers.filter fun u => u.task.1 = t.task.1 := by
    rw [hpending]
    exact List.mem_singleton_self _
  exact Span.not_lt.mpr (Span.le_trans hle hdue) (hlater _ (List.mem_filter.mp hmem).1)

theorem Ahead.isFirst {s s' : Timeline T} {horizon : Span} {due : Due T} (h : s.Ahead)
    (hpop : s.popDue horizon = some (due, s')) : s'.now ≤ horizon ∧ s.IsFirst s'.now due := by
  rcases popDue_first hpop with ⟨t, rest, hs, htick, hle, rfl, rfl⟩ | ⟨tick, hnext, hfirst, hle, rfl, rfl⟩
  · exact ⟨hle, htick, rest, hs⟩
  · exact ⟨hle, hnext, h.lt_of_head hfirst, rfl, rfl⟩

/-- **A timeline is exact.** Whatever its owner does with a new timeline, with each task numbered
by the turn that set it: the clock never goes back, and nothing is due before it; a timer is due
at its times and at no other, each once, up to where the course has come, unless it is dropped;
and all that is due comes in order of time, timers of the same time in the order in which they
were set, and before the frame tick of that time, which has the frame tasks that there are, in the
order in which they were set. -/
theorem Course.punctual {past : List (Moment T)} {s : Timeline T} (h : Course frameInterval past s) :
    ∃ (past' : List (Moment (Nat × T))) (s' : Timeline (Nat × T)), Course frameInterval past' s' ∧
      past'.map (Moment.map Prod.snd) = past ∧ s'.map Prod.snd = s ∧ Exact past' s' := by
  obtain ⟨past', s', hcourse, hn, hpast, hs⟩ := h.exists_numbered
  have hahead := hcourse.ahead
  refine ⟨past', s', hcourse, hpast, hs, hn, hcourse.clock, hahead,
    fun _ _ _ => hahead.isFirst, fun later m earlier t heq hsets =>
      ⟨(hn later m earlier heq).1 t hsets, hcourse.kept hn heq hsets⟩, hcourse.known hn,
    fun horizon hnone => ?_, hcourse.inOrder hn, fun f => hcourse.mem_frames,
    hcourse.frames_inOrder hn⟩
  obtain ⟨htimers, hticks⟩ := hahead.lt_of_popDue_eq_none hnone
  refine ⟨htimers, hticks, fun later m earlier t heq hsets hkept k due hk hdue => ?_⟩
  exact (hcourse.kept hn heq hsets).lt_of_due hkept htimers hk hdue

/-- An interval and a timeout are due at the same time. The timeout comes first, as the interval
was set again after it. The frame clock has ticked in between, with its tasks in the order in which
they were set, but for the one that was cancelled. -/
theorem punctual_pair :
    let two : Span := ⟨2, by decide⟩
    let three : Span := ⟨3, by decide⟩
    let four : Span := ⟨4, by decide⟩
    let past : List (Moment String) := [
      ⟨.pop four (some (.timer ⟨1, 0⟩ "once" none)), four⟩,
      ⟨.pop four (some (.frame [(⟨2, 0⟩, "left"), (⟨4, 0⟩, "right")] three)), three⟩,
      ⟨.pop four (some (.timer ⟨0, 0⟩ "again" (some two))), two⟩,
      ⟨.cancel 3, .zero⟩,
      ⟨.frame ⟨4, 0⟩ "right", .zero⟩,
      ⟨.frame ⟨3, 0⟩ "middle", .zero⟩,
      ⟨.frame ⟨2, 0⟩ "left", .zero⟩,
      ⟨.timeout ⟨1, 0⟩ four "once", .zero⟩,
      ⟨.interval ⟨0, 0⟩ two "again", .zero⟩]
    ∃ s, Course three past s ∧
      ∃ past' s', Course three past' s' ∧ past'.map (Moment.map Prod.snd) = past ∧
        s'.map Prod.snd = s ∧ Exact past' s' := by
  intro two three four past
  have hnew : Course three [] (new three : Timeline String) := .new
  have htimers := (hnew.turn (.interval ⟨0, 0⟩ two "again")).turn (.timeout ⟨1, 0⟩ four "once")
  have hframes := ((htimers.turn (.frame ⟨2, 0⟩ "left")).turn (.frame ⟨3, 0⟩ "middle")).turn
    (.frame ⟨4, 0⟩ "right")
  have hset := hframes.turn (.cancel 3)
  have hagain := hset.turn (.pop (show popDue _ four =
    some (.timer ⟨0, 0⟩ "again" (some two), _) from rfl))
  have htick := hagain.turn (.pop (show popDue _ four =
    some (.frame [(⟨2, 0⟩, "left"), (⟨4, 0⟩, "right")] three, _) from rfl))
  have honce : Course three past _ := htick.turn (.pop (show popDue _ four =
    some (.timer ⟨1, 0⟩ "once" none, _) from rfl))
  exact ⟨_, honce, honce.punctual⟩

end Timeline
end Statechart
