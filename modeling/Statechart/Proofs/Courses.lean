/-
# Courses of a timeline

A course is all that an owner does with a new timeline, turn after turn, the latest first: it
sets and cancels, asks for what is due up to any horizon, and moves the clock on when nothing is
due (`Timeline.Course`). In each turn one timer is set, or the first one is due, or the frame
clock ticks, or timers are dropped (`Timeline.Takes.shifts`).

To tell what becomes of each task, tasks are numbered by the turns that set them. This is no
loss, as a timeline does not look at its tasks (`Timeline.popDue_map`): every course is a
numbered one with the numbers taken away.

Key definitions: `Timeline.Turn`, `Timeline.Moment`, `Timeline.Takes`, `Timeline.Course`,
`Timeline.Numbered`.
Key theorems: `Timeline.Takes.shifts`, `Timeline.Course.ahead`, `Timeline.Course.clock`,
`Timeline.Course.mem_frames`, `Timeline.Course.exists_numbered`.
-/
import Statechart.Proofs.Agenda

namespace Statechart
namespace Timeline

/-! ### Courses -/

/-- What an owner does with a timeline; when it asks what is due, with the answer. -/
inductive Turn (T : Type) where
  | timeout (owner : Lease) (delay : Span) (task : T)
  | interval (owner : Lease) (period : Span) (task : T)
  | frame (owner : Lease) (task : T)
  | cancel (node : Nat)
  | clear
  | pop (horizon : Span) (due : Option (Due T))
  | settle (horizon : Span)

/-- A turn, and the time on the clock after it. -/
structure Moment (T : Type) where
  turn : Turn T
  time : Span

variable {T : Type}

/-- A turn takes a timeline to another. The clock is moved on only when nothing is due. -/
inductive Takes (s : Timeline T) : Turn T → Timeline T → Prop where
  | timeout (owner : Lease) (delay : Span) (task : T) :
    Takes s (.timeout owner delay task) (s.setTimeout owner delay task)
  | interval (owner : Lease) (period : Span) (task : T) :
    Takes s (.interval owner period task) (s.setInterval owner period task)
  | frame (owner : Lease) (task : T) : Takes s (.frame owner task) (s.addFrame owner task)
  | cancel (node : Nat) : Takes s (.cancel node) (s.cancel node)
  | clear : Takes s .clear s.clearRepeating
  | pop {horizon : Span} {due : Due T} {s' : Timeline T} (h : s.popDue horizon = some (due, s')) :
    Takes s (.pop horizon (some due)) s'
  | nothing {horizon : Span} (h : s.popDue horizon = none) : Takes s (.pop horizon none) s
  | settle {horizon : Span} (h : s.popDue horizon = none) :
    Takes s (.settle horizon) (s.settle horizon)

/-- Turns, the latest first, that a new timeline has taken. -/
inductive Course (frameInterval : Span) : List (Moment T) → Timeline T → Prop where
  | new : Course frameInterval [] (.new frameInterval)
  | turn {past : List (Moment T)} {s s' : Timeline T} {turn : Turn T}
      (h : Course frameInterval past s) (takes : Takes s turn s') :
    Course frameInterval (⟨turn, s'.now⟩ :: past) s'

/-- What was due in a turn. -/
def Turn.due? : Turn T → Option (Due T)
  | .pop _ due => due
  | _ => none

/-- The turn drops what an owner has, a repeater or a timeout: its node is cancelled, or all
repeaters are cleared. -/
def Turn.drops (owner : Lease) (repeats : Bool) : Turn T → Bool
  | .cancel node => owner.node = node
  | .clear => repeats
  | _ => false

/-- The timer that is set. -/
def Moment.sets? (m : Moment T) : Option (Timer T) :=
  match m.turn with
  | .timeout owner delay task => some ⟨m.time.add delay, owner, none, task⟩
  | .interval owner period task =>
    if period = .zero then none else some ⟨m.time.add period, owner, some period, task⟩
  | _ => none

/-- The frame task that is set. An interval of no length is one. -/
def Turn.adds? : Turn T → Option (Lease × T)
  | .frame owner task => some (owner, task)
  | .interval owner period task => if period = .zero then some (owner, task) else none
  | _ => none

/-- What a moment does to the timers: it sets one, or the first one is due, or the frame clock
ticks, or some are dropped. -/
inductive Shifts (s : Timeline T) (m : Moment T) (s' : Timeline T) : Prop where
  | set {t : Timer T} (sets : m.sets? = some t) (due : m.turn.due? = none)
    (drops : ∀ owner repeats, m.turn.drops owner repeats = false) (now : s.now ≤ t.due)
    (timers : s'.timers = insertTimer t s.timers)
  | fire {t : Timer T} {rest : List (Timer T)} (sets : m.sets? = none)
    (due : m.turn.due? = some (.timer t.owner t.task t.period))
    (drops : ∀ owner repeats, m.turn.drops owner repeats = false) (first : s.timers = t :: rest)
    (time : m.time = t.due) (timers : s'.timers = renew t rest)
  | tick {tasks : List (Lease × T)} {interval : Span} (sets : m.sets? = none)
    (due : m.turn.due? = some (.frame tasks interval))
    (drops : ∀ owner repeats, m.turn.drops owner repeats = false)
    (first : ∀ t, s.timers.head? = some t → m.time < t.due) (timers : s'.timers = s.timers)
  | keep (sets : m.sets? = none) (due : m.turn.due? = none)
    (timers : s'.timers = s.timers.filter fun t => !m.turn.drops t.owner t.period.isSome)

theorem Takes.shifts {s s' : Timeline T} {turn : Turn T} (h : Takes s turn s') :
    Shifts s ⟨turn, s'.now⟩ s' := by
  have hall : s.timers = s.timers.filter fun _ => !false := (List.filter_eq_self.mpr fun _ _ => rfl).symm
  cases h with
  | timeout owner delay task => exact .set rfl rfl (fun _ _ => rfl) (Span.le_add _ _) rfl
  | interval owner period task =>
    unfold setInterval
    split
    · rename_i hzero
      exact .keep (if_pos hzero) rfl hall
    · rename_i hperiod
      exact .set (if_neg hperiod) rfl (fun _ _ => rfl) (Span.le_add _ _) rfl
  | frame owner task => exact .keep rfl rfl hall
  | cancel node =>
    refine .keep rfl rfl (List.filter_congr fun t _ => ?_)
    simp [Turn.drops]
  | clear =>
    refine .keep rfl rfl (List.filter_congr fun t _ => ?_)
    simp [Turn.drops]
  | pop h =>
    rcases popDue_first h with ⟨t, rest, hs, -, -, rfl, rfl⟩ | ⟨tick, -, hfirst, -, rfl, rfl⟩
    · exact .fire rfl rfl (fun _ _ => rfl) hs rfl rfl
    · exact .tick rfl rfl (fun _ _ => rfl) hfirst rfl
  | nothing h => exact .keep rfl rfl hall
  | settle h =>
    refine .keep rfl rfl (Eq.trans ?_ hall)
    unfold Timeline.settle
    split <;> rfl

/-- The frame tasks after a turn: those that it does not drop, and the one that it sets. -/
theorem Takes.frames_eq {s s' : Timeline T} {turn : Turn T} (h : Takes s turn s') :
    s'.frames = (s.frames.filter fun f => !turn.drops f.1 true) ++ turn.adds?.toList := by
  have hself : (s.frames.filter fun _ => true) = s.frames := List.filter_eq_self.mpr fun _ _ => rfl
  have hall : s.frames = (s.frames.filter fun _ => !false) ++ [] := by simp [hself]
  cases h with
  | timeout owner delay task => exact hall
  | interval owner period task =>
    by_cases hzero : period = .zero
    · simp [setInterval, addFrame, Turn.drops, Turn.adds?, hzero, hself]
    · simp [setInterval, Turn.drops, Turn.adds?, hzero, hself]
  | frame owner task => simp [addFrame, Turn.drops, Turn.adds?, hself]
  | cancel node =>
    simp only [Timeline.cancel, Turn.adds?, Option.toList_none, List.append_nil]
    exact List.filter_congr fun f _ => by simp [Turn.drops]
  | clear => simp [Timeline.clearRepeating, Turn.drops, Turn.adds?]
  | pop h =>
    rcases popDue_first h with ⟨t, rest, -, -, -, -, rfl⟩ | ⟨tick, -, -, -, -, rfl⟩
    · exact hall
    · exact hall
  | nothing h => exact hall
  | settle h =>
    refine Eq.trans ?_ hall
    unfold Timeline.settle
    split <;> rfl

theorem Takes.ahead {s s' : Timeline T} {turn : Turn T} (h : Takes s turn s') (hs : s.Ahead) :
    s'.Ahead := by
  cases h with
  | timeout owner delay task => exact hs.setTimeout owner delay task
  | interval owner period task => exact hs.setInterval owner period task
  | frame owner task => exact hs.addFrame owner task
  | cancel node => exact hs.cancel node
  | clear => exact hs.clearRepeating
  | pop h => exact hs.popDue h
  | nothing h => exact hs
  | settle h => exact hs.settle h

theorem Takes.now_le {s s' : Timeline T} {turn : Turn T} (h : Takes s turn s') (hs : s.Ahead) :
    s.now ≤ s'.now := by
  cases h with
  | pop h => exact hs.now_le_popDue h
  | interval owner period task => unfold setInterval; split <;> exact Span.le_refl _
  | settle h =>
    unfold Timeline.settle
    split
    · rename_i hlt
      exact Span.le_of_lt hlt
    · exact Span.le_refl _
  | _ => exact Span.le_refl _

variable {frameInterval : Span}

theorem Course.ahead {past : List (Moment T)} {s : Timeline T} (h : Course frameInterval past s) :
    s.Ahead := by
  induction h with
  | new => exact new_ahead frameInterval
  | turn _ takes ih => exact takes.ahead ih

/-- The clock never goes back. -/
theorem Course.clock {past : List (Moment T)} {s : Timeline T} (h : Course frameInterval past s) :
    (past.Pairwise fun m earlier => earlier.time ≤ m.time) ∧ ∀ m ∈ past, m.time ≤ s.now := by
  induction h with
  | new => exact ⟨.nil, nofun⟩
  | @turn past s s' turn h takes ih =>
    have hnow := takes.now_le h.ahead
    have hall : ∀ m ∈ past, m.time ≤ s'.now := fun m hm => Span.le_trans (ih.2 m hm) hnow
    refine ⟨List.pairwise_cons.mpr ⟨hall, ih.1⟩, fun m hm => ?_⟩
    rcases List.mem_cons.mp hm with rfl | hm
    · exact Span.le_refl _
    · exact hall m hm

/-- The frame tasks are those that were set and not dropped since. -/
theorem Course.mem_frames {past : List (Moment T)} {s : Timeline T}
    (h : Course frameInterval past s) {f : Lease × T} :
    f ∈ s.frames ↔ ∃ later m earlier, past = later ++ m :: earlier ∧ m.turn.adds? = some f ∧
      (later.any fun m => m.turn.drops f.1 true) = false := by
  induction h with
  | new => simp [Timeline.new]
  | @turn past s s' turn h takes ih =>
    rw [takes.frames_eq, List.mem_append, List.mem_filter, ih, Option.mem_toList]
    constructor
    · rintro (⟨⟨later, m, earlier, rfl, hadds, hkept⟩, hnow⟩ | hadds)
      · refine ⟨⟨turn, s'.now⟩ :: later, m, earlier, rfl, hadds, ?_⟩
        rw [List.any_cons, hkept, Bool.or_false]
        simpa using hnow
      · exact ⟨[], ⟨turn, s'.now⟩, past, rfl, hadds, rfl⟩
    · rintro ⟨later, m, earlier, heq, hadds, hkept⟩
      cases later with
      | nil =>
        obtain ⟨rfl, -⟩ := List.cons.inj heq
        exact Or.inr hadds
      | cons last later =>
        obtain ⟨rfl, hpast⟩ := List.cons.inj heq
        rw [List.any_cons, Bool.or_eq_false_iff] at hkept
        exact Or.inl ⟨⟨later, m, earlier, hpast, hadds, hkept.2⟩, by simpa using hkept.1⟩

end Timeline

/-! ### Numbers given and taken away -/

variable {T U : Type}

def Timer.map (f : T → U) (t : Timer T) : Timer U := ⟨t.due, t.owner, t.period, f t.task⟩

def Due.map (f : T → U) : Due T → Due U
  | timer owner task period => timer owner (f task) period
  | frame tasks interval => frame (tasks.map (Prod.map id f)) interval

namespace Timeline

/-- The timeline with something else for each task. -/
def map (f : T → U) (s : Timeline T) : Timeline U where
  now := s.now
  timers := s.timers.map (Timer.map f)
  frames := s.frames.map (Prod.map id f)
  frameInterval := s.frameInterval
  nextFrame := s.nextFrame

def Turn.map (f : T → U) : Turn T → Turn U
  | timeout owner delay task => timeout owner delay (f task)
  | interval owner period task => interval owner period (f task)
  | frame owner task => frame owner (f task)
  | cancel node => cancel node
  | clear => clear
  | pop horizon due => pop horizon (due.map (Due.map f))
  | settle horizon => settle horizon

def Moment.map (f : T → U) (m : Moment T) : Moment U := ⟨m.turn.map f, m.time⟩

variable (f : T → U) (s : Timeline T) (owner : Lease)

theorem insertTimer_map (t : Timer T) (us : List (Timer T)) :
    (insertTimer t us).map (Timer.map f) = insertTimer (t.map f) (us.map (Timer.map f)) := by
  induction us with
  | nil => rfl
  | cons u us ih =>
    rw [List.map_cons]
    unfold insertTimer
    show _ = if t.due < u.due then _ else _
    split
    · rfl
    · rw [List.map_cons, ih]

theorem map_setTimeout (delay : Span) (task : T) :
    (s.setTimeout owner delay task).map f = (s.map f).setTimeout owner delay (f task) := by
  simp only [setTimeout, map, insertTimer_map]
  rfl

theorem map_addFrame (task : T) :
    (s.addFrame owner task).map f = (s.map f).addFrame owner (f task) := by
  simp [addFrame, map]

theorem map_setInterval (period : Span) (task : T) :
    (s.setInterval owner period task).map f = (s.map f).setInterval owner period (f task) := by
  unfold setInterval
  split
  · exact map_addFrame f s owner task
  · simp only [map, insertTimer_map]
    rfl

theorem map_cancel (node : Nat) : (s.cancel node).map f = (s.map f).cancel node := by
  simp only [cancel, map, List.filter_map, List.isEmpty_map]
  rfl

theorem map_clearRepeating : s.clearRepeating.map f = (s.map f).clearRepeating := by
  simp only [clearRepeating, map, List.filter_map]
  rfl

theorem map_settle (horizon : Span) : (s.settle horizon).map f = (s.map f).settle horizon := by
  unfold settle
  show _ = if s.now < horizon then _ else _
  split <;> rfl

theorem renew_map (t : Timer T) (rest : List (Timer T)) :
    (renew t rest).map (Timer.map f) = renew (t.map f) (rest.map (Timer.map f)) := by
  have hnext : (t.map f).period.bind (t.map f).due.add? = t.period.bind t.due.add? := rfl
  unfold renew
  rw [hnext]
  cases t.period.bind t.due.add? with
  | none => rfl
  | some due => exact insertTimer_map f { t with due } rest

/-- What is due does not depend on the tasks. -/
theorem popDue_map (horizon : Span) :
    (s.map f).popDue horizon = (s.popDue horizon).map (Prod.map (Due.map f) (map f)) := by
  have htimer : ∀ t rest, (s.map f).popTimer (t.map f) (rest.map (Timer.map f)) horizon =
      (s.popTimer t rest horizon).map (Prod.map (Due.map f) (map f)) := by
    intro t rest
    show (if horizon < t.due then none else some (Due.map f (.timer t.owner t.task t.period),
      (⟨t.due, renew (t.map f) (rest.map (Timer.map f)), (s.map f).frames, s.frameInterval,
        s.nextFrame⟩ : Timeline U))) = _
    rw [← renew_map]
    unfold popTimer
    split <;> rfl
  have hframe : ∀ tick, (s.map f).popFrame tick horizon =
      (s.popFrame tick horizon).map (Prod.map (Due.map f) (map f)) := by
    intro tick
    unfold popFrame
    split <;> rfl
  have htimers : (s.map f).timers = s.timers.map (Timer.map f) := rfl
  have hnext : (s.map f).nextFrame = s.nextFrame := rfl
  unfold popDue
  rw [htimers, hnext]
  cases s.timers with
  | nil =>
    cases s.nextFrame with
    | none => rfl
    | some tick => exact hframe tick
  | cons t rest =>
    cases s.nextFrame with
    | none => exact htimer t rest
    | some tick =>
      show (if t.due ≤ tick then _ else _) = (if t.due ≤ tick then _ else _ : Option _).map _
      split
      · exact htimer t rest
      · exact hframe tick

/-- Each task has as its number that of the turns before the one that set it. -/
def Numbered (past : List (Moment (Nat × T))) : Prop :=
  ∀ later m earlier, past = later ++ m :: earlier →
    (∀ t, m.sets? = some t → t.task.1 = earlier.length) ∧
      ∀ f, m.turn.adds? = some f → f.2.1 = earlier.length

theorem Numbered.tail {m : Moment (Nat × T)} {past : List (Moment (Nat × T))}
    (h : Numbered (m :: past)) : Numbered past := fun later m' earlier heq =>
  h (m :: later) m' earlier (heq ▸ rfl)

variable {frameInterval : Span}

/-- Whatever a timeline without numbers takes, a numbered one does, with a number of choice for
what is set. -/
theorem Takes.exists_numbered {s : Timeline (Nat × T)} {turn : Turn T} {u : Timeline T}
    (h : Takes (s.map Prod.snd) turn u) (n : Nat) :
    ∃ turn' s', Takes s turn' s' ∧ turn'.map Prod.snd = turn ∧ s'.map Prod.snd = u ∧
      (∀ t, Moment.sets? ⟨turn', s'.now⟩ = some t → t.task.1 = n) ∧
        ∀ f, turn'.adds? = some f → f.2.1 = n := by
  cases h with
  | timeout owner delay task =>
    refine ⟨_, _, .timeout owner delay (n, task), rfl, map_setTimeout .., ?_, nofun⟩
    rintro t ⟨⟩
    rfl
  | interval owner period task =>
    refine ⟨_, _, .interval owner period (n, task), rfl, map_setInterval .., fun t ht => ?_,
      fun f hf => ?_⟩
    · simp only [Moment.sets?] at ht
      split at ht <;> cases ht
      rfl
    · simp only [Turn.adds?] at hf
      split at hf <;> cases hf
      rfl
  | frame owner task =>
    refine ⟨_, _, .frame owner (n, task), rfl, map_addFrame .., nofun, ?_⟩
    rintro f ⟨⟩
    rfl
  | cancel node => exact ⟨_, _, .cancel node, rfl, map_cancel .., nofun, nofun⟩
  | clear => exact ⟨_, _, .clear, rfl, map_clearRepeating .., nofun, nofun⟩
  | pop h =>
    rw [popDue_map] at h
    obtain ⟨⟨due, s'⟩, hpop, heq⟩ := Option.map_eq_some_iff.mp h
    cases heq
    exact ⟨_, _, .pop hpop, rfl, rfl, nofun, nofun⟩
  | nothing h =>
    rw [popDue_map] at h
    exact ⟨_, _, .nothing (Option.map_eq_none_iff.mp h), rfl, rfl, nofun, nofun⟩
  | settle h =>
    rw [popDue_map] at h
    exact ⟨_, _, .settle (Option.map_eq_none_iff.mp h), rfl, map_settle .., nofun, nofun⟩

/-- Every course is a numbered one with the numbers taken away. -/
theorem Course.exists_numbered {past : List (Moment T)} {s : Timeline T}
    (h : Course frameInterval past s) :
    ∃ (past' : List (Moment (Nat × T))) (s' : Timeline (Nat × T)), Course frameInterval past' s' ∧
      Numbered past' ∧ past'.map (Moment.map Prod.snd) = past ∧ s'.map Prod.snd = s := by
  induction h with
  | new => exact ⟨[], _, .new, by simp [Numbered], rfl, rfl⟩
  | turn h takes ih =>
    obtain ⟨past', s', hcourse, hn, rfl, rfl⟩ := ih
    obtain ⟨turn', u', htakes, rfl, rfl, hsets, hadds⟩ := takes.exists_numbered past'.length
    refine ⟨_, u', hcourse.turn htakes, fun later m earlier heq => ?_, rfl, rfl⟩
    cases later with
    | nil =>
      obtain ⟨rfl, rfl⟩ := List.cons.inj heq
      exact ⟨hsets, hadds⟩
    | cons last later => exact hn later m earlier (List.cons.inj heq).2

end Timeline
end Statechart
