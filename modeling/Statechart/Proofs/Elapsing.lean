/-
# Time passes in parts

What is due up to a horizon is done in order of time, and each thing that comes due is the
same whichever horizon it is asked up to, and wherever the clock stands
(`Timeline.popDue_mono`, `Timeline.popDue_settle`). So to do all that is due up to a horizon,
and then all up to a later one, is to do all up to the later one (`Machine.popAll_trans`,
`Machine.popAll_split`), and a machine without operations, which has nothing to ask when the
clock has come to a horizon, moves on by a sum as it does by one part and then the other.

Key definitions: `Design.Unawaiting`, `Machine.Idle`, `Machine.elapse`.
Key theorems: `Machine.popAll_trans`, `Machine.popAll_split`, `Machine.elapse_trans_iff`,
`Machine.Reached.advance_add_iff`.
-/
import Statechart.Proofs.Deeds
import Statechart.Proofs.Origins

namespace Statechart

/-! ### Clocks -/

namespace Span

theorem add_assoc (a b c : Span) : (a.add b).add c = a.add (b.add c) := by
  apply ext_nanos
  simp only [nanos_add]
  omega

end Span

namespace Timeline

variable {T : Type} {s : Timeline T} {horizon later : Span}

/-- What is due up to a horizon is due first up to a later one. -/
theorem popDue_mono (h : horizon ≤ later) {r : Due T × Timeline T}
    (hr : s.popDue horizon = some r) : s.popDue later = some r := by
  have reach : ∀ {time : Span}, ¬ horizon < time → ¬ later < time := fun htime =>
    Span.not_lt.mpr (Span.le_trans (Span.not_lt.mp htime) h)
  have timer : ∀ t rest, s.popTimer t rest horizon = some r → s.popTimer t rest later = some r := by
    intro t rest ht
    unfold popTimer at ht ⊢
    split at ht
    · cases ht
    · rename_i hdue
      rw [if_neg (reach hdue)]
      exact ht
  have frame : ∀ tick, s.popFrame tick horizon = some r → s.popFrame tick later = some r := by
    intro tick hf
    unfold popFrame at hf ⊢
    split at hf
    · cases hf
    · rename_i hdue
      rw [if_neg (reach hdue)]
      exact hf
  unfold popDue at hr ⊢
  split at hr
  · cases hr
  · exact frame _ hr
  · exact timer _ _ hr
  · split at hr <;> rename_i hle
    · rw [if_pos hle]
      exact timer _ _ hr
    · rw [if_neg hle]
      exact frame _ hr

/-- What is due does not depend on where the clock stands. -/
theorem popDue_settle (s : Timeline T) (horizon later : Span) :
    (s.settle horizon).popDue later = s.popDue later := by
  unfold settle
  split <;> rfl

theorem settle_settle (s : Timeline T) (h : horizon ≤ later) :
    (s.settle horizon).settle later = s.settle later := by
  unfold settle
  by_cases hnow : s.now < horizon
  · have hlater : s.now < later := Nat.lt_of_lt_of_le hnow h
    rw [if_pos hnow, if_pos hlater]
    by_cases heq : horizon < later
    · rw [if_pos heq]
    · rw [if_neg heq, Span.le_antisymm h (Span.not_lt.mp heq)]
  · rw [if_neg hnow]

theorem now_settle (h : s.now ≤ horizon) : (s.settle horizon).now = horizon := by
  unfold settle
  split
  · rfl
  · rename_i hnow
    exact Span.le_antisymm h (Span.not_lt.mp hnow)

end Timeline

namespace Machine

variable {D : Type} {m : Machine D} {horizon later : Span}

/-! ### Doing all that is due -/

/-- The clock is moved on to a horizon when nothing more is due. -/
def windTo (horizon : Span) (m : Machine D) : Machine D :=
  { m with timeline := m.timeline.settle horizon }

theorem popStep_mono (h : horizon ≤ later) {r : Machine D × Option MachineError}
    (hr : m.popStep horizon = some r) : m.popStep later = some r := by
  unfold popStep at hr ⊢
  split at hr
  · cases hr
  · rename_i hpop
    rw [Timeline.popDue_mono h hpop]
    exact hr

theorem popStep_windTo (m : Machine D) (horizon later : Span) :
    (m.windTo horizon).popStep later = m.popStep later := by
  unfold popStep
  rw [show (m.windTo horizon).timeline.popDue later = m.timeline.popDue later from
    Timeline.popDue_settle m.timeline horizon later]
  rfl

/-- A failure from before comes before those that come up. -/
theorem popAll_or (first : Option MachineError) (limit : Nat) (m : Machine D) :
    popAll horizon limit first m =
      (popAll horizon limit none m).map fun r => (r.1, first.or r.2) := by
  induction limit generalizing first m with
  | zero =>
    unfold popAll
    split
    · simp
    · rfl
  | succ limit ih =>
    unfold popAll
    split
    · simp
    · rename_i m' failure _
      dsimp only
      rw [ih (first.or failure), ih (none.or failure), Option.map_map]
      refine congrArg (Option.map · _) (funext fun r => ?_)
      simp [Option.or_assoc]

/-- To do all that is due up to a horizon, and then up to a later one, is to do all that is
due up to the later one. -/
theorem popAll_trans (h : horizon ≤ later) {n k : Nat} {first e₁ : Option MachineError}
    {m₁ : Machine D} {r : Machine D × Option MachineError}
    (h₁ : popAll horizon n first m = some (m₁, e₁)) (h₂ : popAll later k e₁ m₁ = some r) :
    popAll later (n + k) first m = some r := by
  induction n generalizing first m with
  | zero =>
    unfold popAll at h₁
    split at h₁
    · cases h₁
      exact popAll_mono (Nat.le_add_left k 0) h₂
    · cases h₁
  | succ n ih =>
    unfold popAll at h₁
    split at h₁
    · cases h₁
      exact popAll_mono (by omega) h₂
    · rename_i m' failure hpop
      rw [show n + 1 + k = n + k + 1 by omega, popAll, popStep_mono h hpop]
      exact ih h₁

/-- Who does all that is due up to a horizon has done all up to an earlier one on the way. -/
theorem popAll_split (h : horizon ≤ later) {n : Nat} {first : Option MachineError}
    {r : Machine D × Option MachineError} (hr : popAll later n first m = some r) :
    ∃ m₁ e₁, popAll horizon n first m = some (m₁, e₁) ∧ popAll later n e₁ m₁ = some r := by
  induction n generalizing first m with
  | zero =>
    have hstep : m.popStep later = none := by
      unfold popAll at hr
      split at hr
      · assumption
      · cases hr
    have hnone : m.popStep horizon = none := by
      by_contra hsome
      obtain ⟨r', hr'⟩ := Option.ne_none_iff_exists'.mp hsome
      rw [popStep_mono h hr'] at hstep
      cases hstep
    exact ⟨m, first, by rw [popAll, hnone], hr⟩
  | succ n ih =>
    cases hpop : m.popStep horizon with
    | none => exact ⟨m, first, by rw [popAll, hpop], hr⟩
    | some r' =>
      obtain ⟨m', failure⟩ := r'
      rw [popAll, popStep_mono h hpop] at hr
      obtain ⟨m₁, e₁, h₁, h₂⟩ := ih hr
      exact ⟨m₁, e₁, by rw [popAll, hpop]; exact h₁, popAll_mono (Nat.le_succ n) h₂⟩

/-! ### Time that passes -/

/-- All that is due up to a horizon is done, and the clock comes to it. -/
def elapse (horizon : Span) (limit : Nat) (m : Machine D) : Option (Machine D × Option MachineError) :=
  (popAll horizon limit none m).map fun r => (r.1.windTo horizon, r.2)

/-- Where the clock stands when time begins to pass makes no difference. -/
theorem elapse_windTo (h : horizon ≤ later) (limit : Nat) (m : Machine D) :
    (m.windTo horizon).elapse later limit = m.elapse later limit := by
  have hwind : (m.windTo horizon).windTo later = m.windTo later := by
    show { m with timeline := (m.timeline.settle horizon).settle later } = _
    rw [Timeline.settle_settle m.timeline h]
    rfl
  unfold elapse
  cases limit <;> unfold popAll <;> rw [popStep_windTo] <;> split <;> simp [hwind]

theorem elapse_eq_some_iff {limit : Nat} {r : Machine D × Option MachineError} :
    m.elapse horizon limit = some r ↔
      ∃ m', popAll horizon limit none m = some (m', r.2) ∧ m'.windTo horizon = r.1 := by
  unfold elapse
  rw [Option.map_eq_some_iff]
  constructor
  · rintro ⟨⟨m', e⟩, hall, rfl⟩
    exact ⟨m', hall, rfl⟩
  · rintro ⟨m', hall, hwind⟩
    exact ⟨_, hall, Prod.ext hwind rfl⟩

/-- Time passes up to a horizon as it does up to an earlier one and then from there. -/
theorem elapse_trans_iff (h : horizon ≤ later) {m' : Machine D} {e : Option MachineError} :
    (∃ n, m.elapse later n = some (m', e)) ↔
      ∃ n₁ n₂ m₁ e₁ e₂, m.elapse horizon n₁ = some (m₁, e₁) ∧
        m₁.elapse later n₂ = some (m', e₂) ∧ e = e₁.or e₂ := by
  constructor
  · rintro ⟨n, hn⟩
    obtain ⟨m₂, hall, hwind⟩ := elapse_eq_some_iff.mp hn
    obtain ⟨m₁, e₁, hfirst, hthen⟩ := popAll_split h hall
    rw [popAll_or] at hthen
    obtain ⟨⟨m₃, e₂⟩, hsecond, heq⟩ := Option.map_eq_some_iff.mp hthen
    obtain ⟨rfl, rfl⟩ := Prod.mk.inj heq
    refine ⟨n, n, m₁.windTo horizon, e₁, e₂, ?_, ?_, rfl⟩
    · exact elapse_eq_some_iff.mpr ⟨m₁, hfirst, rfl⟩
    · rw [elapse_windTo h]
      exact elapse_eq_some_iff.mpr ⟨_, hsecond, hwind⟩
  · rintro ⟨n₁, n₂, m₁, e₁, e₂, hfirst, hsecond, rfl⟩
    obtain ⟨m₀, hfirst, rfl⟩ := elapse_eq_some_iff.mp hfirst
    rw [elapse_windTo h] at hsecond
    obtain ⟨m₂, hsecond, hwind⟩ := elapse_eq_some_iff.mp hsecond
    have hsecond' : popAll later n₂ e₁ m₀ = some (m₂, e₁.or e₂) := by
      rw [popAll_or, hsecond]
      rfl
    exact ⟨n₁ + n₂, elapse_eq_some_iff.mpr ⟨m₂, popAll_trans h hfirst hsecond', hwind⟩⟩

/-! ### The clock -/

theorem Chore.now_eq {m m' : Machine D} (h : Chore m m') : m'.timeline.now = m.timeline.now := by
  cases h with
  | startRepeater payload index r =>
    cases r with
    | none => rfl
    | some r =>
      unfold Machine.startRepeater
      dsimp only [note]
      split
      · rfl
      · unfold Timeline.setInterval
        split <;> rfl
  | launch payload index a => cases a <;> rfl
  | _ => rfl

theorem Acts.now_eq {m m' : Machine D} (h : Acts m m') : m'.timeline.now = m.timeline.now := by
  induction h with
  | refl => rfl
  | tail _ hstep ih =>
    rw [← ih]
    cases hstep with
    | chore h => exact h.now_eq
    | fall => rfl
    | move => rfl

/-- The clock stands still in a deed. -/
theorem Deed.now_eq {m m' : Machine D} (h : Deed m m') (hm : m.Faithful) :
    m'.timeline.now = m.timeline.now := by
  cases h with
  | @answer e rest queue =>
    exact (answer_chores (m := { m with queue := rest }) hm.wellFormed e).acts.now_eq
  | move mem recalls payload event => exact (move_acts mem recalls payload event).now_eq
  | work current kind due payload event run =>
    exact (work_chores current kind due payload event run).acts.now_eq
  | flush =>
    obtain ⟨owed, journal, heq⟩ := flush_eq m
    rw [heq]
  | _ => rfl

theorem Deeds.now_eq {m m' : Machine D} (h : Deeds m m') (hm : m.Faithful) :
    m'.timeline.now = m.timeline.now := by
  induction h with
  | refl => rfl
  | tail hdeeds hdeed ih => exact (hdeed.now_eq ((Deeds.changes hdeeds hm).faithful hm)).trans ih

/-- The clock does not pass the horizon. -/
theorem popAll_now_le {n : Nat} {first : Option MachineError} {r : Machine D × Option MachineError}
    (h : popAll horizon n first m = some r) (hm : m.Faithful) (hnow : m.timeline.now ≤ horizon) :
    r.1.timeline.now ≤ horizon := by
  induction n generalizing first m with
  | zero =>
    unfold popAll at h
    split at h
    · cases h
      exact hnow
    · cases h
  | succ n ih =>
    unfold popAll at h
    split at h
    · cases h
      exact hnow
    · rename_i m' failure hpop
      obtain ⟨due, timeline, hdue, hdeeds⟩ := popStep_deeds hpop hm
      have htaken : ({ m with timeline } : Machine D).Faithful := (Change.pop hdue).faithful hm
      refine ih h ((hdeeds.changes htaken).faithful htaken) ?_
      rw [hdeeds.now_eq htaken]
      exact Timeline.popDue_now_le hdue

theorem elapse_now {n : Nat} {r : Machine D × Option MachineError}
    (h : m.elapse horizon n = some r) (hm : m.Faithful) (hnow : m.timeline.now ≤ horizon) :
    r.1.timeline.now = horizon := by
  obtain ⟨m', hall, hwind⟩ := elapse_eq_some_iff.mp h
  rw [← hwind]
  exact Timeline.now_settle (popAll_now_le hall hm hnow)

end Machine

/-! ### Designs without operations -/

/-- No state of the design has an operation. -/
def Design.Unawaiting {D : Type} (d : Design D) : Prop :=
  ∀ s : Definition.State D, s.Within d.root → s.body.awaiting = none

namespace Machine

variable {D : Type} {m : Machine D}

/-- No operation is pending, and none will be. -/
structure Idle (m : Machine D) : Prop where
  jobs : m.jobs = []
  nodes : ∀ u ∈ m.tree.plain.preorder, u.node.handlers.awaiting = none

theorem executeChain_jobs (m : Machine D) (index : Nat) (role : Role) (payload : Json)
    (event : String) (chain : Option Chain) :
    (m.executeChain index role payload event chain).1.jobs = m.jobs := by
  obtain ⟨data, owed, queue, timeline, journal, heq⟩ :=
    executeChain_eq m index role payload event chain
  rw [heq]

/-- To leave a node drops its operations. -/
theorem leave_jobs (m : Machine D) (payload : Json) (event : String) (n : Node) :
    (m.leave payload event n).1.jobs = m.jobs.filter fun job => job.owner.node ≠ n.index :=
  executeChain_jobs _ _ _ _ _ _

/-- To enter a node without an operation launches none. -/
theorem enter_jobs {n : Node} (h : n.handlers.awaiting = none) (m : Machine D) (payload : Json)
    (event : String) : (m.enter payload event n).1.jobs = m.jobs := by
  have hstart : (m.startRepeater payload (m.tree.lease n.index) n.handlers.repeater).jobs = m.jobs := by
    cases n.handlers.repeater <;> rfl
  have hchain := executeChain_jobs
    (m.startRepeater payload (m.tree.lease n.index) n.handlers.repeater) n.index .enter payload
    event n.handlers.onEnter
  unfold enter
  dsimp only
  split <;> rename_i heq <;> rw [heq] at hchain
  · exact hchain.trans hstart
  · rw [h]
    exact hchain.trans hstart

theorem Idle.awaiting_eq_none (hm : m.Idle) {tree u : Tree} (hplain : tree.plain = m.tree.plain)
    (hu : u ∈ tree.activeNodes) : u.node.handlers.awaiting = none := by
  have hmem : u.plain ∈ m.tree.plain.preorder := by
    rw [← hplain]
    exact Tree.mem_preorder_mapActivity.mpr ⟨u, (Tree.mem_activeNodes hu).1, rfl⟩
  simpa using hm.nodes _ hmem

theorem forNodes_enter_jobs {ns : List Node} (hns : ∀ n ∈ ns, n.handlers.awaiting = none)
    {payload : Json} {event : String} {r : Machine D × Except MachineError (List Request)}
    (h : forNodes (enter payload event) ns m = r) (hm : m.jobs = []) : r.1.jobs = [] :=
  forNodes_keeps (P := fun m => m.jobs = []) h
    (fun n hn m hjobs => (enter_jobs (hns n hn) m payload event).trans hjobs) hm

theorem Passage.jobs {target : Tree} {recalls : Recall} {payload : Json} {event : String}
    {r : Machine D × Except MachineError (List Request)}
    (h : Passage m target recalls payload event r) (hm : m.Idle) : r.1.jobs = [] := by
  have hleave : ∀ {tree : Tree} {r : Machine D × Except MachineError (List Request)},
      forNodes (leave payload event) (m.leaves tree).reverse (m.arrive target recalls tree) = r →
        r.1.jobs = [] := fun h =>
    forNodes_keeps (P := fun m => m.jobs = []) h
      (fun n _ m hjobs => by rw [leave_jobs, hjobs, List.filter_nil]) hm.jobs
  -- The nodes to enter are nodes of the tree, of which none has an operation.
  have henters : ∀ {tree : Tree}, m.activates target recalls payload = (tree, none) →
      ∀ n ∈ m.enters tree, n.handlers.awaiting = none := by
    intro tree h n hn
    obtain ⟨u, hu, rfl⟩ := List.mem_map.mp (List.mem_filter.mp hn).1
    have hplain : (m.activates target recalls payload).1.plain = m.tree.plain :=
      (Tree.activate_rel m.tree _).plain_eq
    rw [h] at hplain
    exact hm.awaiting_eq_none hplain hu
  cases h with
  | fallen => exact hm.jobs
  | leaving _ left => exact hleave left
  | entering activation left entered =>
    exact forNodes_enter_jobs (henters activation) entered (hleave left)
  | done activation left entered =>
    have hjobs := forNodes_enter_jobs (henters activation) entered (hleave left)
    exact hjobs

theorem Deed.idle {m m' : Machine D} (h : Deed m m') (hfaithful : m.Faithful) (hm : m.Idle) :
    m'.Idle := by
  refine ⟨?_, fun u hu => hm.nodes u ((h.changes hfaithful).plain_eq ▸ hu)⟩
  cases h with
  | receive => exact hm.jobs
  | @answer e rest queue =>
    obtain ⟨data, owed, queue, timeline, journal, heq⟩ := answer_eq { m with queue := rest } e
    rw [heq]
    exact hm.jobs
  | drop => exact hm.jobs
  | move mem recalls payload event => exact (move_passage m _ recalls payload event).jobs hm
  | @work owner role work current kind due payload event run =>
    obtain ⟨data, owed, queue, timeline, journal, heq⟩ :=
      execute_eq m owner.node role payload event run
    rw [heq]
    exact hm.jobs
  | flush =>
    obtain ⟨owed, journal, heq⟩ := flush_eq m
    rw [heq]
    exact hm.jobs
  | poll gates =>
    unfold Machine.poll
    rw [hm.jobs]
    rfl

theorem Deeds.idle {m m' : Machine D} (h : Deeds m m') (hfaithful : m.Faithful) (hm : m.Idle) :
    m'.Idle := by
  induction h with
  | refl => exact hm
  | tail hdeeds hdeed ih => exact hdeed.idle ((Deeds.changes hdeeds hfaithful).faithful hfaithful) ih

theorem Step.idle {m m' : Machine D} (h : Step m m') (hfaithful : m.Faithful) (hm : m.Idle) :
    m'.Idle := by
  cases h with
  | send e => exact (send_deeds m e).idle hfaithful hm
  | pop h =>
    obtain ⟨due, timeline, hpop, hdeeds⟩ := popStep_deeds h hfaithful
    exact hdeeds.idle ((Change.pop hpop).faithful hfaithful) ⟨hm.jobs, hm.nodes⟩
  | settle done => exact ⟨hm.jobs, hm.nodes⟩
  | poll gates => exact (pollOperations_deeds gates hfaithful).idle hfaithful hm
  | subscribe => exact ⟨hm.jobs, hm.nodes⟩
  | unsubscribe s =>
    unfold Machine.unsubscribe
    dsimp only
    split <;> exact ⟨hm.jobs, hm.nodes⟩

/-- A machine at rest without operations has none to ask. -/
theorem pollOperations_of_jobs_eq_nil (hm : m.AtRest) (hjobs : m.jobs = []) (gates : Gates) :
    m.pollOperations gates = (m, none) := by
  have hpoll : m.poll gates = (m, []) := by
    unfold poll
    rw [hjobs]
    show ({ m with jobs := [] }, []) = _
    rw [← hjobs]
  obtain ⟨rounds, hrounds⟩ : ∃ rounds, max m.settings.maxTransitions 1 = rounds + 1 :=
    ⟨max m.settings.maxTransitions 1 - 1, by omega⟩
  have hsettle : settleRounds gates (max m.settings.maxTransitions 1) none m = (m, none) := by
    rw [hrounds, settleRounds, hpoll]
  unfold pollOperations
  rw [hsettle]
  dsimp only
  rw [flush_of_atRest hm]

/-! ### Machines of a design -/

variable {design : Design D} {settings : Settings} {fresh : String}

theorem Reached.idle (h : Reached design settings fresh m) (hdesign : design.Unawaiting) :
    m.Idle := by
  obtain ⟨m₀, hcreate, hsteps⟩ := h
  obtain ⟨c, tree, m₁, requests, hc, htree, henter, hdeeds⟩ := create_deeds hcreate
  have hnodes := Tree.awaiting_of_compile hc hdesign
  have hplain : (begin design settings c tree).tree.plain = c.tree := plain_begin hc htree
  have hbegin : (begin design settings c tree).Faithful := faithful_begin hc htree
  have hchores := started_chores henter
  have hstarted : m₁.Faithful := hchores.acts.faithful hbegin
  have hfirst : (begin design settings c tree).Idle := ⟨rfl, hplain ▸ hnodes⟩
  have hidle : m₁.Idle := by
    refine ⟨forNodes_enter_jobs (fun n hn => ?_) henter rfl, fun u hu => hnodes u ?_⟩
    · obtain ⟨u, hu, rfl⟩ := List.mem_map.mp hn
      exact hfirst.awaiting_eq_none rfl hu
    · rwa [hchores.tree_eq, hplain] at hu
  have hcreated := hdeeds.idle hstarted hidle
  have hfaithful := (hdeeds.changes hstarted).faithful hstarted
  induction hsteps with
  | refl => exact hcreated
  | tail hbefore hstep ih =>
    exact hstep.idle ((Steps.changes hbefore hfaithful).faithful hfaithful) ih

/-- An advance of a machine without operations lets the time pass, and that is all. -/
theorem Reached.advance_eq (h : Reached design settings fresh m) (hdesign : design.Unawaiting)
    (limit : Nat) (gates : Gates) (by_ : Span) :
    m.advance limit gates by_ = m.elapse (m.timeline.now.add by_) limit := by
  unfold advance elapse
  dsimp only
  split
  · rename_i hnone
    rw [hnone]
    rfl
  · rename_i m' first hall
    obtain ⟨hsteps, hdone⟩ := popAll_steps hall
    have hreached : Reached design settings fresh (m'.windTo (m.timeline.now.add by_)) :=
      h.steps (hsteps.tail (.settle hdone))
    have hpoll := pollOperations_of_jobs_eq_nil hreached.atRest (hreached.idle hdesign).jobs gates
    rw [hall, show { m' with timeline := m'.timeline.settle (m.timeline.now.add by_) } =
      m'.windTo (m.timeline.now.add by_) from rfl, hpoll]
    simp

/-- **Time can be split freely.** In a machine of a design without operations, an advance by a
sum comes to its end just when an advance by the one part does and then one by the other, and
leaves the machine as these two do, with all that it did on the way; its failure is the first
of theirs. -/
theorem Reached.advance_add_iff (h : Reached design settings fresh m)
    (hdesign : design.Unawaiting) (gates gates₁ gates₂ : Gates) (a b : Span) (m' : Machine D)
    (e : Option MachineError) :
    (∃ n, m.advance n gates (a.add b) = some (m', e)) ↔
      ∃ n₁ n₂ m₁ e₁ e₂, m.advance n₁ gates₁ a = some (m₁, e₁) ∧
        m₁.advance n₂ gates₂ b = some (m', e₂) ∧ e = e₁.or e₂ := by
  have hle : m.timeline.now.add a ≤ m.timeline.now.add (a.add b) := by
    rw [← Span.add_assoc]
    exact Span.le_add _ b
  -- After the first part the clock is at its end, so that both parts end where the sum does.
  have hsecond : ∀ {n₁ m₁ e₁}, m.elapse (m.timeline.now.add a) n₁ = some (m₁, e₁) → ∀ n₂,
      m₁.advance n₂ gates₂ b = m₁.elapse (m.timeline.now.add (a.add b)) n₂ := by
    intro n₁ m₁ e₁ h₁ n₂
    have hnow : m₁.timeline.now = m.timeline.now.add a :=
      elapse_now h₁ h.arises.faithful (Span.le_add _ a)
    have hadvance : m.advance n₁ gates₁ a = some (m₁, e₁) := by
      rw [h.advance_eq hdesign, h₁]
    have hreached : Reached design settings fresh m₁ := h.steps (advance_steps hadvance)
    rw [hreached.advance_eq hdesign, hnow, Span.add_assoc]
  simp only [h.advance_eq hdesign]
  rw [elapse_trans_iff hle]
  constructor
  · rintro ⟨n₁, n₂, m₁, e₁, e₂, h₁, h₂, he⟩
    exact ⟨n₁, n₂, m₁, e₁, e₂, h₁, (hsecond h₁ n₂).trans h₂, he⟩
  · rintro ⟨n₁, n₂, m₁, e₁, e₂, h₁, h₂, he⟩
    exact ⟨n₁, n₂, m₁, e₁, e₂, h₁, (hsecond h₁ n₂).symm.trans h₂, he⟩

end Machine

/-- A pulse. It counts every frame up to two, and then it jams. -/
def Design.pulse : Design Nat where
  id := none
  data := 0
  host := .empty
  root := .mk
    { repeater := some ⟨.one (.action (.inline fun n _ _ =>
        (n + 1, if n < 2 then none else some "jammed"))), none⟩ } []

namespace Machine

/-- The pulse goes on by three frames and then by two. In the first of these the second failure
is yet to come. -/
theorem advance_add_pulse :
    let frame : Span := ⟨16667000, by decide⟩
    let two := frame.add frame
    let three := two.add frame
    let jammed : MachineError := .eval "repeat" ⟨.action, "<inline action>", "jammed"⟩
    ∃ m m' : Machine Nat, Reached Design.pulse {} "m" m ∧
      m.advance 9 [] (two.add three) = some (m', some jammed) ∧ m'.data = 2 ∧
      ∃ n₁ n₂ m₁ e₁ e₂, m.advance n₁ [] two = some (m₁, e₁) ∧
        m₁.advance n₂ [] three = some (m', e₂) ∧ e₁.or e₂ = some jammed := by
  intro frame two three jammed
  obtain ⟨m, hcreate, hrun⟩ : ∃ m, create Design.pulse {} "m" = .ok m ∧
      (m.advance 9 [] (two.add three)).map (fun r => (r.2, r.1.data)) = some (some jammed, 2) :=
    ⟨_, rfl, by decide +kernel⟩
  obtain ⟨⟨m', e⟩, hadvance, heq⟩ := Option.map_eq_some_iff.mp hrun
  obtain ⟨rfl, hdata⟩ := Prod.mk.inj heq
  have hreached : Reached Design.pulse {} "m" m := .of_create hcreate
  have hdesign : Design.pulse.Unawaiting := by
    rintro s (_ | ⟨mem, _⟩)
    · rfl
    · cases mem
  obtain ⟨n₁, n₂, m₁, e₁, e₂, h₁, h₂, he⟩ :=
    (hreached.advance_add_iff hdesign [] [] [] two three m' (some jammed)).mp
      ⟨9, hadvance⟩
  exact ⟨m, m', hreached, hadvance, hdata, n₁, n₂, m₁, e₁, e₂, h₁, h₂, he.symm⟩

end Machine
end Statechart
