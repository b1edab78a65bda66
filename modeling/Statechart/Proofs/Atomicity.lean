/-
# Chains that fail

A chain that fails contributes nothing. The chains for an event are run on one copy of the
data, and what they come to is taken over at once when all of them are done: when one fails,
also after others that did not (`Machine.TraversalFails`), the machine is as it was, but for the
event that is gone from its queue (`Machine.handle_of_fails`). Every other chain is run on a copy
of its own (`Machine.execute_of_fails`); what is done on leaving or entering a node apart from
its chain stays done.

Key definitions: `Machine.TraversalFails`, `Timeline.timeouts`.
Key theorems: `Machine.traversalFails_iff`, `Machine.handle_of_fails`, `Machine.drain_of_fails`,
`Machine.execute_of_fails`, `Machine.Reached.failing_chains_atomic`.
-/
import Statechart.Proofs.Deeds

namespace Statechart

/-- The timers that are no intervals. -/
def Timeline.timeouts {T : Type} (s : Timeline T) : List (Timer T) :=
  s.timers.filter fun t => t.period.isNone

theorem Timeline.filter_insertTimer_of_neg {T : Type} {p : Timer T → Bool} {t : Timer T}
    (ht : p t = false) (us : List (Timer T)) : (insertTimer t us).filter p = us.filter p := by
  induction us with
  | nil => simp [insertTimer, ht]
  | cons u us ih =>
    unfold insertTimer
    split
    · rw [List.filter_cons_of_neg (by simp [ht])]
    · rw [List.filter_cons, List.filter_cons, ih]

namespace Machine

variable {D : Type} {m : Machine D}

/-! ### Events -/

/-- Of chains that are run in order on one copy, some neither fail nor break off, and then one
fails. -/
inductive Fails (ctx : Context D) (err : FunctionError) :
    List (Lease × Chain) → WorkingCopy D → Prop
  | here {owner : Lease} {chain : Chain} {rest : List (Lease × Chain)} {copy : WorkingCopy D}
    (stop : (ctx.run chain copy).stop = some (.failed err)) :
    Fails ctx err ((owner, chain) :: rest) copy
  | later {owner : Lease} {chain : Chain} {rest : List (Lease × Chain)} {copy : WorkingCopy D}
    (done : ∀ e, (ctx.run chain copy).stop ≠ some (.failed e))
    (unbroken : (ctx.run chain copy).stop ≠ some .broke)
    (fails : Fails ctx err rest (ctx.run chain copy).copy) :
    Fails ctx err ((owner, chain) :: rest) copy

/-- A chain of an active node fails when the event is handled. -/
def TraversalFails (m : Machine D) (e : Event) (err : FunctionError) : Prop :=
  Fails (m.context e.payload) err (m.chainsFor e.name) { base := m.data }

theorem failure?_eq_some_iff {r : Run D} {err : FunctionError} :
    failure? r = some err ↔ r.stop = some (.failed err) := by
  unfold failure?
  split
  · rename_i e h
    rw [h]
    simp
  · rename_i h
    exact ⟨nofun, fun hstop => absurd hstop (h err)⟩

theorem findSome?_failure?_of_fails {ctx : Context D} {err : FunctionError}
    {chains : List (Lease × Chain)} {copy : WorkingCopy D} (h : Fails ctx err chains copy) :
    (traverse ctx chains copy).findSome? (fun r => failure? r.2) = some err := by
  induction h with
  | @here owner chain rest copy stop =>
    rw [traverse, stop, List.findSome?_cons, failure?_eq_some_iff.mpr stop]
  | @later owner chain rest copy done unbroken fails ih =>
    have hnone : failure? (ctx.run chain copy) = none :=
      Option.eq_none_iff_forall_ne_some.mpr fun e he => done e (failure?_eq_some_iff.mp he)
    rw [traverse]
    split
    · exact absurd ‹_› (done _)
    · exact absurd ‹_› unbroken
    · rw [List.findSome?_cons, hnone]
      exact ih

theorem fails_of_findSome?_failure? {ctx : Context D} {err : FunctionError} :
    ∀ {chains : List (Lease × Chain)} {copy : WorkingCopy D},
      (traverse ctx chains copy).findSome? (fun r => failure? r.2) = some err →
        Fails ctx err chains copy
  | (owner, chain) :: rest, copy, h => by
    rw [traverse] at h
    split at h
    · rename_i e hstop
      rw [List.findSome?_cons, failure?_eq_some_iff.mpr hstop] at h
      cases h
      exact .here hstop
    · rename_i hstop
      rw [List.findSome?_cons, failure?, hstop] at h
      cases h
    · rename_i hdone hunbroken
      have hnone : failure? (ctx.run chain copy) = none :=
        Option.eq_none_iff_forall_ne_some.mpr fun e he => hdone e (failure?_eq_some_iff.mp he)
      rw [List.findSome?_cons, hnone] at h
      exact .later hdone hunbroken (fails_of_findSome?_failure? h)

/-- The first failure among the runs is that of the chain that fails. -/
theorem traversalFails_iff {e : Event} {err : FunctionError} :
    m.TraversalFails e err ↔ (m.runsFor e).findSome? (fun r => failure? r.2) = some err :=
  ⟨findSome?_failure?_of_fails, fails_of_findSome?_failure?⟩

/-- An event that fails changes nothing. -/
theorem handle_of_fails {e : Event} {err : FunctionError} (h : m.TraversalFails e err)
    (budget : Nat) :
    m.handle budget e = (m.note (.handled e), budget, some (.eval e.name err)) := by
  rw [handle_eq_follow, answer, traversalFails_iff.mp h]
  rfl

/-- An event that fails goes from the queue, and the draining goes on. -/
theorem drain_of_fails {e : Event} {rest : List Event} {err : FunctionError}
    (hqueue : m.queue = e :: rest) (h : m.TraversalFails e err) (first : Option MachineError)
    (events budget : Nat) :
    m.drain first (events + 1) budget =
      ({ m with queue := rest }.note (.handled e)).flush.drain
        (first.or (some (.eval e.name err))) events budget := by
  have hfails : ({ m with queue := rest } : Machine D).TraversalFails e err := h
  rw [drain, hqueue]
  dsimp only
  rw [handle_of_fails hfails]

/-- To a machine at rest nothing happens when an event is sent that fails. -/
theorem send_of_fails (hm : m.AtRest) (hmax : 0 < m.settings.maxTransitions) {e : Event}
    {err : FunctionError} (h : m.TraversalFails e err) :
    m.send e = ({ m with journal := .handled e :: .queued e :: m.journal },
      some (.eval e.name err)) := by
  obtain ⟨events, hevents⟩ : ∃ events, m.settings.maxTransitions = events + 1 :=
    ⟨m.settings.maxTransitions - 1, by omega⟩
  have hqueue : (m.enqueue e).queue = [e] := by
    show m.queue ++ [e] = [e]
    rw [hm.queue, List.nil_append]
  have hfails : (m.enqueue e).TraversalFails e err := h
  have hrest : (({ m.enqueue e with queue := [] }).note (.handled e)).AtRest :=
    ⟨rfl, hm.owed, hm.snapshot⟩
  calc m.send e
    _ = (m.enqueue e).drain none (events + 1) (events + 1) := by
      rw [← hevents]
      rfl
    _ = (({ m.enqueue e with queue := [] }).note (.handled e)).finish (events + 1)
          (some (.eval e.name err)) := by
      rw [drain_of_fails hqueue hfails, flush_of_atRest hrest, finish_of_atRest hrest, drain]
      rfl
    _ = (({ m.enqueue e with queue := [] }).note (.handled e), some (.eval e.name err)) :=
      finish_of_atRest hrest _ _
    _ = ({ m with journal := .handled e :: .queued e :: m.journal }, some (.eval e.name err)) := by
      show ({ m with queue := [], journal := .handled e :: .queued e :: m.journal }, _) = _
      rw [← hm.queue]

/-! ### Single chains -/

/-- The chain fails when it is run from a result, for a payload and on the data as they are. -/
def ChainFails (m : Machine D) (payload : Json) (chain : Chain) (result : Json)
    (err : FunctionError) : Prop :=
  ((m.context payload).run chain { base := m.data } result).stop = some (.failed err)

/-- A chain that fails leaves nothing but a note that it was run. -/
theorem execute_of_fails (index : Nat) (role : Role) {payload : Json} (event : String)
    (run : Context D → WorkingCopy D → Run D) {err : FunctionError}
    (h : (run (m.context payload) { base := m.data }).stop = some (.failed err)) :
    m.execute index role payload event run =
      (m.note (.ran (m.tree.lease index) role m.timeline.now), .error (.eval event err)) := by
  rw [execute, h]

theorem executeChain_of_fails {index : Nat} {role : Role} {payload : Json} {chain : Chain}
    {err : FunctionError} (h : m.ChainFails payload chain .null err) (event : String) :
    m.executeChain index role payload event (some chain) =
      (m.note (.ran (m.tree.lease index) role m.timeline.now), .error (.eval event err)) :=
  execute_of_fails index role event (fun ctx copy => ctx.run chain copy) h

/-- When the exit chain of a node fails, its timers and operations are gone, and that is all. -/
theorem leave_of_fails {n : Node} {chain : Chain} (hchain : n.handlers.onExit = some chain)
    {payload : Json} {err : FunctionError} (h : m.ChainFails payload chain .null err)
    (event : String) :
    m.leave payload event n = ({ m with
        timeline := m.timeline.cancel n.index
        jobs := m.jobs.filter fun job => job.owner.node ≠ n.index
        journal := .ran (m.tree.lease n.index) .exit m.timeline.now :: m.journal },
      .error (.eval event err)) := by
  let m' : Machine D := { m with
    timeline := m.timeline.cancel n.index
    jobs := m.jobs.filter fun job => job.owner.node ≠ n.index }
  have hfails : m'.ChainFails payload chain .null err := h
  rw [leave, hchain]
  exact executeChain_of_fails hfails event

theorem timeouts_startRepeater (payload : Json) (owner : Lease) (r : Option Repeater) :
    (m.startRepeater payload owner r).timeline.timeouts = m.timeline.timeouts := by
  cases r with
  | none => rfl
  | some r =>
    unfold startRepeater
    dsimp only [note]
    split
    · rfl
    · unfold Timeline.setInterval
      split
      · rfl
      · exact Timeline.filter_insertTimer_of_neg rfl m.timeline.timers

/-- When the entry chain of a node fails, its repeater has been started, and that is all. -/
theorem enter_of_fails {n : Node} {chain : Chain} (hchain : n.handlers.onEnter = some chain)
    {payload : Json} {err : FunctionError} (h : m.ChainFails payload chain .null err)
    (event : String) : ∃ timeline journal,
      m.enter payload event n = ({ m with timeline, journal }, .error (.eval event err)) ∧
        timeline.timeouts = m.timeline.timeouts := by
  have htimeouts := timeouts_startRepeater (m := m) payload (m.tree.lease n.index) n.handlers.repeater
  obtain ⟨timeline, journal, hstart⟩ : ∃ timeline journal,
      m.startRepeater payload (m.tree.lease n.index) n.handlers.repeater =
        { m with timeline, journal } := by
    cases n.handlers.repeater with
    | none => exact ⟨_, _, rfl⟩
    | some r => exact ⟨_, _, rfl⟩
  rw [hstart] at htimeouts
  have hfails : ({ m with timeline, journal } : Machine D).ChainFails payload chain .null err := h
  refine ⟨timeline, .ran (m.tree.lease n.index) .enter timeline.now :: journal, ?_, htimeouts⟩
  rw [enter, hstart, hchain, executeChain_of_fails hfails]
  rfl

theorem fire_resume_of_fails {owner : Lease} (hcurrent : m.tree.isCurrent owner = true)
    {rest : Continuation} {payload : Json} {err : FunctionError}
    (h : ((m.context payload).resume rest { base := m.data }).stop = some (.failed err))
    (budget : Nat) (interval : Span) :
    m.fire budget owner (.resume rest payload) interval =
      (m.note (.ran owner .resume m.timeline.now), budget, some (.eval "wait" err)) := by
  have hrun := execute_of_fails (m := m) owner.node .resume "wait"
    (fun ctx copy => ctx.resume rest copy) h
  rw [Tree.lease_eq_of_isCurrent hcurrent] at hrun
  rw [fire, hcurrent, if_neg (by simp), hrun]

theorem fire_repeating_of_fails {owner : Lease} (hcurrent : m.tree.isCurrent owner = true)
    {chain : Chain} {started interval : Span} {err : FunctionError}
    (h : m.ChainFails (repeatPayload interval (m.timeline.now.sub started)) chain .null err)
    (budget : Nat) :
    m.fire budget owner (.repeating chain started) interval =
      (m.note (.ran owner (.repeating interval (m.timeline.now.sub started)) m.timeline.now),
        budget, some (.eval "repeat" err)) := by
  have hrun := execute_of_fails (m := m) owner.node
    (.repeating interval (m.timeline.now.sub started)) "repeat"
    (fun ctx copy => ctx.run chain copy) h
  rw [Tree.lease_eq_of_isCurrent hcurrent] at hrun
  rw [fire, hcurrent, if_neg (by simp)]
  dsimp only
  rw [hrun]

/-- The chain for a settlement, and the result that it starts from. -/
def settlementChain (job : Job) : Settlement → Option Chain × Json
  | .resolved value => (some job.awaiting.onResolve, value)
  | .rejected reason => (job.awaiting.onReject, reason)

theorem settle_of_fails {job : Job} (hcurrent : m.tree.isCurrent job.owner = true)
    {s : Settlement} {chain : Chain} {result : Json}
    (hchain : settlementChain job s = (some chain, result)) {err : FunctionError}
    (h : m.ChainFails job.payload chain result err) :
    m.settle job s = (m.note (.ran job.owner .settlement m.timeline.now),
      m.settings.maxTransitions, some (.eval "async" err)) := by
  have hrun := execute_of_fails (m := m) job.owner.node .settlement "async"
    (fun ctx copy => Context.run ctx chain copy result) h
  rw [Tree.lease_eq_of_isCurrent hcurrent] at hrun
  cases s with
  | resolved value =>
    cases hchain
    rw [settle, hrun]
  | rejected reason =>
    obtain ⟨hreject, rfl⟩ := Prod.mk.inj hchain
    rw [settle]
    dsimp only
    rw [hreject]
    dsimp only
    rw [hrun]

/-! ### Machines of a design -/

variable {design : Design D} {settings : Settings} {fresh : String}

/-- **Atomicity.** Let a chain fail when an event is handled, after any others that did not.
Then the event is gone from the queue, the journal says that it was handled, and nothing else
has changed; so sending such an event to a machine at rest changes nothing, and gives the
failure. When an exit chain fails, or an entry chain, the rest of a waiting chain, the chain of
a repeater or that for a settlement, it adds nothing to the data, the queue, the timeouts or
what is owed: of leaving a node its timers and operations are gone, of entering one the repeater
is there, and otherwise all is as it was. -/
theorem Reached.failing_chains_atomic (h : Reached design settings fresh m) :
    (∀ e err, 0 < settings.maxTransitions → m.TraversalFails e err →
      m.send e = ({ m with journal := .handled e :: .queued e :: m.journal },
        some (.eval e.name err))) ∧
    ∀ m₁ : Machine D,
      (∀ e rest err, m₁.queue = e :: rest → m₁.TraversalFails e err → ∀ first events budget,
        { m₁ with queue := rest }.handle budget e =
          ({ m₁ with queue := rest, journal := .handled e :: m₁.journal }, budget,
            some (.eval e.name err)) ∧
        m₁.drain first (events + 1) budget =
          ({ m₁ with queue := rest, journal := .handled e :: m₁.journal } : Machine D).flush.drain
            (first.or (some (.eval e.name err))) events budget) ∧
      (∀ n chain payload event err, n.handlers.onExit = some chain →
        m₁.ChainFails payload chain .null err →
          m₁.leave payload event n = ({ m₁ with
              timeline := m₁.timeline.cancel n.index
              jobs := m₁.jobs.filter fun job => job.owner.node ≠ n.index
              journal := .ran (m₁.tree.lease n.index) .exit m₁.timeline.now :: m₁.journal },
            .error (.eval event err))) ∧
      (∀ n chain payload event err, n.handlers.onEnter = some chain →
        m₁.ChainFails payload chain .null err → ∃ timeline journal,
          m₁.enter payload event n = ({ m₁ with timeline, journal }, .error (.eval event err)) ∧
            timeline.timeouts = m₁.timeline.timeouts) ∧
      (∀ owner rest payload err, m₁.tree.isCurrent owner = true →
        ((m₁.context payload).resume rest { base := m₁.data }).stop = some (.failed err) →
          ∀ budget interval, m₁.fire budget owner (.resume rest payload) interval =
            ({ m₁ with journal := .ran owner .resume m₁.timeline.now :: m₁.journal }, budget,
              some (.eval "wait" err))) ∧
      (∀ owner chain started interval err, m₁.tree.isCurrent owner = true →
        m₁.ChainFails (repeatPayload interval (m₁.timeline.now.sub started)) chain .null err →
          ∀ budget, m₁.fire budget owner (.repeating chain started) interval =
            (m₁.note (.ran owner (.repeating interval (m₁.timeline.now.sub started))
              m₁.timeline.now), budget, some (.eval "repeat" err))) ∧
      ∀ job s chain result err, m₁.tree.isCurrent job.owner = true →
        settlementChain job s = (some chain, result) → m₁.ChainFails job.payload chain result err →
          m₁.settle job s = ({ m₁ with
              journal := .ran job.owner .settlement m₁.timeline.now :: m₁.journal },
            m₁.settings.maxTransitions, some (.eval "async" err)) := by
  refine ⟨fun e err hmax hfails => ?_, fun m₁ => ⟨fun e rest err hqueue hfails first events budget =>
    ⟨?_, ?_⟩, ?_, ?_, ?_, ?_, ?_⟩⟩
  · obtain ⟨c, tree, hc, -⟩ := h.arises
    have hsettings : m.settings = settings := (h.arises.compiled hc).2.1
    exact send_of_fails h.atRest (hsettings ▸ hmax) hfails
  · exact handle_of_fails (m := { m₁ with queue := rest }) hfails budget
  · exact drain_of_fails hqueue hfails first events budget
  · exact fun n chain payload event err hchain hfails => leave_of_fails hchain hfails event
  · exact fun n chain payload event err hchain hfails => enter_of_fails hchain hfails event
  · exact fun owner rest payload err hcurrent hfails => fire_resume_of_fails hcurrent hfails
  · exact fun owner chain started interval err hcurrent hfails =>
      fire_repeating_of_fails hcurrent hfails
  · exact fun job s chain result err hcurrent hchain hfails => settle_of_fails hcurrent hchain hfails

end Machine

/-- A press. When it is pressed it counts and says that it is done, and then it jams. -/
def Design.press : Design Nat where
  id := none
  data := 0
  host := .empty
  root := .mk
    { initial := some (.child "ready")
      on := [("PRESS", .one (.handler
        { actions := [.inline fun n _ _ => (n + 1, none)], send := some ⟨"DONE", .null⟩ } none none))] }
    [("ready", .mk { on := [("PRESS", .many [
      .action (.inline fun n _ _ => (n + 1, none)),
      .action (.inline fun n _ _ => (n + 1, some "jammed"))])] } [])]

namespace Machine

/-- The press is pressed: neither what the root counted and sent is there, nor what the chain
that failed counted before it did. -/
theorem failing_chains_atomic_press :
    ∃ m, Reached Design.press {} "m" m ∧
      m.TraversalFails ⟨"PRESS", .null⟩ ⟨.action, "<inline action>", "jammed"⟩ ∧
      ((m.runsFor ⟨"PRESS", .null⟩).map fun r => r.2.copy.value) = [1, 3] ∧
      m.send ⟨"PRESS", .null⟩ =
        ({ m with journal := .handled ⟨"PRESS", .null⟩ :: .queued ⟨"PRESS", .null⟩ :: m.journal },
          some (.eval "PRESS" ⟨.action, "<inline action>", "jammed"⟩)) ∧
      (m.send ⟨"PRESS", .null⟩).1.data = 0 := by
  obtain ⟨m, hcreate, hfails, hruns, hdata⟩ : ∃ m, create Design.press {} "m" = .ok m ∧
      (m.runsFor ⟨"PRESS", .null⟩).findSome? (fun r => failure? r.2) =
        some ⟨.action, "<inline action>", "jammed"⟩ ∧
      ((m.runsFor ⟨"PRESS", .null⟩).map fun r => r.2.copy.value) = [1, 3] ∧ m.data = 0 :=
    ⟨_, rfl, by decide +kernel, by decide +kernel, by decide +kernel⟩
  have hreached : Reached Design.press {} "m" m := .of_create hcreate
  have htraversal := traversalFails_iff.mpr hfails
  have hsend := hreached.failing_chains_atomic.1 _ _ (by decide) htraversal
  exact ⟨m, hreached, htraversal, hruns, hsend, by rw [hsend]; exact hdata⟩

end Machine
end Statechart
