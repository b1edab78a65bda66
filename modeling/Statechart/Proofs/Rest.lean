/-
# Machines at rest

Between its operations a machine is at rest (`Machine.AtRest`): its queue is empty, no
notification is owed, and the snapshot shows the machine as it is. Handling an event ends
with a flush, so that draining the queue leaves a machine at rest if it was up to date when
the draining began (`Machine.drain_atRest`); what is done before an event is handled is
flushed first, or, for the operations that settle and for the start, in the end.

Key definitions: `Machine.AtRest`.
Key theorems: `Machine.drain_atRest`, `Machine.Step.atRest`, `Machine.Reached.atRest`,
`Machine.Reached.mirrored`.
-/
import Statechart.Proofs.Configurations

namespace Statechart
namespace Machine

variable {D : Type}

/-- No event waits, nothing is owed, and the snapshot is up to date. -/
structure AtRest (m : Machine D) : Prop where
  queue : m.queue = []
  owed : m.owed = false
  snapshot : m.snapshot = m.view

/-! ### Flushing -/

theorem notes_view (m : Machine D) (ss : List Nat) (e : Machine D → Nat → Happening D) :
    (ss.foldl (fun m s => m.note (e m s)) m).view = m.view := by
  induction ss generalizing m with
  | nil => rfl
  | cons s ss ih =>
    rw [List.foldl_cons, ih]
    rfl

theorem notes_queue (m : Machine D) (ss : List Nat) (e : Machine D → Nat → Happening D) :
    (ss.foldl (fun m s => m.note (e m s)) m).queue = m.queue := by
  induction ss generalizing m with
  | nil => rfl
  | cons s ss ih =>
    rw [List.foldl_cons, ih]
    rfl

@[simp] theorem flush_view (m : Machine D) : m.flush.view = m.view := by
  unfold flush
  dsimp only
  split
  · rw [notes_view]
    rfl
  · rfl

@[simp] theorem flush_queue (m : Machine D) : m.flush.queue = m.queue := by
  unfold flush
  dsimp only
  split
  · rw [notes_queue]
  · rfl

theorem flush_atRest {m : Machine D} (h : m.queue = []) : m.flush.AtRest where
  queue := (flush_queue m).trans h
  owed := flush_owed m
  snapshot := (flush_snapshot m).trans (flush_view m).symm

/-! ### Draining -/

/-- Draining ends at rest, if the machine was up to date before. -/
theorem drain_atRest (first : Option MachineError) (events budget : Nat) {m : Machine D}
    (owed : m.owed = false) (snapshot : m.snapshot = m.view) :
    (m.drain first events budget).1.AtRest := by
  induction events generalizing first budget m with
  | zero =>
    unfold drain
    split
    · rename_i hqueue
      exact ⟨hqueue, owed, snapshot⟩
    · exact ⟨rfl, owed, snapshot⟩
  | succ events ih =>
    unfold drain
    split
    · rename_i hqueue
      exact ⟨hqueue, owed, snapshot⟩
    · exact ih _ _ (flush_owed _) ((flush_snapshot _).trans (flush_view _).symm)

/-- At rest there is nothing to show, and nothing to drain. -/
theorem flush_of_atRest {m : Machine D} (h : m.AtRest) : m.flush = m := by
  unfold flush
  dsimp only
  rw [if_neg (by rw [h.owed]; exact Bool.false_ne_true), ← h.snapshot]

theorem finish_of_atRest {m : Machine D} (h : m.AtRest) (budget : Nat) (first : Option MachineError) :
    m.finish budget first = (m, first) := by
  unfold finish drain
  rw [h.queue]

theorem settleAll_queue (first : Option MachineError) (settled : List (Job × Settlement))
    {m : Machine D} (h : m.queue = []) : (settleAll first settled m).1.queue = [] := by
  induction settled generalizing first m with
  | nil => exact h
  | cons p rest ih =>
    unfold settleAll
    split
    · exact ih first h
    · exact ih _ ((flush_queue _).trans (drain_queue _ _ _ _))

theorem settleRounds_queue (gates : Gates) (rounds : Nat) (first : Option MachineError)
    {m : Machine D} (h : m.queue = []) : (settleRounds gates rounds first m).1.queue = [] := by
  induction rounds generalizing first m with
  | zero => exact h
  | succ rounds ih =>
    have hpoll : (m.poll gates).1.queue = [] := h
    unfold settleRounds
    split
    · rename_i heq
      rw [heq] at hpoll
      exact hpoll
    · rename_i heq
      rw [heq] at hpoll
      exact ih _ (settleAll_queue first _ hpoll)

/-! ### Steps -/

theorem create_atRest {design : Design D} {settings : Settings} {fresh : String} {m : Machine D}
    (h : create design settings fresh = .ok m) : m.AtRest := by
  unfold create at h
  split at h
  · cases h
  · unfold start at h
    dsimp only at h
    split at h
    · cases h
    · split at h
      · cases h
      · split at h
        · cases h
        · rename_i m' hfinish
          cases h
          have hqueue : m'.queue = [] := congrArg (·.1.queue) hfinish ▸ drain_queue _ _ _ _
          exact flush_atRest hqueue

theorem Step.atRest {m m' : Machine D} (h : Step m m') (hm : m.AtRest) : m'.AtRest := by
  cases h with
  | send e => exact drain_atRest (m := m.enqueue e) none _ _ hm.owed hm.snapshot
  | @pop _ _ failure h =>
    have hdone : ∀ {r : Machine D × Option MachineError},
        some r = some (m', failure) → r.1.AtRest → m'.AtRest := by
      rintro _ ⟨⟩ h
      exact h
    unfold popStep at h
    split at h
    · cases h
    · refine hdone h (drain_atRest _ _ _ (flush_owed _) ?_)
      exact (flush_snapshot _).trans (flush_view _).symm
  | settle done => exact ⟨hm.queue, hm.owed, hm.snapshot⟩
  | poll gates => exact flush_atRest (settleRounds_queue gates _ none hm.queue)
  | subscribe => exact ⟨hm.queue, hm.owed, hm.snapshot⟩
  | unsubscribe s =>
    unfold Machine.unsubscribe
    dsimp only
    split <;> exact ⟨hm.queue, hm.owed, hm.snapshot⟩

theorem Steps.atRest {m m' : Machine D} (h : Steps m m') (hm : m.AtRest) : m'.AtRest := by
  induction h with
  | refl => exact hm
  | tail _ hstep ih => exact hstep.atRest ih

/-! ### Machines of a design -/

variable {design : Design D} {settings : Settings} {fresh : String} {m : Machine D}

theorem Reached.atRest (h : Reached design settings fresh m) : m.AtRest := by
  obtain ⟨m₀, hcreate, hsteps⟩ := h
  exact hsteps.atRest (create_atRest hcreate)

/-- **Rest.** After its creation and after every operation, failed or not and under any
settings, no event waits in the queue of a machine, no notification is owed, and its snapshot
shows the data, the active nodes in pre-order, and each value of the host for the data. -/
theorem Reached.mirrored (h : Reached design settings fresh m) :
    m.queue = [] ∧ m.owed = false ∧ m.snapshot.id = m.id ∧ m.snapshot.data = m.data ∧
      m.snapshot.active = (m.tree.preorder.filter Tree.isActive).map (·.node.path) ∧
      m.snapshot.values = design.host.values.map fun v => (v.1, v.2 m.data) := by
  obtain ⟨hqueue, howed, hsnapshot⟩ := h.atRest
  obtain ⟨c, tree, hc, -⟩ := h.arises
  have htable : m.table = c.table := (h.arises.compiled hc).2.2.1
  have hvalues : c.table.values = design.host.values := by
    rw [(Design.compile_eq_ok_iff.mp hc).2]
    rfl
  refine ⟨hqueue, howed, ?_, ?_, ?_, ?_⟩
  · rw [hsnapshot]
    rfl
  · rw [hsnapshot]
    rfl
  · rw [hsnapshot, ← h.arises.orderly.2.activeNodes_eq]
    rfl
  · rw [hsnapshot, ← hvalues, ← htable]
    rfl

end Machine

/-- A meter that counts, and shows twice its count. -/
def Design.meter : Design Nat where
  id := none
  data := 0
  host := ⟨fun _ => [], [("double", fun n => .int (2 * n))]⟩
  root := .mk
    { on := [
        ("ADD", .one (.action (.inline fun n _ _ => (n + 1, none)))),
        ("JAM", .many [.action (.inline fun n _ _ => (n + 1, none)),
          .action (.inline fun n _ _ => (n, some "jammed"))])] }
    []

namespace Machine

/-- The meter counts once and jams, and shows what it counted. -/
theorem mirrored_meter :
    ∃ m, Reached Design.meter { maxTransitions := 1 } "m" m ∧
      (m.send ⟨"JAM", .null⟩).2 = some (.eval "JAM" ⟨.action, "<inline action>", "jammed"⟩) ∧
      (m.send ⟨"JAM", .null⟩).1.queue = [] ∧ (m.send ⟨"JAM", .null⟩).1.owed = false ∧
      (m.send ⟨"JAM", .null⟩).1.snapshot.data = 1 ∧
      (m.send ⟨"JAM", .null⟩).1.snapshot.values = [("double", .int 2)] := by
  obtain ⟨m, hcreate, hfailure, hcount⟩ :
      ∃ m, create Design.meter { maxTransitions := 1 } "m" = .ok m ∧
        ((m.send ⟨"ADD", .null⟩).1.send ⟨"JAM", .null⟩).2 =
          some (.eval "JAM" ⟨.action, "<inline action>", "jammed"⟩) ∧
        ((m.send ⟨"ADD", .null⟩).1.send ⟨"JAM", .null⟩).1.data = 1 :=
    ⟨_, rfl, by decide +kernel, by decide +kernel⟩
  have hadd : Reached Design.meter { maxTransitions := 1 } "m" (m.send ⟨"ADD", .null⟩).1 :=
    (Reached.of_create hcreate).steps (.single (.send m _))
  obtain ⟨hqueue, howed, -, hdata, -, hvalues⟩ :=
    (hadd.steps (.single (.send _ ⟨"JAM", .null⟩))).mirrored
  rw [hcount] at hdata hvalues
  exact ⟨_, hadd, hfailure, hqueue, howed, hdata, hvalues⟩

end Machine
end Statechart
