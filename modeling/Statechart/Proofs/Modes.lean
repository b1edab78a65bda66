/-
# Modes

The mode of a machine decides which of the errors that are come upon are reported, and nothing
else. All that a machine does but make requests and drain its queue does not look at the mode, so
it commutes with changing it (`Machine.inMode`, `Machine.move_inMode`, `Machine.answer_inMode`).
Requests and events do look at it, where an error of the structure is come upon: then what a step
comes to may differ. A step that comes upon none (`Machine.Calm`) takes the same way in every mode
(`Machine.Bout.inMode`), by induction on the recursion of the step, as the errors that are left are
reported in every mode. So it comes to the same machine but for the mode, and to the same failure
(`Machine.Calm.run_inMode`). In production no step fails with an error of the structure, calm or
not (`Machine.not_isStructural_of_run`).

Key definitions: `Machine.inMode`, `Machine.NoneStructural`, `Machine.Calm`.
Key theorems: `Machine.move_inMode`, `Machine.TransitsAll.inMode`, `Machine.Bout.inMode`,
`Machine.Calm.run_inMode`, `Machine.calm_of_run`, `Machine.not_isStructural_of_run`.
-/
import Statechart.Proofs.LoopGuards
namespace Statechart
variable {D : Type}
namespace Machine

/-- The machine in a mode. -/
def inMode (mode : Mode) (m : Machine D) : Machine D :=
  { m with settings := { m.settings with mode } }

/-- What an operation comes to, with the machine in a mode. -/
def resultIn {α : Type} (mode : Mode) (r : Machine D × α) : Machine D × α :=
  (r.1.inMode mode, r.2)

variable {mode : Mode} {m m' : Machine D}

@[simp] theorem inMode_tree (m : Machine D) : (m.inMode mode).tree = m.tree := rfl

theorem commit_inMode (m : Machine D) (payload : Json) (runs : List (Lease × Run D)) :
    (m.inMode mode).commit payload runs = (m.commit payload runs).inMode mode := by
  let postponeAll (m : Machine D) := (waitsOf runs).foldl (fun m w => m.postpone payload w.1 w.2) m
  let enqueueAll (m : Machine D) := (runs.flatMap (·.2.sends)).foldl enqueue m
  have hwaits (m : Machine D) : postponeAll (m.inMode mode) = (postponeAll m).inMode mode :=
    List.foldl_hom (inMode mode) fun _ _ => rfl
  have hsends (m : Machine D) : enqueueAll (m.inMode mode) = (enqueueAll m).inMode mode :=
    List.foldl_hom (inMode mode) fun _ _ => rfl
  obtain ⟨taken, hcommit, hcommit'⟩ : ∃ taken,
      m.commit payload runs = enqueueAll (postponeAll taken) ∧
      (m.inMode mode).commit payload runs = enqueueAll (postponeAll (taken.inMode mode)) :=
    ⟨_, rfl, rfl⟩
  rw [hcommit, hcommit', hwaits, hsends]

theorem execute_inMode (m : Machine D) (owner : Nat) (role : Role) (payload : Json)
    (event : String) (run : Context D → WorkingCopy D → Run D) :
    (m.inMode mode).execute owner role payload event run =
      resultIn mode (m.execute owner role payload event run) := by
  have hran : (m.inMode mode).note (.ran ((m.inMode mode).tree.lease owner) role
      (m.inMode mode).timeline.now) =
    (m.note (.ran (m.tree.lease owner) role m.timeline.now)).inMode mode := rfl
  have hcontext : (m.inMode mode).context payload = m.context payload := rfl
  have hdata : (m.inMode mode).data = m.data := rfl
  unfold execute
  dsimp only
  rw [hran, hcontext, hdata, commit_inMode]
  split <;> rfl

theorem executeChain_inMode (m : Machine D) (owner : Nat) (role : Role) (payload : Json)
    (event : String) (chain : Option Chain) :
    (m.inMode mode).executeChain owner role payload event chain =
      resultIn mode (m.executeChain owner role payload event chain) := by
  cases chain with
  | none => rfl
  | some chain => exact execute_inMode m owner role payload event fun ctx copy => ctx.run chain copy

theorem leave_inMode (payload : Json) (event : String) (n : Node) (m : Machine D) :
    leave payload event n (m.inMode mode) = resultIn mode (leave payload event n m) :=
  executeChain_inMode { m with
    timeline := m.timeline.cancel n.index
    jobs := m.jobs.filter fun job => job.owner.node ≠ n.index }
    n.index .exit payload event n.handlers.onExit

theorem startRepeater_inMode (m : Machine D) (payload : Json) (owner : Lease)
    (repeater : Option Repeater) : (m.inMode mode).startRepeater payload owner repeater =
      (m.startRepeater payload owner repeater).inMode mode := by
  cases repeater <;> rfl

theorem launch_inMode (m : Machine D) (payload : Json) (owner : Lease)
    (awaiting : Option Awaiting) : (m.inMode mode).launch payload owner awaiting =
      (m.launch payload owner awaiting).inMode mode := by
  cases awaiting <;> rfl

theorem enter_inMode (payload : Json) (event : String) (n : Node) (m : Machine D) :
    enter payload event n (m.inMode mode) = resultIn mode (enter payload event n m) := by
  unfold enter
  dsimp only
  rw [inMode_tree, startRepeater_inMode, executeChain_inMode]
  obtain ⟨m₁, e | requests⟩ := (m.startRepeater payload (m.tree.lease n.index)
    n.handlers.repeater).executeChain n.index .enter payload event n.handlers.onEnter
  · rfl
  · dsimp only [resultIn]
    rw [launch_inMode]

theorem forNodes_inMode {f : Node → Machine D → Machine D × Except MachineError (List Request)}
    (hf : ∀ n m, f n (inMode mode m) = resultIn mode (f n m)) (ns : List Node) (m : Machine D) :
    forNodes f ns (m.inMode mode) = resultIn mode (forNodes f ns m) := by
  induction ns generalizing m with
  | nil => rfl
  | cons n ns ih =>
    rw [forNodes, forNodes, hf]
    obtain ⟨m₁, e | requests⟩ := f n m
    · rfl
    · dsimp only [resultIn]
      rw [ih]
      obtain ⟨m₂, e | more⟩ := forNodes f ns m₁ <;> rfl

theorem move_eq (target : Tree) (recalls : Recall) (payload : Json) (event : String)
    (m : Machine D) : m.move target recalls payload event =
      match m.activates target recalls payload with
      | (tree, some e) => ({ m with tree }.note (.reached tree), .error (.eval event e))
      | (tree, none) =>
        match forNodes (leave payload event) (m.leaves tree).reverse
          (m.arrive target recalls tree) with
        | (m₁, .error e) => (m₁, .error e)
        | (m₁, .ok requests) =>
          match forNodes (enter payload event) (m.enters tree) m₁ with
          | (m₂, .error e) => (m₂, .error e)
          | (m₂, .ok more) => (m₂, .ok (requests ++ more)) := rfl

theorem arrive_inMode (m : Machine D) (target : Tree) (recalls : Recall) (tree : Tree) :
    (m.inMode mode).arrive target recalls tree = (m.arrive target recalls tree).inMode mode := rfl

theorem move_inMode (target : Tree) (recalls : Recall) (payload : Json) (event : String)
    (m : Machine D) : (m.inMode mode).move target recalls payload event =
      resultIn mode (m.move target recalls payload event) := by
  have hactivates : (m.inMode mode).activates target recalls payload =
    m.activates target recalls payload := rfl
  rw [move_eq, move_eq, hactivates]
  obtain ⟨tree, _ | e⟩ := m.activates target recalls payload
  · have hleaves : (m.inMode mode).leaves tree = m.leaves tree := rfl
    have henters : (m.inMode mode).enters tree = m.enters tree := rfl
    dsimp only
    rw [hleaves, henters, arrive_inMode, forNodes_inMode (leave_inMode payload event)]
    obtain ⟨m₁, e | requests⟩ :=
      forNodes (leave payload event) (m.leaves tree).reverse (m.arrive target recalls tree)
    · rfl
    · dsimp only [resultIn]
      rw [forNodes_inMode (enter_inMode payload event)]
      obtain ⟨m₂, e | more⟩ := forNodes (enter payload event) (m.enters tree) m₁ <;> rfl
  · rfl

theorem answer_inMode (m : Machine D) (e : Event) :
    (m.inMode mode).answer e = resultIn mode (m.answer e) := by
  have hruns : (m.inMode mode).runsFor e = m.runsFor e := rfl
  have hnote : (m.inMode mode).note (.handled e) = (m.note (.handled e)).inMode mode := rfl
  unfold answer
  rw [hruns, hnote, commit_inMode]
  split <;> rfl

theorem attend_inMode (m : Machine D) (owner : Lease) (interval : Span) (task : Task) :
    (m.inMode mode).attend owner interval task = ((m.attend owner interval task).1,
      (m.attend owner interval task).2.1, resultIn mode (m.attend owner interval task).2.2) := by
  cases task with
  | resume rest payload =>
    dsimp only [attend]
    rw [execute_inMode]
  | repeating chain started =>
    dsimp only [attend]
    rw [execute_inMode]
    rfl

theorem settlement_inMode (m : Machine D) (job : Job) (s : Settlement) :
    (m.inMode mode).settlement job s = resultIn mode (m.settlement job s) := by
  unfold settlement
  split
  · exact execute_inMode m ..
  · split
    · rfl
    · exact execute_inMode m ..

theorem flush_inMode (m : Machine D) : (m.inMode mode).flush = m.flush.inMode mode := by
  have hnotes (m : Machine D) (ss : List Nat) :
      ss.foldl (fun m s => m.note (.notified s m.snapshot)) (m.inMode mode) =
        (ss.foldl (fun m s => m.note (.notified s m.snapshot)) m).inMode mode :=
    List.foldl_hom (inMode mode) fun _ _ => rfl
  unfold flush
  dsimp only
  rw [apply_ite (inMode mode), ← hnotes]
  rfl

/-! ### Requests and events -/

/-- No error of the structure was come upon. -/
def NoneStructural (met : List MachineError) : Prop := ∀ e ∈ met, e.isStructural = false

theorem NoneStructural.of_append {met met' : List MachineError}
    (h : NoneStructural (met ++ met')) : NoneStructural met ∧ NoneStructural met' :=
  List.forall_mem_append.mp h

/-- An error that is not of the structure is reported in every mode. -/
theorem reports_of_not_structural (m : Machine D) {e : MachineError}
    (h : e.isStructural = false) : m.reports e = true := by
  unfold reports
  cases m.settings.mode <;> simp [h]

/-- Errors that are not of the structure and not reported: there are none. -/
theorem NoneStructural.eq_nil {met : List MachineError} (h : NoneStructural met)
    (passed : ∀ e ∈ met, m.reports e = false) : met = [] := by
  refine List.eq_nil_iff_forall_not_mem.mpr fun e he => ?_
  have hreports := reports_of_not_structural m (h e he)
  rw [passed e he] at hreports
  cases hreports

theorem NoneStructural.find?_reports {met : List MachineError} (h : NoneStructural met)
    (m : Machine D) : met.find? m.reports = met.head? := by
  cases met with
  | nil => rfl
  | cons e met => rw [List.find?_cons, reports_of_not_structural m (h e List.mem_cons_self)]; rfl

/-- Requests that come upon no error of the structure go the same way in every mode. -/
theorem TransitsAll.inMode {payload : Json} {event : String} {made made' : Nat}
    {requests : List Request} {met : List MachineError} (mode : Mode)
    (h : TransitsAll payload event made requests m m' made' met) (calm : NoneStructural met) :
    TransitsAll payload event made requests (m.inMode mode) (m'.inMode mode) made' met :=
  TransitsAll.rec
    (motive_1 := fun made q m m' made' met _ => NoneStructural met →
      Transits payload event made q (m.inMode mode) (m'.inMode mode) made' met)
    (motive_2 := fun made requests m m' made' met _ => NoneStructural met →
      TransitsAll payload event made requests (m.inMode mode) (m'.inMode mode) made' met)
    -- a refusal is an error of the structure, and so is a target that is not there
    (fun _ calm => nomatch calm _ List.mem_cons_self)
    (fun _ _ calm => nomatch calm _ List.mem_cons_self)
    (fun left target move _ => .fails left target (by rw [move_inMode, move]; rfl))
    (fun left target move _ more calm =>
      .moves left target (by rw [move_inMode, move]; rfl) (more calm))
    (fun made m _ => .nil made (m.inMode mode))
    (fun _ failed first calm => .stop (first calm)
      (failed.imp fun e he => ⟨he.1, reports_of_not_structural _ (calm e he.1)⟩))
    -- what was passed over is nothing, as errors of other kinds are reported in every mode
    (fun _ passed _ first more calm => by
      obtain ⟨hfirst, hmore⟩ := calm.of_append
      refine .next (first hfirst) (fun e he => ?_) (more hmore)
      rw [hfirst.eq_nil passed] at he
      cases he)
    h calm

theorem Follows.inMode {payload : Json} {event : String} {made made' : Nat}
    {out : Machine D × Except MachineError (List Request)} {met : List MachineError} (mode : Mode)
    (h : Follows payload event made out m' made' met) (calm : NoneStructural met) :
    Follows payload event made (resultIn mode out) (m'.inMode mode) made' met := by
  cases h with
  | failed => exact .failed
  | asked transits => exact .asked (transits.inMode mode calm)

theorem Drains.inMode {made handled : Nat} {met : List MachineError} (mode : Mode)
    (h : Drains made handled m m' met) (calm : NoneStructural met) :
    Drains made handled (m.inMode mode) (m'.inMode mode) met := by
  induction h with
  | done queue => exact .done queue
  | guarded => cases calm _ List.mem_cons_self
  | @next made made₁ handled m m₁ m' e rest met met' queue left first more ih =>
    obtain ⟨hfirst, hmore⟩ := calm.of_append
    have hanswer := first.inMode mode hfirst
    rw [← answer_inMode] at hanswer
    have hdrains := ih hmore
    rw [← flush_inMode] at hdrains
    exact .next queue left hanswer hdrains

theorem Fires.inMode {interval : Span} {made made' : Nat} {tasks : List (Lease × Task)}
    {met : List MachineError} (mode : Mode) (h : Fires interval made tasks m m' made' met)
    (calm : NoneStructural met) :
    Fires interval made tasks (m.inMode mode) (m'.inMode mode) made' met := by
  induction h with
  | nil made m => exact .nil made (m.inMode mode)
  | stale stale _ ih => exact .stale stale (ih calm)
  | @next made made₁ made' owner task rest m m₁ m' met met' current first more ih =>
    obtain ⟨hfirst, hmore⟩ := calm.of_append
    have hfollows := first.inMode mode hfirst
    refine .next current ?_ (ih hmore)
    rw [attend_inMode]
    exact hfollows

/-! ### Steps -/

/-- A step that comes upon no error of the structure takes the same way in every mode. -/
theorem Bout.inMode {s : Stimulus} {met : List MachineError} (mode : Mode) (h : Bout m s m' met)
    (calm : NoneStructural met) : Bout (m.inMode mode) s (m'.inMode mode) met := by
  cases h with
  | event drains => exact .event (drains.inMode mode calm)
  | due fires drains =>
    obtain ⟨hfires, hdrains⟩ := calm.of_append
    have hdrains := drains.inMode mode hdrains
    rw [← flush_inMode] at hdrains
    exact .due (fires.inMode mode hfires) hdrains
  | @settled job s _ _ _ _ _ follows drains =>
    obtain ⟨hfollows, hdrains⟩ := calm.of_append
    have hfollows := follows.inMode mode hfollows
    rw [← settlement_inMode] at hfollows
    exact .settled hfollows (drains.inMode mode hdrains)
  | entered transits drains =>
    obtain ⟨htransits, hdrains⟩ := calm.of_append
    exact .entered (transits.inMode mode htransits) (drains.inMode mode hdrains)

/-- A step of the machine comes upon no target that is not there, and trips no loop guard. -/
def Calm (m : Machine D) (s : Stimulus) : Prop := ∃ m' met, Bout m s m' met ∧ NoneStructural met

/-- In every mode a calm step comes to the same machine, and to the same failure. -/
theorem Calm.run_inMode {s : Stimulus} (h : Calm m s) (mode : Mode) :
    (m.inMode mode).run s = resultIn mode (m.run s) := by
  obtain ⟨m', met, hbout, hcalm⟩ := h
  obtain ⟨hm, hends⟩ := hbout.run_eq
  obtain ⟨hm', hends'⟩ := (hbout.inMode mode hcalm).run_eq
  have hfailure : ((m.inMode mode).run s).2 = (m.run s).2 := by
    rw [hends'.failure, hends.failure, hcalm.find?_reports, hcalm.find?_reports]
  refine Prod.ext ?_ hfailure
  rw [hm']
  exact congrArg (Machine.inMode mode) hm.symm

/-- In development a step without a failure is calm. -/
theorem calm_of_run {s : Stimulus} (development : m.settings.mode = .development)
    (h : (m.run s).2 = none) : Calm m s := by
  obtain ⟨m', met, hbout⟩ := exists_bout m s
  refine ⟨m', met, hbout, fun e he => ?_⟩
  rw [hbout.run_eq.2.failure] at h
  have hreports : m.reports e = true := by
    unfold reports
    rw [development]
  exact absurd hreports (List.find?_eq_none.mp h e he)

/-- In production no step fails with an error of the structure. -/
theorem not_isStructural_of_run {s : Stimulus} (production : m.settings.mode = .production)
    {e : MachineError} (h : (m.run s).2 = some e) : e.isStructural = false := by
  obtain ⟨m', met, hbout⟩ := exists_bout m s
  rw [hbout.run_eq.2.failure] at h
  have hreports : m.reports e = true := List.find?_some h
  unfold reports at hreports
  rw [production] at hreports
  simpa using hreports

/-- A step leaves the settings as they are. -/
theorem run_settings (m : Machine D) (s : Stimulus) : (m.run s).1.settings = m.settings := by
  obtain ⟨m', met, hbout⟩ := exists_bout m s
  obtain ⟨a, k, -, -, hspends⟩ := hbout.run_eq.2.spends
  exact hspends.1

end Machine
end Statechart
