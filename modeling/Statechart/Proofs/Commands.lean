/-
# Commands in development and in production

From outside a machine is given commands (`Command`), each of which it obeys by one of its
operations (`Machine.obey`), and of a design comes a session: its machine, and what that comes to
and replies with each of some commands (`Design.session`). A session takes its steps one after
another (`Design.bouts`), the first of them the start: an advance takes one for each thing that is
due, and a poll one for each operation that settles.

Where every step of a session is calm the session is the same in every mode: it takes the same
steps from the same machines, and comes to the same machines and replies
(`Machine.AllCalm.session_inMode`). The operations are loops over steps, so each takes one
induction that goes a calm step at a time (`Machine.popAll_inMode`, `Machine.settleAll_inMode`,
`Machine.settleRounds_inMode`). In production no reply ever tells of an error of the structure, by
the same inductions, as no step does (`Machine.obey_produces`). Together this is what the mode
decides (`Machine.modes_agree`).

Key definitions: `Command`, `Reply`, `Machine.obey`, `Machine.obeyAll`, `Machine.bouts`,
`Design.session`, `Design.bouts`, `Machine.AllCalm`, `Machine.Produces`.
Key theorems: `Machine.start_inMode`, `Machine.advance_inMode`, `Machine.obey_inMode`,
`Machine.obeyAll_inMode`, `Machine.obey_produces`, `Machine.modes_agree`.
-/
import Statechart.Proofs.Crossings
import Statechart.Proofs.Modes

namespace Statechart

variable {D : Type}

/-- What a machine is asked to do from outside. -/
inductive Command where
  | send (e : Event)
  | can (e : Event)
  | advance (gates : Gates) (by_ : Span)
  | poll (gates : Gates)
  | subscribe
  | unsubscribe (subscriber : Nat)
  | cloneFresh (fresh : String)

/-- What a machine replies to a command. -/
inductive Reply (D : Type) where
  | done (failure : Option MachineError)
  | told (answer : Bool)
  | enrolled (subscriber : Nat)
  | cloned (clone : Except MachineError (Machine D))

/-- The error that a reply tells. -/
def Reply.error? : Reply D → Option MachineError
  | done failure => failure
  | cloned (.error e) => some e
  | _ => none

/-- The reply, with a clone in a mode. -/
def Reply.inMode (mode : Mode) : Reply D → Reply D
  | cloned clone => .cloned (clone.map (Machine.inMode mode))
  | r => r

namespace Machine

variable {mode : Mode} {m : Machine D}

/-! ### Steps of the operations -/

/-- The steps for what is due up to the horizon, at most so many: from what machine each goes, and
what it is about. -/
def dueBouts (horizon : Span) : Nat → Machine D → List (Machine D × Stimulus)
  -- what is due beyond the limit is taken, but only to see that it is there
  | 0, _ => []
  | limit + 1, m =>
    match m.timeline.popDue horizon with
    | none => []
    | some (due, timeline) =>
      let m := { m with timeline }
      (m, .due due) :: dueBouts horizon limit (m.run (.due due)).1

/-- The steps for operations that settled. -/
def settleBouts : List (Job × Settlement) → Machine D → List (Machine D × Stimulus)
  | [], _ => []
  | (job, s) :: rest, m =>
    if !m.tree.isCurrent job.owner then settleBouts rest m
    else (m, .settled job s) :: settleBouts rest (m.run (.settled job s)).1.flush

/-- The steps of so many rounds of polling. -/
def roundBouts (gates : Gates) : Nat → Machine D → List (Machine D × Stimulus)
  | 0, _ => []
  | rounds + 1, m =>
    match m.poll gates with
    | (_, []) => []
    | (m, settled) => settleBouts settled m ++ roundBouts gates rounds (settleAll none settled m).1

def pollBouts (gates : Gates) (m : Machine D) : List (Machine D × Stimulus) :=
  roundBouts gates (max m.settings.maxTransitions 1) m

def advanceBouts (limit : Nat) (gates : Gates) (by_ : Span) (m : Machine D) :
    List (Machine D × Stimulus) :=
  let horizon := m.timeline.now.add by_
  dueBouts horizon limit m ++
    match popAll horizon limit none m with
    | none => []
    | some (m, _) => pollBouts gates { m with timeline := m.timeline.settle horizon }

/-- A start is one step, once the first nodes are entered. -/
def startBouts (m : Machine D) : List (Machine D × Stimulus) :=
  let choose := (m.context .null).initialChild m.data
  match m.tree.activate choose (fun _ => false) (.target .fresh) with
  | (_, some _) => []
  | (tree, none) =>
    match forNodes (enter .null "start") (tree.activeNodes.map Tree.node)
      ({ m with tree }.note (.reached tree)) with
    | (_, .error _) => []
    | (m, .ok requests) => [(m, .entered requests)]

def createBouts (design : Design D) (settings : Settings) (fresh : String) :
    List (Machine D × Stimulus) :=
  match design.compile (design.id.getD fresh) with
  | .error _ => []
  | .ok c => (initial design settings c).startBouts

/-! ### Commands -/

/-- Obey a command, or give nothing if more than `limit` things were due. -/
def obey (limit : Nat) (m : Machine D) : Command → Option (Machine D × Reply D)
  | .send e => some ((m.send e).1, .done (m.send e).2)
  | .can e => some (m, .told (m.can e))
  | .advance gates by_ => (m.advance limit gates by_).map fun r => (r.1, .done r.2)
  | .poll gates => some ((m.pollOperations gates).1, .done (m.pollOperations gates).2)
  | .subscribe => some (m.subscribe.1, .enrolled m.subscribe.2)
  | .unsubscribe s => some ((m.unsubscribe s).1, .told (m.unsubscribe s).2)
  | .cloneFresh fresh => some (m, .cloned (m.cloneFresh fresh))

/-- The steps of a command. -/
def bouts (limit : Nat) (m : Machine D) : Command → List (Machine D × Stimulus)
  | .send e => [(m, .event e)]
  | .advance gates by_ => m.advanceBouts limit gates by_
  | .poll gates => m.pollBouts gates
  | .cloneFresh fresh => createBouts m.design m.settings fresh
  | _ => []

/-- What the machine is and replies after each of some commands, up to the first that is not done
with. -/
def obeyAll (limit : Nat) : List Command → Machine D → List (Machine D × Reply D)
  | [], _ => []
  | c :: commands, m =>
    match m.obey limit c with
    | none => []
    | some r => r :: obeyAll limit commands r.1

/-- The steps of some commands, up to the first that is not done with. -/
def boutsAll (limit : Nat) : List Command → Machine D → List (Machine D × Stimulus)
  | [], _ => []
  | c :: commands, m => m.bouts limit c ++
    match m.obey limit c with
    | none => []
    | some r => boutsAll limit commands r.1

end Machine

/-- What comes of a design: its machine, and what that is and replies after each of some
commands. -/
def Design.session (design : Design D) (settings : Settings) (fresh : String) (limit : Nat)
    (commands : List Command) : Except MachineError (Machine D × List (Machine D × Reply D)) :=
  (Machine.create design settings fresh).map fun m => (m, m.obeyAll limit commands)

/-- The steps of a session. -/
def Design.bouts (design : Design D) (settings : Settings) (fresh : String) (limit : Nat)
    (commands : List Command) : List (Machine D × Machine.Stimulus) :=
  Machine.createBouts design settings fresh ++
    match Machine.create design settings fresh with
    | .error _ => []
    | .ok m => m.boutsAll limit commands

namespace Machine

variable {mode : Mode} {m : Machine D}

/-! ### The operations as loops over steps -/

/-- What is due is taken off the timeline, and a step is made of it. -/
theorem popStep_eq_run (m : Machine D) (horizon : Span) : m.popStep horizon =
    (m.timeline.popDue horizon).map fun r => { m with timeline := r.2 }.run (.due r.1) := by
  cases hpop : m.timeline.popDue horizon with
  | none =>
    unfold popStep
    rw [hpop]
    rfl
  | some r => exact popStep_eq hpop rfl

theorem popAll_of_none {horizon : Span} (h : m.timeline.popDue horizon = none) (limit : Nat)
    (first : Option MachineError) : popAll horizon limit first m = some (m, first) := by
  unfold popAll
  rw [popStep_eq_run, h]
  rfl

theorem popAll_zero_of_some {horizon : Span} {r : Due Task × Timeline Task}
    (h : m.timeline.popDue horizon = some r) (first : Option MachineError) :
    popAll horizon 0 first m = none := by
  unfold popAll
  rw [popStep_eq_run, h]
  rfl

theorem popAll_succ_of_some {horizon : Span} {due : Due Task} {timeline : Timeline Task}
    (h : m.timeline.popDue horizon = some (due, timeline)) (limit : Nat)
    (first : Option MachineError) : popAll horizon (limit + 1) first m =
      popAll horizon limit (first.or ({ m with timeline }.run (.due due)).2)
        ({ m with timeline }.run (.due due)).1 := by
  rw [popAll, popStep_eq_run, h]
  rfl

theorem settleAll_of_stale {job : Job} (h : m.tree.isCurrent job.owner = false) (s : Settlement)
    (rest : List (Job × Settlement)) (first : Option MachineError) :
    settleAll first ((job, s) :: rest) m = settleAll first rest m := by
  rw [settleAll, h]
  rfl

theorem settleAll_of_current {job : Job} (h : m.tree.isCurrent job.owner = true) (s : Settlement)
    (rest : List (Job × Settlement)) (first : Option MachineError) :
    settleAll first ((job, s) :: rest) m = settleAll (first.or (m.run (.settled job s)).2) rest
      (m.run (.settled job s)).1.flush := by
  rw [settleAll, h]
  rfl

theorem settleBouts_of_stale {job : Job} (h : m.tree.isCurrent job.owner = false) (s : Settlement)
    (rest : List (Job × Settlement)) : settleBouts ((job, s) :: rest) m = settleBouts rest m := by
  rw [settleBouts, h]
  rfl

theorem settleBouts_of_current {job : Job} (h : m.tree.isCurrent job.owner = true)
    (s : Settlement) (rest : List (Job × Settlement)) : settleBouts ((job, s) :: rest) m =
      (m, .settled job s) :: settleBouts rest (m.run (.settled job s)).1.flush := by
  rw [settleBouts, h]
  rfl

/-- A start enters the first nodes, and then makes one step. -/
theorem start_eq (m : Machine D) : m.start =
    match m.tree.activate ((m.context .null).initialChild m.data) (fun _ => false)
      (.target .fresh) with
    | (_, some e) => .error (.eval "start" e)
    | (tree, none) =>
      match forNodes (enter .null "start") (tree.activeNodes.map Tree.node)
        ({ m with tree }.note (.reached tree)) with
      | (_, .error e) => .error e
      | (m, .ok requests) =>
        match m.run (.entered requests) with
        | (_, some e) => .error e
        | (m, none) => .ok m.flush := rfl

/-! ### The same in every mode -/

/-- All of the steps are calm. -/
def AllCalm (bouts : List (Machine D × Stimulus)) : Prop := ∀ p ∈ bouts, Calm p.1 p.2

theorem popAll_inMode {horizon : Span} {limit : Nat} (calm : AllCalm (dueBouts horizon limit m))
    (mode : Mode) :
    dueBouts horizon limit (m.inMode mode) = (dueBouts horizon limit m).map (resultIn mode) ∧
      ∀ first, popAll horizon limit first (m.inMode mode) =
        (popAll horizon limit first m).map (resultIn mode) := by
  induction limit generalizing m with
  | zero =>
    refine ⟨rfl, fun first => ?_⟩
    cases hpop : m.timeline.popDue horizon with
    | none => rw [popAll_of_none hpop, popAll_of_none (m := m.inMode mode) hpop]; rfl
    | some r => rw [popAll_zero_of_some hpop, popAll_zero_of_some (m := m.inMode mode) hpop]; rfl
  | succ limit ih =>
    have htimeline : (m.inMode mode).timeline = m.timeline := rfl
    unfold dueBouts at calm ⊢
    rw [htimeline]
    cases hpop : m.timeline.popDue horizon with
    | none =>
      refine ⟨rfl, fun first => ?_⟩
      rw [popAll_of_none hpop, popAll_of_none (m := m.inMode mode) hpop]
      rfl
    | some r =>
      obtain ⟨due, timeline⟩ := r
      rw [hpop] at calm
      obtain ⟨hcalm, hrest⟩ := List.forall_mem_cons.mp calm
      have hrun : { m.inMode mode with timeline }.run (.due due) =
          resultIn mode ({ m with timeline }.run (.due due)) := Calm.run_inMode hcalm mode
      obtain ⟨hsteps, hall⟩ := ih hrest
      refine ⟨?_, fun first => ?_⟩
      · dsimp only
        rw [hrun, List.map_cons]
        exact congrArg _ hsteps
      · rw [popAll_succ_of_some hpop, popAll_succ_of_some (m := m.inMode mode) hpop, hrun]
        exact hall _

theorem settleAll_inMode {settled : List (Job × Settlement)}
    (calm : AllCalm (settleBouts settled m)) (mode : Mode) :
    settleBouts settled (m.inMode mode) = (settleBouts settled m).map (resultIn mode) ∧
      ∀ first, settleAll first settled (m.inMode mode) =
        resultIn mode (settleAll first settled m) := by
  induction settled generalizing m with
  | nil => exact ⟨rfl, fun first => rfl⟩
  | cons p rest ih =>
    obtain ⟨job, s⟩ := p
    cases hcurrent : m.tree.isCurrent job.owner with
    | false =>
      have hcurrent' : (m.inMode mode).tree.isCurrent job.owner = false := hcurrent
      rw [settleBouts_of_stale hcurrent] at calm
      rw [settleBouts_of_stale hcurrent, settleBouts_of_stale hcurrent']
      obtain ⟨hsteps, hall⟩ := ih calm
      refine ⟨hsteps, fun first => ?_⟩
      rw [settleAll_of_stale hcurrent, settleAll_of_stale hcurrent']
      exact hall first
    | true =>
      have hcurrent' : (m.inMode mode).tree.isCurrent job.owner = true := hcurrent
      rw [settleBouts_of_current hcurrent] at calm
      rw [settleBouts_of_current hcurrent, settleBouts_of_current hcurrent']
      obtain ⟨hcalm, hrest⟩ := List.forall_mem_cons.mp calm
      have hrun : (m.inMode mode).run (.settled job s) = resultIn mode (m.run (.settled job s)) :=
        Calm.run_inMode hcalm mode
      obtain ⟨hsteps, hall⟩ := ih hrest
      rw [← flush_inMode] at hsteps hall
      refine ⟨?_, fun first => ?_⟩
      · rw [hrun, List.map_cons]
        exact congrArg _ hsteps
      · rw [settleAll_of_current hcurrent, settleAll_of_current hcurrent', hrun]
        exact hall _

theorem poll_inMode (gates : Gates) (m : Machine D) :
    (m.inMode mode).poll gates = resultIn mode (m.poll gates) := rfl

/-- What settling comes to does not depend on the failures before. -/
theorem settleAll_machine (settled : List (Job × Settlement)) (first first' : Option MachineError)
    (m : Machine D) : (settleAll first settled m).1 = (settleAll first' settled m).1 := by
  induction settled generalizing first first' m with
  | nil => rfl
  | cons p rest ih =>
    obtain ⟨job, s⟩ := p
    cases hcurrent : m.tree.isCurrent job.owner with
    | false =>
      rw [settleAll_of_stale hcurrent, settleAll_of_stale hcurrent]
      exact ih _ _ _
    | true =>
      rw [settleAll_of_current hcurrent, settleAll_of_current hcurrent]
      exact ih _ _ _

theorem settleRounds_inMode {gates : Gates} {rounds : Nat}
    (calm : AllCalm (roundBouts gates rounds m)) (mode : Mode) :
    roundBouts gates rounds (m.inMode mode) = (roundBouts gates rounds m).map (resultIn mode) ∧
      ∀ first, settleRounds gates rounds first (m.inMode mode) =
        resultIn mode (settleRounds gates rounds first m) := by
  induction rounds generalizing m with
  | zero => exact ⟨rfl, fun first => rfl⟩
  | succ rounds ih =>
    unfold roundBouts at calm ⊢
    unfold settleRounds
    rw [poll_inMode]
    generalize m.poll gates = polled at calm ⊢
    obtain ⟨m₁, _ | ⟨p, settled⟩⟩ := polled
    · exact ⟨rfl, fun first => rfl⟩
    · obtain ⟨hsettle, hrounds⟩ := List.forall_mem_append.mp calm
      obtain ⟨hsteps, hall⟩ := settleAll_inMode hsettle mode
      obtain ⟨hsteps', hall'⟩ := ih hrounds
      dsimp only [resultIn]
      refine ⟨?_, fun first => ?_⟩
      · rw [hsteps, hall, List.map_append]
        exact congrArg _ hsteps'
      · rw [hall]
        -- the next round starts from the same machine, whatever failed before
        rw [settleAll_machine _ none first] at hall'
        exact hall' _

theorem pollOperations_inMode {gates : Gates} (calm : AllCalm (m.pollBouts gates)) (mode : Mode) :
    (m.inMode mode).pollBouts gates = (m.pollBouts gates).map (resultIn mode) ∧
      (m.inMode mode).pollOperations gates = resultIn mode (m.pollOperations gates) := by
  obtain ⟨hsteps, hrounds⟩ := settleRounds_inMode calm mode
  have hmax : (m.inMode mode).settings.maxTransitions = m.settings.maxTransitions := rfl
  unfold pollBouts pollOperations
  dsimp only
  rw [hmax, hrounds]
  refine ⟨hsteps, ?_⟩
  dsimp only [resultIn]
  rw [flush_inMode]

theorem advance_inMode {limit : Nat} {gates : Gates} {by_ : Span}
    (calm : AllCalm (m.advanceBouts limit gates by_)) (mode : Mode) :
    (m.inMode mode).advanceBouts limit gates by_ =
        (m.advanceBouts limit gates by_).map (resultIn mode) ∧
      (m.inMode mode).advance limit gates by_ =
        (m.advance limit gates by_).map (resultIn mode) := by
  have hnow : (m.inMode mode).timeline.now = m.timeline.now := rfl
  unfold advanceBouts at calm ⊢
  unfold advance
  dsimp only at calm ⊢
  rw [hnow]
  obtain ⟨hdue, hpoll⟩ := List.forall_mem_append.mp calm
  obtain ⟨hsteps, hall⟩ := popAll_inMode hdue mode
  rw [hsteps, hall]
  cases hpop : popAll (m.timeline.now.add by_) limit none m with
  | none => simp
  | some r =>
    rw [hpop] at hpoll
    obtain ⟨hsteps', hpoll'⟩ := pollOperations_inMode hpoll mode
    refine ⟨?_, ?_⟩
    · rw [List.map_append, ← hsteps']
      rfl
    · exact congrArg (fun p : Machine D × Option MachineError => some (p.1, r.2.or p.2)) hpoll'

theorem start_inMode (calm : AllCalm m.startBouts) (mode : Mode) :
    (m.inMode mode).startBouts = m.startBouts.map (resultIn mode) ∧
      (m.inMode mode).start = m.start.map (inMode mode) := by
  have hchoose : ((m.inMode mode).context .null).initialChild (m.inMode mode).data =
      (m.context .null).initialChild m.data := rfl
  unfold startBouts at calm ⊢
  dsimp only at calm ⊢
  rw [start_eq, start_eq, hchoose, inMode_tree]
  generalize m.tree.activate ((m.context .null).initialChild m.data) (fun _ => false)
    (.target .fresh) = activated at calm ⊢
  obtain ⟨tree, _ | e⟩ := activated
  · have hreached : { m.inMode mode with tree }.note (.reached tree) =
        ({ m with tree }.note (.reached tree)).inMode mode := rfl
    dsimp only at calm ⊢
    rw [hreached, forNodes_inMode (enter_inMode .null "start")]
    generalize forNodes (enter .null "start") (tree.activeNodes.map Tree.node)
      ({ m with tree }.note (.reached tree)) = entered at calm ⊢
    obtain ⟨m₁, e | requests⟩ := entered
    · exact ⟨rfl, rfl⟩
    · have hrun := Calm.run_inMode (calm _ List.mem_cons_self) mode
      dsimp only [resultIn] at hrun ⊢
      rw [hrun]
      obtain ⟨m₂, _ | e⟩ := m₁.run (.entered requests)
      · dsimp only
        rw [flush_inMode]
        exact ⟨rfl, rfl⟩
      · exact ⟨rfl, rfl⟩
  · exact ⟨rfl, rfl⟩

theorem create_inMode {design : Design D} {settings : Settings} {fresh : String}
    (calm : AllCalm (createBouts design settings fresh)) (mode : Mode) :
    createBouts design { settings with mode } fresh =
        (createBouts design settings fresh).map (resultIn mode) ∧
      create design { settings with mode } fresh =
        (create design settings fresh).map (inMode mode) := by
  unfold createBouts at calm ⊢
  unfold create
  cases hcompile : design.compile (design.id.getD fresh) with
  | error problems => exact ⟨rfl, rfl⟩
  | ok c =>
    rw [hcompile] at calm
    exact start_inMode calm mode

theorem unsubscribe_inMode (m : Machine D) (s : Nat) :
    (m.inMode mode).unsubscribe s = resultIn mode (m.unsubscribe s) := by
  unfold unsubscribe
  dsimp only
  rw [apply_ite (resultIn mode)]
  rfl

/-- What obeying comes to, with the machine and its clones in a mode. -/
def obeyedIn (mode : Mode) (r : Machine D × Reply D) : Machine D × Reply D :=
  (r.1.inMode mode, r.2.inMode mode)

/-- A command with calm steps is obeyed in the same way in every mode. -/
theorem obey_inMode {limit : Nat} {c : Command} (calm : AllCalm (m.bouts limit c)) (mode : Mode) :
    (m.inMode mode).bouts limit c = (m.bouts limit c).map (resultIn mode) ∧
      (m.inMode mode).obey limit c = (m.obey limit c).map (obeyedIn mode) := by
  cases c with
  | send e =>
    have hsend : (m.inMode mode).send e = resultIn mode (m.send e) :=
      Calm.run_inMode (calm _ List.mem_cons_self) mode
    refine ⟨rfl, ?_⟩
    dsimp only [obey]
    rw [hsend]
    rfl
  | can e => exact ⟨rfl, rfl⟩
  | advance gates by_ =>
    obtain ⟨hsteps, hadvance⟩ := advance_inMode calm mode
    refine ⟨hsteps, ?_⟩
    dsimp only [obey]
    rw [hadvance, Option.map_map, Option.map_map]
    rfl
  | poll gates =>
    obtain ⟨hsteps, hpoll⟩ := pollOperations_inMode calm mode
    refine ⟨hsteps, ?_⟩
    dsimp only [obey]
    rw [hpoll]
    rfl
  | subscribe => exact ⟨rfl, rfl⟩
  | unsubscribe s =>
    refine ⟨rfl, ?_⟩
    dsimp only [obey]
    rw [unsubscribe_inMode]
    rfl
  | cloneFresh fresh =>
    obtain ⟨hsteps, hcreate⟩ := create_inMode calm mode
    refine ⟨hsteps, ?_⟩
    exact congrArg (fun clone => some (m.inMode mode, Reply.cloned clone)) hcreate

theorem obeyAll_inMode {limit : Nat} {commands : List Command}
    (calm : AllCalm (m.boutsAll limit commands)) (mode : Mode) :
    (m.inMode mode).boutsAll limit commands = (m.boutsAll limit commands).map (resultIn mode) ∧
      (m.inMode mode).obeyAll limit commands = (m.obeyAll limit commands).map (obeyedIn mode) := by
  induction commands generalizing m with
  | nil => exact ⟨rfl, rfl⟩
  | cons c commands ih =>
    unfold boutsAll at calm ⊢
    unfold obeyAll
    obtain ⟨hfirst, hmore⟩ := List.forall_mem_append.mp calm
    obtain ⟨hsteps, hobey⟩ := obey_inMode hfirst mode
    rw [hsteps, hobey, List.map_append]
    cases hreply : m.obey limit c with
    | none => exact ⟨rfl, rfl⟩
    | some r =>
      rw [hreply] at hmore
      obtain ⟨hsteps', hobey'⟩ := ih hmore
      exact ⟨congrArg _ hsteps', congrArg _ hobey'⟩

/-! ### Production -/

/-- There is no failure for an error of the structure. -/
def Seemly (failure : Option MachineError) : Prop := ∀ e, failure = some e → e.isStructural = false

theorem seemly_or {first later : Option MachineError} (h : Seemly first) (k : Seemly later) :
    Seemly (first.or later) := by
  cases first with
  | none => exact k
  | some e => exact h

/-- What a machine in production comes to: it is in production still, and nothing failed for an
error of the structure. -/
structure Produces (r : Machine D × Option MachineError) : Prop where
  production : r.1.settings.mode = .production
  seemly : Seemly r.2

theorem run_produces (production : m.settings.mode = .production) (s : Stimulus) :
    Produces (m.run s) where
  production := by
    rw [run_settings]
    exact production
  seemly _ h := not_isStructural_of_run production h

theorem popAll_produces {horizon : Span} {limit : Nat} {first : Option MachineError}
    {r : Machine D × Option MachineError} (h : popAll horizon limit first m = some r)
    (production : m.settings.mode = .production) (seemly : Seemly first) : Produces r := by
  induction limit generalizing first m with
  | zero =>
    cases hpop : m.timeline.popDue horizon with
    | none =>
      rw [popAll_of_none hpop] at h
      cases h
      exact ⟨production, seemly⟩
    | some due =>
      rw [popAll_zero_of_some hpop] at h
      cases h
  | succ limit ih =>
    cases hpop : m.timeline.popDue horizon with
    | none =>
      rw [popAll_of_none hpop] at h
      cases h
      exact ⟨production, seemly⟩
    | some due =>
      rw [popAll_succ_of_some hpop] at h
      have hrun := run_produces (m := { m with timeline := due.2 }) production (.due due.1)
      exact ih h hrun.production (seemly_or seemly hrun.seemly)

theorem settleAll_produces {settled : List (Job × Settlement)} {first : Option MachineError}
    (production : m.settings.mode = .production) (seemly : Seemly first) :
    Produces (settleAll first settled m) := by
  induction settled generalizing first m with
  | nil => exact ⟨production, seemly⟩
  | cons p rest ih =>
    obtain ⟨job, s⟩ := p
    cases hcurrent : m.tree.isCurrent job.owner with
    | false =>
      rw [settleAll_of_stale hcurrent]
      exact ih production seemly
    | true =>
      rw [settleAll_of_current hcurrent]
      have hrun := run_produces production (.settled job s)
      refine ih ?_ (seemly_or seemly hrun.seemly)
      rw [(flush_spends _).1]
      exact hrun.production

theorem settleRounds_produces {gates : Gates} {rounds : Nat} {first : Option MachineError}
    (production : m.settings.mode = .production) (seemly : Seemly first) :
    Produces (settleRounds gates rounds first m) := by
  induction rounds generalizing first m with
  | zero => exact ⟨production, seemly⟩
  | succ rounds ih =>
    unfold settleRounds
    have hpoll : (m.poll gates).1.settings.mode = .production := production
    generalize m.poll gates = polled at hpoll ⊢
    obtain ⟨m₁, _ | ⟨p, settled⟩⟩ := polled
    · exact ⟨hpoll, seemly⟩
    · have hsettle : Produces (settleAll first (p :: settled) m₁) :=
        settleAll_produces hpoll seemly
      exact ih hsettle.production hsettle.seemly

theorem pollOperations_produces (production : m.settings.mode = .production) (gates : Gates) :
    Produces (m.pollOperations gates) := by
  have hrounds : Produces (settleRounds gates (max m.settings.maxTransitions 1) none m) :=
    settleRounds_produces production nofun
  refine ⟨?_, hrounds.seemly⟩
  show (settleRounds gates _ none m).1.flush.settings.mode = _
  rw [(flush_spends _).1]
  exact hrounds.production

theorem advance_produces {limit : Nat} {gates : Gates} {by_ : Span}
    {r : Machine D × Option MachineError} (h : m.advance limit gates by_ = some r)
    (production : m.settings.mode = .production) : Produces r := by
  unfold advance at h
  dsimp only at h
  split at h
  · cases h
  · rename_i m₁ first hpop
    have hdue := popAll_produces hpop production nofun
    let m₂ : Machine D := { m₁ with timeline := m₁.timeline.settle (m.timeline.now.add by_) }
    have hpoll : Produces (m₂.pollOperations gates) :=
      pollOperations_produces (m := m₂) hdue.production gates
    cases h
    exact ⟨hpoll.production, seemly_or hdue.seemly hpoll.seemly⟩

/-- A machine made in production is in production, and where none is made that is not for an error
of the structure. -/
theorem start_produces (production : m.settings.mode = .production) :
    (∀ e, m.start = .error e → e.isStructural = false) ∧
      ∀ m', m.start = .ok m' → m'.settings.mode = .production := by
  rw [start_eq]
  generalize m.tree.activate ((m.context .null).initialChild m.data) (fun _ => false)
    (.target .fresh) = activated
  obtain ⟨tree, _ | e⟩ := activated
  · dsimp only
    have haccounts := forNodes_accounts (fun n m => enter_accounts m .null "start" n)
      (tree.activeNodes.map Tree.node) ({ m with tree }.note (.reached tree))
    have hspends : ∀ r, forNodes (enter .null "start") (tree.activeNodes.map Tree.node)
        ({ m with tree }.note (.reached tree)) = r → r.1.settings.mode = .production := by
      rintro r hr
      rw [(spends_lasts.forNodes (spends_lasts.enter .null "start") hr).1]
      exact production
    generalize forNodes (enter .null "start") (tree.activeNodes.map Tree.node)
      ({ m with tree }.note (.reached tree)) = entered at haccounts hspends ⊢
    have hproduction := hspends entered rfl
    obtain ⟨m₁, e | requests⟩ := entered
    · cases haccounts
      refine ⟨?_, nofun⟩
      rintro _ ⟨⟩
      rfl
    · have hrun := run_produces hproduction (.entered requests)
      dsimp only
      generalize m₁.run (.entered requests) = ran at hrun ⊢
      obtain ⟨m₂, _ | e⟩ := ran
      · refine ⟨nofun, ?_⟩
        rintro _ ⟨⟩
        rw [(flush_spends m₂).1]
        exact hrun.production
      · refine ⟨?_, nofun⟩
        rintro _ ⟨⟩
        exact hrun.seemly e rfl
  · refine ⟨?_, nofun⟩
    rintro _ ⟨⟩
    rfl

theorem create_produces (design : Design D) (fresh : String) {settings : Settings}
    (production : settings.mode = .production) :
    (∀ e, create design settings fresh = .error e → e.isStructural = false) ∧
      ∀ m', create design settings fresh = .ok m' → m'.settings.mode = .production := by
  unfold create
  split
  · refine ⟨?_, nofun⟩
    rintro _ ⟨⟩
    rfl
  · exact start_produces production

/-- In production no command is replied to with an error of the structure. -/
theorem obey_produces {limit : Nat} {c : Command} {r : Machine D × Reply D}
    (h : m.obey limit c = some r) (production : m.settings.mode = .production) :
    r.1.settings.mode = .production ∧ Seemly r.2.error? := by
  cases c with
  | send e =>
    cases h
    have hrun : Produces (m.send e) := run_produces production (.event e)
    exact ⟨hrun.production, hrun.seemly⟩
  | advance gates by_ =>
    obtain ⟨r', hadvance, rfl⟩ := Option.map_eq_some_iff.mp h
    have hproduces := advance_produces hadvance production
    exact ⟨hproduces.production, hproduces.seemly⟩
  | poll gates =>
    cases h
    have hpoll := pollOperations_produces production gates
    exact ⟨hpoll.production, hpoll.seemly⟩
  | unsubscribe s =>
    cases h
    refine ⟨?_, nofun⟩
    unfold unsubscribe
    dsimp only
    split <;> exact production
  | cloneFresh fresh =>
    cases h
    refine ⟨production, fun e he => ?_⟩
    have hcreate := (create_produces m.design fresh production).1
    unfold cloneFresh at he
    cases hclone : create m.design m.settings fresh with
    | error e' =>
      rw [hclone] at he
      cases he
      exact hcreate e hclone
    | ok clone =>
      rw [hclone] at he
      cases he
  | can e => cases h; exact ⟨production, nofun⟩
  | subscribe => cases h; exact ⟨production, nofun⟩

theorem obeyAll_produces {limit : Nat} {commands : List Command}
    (production : m.settings.mode = .production) :
    ∀ r ∈ m.obeyAll limit commands, Seemly r.2.error? := by
  induction commands generalizing m with
  | nil => exact fun r hr => nomatch hr
  | cons c commands ih =>
    unfold obeyAll
    split
    · exact fun r hr => nomatch hr
    · rename_i r hobey
      obtain ⟨hproduction, hseemly⟩ := obey_produces hobey production
      exact List.forall_mem_cons.mpr ⟨hseemly, ih hproduction⟩

/-- What a session comes to, with all its machines in a mode. -/
def sessionIn (mode : Mode) (p : Machine D × List (Machine D × Reply D)) :
    Machine D × List (Machine D × Reply D) := (p.1.inMode mode, p.2.map (obeyedIn mode))

theorem AllCalm.session_inMode {design : Design D} {settings : Settings} {fresh : String}
    {limit : Nat} {commands : List Command}
    (calm : AllCalm (design.bouts settings fresh limit commands)) (mode : Mode) :
    design.bouts { settings with mode } fresh limit commands =
        (design.bouts settings fresh limit commands).map (resultIn mode) ∧
      design.session { settings with mode } fresh limit commands =
        (design.session settings fresh limit commands).map (sessionIn mode) := by
  unfold Design.bouts at calm ⊢
  unfold Design.session
  obtain ⟨hfirst, hmore⟩ := List.forall_mem_append.mp calm
  obtain ⟨hbouts, hcreate⟩ := create_inMode hfirst mode
  rw [hbouts, hcreate, List.map_append]
  cases hmade : create design settings fresh with
  | error e => exact ⟨rfl, rfl⟩
  | ok m =>
    rw [hmade] at hmore
    obtain ⟨hbouts', hobey⟩ := obeyAll_inMode hmore mode
    refine ⟨congrArg _ hbouts', ?_⟩
    exact congrArg (fun replies => Except.ok (m.inMode mode, replies)) hobey

/-- **The mode only decides what is reported.** A session of a design is its creation, and any
commands after it. Where it comes upon no target that is not there and trips no loop guard in
development, in production all its steps go from the same machines, it comes to the same machines,
with the same notifications in their journals, and the replies are the same, errors among them. An
advance that does not end in development does not end in production either; a clone is a machine of
the design, with a session of its own. In production neither creation nor any command ever gives an
error of the structure, whatever the session comes upon. -/
theorem modes_agree (design : Design D) (settings : Settings) (fresh : String) (limit : Nat)
    (commands : List Command) :
    (AllCalm (design.bouts { settings with mode := .development } fresh limit commands) →
      design.bouts { settings with mode := .production } fresh limit commands =
          (design.bouts { settings with mode := .development } fresh limit commands).map
            (resultIn .production) ∧
        design.session { settings with mode := .production } fresh limit commands =
          (design.session { settings with mode := .development } fresh limit commands).map
            (sessionIn .production)) ∧
    (∀ e, design.session { settings with mode := .production } fresh limit commands = .error e →
      e.isStructural = false) ∧
    ∀ m replies,
      design.session { settings with mode := .production } fresh limit commands = .ok (m, replies) →
        ∀ r ∈ replies, ∀ e, r.2.error? = some e → e.isStructural = false := by
  have production : ({ settings with mode := .production } : Settings).mode = .production := rfl
  obtain ⟨hfails, hmade⟩ := create_produces design fresh production
  refine ⟨fun calm => calm.session_inMode .production, fun e he => ?_, fun m replies hsession => ?_⟩
  · unfold Design.session at he
    cases hcreate : create design { settings with mode := .production } fresh with
    | error e' =>
      rw [hcreate] at he
      cases he
      exact hfails e hcreate
    | ok m =>
      rw [hcreate] at he
      cases he
  · unfold Design.session at hsession
    cases hcreate : create design { settings with mode := .production } fresh with
    | error e' =>
      rw [hcreate] at hsession
      cases hsession
    | ok m' =>
      rw [hcreate] at hsession
      cases hsession
      exact obeyAll_produces (hmade m hcreate)

/-- In development steps without a failure are calm. -/
theorem AllCalm.of_run {bouts : List (Machine D × Stimulus)}
    (h : ∀ p ∈ bouts, p.1.settings.mode = .development ∧ (p.1.run p.2).2 = none) : AllCalm bouts :=
  fun p hp => calm_of_run (h p hp).1 (h p hp).2

/-- With two transitions a step the lift goes up, opens its door and goes down again, in the same
way in production as in development. -/
theorem modes_agree_lift :
    let development : Settings := { maxTransitions := 2, mode := .development }
    let production : Settings := { maxTransitions := 2, mode := .production }
    let commands : List Command :=
      [.subscribe, .send ⟨"UP", .null⟩, .can ⟨"UP", .null⟩, .send ⟨"DOWN", .null⟩, .cloneFresh "n"]
    AllCalm (Design.lift.bouts development "m" 1 commands) ∧
      (Design.lift.bouts production "m" 1 commands).length = 4 ∧
      Design.lift.session production "m" 1 commands =
        (Design.lift.session development "m" 1 commands).map (sessionIn .production) := by
  intro development production commands
  have hcalm : AllCalm (Design.lift.bouts development "m" 1 commands) :=
    .of_run (by decide +kernel)
  obtain ⟨-, hsession⟩ := (modes_agree Design.lift development "m" 1 commands).1 hcalm
  exact ⟨hcalm, by decide +kernel, hsession⟩

/-- With one transition a step its door stays shut, and the modes differ in what is reported. -/
example : (create Design.lift { maxTransitions := 1, mode := .development } "m").toOption.map
      (fun m => (m.send ⟨"UP", .null⟩).2) = some (some (.transitionLoop 1 "UP")) ∧
    (create Design.lift { maxTransitions := 1, mode := .production } "m").toOption.map
      (fun m => (m.send ⟨"UP", .null⟩).2) = some none := by
  decide +kernel

end Machine
end Statechart
