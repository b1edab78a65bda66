/-
# The machines that a design gives

From outside, a machine is sent events, moved on in time, made to poll its operations, and
subscribed to (`Machine.Step`). All of it is a course of changes (`Machine.Step.changes`).
An advance is done in parts, one for each thing that is due, so that one that never comes to
its end is there with all machines on its way; one that does end is some of these steps
(`Machine.advance_steps`). The machines that come of a design are those that its creation and
any steps after it lead to (`Machine.Reached`). Within a step a machine goes through others:
those that there are at any moment are those that changes lead to (`Machine.Arises`), and their
journals are faithful (`Machine.Arises.faithful`).

Key definitions: `Machine.Step`, `Machine.Steps`, `Machine.Reached`, `Machine.Arises`.
Key theorems: `Machine.popStep_changes`, `Machine.pollOperations_changes`,
`Machine.create_changes`, `Machine.Steps.changes`, `Machine.Reached.arises`,
`Machine.Arises.faithful`.
-/
import Statechart.Proofs.Faithful

namespace Statechart
namespace Machine

variable {D : Type} {m : Machine D}

/-! ### Events -/

theorem notes_changes : ∀ (subscribers : List Nat) (m : Machine D),
    Changes m (subscribers.foldl (fun m s => m.note (.notified s m.snapshot)) m)
  | [], _ => .refl
  | s :: subscribers, m => .head (.notify m s) (notes_changes subscribers _)

theorem flush_changes (m : Machine D) : Changes m m.flush := by
  unfold flush
  dsimp only
  split
  · exact .head (.refresh m false) (notes_changes _ _)
  · exact .single (.refresh m m.owed)

/-- What handling the first event of the queue comes to. -/
theorem handle_changes (hm : m.Faithful) {e : Event} {rest : List Event}
    (hqueue : m.queue = e :: rest) (budget : Nat) :
    Changes m ({ m with queue := rest }.handle budget e).1.flush := by
  have htake : Change m _ := .take hqueue
  have hhandle := handle_acts (m := { m with queue := rest }) hm.wellFormed budget e
  exact (htake.changes.trans hhandle.changes).trans (flush_changes _)

theorem drain_changes (first : Option MachineError) (events budget : Nat) (hm : m.Faithful) :
    Changes m (m.drain first events budget).1 := by
  induction events generalizing first budget m with
  | zero =>
    unfold drain
    split
    · exact .refl
    · exact .single (.drop m)
  | succ events ih =>
    unfold drain
    split
    · exact .refl
    · rename_i e rest hqueue
      have hevent := handle_changes hm hqueue budget
      exact hevent.trans (ih _ _ (hevent.faithful hm))

theorem finish_changes (budget : Nat) (first : Option MachineError) (hm : m.Faithful) :
    Changes m (m.finish budget first).1 := drain_changes first _ budget hm

theorem send_changes (e : Event) (hm : m.Faithful) : Changes m (m.send e).1 := by
  have henqueue : Change m (m.enqueue e) := .receive m e
  exact .head henqueue (finish_changes _ _ (henqueue.faithful hm))

/-! ### Time -/

/-- The transitions that a chain asks for are made after it, unless it fails. -/
theorem moveAll_after_acts {out : Machine D × Except MachineError (List Request)}
    (payload : Json) (event : String) (budget : Nat) (h : Acts m out.1) :
    Acts m (match out with
      | (m, .error e) => (m, budget, some e)
      | (m, .ok requests) => moveAll payload event budget requests m).1 := by
  obtain ⟨m', e | requests⟩ := out
  · exact h
  · exact h.trans (moveAll_acts payload event budget requests m')

theorem fire_acts {owner : Lease} {task : Task} (h : .deferred owner task.deferral ∈ m.journal)
    (budget : Nat) (interval : Span) : Acts m (m.fire budget owner task interval).1 := by
  unfold fire
  split
  · exact .refl
  · rename_i hcurrent
    have hcurrent : m.tree.isCurrent owner = true := by simpa using hcurrent
    have hlease := Tree.lease_eq_of_isCurrent hcurrent
    have hrun : ∀ role : Role, role.deferral = some task.deferral → ∀ payload event run,
        Acts m (m.execute owner.node role payload event run).1 := by
      intro role hrole payload event run
      refine (execute_chores owner.node role ?_ ?_ payload event run).acts
      · rintro rfl
        cases hrole
      · intro work hwork
        rw [hlease]
        obtain rfl : task.deferral = work := Option.some.inj (hrole.symm.trans hwork)
        exact ⟨hcurrent, h⟩
    cases task with
    | resume rest payload => exact moveAll_after_acts _ _ _ (hrun .resume rfl _ _ _)
    | repeating chain started =>
      exact moveAll_after_acts _ _ _
        (hrun (.repeating interval (m.timeline.now.sub started)) rfl _ _ _)

theorem fireAll_acts (interval : Span) : ∀ (tasks : List (Lease × Task)) (budget : Nat)
    {m : Machine D}, (∀ p ∈ tasks, .deferred p.1 p.2.deferral ∈ m.journal) →
      Acts m (fireAll interval tasks budget m).1
  | [], _, _, _ => .refl
  | (owner, task) :: rest, budget, m, h => by
    have hfire := fire_acts (h _ List.mem_cons_self) budget interval
    refine hfire.trans (fireAll_acts interval rest _ fun p hp => ?_)
    exact hfire.changes.onward.journal.subset (h p (List.mem_cons_of_mem _ hp))

theorem popStep_changes {horizon : Span} {r : Machine D × Option MachineError}
    (h : m.popStep horizon = some r) (hm : m.Faithful) : Changes m r.1 := by
  unfold popStep at h
  split at h
  · cases h
  · rename_i due timeline hpop
    have hdue : ∀ p ∈ due.tasks, .deferred p.1 p.2.deferral ∈ m.journal := fun p hp =>
      hm.tasks p ((Timeline.mem_tasks_of_popDue hpop).1 p hp)
    have hstart : Change m { m with timeline } := .pop hpop
    have hfinish : ∀ {m' : Machine D} (budget : Nat) (failure : Option MachineError),
        Acts { m with timeline } m' → Changes m (m'.flush.finish budget failure).1 := by
      intro m' budget failure hacts
      have hflush := (hstart.changes.trans hacts.changes).trans (flush_changes m')
      exact hflush.trans (finish_changes budget failure (hflush.faithful hm))
    cases due with
    | timer owner task period =>
      cases h
      exact hfinish _ _ (fire_acts (m := { m with timeline })
        (hdue (owner, task) List.mem_cons_self) _ _)
    | frame tasks interval =>
      cases h
      exact hfinish _ _ (fireAll_acts (m := { m with timeline }) interval tasks _ hdue)

/-! ### Operations -/

theorem settle_acts {job : Job} (h : .deferred job.owner .operation ∈ m.journal)
    (hcurrent : m.tree.isCurrent job.owner = true) (s : Settlement) :
    Acts m (m.settle job s).1 := by
  have hlease := Tree.lease_eq_of_isCurrent hcurrent
  have hrun : ∀ run, Acts m (m.execute job.owner.node .settlement job.payload "async" run).1 := by
    refine fun run => (execute_chores job.owner.node .settlement nofun ?_ _ _ run).acts
    rintro _ ⟨⟩
    rw [hlease]
    exact ⟨hcurrent, h⟩
  unfold settle
  dsimp only
  split
  · exact .refl
  · exact moveAll_after_acts _ _ _ (hrun _)

theorem settleAll_changes : ∀ (settled : List (Job × Settlement)) (first : Option MachineError)
    {m : Machine D}, (∀ p ∈ settled, .deferred p.1.owner .operation ∈ m.journal) →
      m.Faithful → Changes m (settleAll first settled m).1
  | [], _, _, _, _ => .refl
  | (job, s) :: rest, first, m, h, hm => by
    unfold settleAll
    split
    · exact settleAll_changes rest first (fun p hp => h p (List.mem_cons_of_mem _ hp)) hm
    · rename_i hcurrent
      have hcurrent : m.tree.isCurrent job.owner = true := by simpa using hcurrent
      have hsettle := (settle_acts (h _ List.mem_cons_self) hcurrent s).changes
      have hfinish := hsettle.trans
        (finish_changes (m.settle job s).2.1 (m.settle job s).2.2 (hsettle.faithful hm))
      have hflush := hfinish.trans (flush_changes _)
      refine hflush.trans (settleAll_changes rest _ (fun p hp => ?_) (hflush.faithful hm))
      exact hflush.onward.journal.subset (h p (List.mem_cons_of_mem _ hp))

/-- The operations that settled were pending. -/
theorem mem_jobs_of_poll {gates : Gates} {p : Job × Settlement} (hp : p ∈ (m.poll gates).2) :
    p.1 ∈ m.jobs := by
  obtain ⟨⟨job, answer⟩, hin, hp⟩ := List.mem_filterMap.mp hp
  obtain ⟨_, hjob, heq⟩ := List.mem_map.mp hin
  cases heq
  obtain ⟨s, -, rfl⟩ := Option.map_eq_some_iff.mp hp
  exact hjob

theorem settleRounds_changes (gates : Gates) : ∀ (rounds : Nat) (first : Option MachineError)
    {m : Machine D}, m.Faithful → Changes m (settleRounds gates rounds first m).1
  | 0, _, _, _ => .refl
  | rounds + 1, first, m, hm => by
    have hpoll : Change m (m.poll gates).1 := .poll m gates
    have hsettled : ∀ p ∈ (m.poll gates).2,
        .deferred p.1.owner .operation ∈ (m.poll gates).1.journal :=
      fun p hp => hm.jobs p.1 (mem_jobs_of_poll hp)
    unfold settleRounds
    split
    · rename_i heq
      rw [heq] at hpoll
      exact .single hpoll
    · rename_i m' settled _ heq
      rw [heq] at hpoll hsettled
      have hall := hpoll.changes.trans
        (settleAll_changes settled first hsettled (hpoll.faithful hm))
      exact hall.trans (settleRounds_changes gates rounds _ (hall.faithful hm))

theorem pollOperations_changes (gates : Gates) (hm : m.Faithful) :
    Changes m (m.pollOperations gates).1 :=
  (settleRounds_changes gates _ none hm).trans (flush_changes _)

section

/-! ### The start -/

/-- A machine as it enters its first states. -/
def begin (design : Design D) (settings : Settings) (c : Compiled D) (tree : Tree) : Machine D :=
  { initial design settings c with tree }.note (.reached tree)

/-- A tree is the first one of a compiled design. -/
def Begins (c : Compiled D) (data : D) (tree : Tree) : Prop :=
  c.tree.activate ((⟨c.table, .null⟩ : Context D).initialChild data) (fun _ => false)
    (.target .fresh) = (tree, none)

variable {design : Design D} {settings : Settings} {id : String} {c : Compiled D} {tree : Tree}

theorem plain_begin (hc : design.compile id = .ok c) (htree : Begins c design.data tree) :
    (begin design settings c tree).tree.plain = c.tree := by
  rw [show (begin design settings c tree).tree = _ from (congrArg Prod.fst htree).symm]
  exact (Tree.activate_rel c.tree _).plain_eq.trans (Design.tree_of_compile hc).2.1

theorem faithful_begin (hc : design.compile id = .ok c) (htree : Begins c design.data tree) :
    (begin design settings c tree).Faithful where
  plain := (plain_begin hc htree).symm ▸ (Design.tree_of_compile hc).1
  reached := rfl
  sound := ⟨nofun, trivial⟩
  tasks _ hp := nomatch hp
  jobs _ hjob := nomatch hjob

theorem create_changes {fresh : String} (h : create design settings fresh = .ok m) :
    ∃ c tree, design.compile (design.id.getD fresh) = .ok c ∧ Begins c design.data tree ∧
      Changes (begin design settings c tree) m := by
  unfold create at h
  split at h
  · cases h
  · rename_i c hc
    unfold start at h
    dsimp only at h
    split at h
    · cases h
    · rename_i tree htree
      have hbegins : Begins c design.data tree := htree
      have hbegin : (begin design settings c tree).Faithful := faithful_begin hc hbegins
      have henter : ∀ r, forNodes (enter .null "start") (tree.activeNodes.map Tree.node)
          (begin design settings c tree) = r → Chores (begin design settings c tree) r.1 := by
        rintro _ rfl
        exact forNodes_chores fun n _ m' _ => enter_chores m' n .null "start"
      split at h
      · cases h
      · rename_i m₁ requests heq
        have hmove := (henter _ heq).acts.trans (moveAll_acts .null "start" m₁.settings.maxTransitions
          requests m₁)
        have hfinish := hmove.changes.trans (finish_changes
          (moveAll .null "start" m₁.settings.maxTransitions requests m₁).2.1
          (moveAll .null "start" m₁.settings.maxTransitions requests m₁).2.2
          (hmove.faithful hbegin))
        split at h
        · cases h
        · rename_i m₂ hdone
          rw [hdone] at hfinish
          cases h
          exact ⟨c, tree, hc, hbegins, hfinish.trans (flush_changes m₂)⟩

end

/-! ### Steps and runs -/

/-- What is done to a machine from outside: an operation, or a part of an advance, which does
one thing after another that is due and then moves the clock on. -/
inductive Step : Machine D → Machine D → Prop
  | send (m : Machine D) (e : Event) : Step m (m.send e).1
  | pop {m m' : Machine D} {horizon : Span} {failure : Option MachineError}
    (h : m.popStep horizon = some (m', failure)) : Step m m'
  | settle {m : Machine D} {horizon : Span} (done : m.popStep horizon = none) :
    Step m { m with timeline := m.timeline.settle horizon }
  | poll (m : Machine D) (gates : Gates) : Step m (m.pollOperations gates).1
  | subscribe (m : Machine D) : Step m m.subscribe.1
  | unsubscribe (m : Machine D) (s : Nat) : Step m (m.unsubscribe s).1

abbrev Steps : Machine D → Machine D → Prop := Relation.ReflTransGen Step

/-- A machine that a design with these settings gives, after any steps. -/
def Reached (design : Design D) (settings : Settings) (fresh : String) (m : Machine D) : Prop :=
  ∃ m₀, create design settings fresh = .ok m₀ ∧ Steps m₀ m

theorem Step.changes {m m' : Machine D} (h : Step m m') (hm : m.Faithful) : Changes m m' := by
  cases h with
  | send e => exact send_changes e hm
  | pop h => exact popStep_changes h hm
  | settle done => exact .single (.settle m _)
  | poll gates => exact pollOperations_changes gates hm
  | subscribe => exact .single (.subscribe m)
  | unsubscribe s => exact .single (.unsubscribe m s)

theorem Steps.changes {m m' : Machine D} (h : Steps m m') (hm : m.Faithful) : Changes m m' := by
  induction h with
  | refl => exact .refl
  | tail _ hstep ih => exact ih.trans (hstep.changes (ih.faithful hm))

theorem popAll_steps {horizon : Span} {limit : Nat} {first : Option MachineError}
    {m : Machine D} {r : Machine D × Option MachineError}
    (h : popAll horizon limit first m = some r) :
    Steps m r.1 ∧ r.1.popStep horizon = none := by
  induction limit generalizing first m with
  | zero =>
    unfold popAll at h
    split at h
    · rename_i hnone
      cases h
      exact ⟨.refl, hnone⟩
    · cases h
  | succ limit ih =>
    unfold popAll at h
    split at h
    · rename_i hnone
      cases h
      exact ⟨.refl, hnone⟩
    · rename_i hpop
      obtain ⟨hsteps, hdone⟩ := ih h
      exact ⟨.head (.pop hpop) hsteps, hdone⟩

/-- An advance that comes to its end is some steps. -/
theorem advance_steps {limit : Nat} {gates : Gates} {by_ : Span} {m : Machine D}
    {r : Machine D × Option MachineError} (h : m.advance limit gates by_ = some r) :
    Steps m r.1 := by
  unfold advance at h
  dsimp only at h
  split at h
  · cases h
  · rename_i hpop
    obtain ⟨hsteps, hdone⟩ := popAll_steps hpop
    cases h
    exact (hsteps.tail (.settle hdone)).tail (.poll _ gates)

/-- A machine at some moment of its life: any changes after its beginning. -/
def Arises (design : Design D) (settings : Settings) (fresh : String) (m : Machine D) : Prop :=
  ∃ c tree, design.compile (design.id.getD fresh) = .ok c ∧ Begins c design.data tree ∧
    Changes (begin design settings c tree) m

variable {design : Design D} {settings : Settings} {fresh : String}

namespace Arises

theorem changes {m' : Machine D} (h : Arises design settings fresh m) (hchanges : Changes m m') :
    Arises design settings fresh m' := by
  obtain ⟨c, tree, hc, htree, hbegin⟩ := h
  exact ⟨c, tree, hc, htree, hbegin.trans hchanges⟩

/-- The journals of the machines that a design gives are faithful at all times. -/
theorem faithful (h : Arises design settings fresh m) : m.Faithful := by
  obtain ⟨c, tree, hc, htree, hbegin⟩ := h
  exact hbegin.faithful (faithful_begin hc htree)

/-- A machine stays one of its design. -/
theorem compiled (h : Arises design settings fresh m) {c : Compiled D}
    (hc : design.compile (design.id.getD fresh) = .ok c) :
    m.design = design ∧ m.settings = settings ∧ m.table = c.table ∧ m.tree.plain = c.tree := by
  obtain ⟨c', tree, hc', htree, hbegin⟩ := h
  obtain rfl : c' = c := Except.ok.inj (hc'.symm.trans hc)
  refine ⟨hbegin.onward.design, hbegin.onward.settings, hbegin.onward.table, ?_⟩
  exact hbegin.plain_eq.trans (plain_begin hc htree)

end Arises

namespace Reached

theorem of_create (h : create design settings fresh = .ok m) : Reached design settings fresh m :=
  ⟨m, h, .refl⟩

theorem steps {m' : Machine D} (h : Reached design settings fresh m) (hsteps : Steps m m') :
    Reached design settings fresh m' :=
  h.imp fun _ h => ⟨h.1, h.2.trans hsteps⟩

theorem arises (h : Reached design settings fresh m) : Arises design settings fresh m := by
  obtain ⟨m₀, hcreate, hsteps⟩ := h
  have hm₀ : Arises design settings fresh m₀ := create_changes hcreate
  exact hm₀.changes (hsteps.changes hm₀.faithful)

end Reached

end Machine
end Statechart
