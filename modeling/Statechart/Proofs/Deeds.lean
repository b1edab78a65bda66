/-
# What a machine does as a whole

The elementary changes of a machine are parts of larger things that it does as a whole
(`Machine.Deed`): it answers an event, makes a transition with all the nodes left and entered
on the way, or does work that was put off. What holds of a machine between these need not hold
on the way: in a transition the tree is changed first and the work under way after it. Every
operation is a course of deeds; where something is due on the timeline, it is taken off first
(`Machine.popStep_deeds`).

Each of the larger deeds fails or asks for transitions, and what it asks for is made next
(`Machine.follow`). What runs of chains come to is data, events and waits: all else is as it was
before them (`Machine.commit_eq`, `Machine.execute_eq`). What lasts through the runs of chains and
the work that is put off lasts through a transition from its arrival on (`Machine.Lasts.passage`).
What lasts through every deed but the runs of repeaters lasts through the operations that run none
(`Machine.Durable`).

Key definitions: `Machine.runsFor`, `Machine.answer`, `Machine.follow`, `Machine.Deed`,
`Machine.Deeds`, `Machine.Passage`, `Machine.Lasts`, `Machine.Durable`, `Machine.perform`.
Key theorems: `Machine.handle_eq_follow`, `Machine.Deed.changes`, `Machine.commit_eq`,
`Machine.execute_eq`, `Machine.move_passage`, `Machine.Durable.follow`, `Machine.send_deeds`,
`Machine.popStep_deeds`, `Machine.pollOperations_deeds`, `Machine.create_started`,
`Machine.create_deeds`.
-/
import Statechart.Proofs.Rest

namespace Statechart
namespace Machine

variable {D : Type} {m : Machine D}

/-! ### Deeds -/

/-- The runs of the chains for an event, up to the first that fails or breaks off. -/
def runsFor (m : Machine D) (e : Event) : List (Lease × Run D) :=
  traverse (m.context e.payload) (m.chainsFor e.name) { base := m.data }

/-- Answer an event: run its chains and take over what they come to, or change nothing if one
of them fails. The result is the transitions they ask for. -/
def answer (m : Machine D) (e : Event) : Machine D × Except MachineError (List Request) :=
  match (m.runsFor e).findSome? fun r => failure? r.2 with
  | some failure => (m.note (.handled e), .error (.eval e.name failure))
  | none => ((m.note (.handled e)).commit e.payload (m.runsFor e), .ok (requestsOf (m.runsFor e)))

/-- Make the transitions that were asked for, unless there was a failure. -/
def follow (payload : Json) (event : String) (budget : Nat) :
    Machine D × Except MachineError (List Request) → Machine D × Nat × Option MachineError
  | (m, .error e) => (m, budget, some e)
  | (m, .ok requests) => moveAll payload event budget requests m

/-- One thing that a machine does as a whole, with the clock standing still. -/
inductive Deed : Machine D → Machine D → Prop
  | receive (m : Machine D) (e : Event) : Deed m (m.enqueue e)
  | answer {m : Machine D} {e : Event} {rest : List Event} (queue : m.queue = e :: rest) :
    Deed m ({ m with queue := rest }.answer e).1
  /-- The events in the queue go, as there were too many. -/
  | drop (m : Machine D) : Deed m { m with queue := [] }
  | move {m : Machine D} {target : Tree} (mem : target ∈ m.tree.preorder) (recalls : Recall)
    (payload : Json) (event : String) : Deed m (m.move target recalls payload event).1
  /-- Work that was put off is done, as its lease is current. -/
  | work {m : Machine D} {owner : Lease} {role : Role} {work : Deferral}
    (current : m.tree.isCurrent owner = true) (kind : role.deferral = some work)
    (due : .deferred owner work ∈ m.journal) (payload : Json) (event : String)
    (run : Context D → WorkingCopy D → Run D) :
    Deed m (m.execute owner.node role payload event run).1
  | flush (m : Machine D) : Deed m m.flush
  | poll (m : Machine D) (gates : Gates) : Deed m (m.poll gates).1

abbrev Deeds : Machine D → Machine D → Prop := Relation.ReflTransGen Deed

theorem Deed.deeds {m m' : Machine D} (h : Deed m m') : Deeds m m' := .single h

theorem Deeds.trans {m₁ m₂ m₃ : Machine D} (h : Deeds m₁ m₂) (k : Deeds m₂ m₃) : Deeds m₁ m₃ :=
  Relation.ReflTransGen.trans h k

theorem handle_eq_follow (m : Machine D) (budget : Nat) (e : Event) :
    m.handle budget e = follow e.payload e.name budget (m.answer e) := by
  unfold handle answer
  show (match (m.runsFor e).findSome? fun r => failure? r.2 with
    | some failure => (m.note (.handled e), budget, some (MachineError.eval e.name failure))
    | none => moveAll e.payload e.name budget (requestsOf (m.runsFor e))
        ((m.note (.handled e)).commit e.payload (m.runsFor e))) = _
  cases (m.runsFor e).findSome? fun r => failure? r.2 with
  | none => rfl
  | some failure => rfl

theorem answer_chores (hm : m.tree.WellFormed) (e : Event) :
    Chores (m.note (.handled e)) (m.answer e).1 := by
  unfold answer
  split
  · exact .refl
  · refine commit_chores e.payload fun r hr => ?_
    obtain ⟨c, hc, howner⟩ := fst_mem_of_mem_traverse hr
    rw [← howner]
    exact lease_of_mem_chainsFor hm hc

theorem work_chores {owner : Lease} {role : Role} {work : Deferral}
    (current : m.tree.isCurrent owner = true) (kind : role.deferral = some work)
    (due : .deferred owner work ∈ m.journal) (payload : Json) (event : String)
    (run : Context D → WorkingCopy D → Run D) :
    Chores m (m.execute owner.node role payload event run).1 := by
  have hlease := Tree.lease_eq_of_isCurrent current
  refine execute_chores owner.node role ?_ ?_ payload event run
  · rintro rfl
    cases kind
  · intro work' hwork
    obtain rfl : work = work' := Option.some.inj (kind.symm.trans hwork)
    rw [hlease]
    exact ⟨current, due⟩

/-- A deed is a course of changes. -/
theorem Deed.changes {m m' : Machine D} (h : Deed m m') (hm : m.Faithful) : Changes m m' := by
  cases h with
  | receive e => exact .single (.receive m e)
  | @answer e rest queue =>
    have htake : Change m ({ m with queue := rest }.note (.handled e)) := .take queue
    have hanswer := answer_chores (m := { m with queue := rest }) hm.wellFormed e
    exact .head htake hanswer.acts.changes
  | drop => exact .single (.drop m)
  | move mem recalls payload event => exact (move_acts mem recalls payload event).changes
  | work current kind due payload event run =>
    exact (work_chores current kind due payload event run).acts.changes
  | flush => exact flush_changes m
  | poll gates => exact .single (.poll m gates)

theorem Deeds.changes {m m' : Machine D} (h : Deeds m m') (hm : m.Faithful) : Changes m m' := by
  induction h with
  | refl => exact .refl
  | tail _ hdeed ih => exact ih.trans (hdeed.changes (ih.faithful hm))

/-! ### What runs of chains leave alone -/

/-- The waits that runs ended in, each under the lease of its node. -/
def waitsOf (runs : List (Lease × Run D)) : List (Lease × Continuation) :=
  runs.filterMap fun r => r.2.continuation?.map (r.1, ·)

theorem postponeAll_eq (payload : Json) (waits : List (Lease × Continuation)) (m : Machine D) :
    ∃ journal, waits.foldl (fun m w => m.postpone payload w.1 w.2) m = { m with
      timeline := waits.foldl (fun s w => s.setTimeout w.1 w.2.delay (.resume w.2 payload)) m.timeline
      journal } := by
  induction waits generalizing m with
  | nil => exact ⟨m.journal, rfl⟩
  | cons w waits ih => exact ih (m.postpone payload w.1 w.2)

theorem enqueueAll_eq (events : List Event) (m : Machine D) :
    ∃ queue journal, events.foldl enqueue m = { m with queue, journal } := by
  induction events generalizing m with
  | nil => exact ⟨m.queue, m.journal, rfl⟩
  | cons e events ih => exact ih (m.enqueue e)

theorem takeOver_eq (m : Machine D) (payload : Json) (waits : List (Lease × Continuation))
    (events : List Event) : ∃ queue journal,
      events.foldl enqueue (waits.foldl (fun m w => m.postpone payload w.1 w.2) m) = { m with
        queue, journal
        timeline := waits.foldl
          (fun s w => s.setTimeout w.1 w.2.delay (.resume w.2 payload)) m.timeline } := by
  obtain ⟨journal, hwaits⟩ := postponeAll_eq payload waits m
  rw [hwaits]
  obtain ⟨queue, journal', hevents⟩ := enqueueAll_eq events { m with
    journal
    timeline := waits.foldl (fun s w => s.setTimeout w.1 w.2.delay (.resume w.2 payload)) m.timeline }
  exact ⟨queue, journal', hevents⟩

/-- To take over what runs came to sets their waits on the timeline. It changes the data, the
queue and what is owed, and nothing else. -/
theorem commit_eq (m : Machine D) (payload : Json) (runs : List (Lease × Run D)) :
    ∃ data owed queue journal, m.commit payload runs = { m with
      data, owed, queue, journal
      timeline := (waitsOf runs).foldl
        (fun s w => s.setTimeout w.1 w.2.delay (.resume w.2 payload)) m.timeline } := by
  let sends := runs.flatMap fun (r : Lease × Run D) => r.2.sends
  let passed := runs.flatMap fun (r : Lease × Run D) => r.2.passed
  obtain ⟨data, owed, hcommit⟩ : ∃ data owed, m.commit payload runs =
      sends.foldl enqueue ((waitsOf runs).foldl (fun m w => m.postpone payload w.1 w.2)
        ({ m with data, owed }.note (.committed passed))) := ⟨_, _, rfl⟩
  obtain ⟨queue, journal, heq⟩ :=
    takeOver_eq ({ m with data, owed }.note (.committed passed)) payload (waitsOf runs) sends
  exact ⟨data, owed, queue, journal, hcommit.trans heq⟩

theorem execute_eq (m : Machine D) (index : Nat) (role : Role) (payload : Json) (event : String)
    (run : Context D → WorkingCopy D → Run D) : ∃ data owed queue timeline journal,
      (m.execute index role payload event run).1 = { m with data, owed, queue, timeline, journal } := by
  unfold execute
  dsimp only
  split
  · exact ⟨_, _, _, _, _, rfl⟩
  · obtain ⟨data, owed, queue, journal, heq⟩ :=
      commit_eq (m.note (.ran (m.tree.lease index) role m.timeline.now)) payload
        [(m.tree.lease index, run (m.context payload) { base := m.data })]
    exact ⟨data, owed, queue, _, journal, heq⟩

theorem executeChain_eq (m : Machine D) (index : Nat) (role : Role) (payload : Json)
    (event : String) (chain : Option Chain) : ∃ data owed queue timeline journal,
      (m.executeChain index role payload event chain).1 =
        { m with data, owed, queue, timeline, journal } := by
  cases chain with
  | none => exact ⟨_, _, _, _, _, rfl⟩
  | some chain => exact execute_eq m index role payload event fun ctx copy => ctx.run chain copy

theorem answer_eq (m : Machine D) (e : Event) : ∃ data owed queue timeline journal,
    (m.answer e).1 = { m with data, owed, queue, timeline, journal } := by
  unfold answer
  split
  · exact ⟨_, _, _, _, _, rfl⟩
  · obtain ⟨data, owed, queue, journal, heq⟩ :=
      commit_eq (m.note (.handled e)) e.payload (m.runsFor e)
    exact ⟨data, owed, queue, _, journal, heq⟩

theorem flush_eq (m : Machine D) :
    ∃ owed journal, m.flush = { m with snapshot := m.view, owed, journal } := by
  have hnotes : ∀ (ss : List Nat) (m : Machine D), ∃ journal,
      ss.foldl (fun m s => m.note (.notified s m.snapshot)) m = { m with journal } := by
    intro ss
    induction ss with
    | nil => exact fun m => ⟨m.journal, rfl⟩
    | cons s ss ih => exact fun m => ih (m.note (.notified s m.snapshot))
  unfold flush
  dsimp only
  split
  · obtain ⟨journal, heq⟩ := hnotes m.subscribers { m with snapshot := m.view, owed := false }
    exact ⟨false, journal, heq⟩
  · exact ⟨m.owed, m.journal, rfl⟩

/-! ### What a transition comes to -/

/-- The nodes that are not active any more in the tree, in pre-order. -/
def leaves (m : Machine D) (tree : Tree) : List Node :=
  (m.tree.activeNodes.map Tree.node).filter fun n => !tree.activeAt n.index

/-- The nodes that are active in the tree and were not before, in pre-order. -/
def enters (m : Machine D) (tree : Tree) : List Node :=
  (tree.activeNodes.map Tree.node).filter fun n => !m.tree.wasActive n.index

/-- A machine in a transition to a tree, before it leaves and enters nodes. -/
def arrive (m : Machine D) (target : Tree) (recalls : Recall) (tree : Tree) : Machine D :=
  ({ m with
    tree
    log := m.log.record (m.transition target recalls tree) }.note (.reached tree)).note
      (.moved (m.transition target recalls tree))

/-- How the tree is activated in a transition. -/
def activates (m : Machine D) (target : Tree) (recalls : Recall) (payload : Json) :
    Tree × Option FunctionError :=
  m.tree.activate (m.chooser payload) m.tree.wasActive (.down target.node.trail recalls)

/-- What a transition comes to: the activation fails, a chain fails as nodes are left or as
they are entered, or all of it is done. -/
inductive Passage (m : Machine D) (target : Tree) (recalls : Recall) (payload : Json)
    (event : String) : Machine D × Except MachineError (List Request) → Prop
  | fallen {tree : Tree} {e : FunctionError}
    (activation : m.activates target recalls payload = (tree, some e)) :
    Passage m target recalls payload event
      ({ m with tree }.note (.reached tree), .error (.eval event e))
  | leaving {tree : Tree} {m₁ : Machine D} {e : MachineError}
    (activation : m.activates target recalls payload = (tree, none))
    (left : forNodes (leave payload event) (m.leaves tree).reverse (m.arrive target recalls tree) =
      (m₁, .error e)) :
    Passage m target recalls payload event (m₁, .error e)
  | entering {tree : Tree} {m₁ m₂ : Machine D} {requests : List Request} {e : MachineError}
    (activation : m.activates target recalls payload = (tree, none))
    (left : forNodes (leave payload event) (m.leaves tree).reverse (m.arrive target recalls tree) =
      (m₁, .ok requests))
    (entered : forNodes (enter payload event) (m.enters tree) m₁ = (m₂, .error e)) :
    Passage m target recalls payload event (m₂, .error e)
  | done {tree : Tree} {m₁ m₂ : Machine D} {requests more : List Request}
    (activation : m.activates target recalls payload = (tree, none))
    (left : forNodes (leave payload event) (m.leaves tree).reverse (m.arrive target recalls tree) =
      (m₁, .ok requests))
    (entered : forNodes (enter payload event) (m.enters tree) m₁ = (m₂, .ok more)) :
    Passage m target recalls payload event (m₂, .ok (requests ++ more))

theorem move_passage (m : Machine D) (target : Tree) (recalls : Recall) (payload : Json)
    (event : String) :
    Passage m target recalls payload event (m.move target recalls payload event) := by
  unfold move
  dsimp only
  split
  · rename_i h
    exact .fallen h
  · rename_i tree h
    split
    · rename_i hleave
      exact .leaving h hleave
    · rename_i hleave
      split
      · rename_i henter
        exact .entering h hleave henter
      · rename_i henter
        exact .done h hleave henter

/-- What is kept for each of some nodes is kept for all of them. -/
theorem forNodes_keeps {P : Machine D → Prop}
    {f : Node → Machine D → Machine D × Except MachineError (List Request)} :
    ∀ {ns : List Node} {m : Machine D} {r : Machine D × Except MachineError (List Request)},
      forNodes f ns m = r → (∀ n ∈ ns, ∀ m, P m → P (f n m).1) → P m → P r.1
  | [], _, _, rfl, _, hm => hm
  | n :: ns, m, _, rfl, h, hm => by
    have hn := h n List.mem_cons_self m hm
    rw [forNodes]
    split
    · rename_i heq
      rw [heq] at hn
      exact hn
    · rename_i m' requests heq
      rw [heq] at hn
      have hns : P (forNodes f ns m').1 :=
        forNodes_keeps rfl (fun k hk => h k (List.mem_cons_of_mem n hk)) hn
      split <;> rename_i heq' <;> rw [heq'] at hns <;> exact hns

/-- What is done for a node and others without a failure is done for the node, and then for the
others. -/
theorem forNodes_cons_eq_ok {f : Node → Machine D → Machine D × Except MachineError (List Request)}
    {n : Node} {ns : List Node} {m m' : Machine D} {requests : List Request}
    (h : forNodes f (n :: ns) m = (m', .ok requests)) : ∃ m₁ first more,
      f n m = (m₁, .ok first) ∧ forNodes f ns m₁ = (m', .ok more) := by
  rw [forNodes] at h
  split at h
  · cases h
  · rename_i m₁ first heq
    split at h
    · cases h
    · rename_i m₂ more heq'
      cases h
      exact ⟨m₁, first, more, heq, heq'⟩

/-! ### What lasts through a transition -/

/-- A relation between machines lasts through what is done while the configuration stays: chains
are run, timers and operations go, and work is put off. -/
structure Lasts (R : Machine D → Machine D → Prop) : Prop where
  refl : ∀ m, R m m
  trans : ∀ {m₁ m₂ m₃}, R m₁ m₂ → R m₂ m₃ → R m₁ m₃
  run : ∀ (m : Machine D) index role payload event (chain : Chain),
    R m (m.execute index role payload event fun ctx copy => ctx.run chain copy).1
  abandon : ∀ (m : Machine D) timeline jobs, R m { m with timeline, jobs }
  defer : ∀ (m : Machine D) timeline jobs owner work,
    R m ({ m with timeline, jobs }.note (.deferred owner work))

namespace Lasts

variable {R : Machine D → Machine D → Prop} (hR : Lasts R)
include hR

theorem executeChain (m : Machine D) (index : Nat) (role : Role) (payload : Json) (event : String)
    (chain : Option Chain) : R m (m.executeChain index role payload event chain).1 := by
  cases chain with
  | none => exact hR.refl m
  | some chain => exact hR.run m index role payload event chain

theorem leave (payload : Json) (event : String) (n : Node) (m : Machine D) :
    R m (m.leave payload event n).1 := by
  let m' : Machine D := { m with
    timeline := m.timeline.cancel n.index
    jobs := m.jobs.filter fun job => job.owner.node ≠ n.index }
  have habandon : R m m' := hR.abandon m _ _
  exact hR.trans habandon (hR.executeChain m' n.index .exit payload event n.handlers.onExit)

theorem enter (payload : Json) (event : String) (n : Node) (m : Machine D) :
    R m (m.enter payload event n).1 := by
  let owner := m.tree.lease n.index
  have hstart : R m (m.startRepeater payload owner n.handlers.repeater) := by
    cases n.handlers.repeater with
    | none => exact hR.refl m
    | some r => exact hR.defer m _ _ owner .repeater
  have hchain := hR.trans hstart
    (hR.executeChain _ n.index .enter payload event n.handlers.onEnter)
  unfold Machine.enter
  dsimp only
  split <;> rename_i heq <;> rw [heq] at hchain
  · exact hchain
  · rename_i m' requests
    have hlaunch : R m' (m'.launch payload owner n.handlers.awaiting) := by
      cases n.handlers.awaiting with
      | none => exact hR.refl m'
      | some a => exact hR.defer m' _ _ owner .operation
    exact hR.trans hchain hlaunch

theorem forNodes {f : Node → Machine D → Machine D × Except MachineError (List Request)}
    (h : ∀ n m, R m (f n m).1) {ns : List Node} {m : Machine D}
    {r : Machine D × Except MachineError (List Request)} (heq : forNodes f ns m = r) : R m r.1 :=
  forNodes_keeps heq (fun n _ m' hm' => hR.trans hm' (h n m')) (hR.refl m)

/-- It relates the machine that arrives at a tree to what the transition comes to, unless the
activation failed. -/
theorem passage {target : Tree} {recalls : Recall} {payload : Json} {event : String}
    {r : Machine D × Except MachineError (List Request)}
    (h : Passage m target recalls payload event r) :
    (∃ tree, r.1 = { m with tree }.note (.reached tree)) ∨
      ∃ tree, R (m.arrive target recalls tree) r.1 := by
  cases h with
  | @fallen tree => exact Or.inl ⟨tree, rfl⟩
  | @leaving tree _ _ _ left => exact Or.inr ⟨tree, hR.forNodes (hR.leave payload event) left⟩
  | @entering tree _ _ _ _ _ left entered =>
    have hleft := hR.forNodes (hR.leave payload event) left
    exact Or.inr ⟨tree, hR.trans hleft (hR.forNodes (hR.enter payload event) entered)⟩
  | @done tree _ m₂ _ more _ left entered =>
    have hleft := hR.forNodes (hR.leave payload event) left
    have hentered : R _ m₂ := hR.forNodes (hR.enter payload event) entered
    exact Or.inr ⟨tree, hR.trans hleft hentered⟩

end Lasts

/-! ### What lasts through the operations -/

/-- A property of machines lasts through all that they do as a whole, but for the runs of
repeaters. -/
structure Durable (P : Machine D → Prop) : Prop where
  receive : ∀ {m : Machine D} (e : Event), P m → P (m.enqueue e)
  answer : ∀ {m : Machine D} {e : Event} {rest : List Event}, m.queue = e :: rest → P m →
    P ({ m with queue := rest }.answer e).1
  drop : ∀ {m : Machine D}, P m → P { m with queue := [] }
  move : ∀ {m : Machine D} {target : Tree}, target ∈ m.tree.preorder →
    ∀ recalls payload event, P m → P (m.move target recalls payload event).1
  work : ∀ {m : Machine D} {owner : Lease} {role : Role} {work : Deferral},
    m.tree.isCurrent owner = true → role.deferral = some work → work ≠ .repeater →
    .deferred owner work ∈ m.journal → ∀ payload event (run : Context D → WorkingCopy D → Run D),
      P m → P (m.execute owner.node role payload event run).1
  flush : ∀ {m : Machine D}, P m → P m.flush
  poll : ∀ {m : Machine D} (gates : Gates), P m → P (m.poll gates).1

namespace Durable

variable {P : Machine D → Prop} (hP : Durable P)
include hP

theorem moveAll (payload : Json) (event : String) : ∀ (budget : Nat) (requests : List Request)
    {m : Machine D}, P m → P (moveAll payload event budget requests m).1
  | budget, [], m, hm => by
    rwa [moveAll_nil]
  | 0, _ :: _, _, hm => hm
  | budget + 1, q :: rest, m, hm => by
    unfold Machine.moveAll
    split
    · exact hm
    · exact hm
    · rename_i target recalls rest h
      have hmove := hP.move (mem_of_nextTarget h) recalls payload event hm
      split <;> rename_i heq <;> rw [heq] at hmove
      · exact hmove
      · exact moveAll payload event budget _ hmove

theorem follow {out : Machine D × Except MachineError (List Request)} (h : P out.1)
    (payload : Json) (event : String) (budget : Nat) :
    P (follow payload event budget out).1 := by
  obtain ⟨m', e | requests⟩ := out
  · exact h
  · exact hP.moveAll payload event budget requests h

theorem handle {e : Event} {rest : List Event} (hqueue : m.queue = e :: rest) (hm : P m)
    (budget : Nat) : P ({ m with queue := rest }.handle budget e).1 := by
  rw [handle_eq_follow]
  exact hP.follow (hP.answer hqueue hm) e.payload e.name budget

theorem drain (first : Option MachineError) (events budget : Nat) {m : Machine D} (hm : P m) :
    P (m.drain first events budget).1 := by
  induction events generalizing first budget m with
  | zero =>
    unfold Machine.drain
    split
    · exact hm
    · exact hP.drop hm
  | succ events ih =>
    unfold Machine.drain
    split
    · exact hm
    · rename_i e rest hqueue
      exact ih _ _ (hP.flush (hP.handle hqueue hm budget))

theorem finish (budget : Nat) (first : Option MachineError) {m : Machine D} (hm : P m) :
    P (m.finish budget first).1 := hP.drain first _ budget hm

theorem send (e : Event) (hm : P m) : P (m.send e).1 := hP.finish _ none (hP.receive e hm)

/-- What comes after a wait is not the run of a repeater. -/
theorem fire {owner : Lease} {task : Task} (waits : task.deferral = .wait)
    (h : .deferred owner .wait ∈ m.journal) (budget : Nat) (interval : Span) (hm : P m) :
    P (m.fire budget owner task interval).1 := by
  unfold Machine.fire
  split
  · exact hm
  · rename_i hcurrent
    have hcurrent : m.tree.isCurrent owner = true := by simpa using hcurrent
    cases task with
    | resume rest payload =>
      have hkind : Role.resume.deferral = some .wait := rfl
      exact hP.follow (hP.work hcurrent hkind nofun h payload "wait" _ hm) payload "wait" budget
    | repeating => cases waits

theorem settle {job : Job} (h : .deferred job.owner .operation ∈ m.journal)
    (hcurrent : m.tree.isCurrent job.owner = true) (s : Settlement) (hm : P m) :
    P (m.settle job s).1 := by
  unfold Machine.settle
  dsimp only
  split
  · exact hm
  · have hkind : Role.settlement.deferral = some .operation := rfl
    have hwork := hP.work hcurrent hkind nofun h job.payload "async"
    exact hP.follow (hwork _ hm) job.payload "async" _

end Durable

/-! ### Deeds of the operations -/

theorem deeds_durable (m₀ : Machine D) : Durable (Deeds m₀) where
  receive e h := h.tail (.receive _ e)
  answer queue h := h.tail (.answer queue)
  drop h := h.tail (.drop _)
  move mem recalls payload event h := h.tail (.move mem recalls payload event)
  work current kind _ due payload event run h := h.tail (.work current kind due payload event run)
  flush h := h.tail (.flush _)
  poll gates h := h.tail (.poll _ gates)

theorem follow_deeds {out : Machine D × Except MachineError (List Request)} (h : Deed m out.1)
    (payload : Json) (event : String) (budget : Nat) :
    Deeds m (follow payload event budget out).1 :=
  (deeds_durable m).follow h.deeds payload event budget

theorem finish_deeds (budget : Nat) (first : Option MachineError) (m : Machine D) :
    Deeds m (m.finish budget first).1 := (deeds_durable m).finish budget first .refl

theorem send_deeds (m : Machine D) (e : Event) : Deeds m (m.send e).1 :=
  (deeds_durable m).send e .refl

theorem fire_deeds {owner : Lease} {task : Task} (h : .deferred owner task.deferral ∈ m.journal)
    (budget : Nat) (interval : Span) : Deeds m (m.fire budget owner task interval).1 := by
  unfold fire
  split
  · exact .refl
  · rename_i hcurrent
    have hcurrent : m.tree.isCurrent owner = true := by simpa using hcurrent
    cases task with
    | resume rest payload =>
      have hwork : Deed m (m.execute owner.node .resume payload "wait" fun ctx copy =>
          ctx.resume rest copy).1 := .work hcurrent rfl h payload "wait" _
      exact follow_deeds hwork payload "wait" budget
    | repeating chain started =>
      let elapsed := m.timeline.now.sub started
      have hwork : Deed m (m.execute owner.node (.repeating interval elapsed)
          (repeatPayload interval elapsed) "repeat" fun ctx copy => ctx.run chain copy).1 :=
        .work hcurrent rfl h (repeatPayload interval elapsed) "repeat" _
      exact follow_deeds hwork (repeatPayload interval elapsed) "repeat" budget

theorem fireAll_deeds (interval : Span) : ∀ (tasks : List (Lease × Task)) (budget : Nat)
    {m : Machine D}, m.Faithful → (∀ p ∈ tasks, .deferred p.1 p.2.deferral ∈ m.journal) →
      Deeds m (fireAll interval tasks budget m).1
  | [], _, _, _, _ => .refl
  | (owner, task) :: rest, budget, m, hm, h => by
    have hfire := fire_deeds (h _ List.mem_cons_self) budget interval
    have hchanges := hfire.changes hm
    refine hfire.trans (fireAll_deeds interval rest _ (hchanges.faithful hm) fun p hp => ?_)
    exact hchanges.onward.journal.subset (h p (List.mem_cons_of_mem _ hp))

/-- Do what is due: the task of a timer, or those of a frame in order. -/
def perform (m : Machine D) : Due Task → Machine D × Nat × Option MachineError
  | .timer owner task period => m.fire m.settings.maxTransitions owner task (period.getD .zero)
  | .frame tasks interval => fireAll interval tasks m.settings.maxTransitions m

/-- What is due is done as a whole before the machine is flushed, and the events that it sent are
handled after that. -/
theorem popStep_eq {horizon : Span} {due : Due Task} {timeline : Timeline Task}
    (h : m.timeline.popDue horizon = some (due, timeline)) {m₁ : Machine D} {budget : Nat}
    {failure : Option MachineError} (hdue : { m with timeline }.perform due = (m₁, budget, failure)) :
    m.popStep horizon = some (m₁.flush.finish budget failure) := by
  unfold popStep
  rw [h]
  cases due <;> exact congrArg (fun out => some (out.1.flush.finish out.2.1 out.2.2)) hdue

/-- What is due is taken off the timeline, and the rest is a course of deeds. -/
theorem popStep_deeds {horizon : Span} {r : Machine D × Option MachineError}
    (h : m.popStep horizon = some r) (hm : m.Faithful) :
    ∃ due timeline, m.timeline.popDue horizon = some (due, timeline) ∧
      Deeds { m with timeline } r.1 := by
  unfold popStep at h
  split at h
  · cases h
  · rename_i due timeline hpop
    refine ⟨due, timeline, hpop, ?_⟩
    have hm' : ({ m with timeline } : Machine D).Faithful := (Change.pop hpop).faithful hm
    have hdue : ∀ p ∈ due.tasks, .deferred p.1 p.2.deferral ∈ m.journal := fun p hp =>
      hm.tasks p ((Timeline.mem_tasks_of_popDue hpop).1 p hp)
    have hfinish : ∀ {m' : Machine D} (budget : Nat) (failure : Option MachineError),
        Deeds { m with timeline } m' → Deeds { m with timeline } (m'.flush.finish budget failure).1 :=
      fun budget failure hdeeds => (hdeeds.tail (.flush _)).trans (finish_deeds budget failure _)
    cases due with
    | timer owner task period =>
      cases h
      exact hfinish _ _ (fire_deeds (m := { m with timeline })
        (hdue (owner, task) List.mem_cons_self) _ _)
    | frame tasks interval =>
      cases h
      exact hfinish _ _ (fireAll_deeds (m := { m with timeline }) interval tasks _ hm' hdue)

theorem settle_deeds {job : Job} (h : .deferred job.owner .operation ∈ m.journal)
    (hcurrent : m.tree.isCurrent job.owner = true) (s : Settlement) :
    Deeds m (m.settle job s).1 :=
  (deeds_durable m).settle h hcurrent s .refl

namespace Durable

variable {P : Machine D → Prop} (hP : Durable P)
include hP

theorem settleAll : ∀ (settled : List (Job × Settlement)) (first : Option MachineError)
    {m : Machine D}, (∀ p ∈ settled, .deferred p.1.owner .operation ∈ m.journal) →
      m.Faithful → P m → P (settleAll first settled m).1
  | [], _, _, _, _, hm => hm
  | (job, s) :: rest, first, m, h, hfaithful, hm => by
    unfold Machine.settleAll
    split
    · exact settleAll rest first (fun p hp => h p (List.mem_cons_of_mem _ hp)) hfaithful hm
    · rename_i hcurrent
      have hcurrent : m.tree.isCurrent job.owner = true := by simpa using hcurrent
      have hjob := h _ List.mem_cons_self
      have hdone := hP.finish (m.settle job s).2.1 (m.settle job s).2.2
        (hP.settle hjob hcurrent s hm)
      have hdeeds : Deeds m _ := ((settle_deeds hjob hcurrent s).trans
        (finish_deeds (m.settle job s).2.1 (m.settle job s).2.2 _)).tail (.flush _)
      have hchanges := hdeeds.changes hfaithful
      refine settleAll rest _ (fun p hp => ?_) (hchanges.faithful hfaithful) (hP.flush hdone)
      exact hchanges.onward.journal.subset (h p (List.mem_cons_of_mem _ hp))

theorem settleRounds (gates : Gates) : ∀ (rounds : Nat) (first : Option MachineError)
    {m : Machine D}, m.Faithful → P m → P (settleRounds gates rounds first m).1
  | 0, _, _, _, hm => hm
  | rounds + 1, first, m, hfaithful, hm => by
    have hpoll := hP.poll gates hm
    have hpolled : (m.poll gates).1.Faithful := (Change.poll m gates).faithful hfaithful
    have hsettled : ∀ p ∈ (m.poll gates).2,
        .deferred p.1.owner .operation ∈ (m.poll gates).1.journal :=
      fun p hp => hfaithful.jobs p.1 (mem_jobs_of_poll hp)
    unfold Machine.settleRounds
    split <;> rename_i heq
    · rw [heq] at hpoll
      exact hpoll
    · rw [heq] at hpoll hsettled hpolled
      have hall := ((deeds_durable _).settleAll _ first hsettled hpolled .refl).changes hpolled
      exact settleRounds gates rounds _ (hall.faithful hpolled)
        (hP.settleAll _ first hsettled hpolled hpoll)

theorem pollOperations (gates : Gates) (hfaithful : m.Faithful) (hm : P m) :
    P (m.pollOperations gates).1 :=
  hP.flush (hP.settleRounds gates _ none hfaithful hm)

end Durable

theorem pollOperations_deeds (gates : Gates) (hm : m.Faithful) :
    Deeds m (m.pollOperations gates).1 :=
  (deeds_durable m).pollOperations gates hm .refl

theorem started_chores {design : Design D} {settings : Settings} {c : Compiled D} {tree : Tree}
    {requests : List Request}
    (h : forNodes (enter .null "start") (tree.activeNodes.map Tree.node)
      (begin design settings c tree) = (m, .ok requests)) :
    Chores (begin design settings c tree) m := by
  have hall : Chores _ (forNodes (enter .null "start") (tree.activeNodes.map Tree.node)
      (begin design settings c tree)).1 :=
    forNodes_chores fun n _ m' _ => enter_chores m' n .null "start"
  rwa [h] at hall

/-- A machine enters its first states, and what is durable lasts through the rest of its creation. -/
theorem create_started {design : Design D} {settings : Settings} {fresh : String}
    (h : create design settings fresh = .ok m) :
    ∃ c tree m₁ requests, design.compile (design.id.getD fresh) = .ok c ∧
      Begins c design.data tree ∧
      forNodes (enter .null "start") (tree.activeNodes.map Tree.node)
        (begin design settings c tree) = (m₁, .ok requests) ∧
      ∀ {P : Machine D → Prop}, Durable P → P m₁ → P m := by
  unfold create at h
  split at h
  · cases h
  · rename_i c hc
    unfold start at h
    dsimp only at h
    split at h
    · cases h
    · rename_i tree htree
      split at h
      · cases h
      · rename_i m₁ requests henter
        split at h
        · cases h
        · rename_i m₂ hdone
          cases h
          refine ⟨c, tree, m₁, requests, hc, htree, henter, fun hP hm₁ => hP.flush ?_⟩
          have hmove := hP.moveAll .null "start" m₁.settings.maxTransitions requests hm₁
          have hfinish := hP.finish
            (moveAll .null "start" m₁.settings.maxTransitions requests m₁).2.1
            (moveAll .null "start" m₁.settings.maxTransitions requests m₁).2.2 hmove
          rwa [hdone] at hfinish

/-- A machine enters its first states, and the rest of its creation is a course of deeds. -/
theorem create_deeds {design : Design D} {settings : Settings} {fresh : String}
    (h : create design settings fresh = .ok m) :
    ∃ c tree m₁ requests, design.compile (design.id.getD fresh) = .ok c ∧
      Begins c design.data tree ∧
      forNodes (enter .null "start") (tree.activeNodes.map Tree.node)
        (begin design settings c tree) = (m₁, .ok requests) ∧ Deeds m₁ m := by
  obtain ⟨c, tree, m₁, requests, hc, htree, henter, hdurable⟩ := create_started h
  exact ⟨c, tree, m₁, requests, hc, htree, henter, hdurable (deeds_durable m₁) .refl⟩

end Machine
end Statechart
