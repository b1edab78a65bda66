/-
# What a machine does, bit by bit

All that a machine does is made of a few elementary changes. Some of them leave it in its
configuration (`Machine.Chore`): a chain is run, what it came to is taken over, work is put
off, work is dropped. With two more it makes transitions (`Machine.Act`): an activation
succeeds or fails. The rest is what drives it (`Machine.Change`): events come into the queue
and go from it, the clock moves, operations are polled, subscribers come and go and are
notified. What runs chains and makes transitions is a course of these
(`Machine.moveAll_acts`, `Machine.handle_acts`), so what every change keeps it keeps, at each
moment of it.

No change touches the design, and the journal only grows (`Machine.Onward`); the tree stays
as it is or is activated (`Machine.Change.tree_cases`).

Key definitions: `Machine.Chore`, `Machine.Act`, `Machine.Change`, `Machine.Changes`,
`Machine.Onward`, `Machine.Enters`.
Key theorems: `Machine.exists_act_move`, `Machine.moveAll_acts`, `Machine.handle_acts`,
`Machine.Changes.onward`, `Machine.Change.tree_cases`.
-/
import Mathlib.Logic.Relation
import Statechart.Machine.Step
import Statechart.Proofs.Activation
import Statechart.Proofs.Journal

namespace Statechart
namespace Machine

variable {D : Type}

/-! ### Elementary changes -/

/-- One thing that a machine does while it stays in its configuration. -/
inductive Chore : Machine D → Machine D → Prop
  /-- A chain of a node is run: an exit chain when the node is not active, and the chain of
  work that was put off when the lease is current that the work was put off under. -/
  | run {m : Machine D} {index : Nat} {role : Role}
    (exit : role = .exit → m.tree.activeAt index = false)
    (due : ∀ work, role.deferral = some work → m.tree.isCurrent (m.tree.lease index) = true ∧
      .deferred (m.tree.lease index) work ∈ m.journal) :
    Chore m (m.note (.ran (m.tree.lease index) role m.timeline.now))
  /-- What runs came to is taken over. -/
  | takeOver (m : Machine D) (data : D) (owed : Bool) (passed : List Handler) :
    Chore m ({ m with data, owed }.note (.committed passed))
  | postpone (m : Machine D) (payload : Json) (index : Nat) (rest : Continuation) :
    Chore m (m.postpone payload (m.tree.lease index) rest)
  | enqueue (m : Machine D) (e : Event) : Chore m (m.enqueue e)
  /-- The timers and operations of a node go. -/
  | abandon (m : Machine D) (index : Nat) :
    Chore m { m with
      timeline := m.timeline.cancel index
      jobs := m.jobs.filter fun job => job.owner.node ≠ index }
  | startRepeater (m : Machine D) (payload : Json) (index : Nat) (r : Option Repeater) :
    Chore m (m.startRepeater payload (m.tree.lease index) r)
  | launch (m : Machine D) (payload : Json) (index : Nat) (a : Option Awaiting) :
    Chore m (m.launch payload (m.tree.lease index) a)

abbrev Chores : Machine D → Machine D → Prop := Relation.ReflTransGen Chore

/-- How initial rules are decided in a transition. -/
def chooser (m : Machine D) (payload : Json) : Tree.Chooser :=
  (m.context payload).initialChild m.data

/-- What the log says of a transition that led to a tree. -/
def transition (m : Machine D) (target : Tree) (recalls : Recall) (tree : Tree) : Transition where
  target := target.node.path
  recalls
  exited := ((m.tree.activeNodes.map Tree.node).filter fun n => !tree.activeAt n.index).map (·.path)
  entered := ((tree.activeNodes.map Tree.node).filter fun n => !m.tree.wasActive n.index).map (·.path)
  time := m.timeline.now.nanos

/-- One thing that a machine does when it runs chains and makes transitions. -/
inductive Act : Machine D → Machine D → Prop
  | chore {m m' : Machine D} (h : Chore m m') : Act m m'
  /-- An activation fails. -/
  | fall {m : Machine D} {payload : Json} {target : Tree} {recalls : Recall} {tree : Tree}
    {e : FunctionError} (mem : target ∈ m.tree.preorder)
    (h : m.tree.activate (m.chooser payload) m.tree.wasActive (.down target.node.trail recalls) =
      (tree, some e)) :
    Act m ({ m with tree }.note (.reached tree))
  /-- An activation succeeds. -/
  | move {m : Machine D} {payload : Json} {target : Tree} {recalls : Recall} {tree : Tree}
    (mem : target ∈ m.tree.preorder)
    (h : m.tree.activate (m.chooser payload) m.tree.wasActive (.down target.node.trail recalls) =
      (tree, none)) :
    Act m (({ m with
      tree
      log := m.log.record (m.transition target recalls tree) }.note (.reached tree)).note
        (.moved (m.transition target recalls tree)))

abbrev Acts : Machine D → Machine D → Prop := Relation.ReflTransGen Act

/-- One thing that a machine does. -/
inductive Change : Machine D → Machine D → Prop
  | act {m m' : Machine D} (h : Act m m') : Change m m'
  | receive (m : Machine D) (e : Event) : Change m (m.enqueue e)
  /-- The first event is taken from the queue to be handled. -/
  | take {m : Machine D} {e : Event} {rest : List Event} (queue : m.queue = e :: rest) :
    Change m ({ m with queue := rest }.note (.handled e))
  /-- The events in the queue go, as there were too many. -/
  | drop (m : Machine D) : Change m { m with queue := [] }
  /-- The snapshot is brought up to date. -/
  | refresh (m : Machine D) (owed : Bool) : Change m { m with snapshot := m.view, owed }
  | notify (m : Machine D) (s : Nat) : Change m (m.note (.notified s m.snapshot))
  | pop {m : Machine D} {horizon : Span} {due : Due Task} {timeline : Timeline Task}
    (h : m.timeline.popDue horizon = some (due, timeline)) : Change m { m with timeline }
  | settle (m : Machine D) (horizon : Span) :
    Change m { m with timeline := m.timeline.settle horizon }
  | poll (m : Machine D) (gates : Gates) : Change m (m.poll gates).1
  | subscribe (m : Machine D) : Change m m.subscribe.1
  | unsubscribe (m : Machine D) (s : Nat) : Change m (m.unsubscribe s).1

abbrev Changes : Machine D → Machine D → Prop := Relation.ReflTransGen Change

theorem Chores.trans {m₁ m₂ m₃ : Machine D} (h : Chores m₁ m₂) (k : Chores m₂ m₃) : Chores m₁ m₃ :=
  Relation.ReflTransGen.trans h k

theorem Acts.trans {m₁ m₂ m₃ : Machine D} (h : Acts m₁ m₂) (k : Acts m₂ m₃) : Acts m₁ m₃ :=
  Relation.ReflTransGen.trans h k

theorem Changes.trans {m₁ m₂ m₃ : Machine D} (h : Changes m₁ m₂) (k : Changes m₂ m₃) :
    Changes m₁ m₃ := Relation.ReflTransGen.trans h k

theorem Change.changes {m m' : Machine D} (h : Change m m') : Changes m m' := .single h

theorem Chores.acts {m m' : Machine D} (h : Chores m m') : Acts m m' :=
  Relation.ReflTransGen.mono (fun _ _ => Act.chore) _ _ h

theorem Acts.changes {m m' : Machine D} (h : Acts m m') : Changes m m' :=
  Relation.ReflTransGen.mono (fun _ _ => Change.act) _ _ h

/-! ### Chores of the operations -/

theorem Chore.tree_eq {m m' : Machine D} (h : Chore m m') : m'.tree = m.tree := by
  cases h with
  | startRepeater payload index r => cases r <;> rfl
  | launch payload index a => cases a <;> rfl
  | _ => rfl

theorem Chores.tree_eq {m m' : Machine D} (h : Chores m m') : m'.tree = m.tree := by
  induction h with
  | refl => rfl
  | tail _ hstep ih => exact hstep.tree_eq.trans ih

theorem postponeAll_chores (payload : Json) : ∀ (waits : List (Lease × Continuation))
    {m : Machine D}, (∀ w ∈ waits, m.tree.lease w.1.node = w.1) →
      Chores m (waits.foldl (fun m (owner, rest) => m.postpone payload owner rest) m)
  | [], _, _ => .refl
  | (owner, rest) :: waits, m, h => by
    have hfirst : Chore m (m.postpone payload owner rest) := by
      have hlease : m.tree.lease owner.node = owner := h _ List.mem_cons_self
      have := Chore.postpone m payload owner.node rest
      rwa [hlease] at this
    have hrest := postponeAll_chores payload waits (m := m.postpone payload owner rest)
      fun w hw => h w (List.mem_cons_of_mem _ hw)
    exact .head hfirst hrest

theorem enqueueAll_chores : ∀ (events : List Event) (m : Machine D),
    Chores m (events.foldl enqueue m)
  | [], _ => .refl
  | e :: events, m => .head (.enqueue m e) (enqueueAll_chores events (m.enqueue e))

theorem commit_chores {m : Machine D} (payload : Json) {runs : List (Lease × Run D)}
    (h : ∀ r ∈ runs, m.tree.lease r.1.node = r.1) : Chores m (m.commit payload runs) := by
  unfold commit
  refine .head (.takeOver m _ _ _) (.trans (postponeAll_chores payload _ fun w hw => ?_)
    (enqueueAll_chores _ _))
  obtain ⟨⟨owner, r⟩, hr, hw⟩ := List.mem_filterMap.mp hw
  obtain ⟨rest, -, rfl⟩ := Option.map_eq_some_iff.mp hw
  exact h _ hr

theorem execute_chores {m : Machine D} (index : Nat) (role : Role)
    (exit : role = .exit → m.tree.activeAt index = false)
    (due : ∀ work, role.deferral = some work → m.tree.isCurrent (m.tree.lease index) = true ∧
      .deferred (m.tree.lease index) work ∈ m.journal)
    (payload : Json) (event : String) (run : Context D → WorkingCopy D → Run D) :
    Chores m (m.execute index role payload event run).1 := by
  have hrun : Chore m (m.note (.ran (m.tree.lease index) role m.timeline.now)) := .run exit due
  unfold execute
  dsimp only
  split
  · exact .single hrun
  · refine .head hrun ?_
    dsimp only
    refine commit_chores payload fun r hr => ?_
    obtain rfl := List.mem_singleton.mp hr
    rfl

theorem executeChain_chores {m : Machine D} (index : Nat) (role : Role)
    (exit : role = .exit → m.tree.activeAt index = false) (due : role.deferral = none)
    (payload : Json) (event : String) (chain : Option Chain) :
    Chores m (m.executeChain index role payload event chain).1 := by
  cases chain with
  | none => exact .refl
  | some chain =>
    exact execute_chores index role exit (fun work h => nomatch due.symm.trans h) payload event _

theorem leave_chores {m : Machine D} {n : Node} (h : m.tree.activeAt n.index = false)
    (payload : Json) (event : String) : Chores m (m.leave payload event n).1 := by
  let m' : Machine D := { m with
    timeline := m.timeline.cancel n.index
    jobs := m.jobs.filter fun job => job.owner.node ≠ n.index }
  have hrun : Chores m' (m'.executeChain n.index .exit payload event n.handlers.onExit).1 :=
    executeChain_chores (m := m') n.index .exit (fun _ => h) rfl payload event n.handlers.onExit
  exact .head (.abandon m n.index) hrun

/-- When a node is entered, what comes after the start of its repeater. -/
theorem enter_started_chores (m : Machine D) (n : Node) (payload : Json) (event : String) :
    Chores (m.startRepeater payload (m.tree.lease n.index) n.handlers.repeater)
      (m.enter payload event n).1 := by
  have hrepeater := Chore.startRepeater m payload n.index n.handlers.repeater
  have hrun : Chores _ (executeChain (m.startRepeater payload (m.tree.lease n.index)
      n.handlers.repeater) n.index .enter payload event n.handlers.onEnter).1 :=
    executeChain_chores n.index .enter nofun rfl payload event n.handlers.onEnter
  have htree := hrun.tree_eq.trans hrepeater.tree_eq
  unfold enter
  dsimp only
  split
  · rename_i heq
    rw [heq] at hrun
    exact hrun
  · rename_i m' requests heq
    rw [heq] at hrun htree
    have hlaunch := Chore.launch m' payload n.index n.handlers.awaiting
    rw [htree] at hlaunch
    exact hrun.tail hlaunch

theorem enter_chores (m : Machine D) (n : Node) (payload : Json) (event : String) :
    Chores m (m.enter payload event n).1 :=
  .head (.startRepeater m payload n.index n.handlers.repeater)
    (enter_started_chores m n payload event)

theorem forNodes_chores {f : Node → Machine D → Machine D × Except MachineError (List Request)} :
    ∀ {ns : List Node} {m : Machine D},
      (∀ n ∈ ns, ∀ m' : Machine D, m'.tree = m.tree → Chores m' (f n m').1) →
        Chores m (forNodes f ns m).1
  | [], _, _ => .refl
  | n :: ns, m, h => by
    have hn := h n List.mem_cons_self m rfl
    have htree := hn.tree_eq
    rw [forNodes]
    split
    · rename_i heq
      rw [heq] at hn
      exact hn
    · rename_i m' requests heq
      rw [heq] at hn htree
      have hns : Chores m' (forNodes f ns m').1 := forNodes_chores fun k hk m'' hm'' =>
        h k (List.mem_cons_of_mem n hk) m'' (hm''.trans htree)
      split <;> rename_i heq' <;> rw [heq'] at hns <;> exact hn.trans hns

/-! ### Acts of the operations -/

/-- A transition activates its target, and the rest of it leaves the configuration as it is. -/
theorem exists_act_move {m : Machine D} {target : Tree} (mem : target ∈ m.tree.preorder)
    (recalls : Recall) (payload : Json) (event : String) :
    ∃ m₁, Act m m₁ ∧ m₁.tree = (m.tree.activate (m.chooser payload) m.tree.wasActive
        (.down target.node.trail recalls)).1 ∧
      Chores m₁ (m.move target recalls payload event).1 := by
  unfold move
  dsimp only
  split
  · rename_i tree e h
    exact ⟨_, .fall mem h, (congrArg Prod.fst h).symm, .refl⟩
  · rename_i tree h
    let exited := (m.tree.activeNodes.map Tree.node).filter fun n => !tree.activeAt n.index
    let m₁ := ({ m with
      tree
      log := m.log.record (m.transition target recalls tree) }.note (.reached tree)).note
        (.moved (m.transition target recalls tree))
    refine ⟨m₁, .move mem h, (congrArg Prod.fst h).symm, ?_⟩
    -- The nodes to leave are those that are not active in the tree that was reached.
    have hleave : ∀ r, forNodes (leave payload event) exited.reverse m₁ = r → Chores m₁ r.1 := by
      rintro _ rfl
      refine forNodes_chores fun n hn m₂ hm₂ => leave_chores ?_ payload event
      have hinactive := (List.mem_filter.mp (List.mem_reverse.mp hn)).2
      rw [hm₂]
      exact Bool.not_eq_true' _ ▸ hinactive
    split
    · rename_i heq
      exact hleave _ heq
    · rename_i m₂ requests heq
      have henter : Chores m₂ (forNodes (enter payload event)
          ((tree.activeNodes.map Tree.node).filter fun n => !m.tree.wasActive n.index) m₂).1 :=
        forNodes_chores fun n _ m' _ => enter_chores m' n payload event
      have hall := (hleave _ heq).trans henter
      split
      · rename_i heq'
        rw [heq'] at hall
        exact hall
      · rename_i heq'
        rw [heq'] at hall
        exact hall

theorem move_acts {m : Machine D} {target : Tree} (mem : target ∈ m.tree.preorder)
    (recalls : Recall) (payload : Json) (event : String) :
    Acts m (m.move target recalls payload event).1 := by
  obtain ⟨m₁, hact, -, hchores⟩ := exists_act_move mem recalls payload event
  exact .head hact hchores.acts

theorem move_tree {m : Machine D} {target : Tree} (mem : target ∈ m.tree.preorder)
    (recalls : Recall) (payload : Json) (event : String) :
    (m.move target recalls payload event).1.tree =
      (m.tree.activate (m.chooser payload) m.tree.wasActive (.down target.node.trail recalls)).1 := by
  obtain ⟨m₁, -, htree, hchores⟩ := exists_act_move mem recalls payload event
  exact hchores.tree_eq.trans htree

theorem mem_of_nextTarget {m : Machine D} : ∀ {requests : List Request} {target : Tree}
    {recalls : Recall} {rest : List Request},
      m.nextTarget requests = .ok (some (target, recalls, rest)) → target ∈ m.tree.preorder
  | [], _, _, _, h => nomatch h
  | q :: qs, target, recalls, rest, h => by
    rw [nextTarget] at h
    split at h
    · rename_i u hu
      cases h
      exact (Tree.selects_of_resolve hu).1
    · split at h
      · cases h
      · exact mem_of_nextTarget h

theorem moveAll_acts (payload : Json) (event : String) : ∀ (budget : Nat)
    (requests : List Request) (m : Machine D), Acts m (moveAll payload event budget requests m).1
  | budget, [], m => by
    rw [moveAll_nil]
  | 0, _ :: _, _ => .refl
  | budget + 1, q :: rest, m => by
    unfold moveAll
    split
    · exact .refl
    · exact .refl
    · rename_i target recalls rest h
      have hmove := move_acts (mem_of_nextTarget h) recalls payload event
      split
      · rename_i heq
        rw [heq] at hmove
        exact hmove
      · rename_i m' requests heq
        rw [heq] at hmove
        exact hmove.trans (moveAll_acts payload event budget (requests ++ rest) m')

/-- Each chain of an event is run under the lease that its node has. -/
theorem lease_of_mem_chainsFor {m : Machine D} (hm : m.tree.WellFormed) {event : String}
    {c : Lease × Chain} (hc : c ∈ m.chainsFor event) : m.tree.lease c.1.node = c.1 := by
  obtain ⟨t, ht, hc⟩ := List.mem_flatMap.mp hc
  obtain ⟨chain, -, rfl⟩ := List.mem_map.mp hc
  have hfind := hm.find?_eq_some_iff.mpr ⟨(Tree.mem_activeNodes ht).1, rfl⟩
  rw [Tree.lease, hfind]
  rfl

theorem fst_mem_of_mem_traverse {ctx : Context D} : ∀ {chains : List (Lease × Chain)}
    {copy : WorkingCopy D} {r : Lease × Run D}, r ∈ traverse ctx chains copy →
      ∃ c ∈ chains, c.1 = r.1
  | (owner, chain) :: rest, copy, r, h => by
    rw [traverse] at h
    have hfirst : r = (owner, ctx.run chain copy) → ∃ c ∈ (owner, chain) :: rest, c.1 = r.1 :=
      fun heq => ⟨_, List.mem_cons_self, heq ▸ rfl⟩
    split at h
    · exact hfirst (List.mem_singleton.mp h)
    · exact hfirst (List.mem_singleton.mp h)
    · rcases List.mem_cons.mp h with heq | h
      · exact hfirst heq
      · obtain ⟨c, hc, heq⟩ := fst_mem_of_mem_traverse h
        exact ⟨c, List.mem_cons_of_mem _ hc, heq⟩

theorem handle_acts {m : Machine D} (hm : m.tree.WellFormed) (budget : Nat) (e : Event) :
    Acts (m.note (.handled e)) (m.handle budget e).1 := by
  unfold handle
  dsimp only
  split
  · exact .refl
  · refine .trans (Chores.acts (commit_chores e.payload fun r hr => ?_))
      (moveAll_acts e.payload e.name budget _ _)
    obtain ⟨c, hc, heq⟩ := fst_mem_of_mem_traverse hr
    rw [← heq]
    exact lease_of_mem_chainsFor hm hc

/-! ### What a change keeps -/

/-- The machine is of the same design and has gone on from where it was. -/
structure Onward (m m' : Machine D) : Prop where
  design : m'.design = m.design
  settings : m'.settings = m.settings
  table : m'.table = m.table
  journal : m.journal <:+ m'.journal

theorem Onward.refl (m : Machine D) : Onward m m := ⟨rfl, rfl, rfl, List.suffix_refl _⟩

theorem Onward.trans {m₁ m₂ m₃ : Machine D} (h : Onward m₁ m₂) (k : Onward m₂ m₃) :
    Onward m₁ m₃ where
  design := k.design.trans h.design
  settings := k.settings.trans h.settings
  table := k.table.trans h.table
  journal := h.journal.trans k.journal

theorem Chore.onward {m m' : Machine D} (h : Chore m m') : Onward m m' := by
  cases h with
  | startRepeater payload index r =>
    cases r with
    | none => exact .refl m
    | some r => exact ⟨rfl, rfl, rfl, List.suffix_cons _ _⟩
  | launch payload index a =>
    cases a with
    | none => exact .refl m
    | some a => exact ⟨rfl, rfl, rfl, List.suffix_cons _ _⟩
  | abandon index => exact ⟨rfl, rfl, rfl, List.suffix_refl _⟩
  | _ => exact ⟨rfl, rfl, rfl, List.suffix_cons _ _⟩

theorem Act.onward {m m' : Machine D} (h : Act m m') : Onward m m' := by
  cases h with
  | chore h => exact h.onward
  | fall => exact ⟨rfl, rfl, rfl, List.suffix_cons _ _⟩
  | move => exact ⟨rfl, rfl, rfl, (List.suffix_cons _ _).trans (List.suffix_cons _ _)⟩

theorem Change.onward {m m' : Machine D} (h : Change m m') : Onward m m' := by
  cases h with
  | act h => exact h.onward
  | receive => exact ⟨rfl, rfl, rfl, List.suffix_cons _ _⟩
  | take => exact ⟨rfl, rfl, rfl, List.suffix_cons _ _⟩
  | notify => exact ⟨rfl, rfl, rfl, List.suffix_cons _ _⟩
  | unsubscribe s =>
    unfold Machine.unsubscribe
    dsimp only
    split
    · exact ⟨rfl, rfl, rfl, List.suffix_cons _ _⟩
    · exact ⟨rfl, rfl, rfl, List.suffix_refl _⟩
  | _ => exact ⟨rfl, rfl, rfl, List.suffix_refl _⟩

theorem Changes.onward {m m' : Machine D} (h : Changes m m') : Onward m m' := by
  induction h with
  | refl => exact .refl m
  | tail _ hstep ih => exact ih.trans hstep.onward

/-- The tree is one that a transition of the machine leads to, or a failure of one. -/
def Enters (m : Machine D) (t : Tree) : Prop :=
  ∃ target ∈ m.tree.preorder, ∃ (recalls : Recall) (payload : Json),
    t = (m.tree.activate (m.chooser payload) m.tree.wasActive
      (.down target.node.trail recalls)).1

theorem Enters.plain_eq {m : Machine D} {t : Tree} (h : m.Enters t) : t.plain = m.tree.plain := by
  obtain ⟨target, -, recalls, payload, rfl⟩ := h
  exact (Tree.activate_rel m.tree _).plain_eq

theorem Enters.later {m : Machine D} {t : Tree} (h : m.Enters t) : m.tree.Later t := by
  obtain ⟨target, -, recalls, payload, rfl⟩ := h
  exact Tree.later_activate m.tree _

theorem Act.tree_cases {m m' : Machine D} (h : Act m m') :
    m'.tree = m.tree ∨ m.Enters m'.tree := by
  cases h with
  | chore h => exact Or.inl h.tree_eq
  | fall mem h => exact Or.inr ⟨_, mem, _, _, (congrArg Prod.fst h).symm⟩
  | move mem h => exact Or.inr ⟨_, mem, _, _, (congrArg Prod.fst h).symm⟩

/-- A change leaves the tree as it is, or activates a node of it. -/
theorem Change.tree_cases {m m' : Machine D} (h : Change m m') :
    m'.tree = m.tree ∨ m.Enters m'.tree := by
  cases h with
  | act h => exact h.tree_cases
  | unsubscribe s =>
    unfold Machine.unsubscribe
    dsimp only
    split <;> exact Or.inl rfl
  | _ => exact Or.inl rfl

theorem Change.plain_eq {m m' : Machine D} (h : Change m m') : m'.tree.plain = m.tree.plain := by
  rcases h.tree_cases with heq | henters
  · rw [heq]
  · exact henters.plain_eq

theorem Changes.plain_eq {m m' : Machine D} (h : Changes m m') : m'.tree.plain = m.tree.plain := by
  induction h with
  | refl => rfl
  | tail _ hstep ih => exact hstep.plain_eq.trans ih

end Machine
end Statechart
