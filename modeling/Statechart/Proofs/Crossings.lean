/-
# The chains of a transition

When a transition has been made, the exit chains of the nodes that it left run, and then the
entry chains of those that it entered. If nothing fails, the journal has all of these runs
between the transition and the next one, and no other runs of exit or entry chains
(`Machine.Crosses`, `Journal.leg`): nodes are left in the reverse of their pre-order, so each
after all below it, and entered in pre-order, so each before all below it
(`Tree.pairwise_nodes`). What the chains ask for comes after them.

With what replaying the transitions comes to, this is what the log of a machine tells of it
(`Machine.Reached.log_replays`).

Key definitions: `Node.Above`, `Node.exitRuns`, `Node.entryRuns`, `Tree.nodesAt`,
`Journal.leg`, `Machine.Crosses`.
Key theorems: `Tree.pairwise_nodes`, `Machine.leave_crosses`, `Machine.enter_crosses`,
`Machine.Deed.legs`, `Machine.Reached.log_replays`.
-/
import Mathlib.Data.List.TakeWhile
import Statechart.Proofs.Replay

namespace Statechart

/-! ### The order of nodes -/

/-- A node is above another: the trail of the other goes on from its own. -/
def Node.Above (n k : Node) : Prop := n.trail <+: k.trail ∧ n.trail ≠ k.trail

/-- What is run when a node is left: its exit chain, if it has one. -/
def Node.exitRuns (n : Node) : List (Nat × Role) :=
  if n.handlers.onExit.isSome then [(n.index, .exit)] else []

/-- What is run when a node is entered: its entry chain, if it has one. -/
def Node.entryRuns (n : Node) : List (Nat × Role) :=
  if n.handlers.onEnter.isSome then [(n.index, .enter)] else []

namespace Tree

/-- The nodes at some paths, in pre-order. -/
def nodesAt (t : Tree) (paths : List String) : List Node := t.nodes.filter fun n => n.path ∈ paths

theorem nodesAt_map_path {t : Tree} (h : (t.nodes.map (·.path)).Nodup) (f : Node → Bool) :
    t.nodesAt ((t.nodes.filter f).map (·.path)) = t.nodes.filter f := by
  refine List.filter_congr fun n hn => ?_
  rw [Bool.eq_iff_iff, decide_eq_true_iff]
  exact path_mem_iff h hn f

/-- Below a child of a node there are just the nodes whose trails go on from its own. -/
theorem WellFormed.prefix_child {t c u : Tree} (h : t.WellFormed) (hc : c ∈ t.children)
    (hu : u ∈ c.preorder) : t.node.trail ++ [c.node.name] <+: u.node.trail := by
  obtain ⟨names, hnames⟩ := (h.of_child hc).exists_trail_eq hu
  rw [hnames, h.trails t t.self_mem_preorder c hc]
  exact List.prefix_append _ _

/-- In pre-order no node comes after one that is below it. -/
theorem pairwise_nodes {t : Tree} : t.WellFormed → t.nodes.Pairwise fun n k => ¬ k.Above n := by
  induction t using Tree.induction with
  | mk n a cs ih =>
    intro h
    rw [nodes, preorder_mk, List.map_cons, List.pairwise_cons, List.map_flatMap,
      List.pairwise_flatMap]
    refine ⟨fun k hk habove => ?_, fun c hc => ih c hc (h.of_child hc), ?_⟩
    · -- The trail of the root is a beginning of every other.
      obtain ⟨c, hc, hk⟩ := List.mem_flatMap.mp hk
      obtain ⟨u, hu, rfl⟩ := List.mem_map.mp hk
      have hbelow := (List.prefix_append _ _).trans (h.prefix_child hc hu)
      exact habove.2 (habove.1.eq_of_length_le hbelow.length_le)
    · have hnames := h.names _ (self_mem_preorder _)
      rw [children_mk, List.nodup_iff_pairwise_ne, List.pairwise_map] at hnames
      refine hnames.imp_of_mem fun {c d} hc hd hne k hk l hl habove => ?_
      obtain ⟨u, hu, rfl⟩ := List.mem_map.mp hk
      obtain ⟨v, hv, rfl⟩ := List.mem_map.mp hl
      -- A node below one child has the name of that child in its trail, at the place where
      -- those below the others have another name.
      have hcu := h.prefix_child hc hu
      have hdu := (h.prefix_child hd hv).trans habove.1
      have heq := List.prefix_of_prefix_length_le hcu hdu (by simp)
      have hnames := heq.eq_of_length (by simp)
      exact hne (List.singleton_inj.mp (List.append_cancel_left hnames))

theorem pairwise_nodesAt {t : Tree} (h : t.WellFormed) (paths : List String) :
    (t.nodesAt paths).Pairwise fun n k => ¬ k.Above n := (pairwise_nodes h).filter _

end Tree

variable {D : Type}

/-! ### Runs of exit and entry chains -/

/-- The place of the node whose exit or entry chain was run, and which of them it was. -/
def Happening.crossing? : Happening D → Option (Nat × Role)
  | ran owner role _ => if role = .exit ∨ role = .enter then some (owner.node, role) else none
  | _ => none

theorem Happening.moved?_of_arranges {e : Happening D} (h : e.arranges = true) :
    e.moved? = none := by
  cases e <;> first | rfl | cases h

theorem Happening.crossing?_of_arranges {e : Happening D} (h : e.arranges = true) :
    e.crossing? = none := by
  cases e <;> first | rfl | cases h

namespace Journal

/-- The runs of exit and entry chains, the first one first. -/
def crossings (es : List (Happening D)) : List (Nat × Role) := es.reverse.filterMap (·.crossing?)

@[simp] theorem crossings_append (late early : List (Happening D)) :
    crossings (late ++ early) = crossings early ++ crossings late := by
  rw [crossings, List.reverse_append, List.filterMap_append, crossings, crossings]

theorem crossings_eq_nil {es : List (Happening D)} (h : ∀ e ∈ es, e.crossing? = none) :
    crossings es = [] :=
  List.filterMap_eq_nil_iff.mpr fun e he => h e (List.mem_reverse.mp he)

/-- The runs of exit and entry chains until the next transition, the first one first. -/
def leg (es : List (Happening D)) : List (Nat × Role) :=
  (es.reverse.takeWhile fun e => e.moved?.isNone).filterMap (·.crossing?)

theorem leg_eq_crossings {es : List (Happening D)} (h : ∀ e ∈ es, e.moved? = none) :
    leg es = crossings es := by
  rw [leg, List.takeWhile_eq_self_iff.mpr fun e he => by rw [h e (List.mem_reverse.mp he)]; rfl]
  rfl

/-- A transition ends the runs of the one before it. -/
theorem leg_append_moved (late early : List (Happening D)) (t : Transition) :
    leg (late ++ .moved t :: early) = leg early := by
  have hstop : ∀ es : List (Happening D),
      (es ++ .moved t :: late.reverse).takeWhile (fun e => e.moved?.isNone) =
        es.takeWhile fun e => e.moved?.isNone := by
    intro es
    induction es with
    | nil => rfl
    | cons e es ih => rw [List.cons_append, List.takeWhile_cons, List.takeWhile_cons, ih]
  rw [leg, List.reverse_append, List.reverse_cons, List.append_assoc, List.singleton_append, hstop]
  rfl

/-- What is no transition and no run of an exit or entry chain makes no difference. -/
theorem leg_append {late : List (Happening D)} (moved : ∀ e ∈ late, e.moved? = none)
    (crossing : crossings late = []) (early : List (Happening D)) :
    leg (late ++ early) = leg early := by
  have hgo : ∀ es : List (Happening D),
      ((es ++ late.reverse).takeWhile fun e => e.moved?.isNone).filterMap (·.crossing?) =
        (es.takeWhile fun e => e.moved?.isNone).filterMap (·.crossing?) := by
    intro es
    induction es with
    | nil =>
      have hall : late.reverse.takeWhile (fun e => e.moved?.isNone) = late.reverse :=
        List.takeWhile_eq_self_iff.mpr fun e he => by rw [moved e (List.mem_reverse.mp he)]; rfl
      rw [List.nil_append, hall]
      exact crossing
    | cons e es ih =>
      rw [List.cons_append, List.takeWhile_cons, List.takeWhile_cons]
      split
      · rw [List.filterMap_cons, List.filterMap_cons, ih]
      · rfl
  rw [leg, List.reverse_append]
  exact hgo early.reverse

end Journal

namespace Machine

variable {m m' : Machine D}

/-- The journal says that these exit and entry chains were run, and of no transition. -/
def Crosses (m : Machine D) (runs : List (Nat × Role)) (m' : Machine D) : Prop :=
  ∃ late, m'.journal = late ++ m.journal ∧ (∀ e ∈ late, e.moved? = none) ∧
    Journal.crossings late = runs

namespace Crosses

theorem refl (m : Machine D) : Crosses m [] m := ⟨[], rfl, fun _ h => (List.not_mem_nil h).elim, rfl⟩

theorem trans {m₁ m₂ m₃ : Machine D} {runs more : List (Nat × Role)} (h : Crosses m₁ runs m₂)
    (k : Crosses m₂ more m₃) : Crosses m₁ (runs ++ more) m₃ := by
  obtain ⟨late, hjournal, hmoved, hruns⟩ := h
  obtain ⟨later, kjournal, kmoved, kruns⟩ := k
  refine ⟨later ++ late, by rw [kjournal, hjournal, List.append_assoc], fun e he => ?_, ?_⟩
  · rcases List.mem_append.mp he with he | he
    · exact kmoved e he
    · exact hmoved e he
  · rw [Journal.crossings_append, hruns, kruns]

/-- One thing is written, which is no transition. -/
theorem of_note {e : Happening D} {runs : List (Nat × Role)}
    (journal : m'.journal = e :: m.journal) (moved : e.moved? = none)
    (crossing : e.crossing?.toList = runs) : Crosses m runs m' := by
  refine ⟨[e], journal, fun _ he => List.mem_singleton.mp he ▸ moved, ?_⟩
  rw [← crossing]
  cases h : e.crossing? <;> simp [Journal.crossings, h]

end Crosses

theorem Arranges.crosses (h : Arranges m m') : Crosses m [] m' := by
  obtain ⟨late, hjournal, hlate⟩ := h
  refine ⟨late, hjournal, fun e he => Happening.moved?_of_arranges (hlate e he), ?_⟩
  exact Journal.crossings_eq_nil fun e he => Happening.crossing?_of_arranges (hlate e he)

/-- Taking over what runs came to is no matter of exit or entry chains. -/
theorem commit_crosses (m : Machine D) (payload : Json) (runs : List (Lease × Run D)) :
    Crosses m [] (m.commit payload runs) := by
  have hnote : Crosses m [] (m.note (.committed (runs.flatMap fun r => r.2.passed))) :=
    .of_note rfl rfl rfl
  exact hnote.trans (commit_arranges m payload runs).crosses

theorem execute_crosses (m : Machine D) (index : Nat) (role : Role) (payload : Json)
    (event : String) (run : Context D → WorkingCopy D → Run D) :
    Crosses m (if role = .exit ∨ role = .enter then [(index, role)] else [])
      (m.execute index role payload event run).1 := by
  have hran : Crosses m (if role = .exit ∨ role = .enter then [(index, role)] else [])
      (m.note (.ran (m.tree.lease index) role m.timeline.now)) := by
    refine .of_note rfl rfl ?_
    unfold Happening.crossing?
    dsimp only
    split <;> rfl
  rcases m.execute_cases index role payload event run with ⟨e, heq⟩ | ⟨r, heq⟩ <;> rw [heq]
  · exact hran
  · have hall := hran.trans (commit_crosses _ payload [(m.tree.lease index, r)])
    rwa [List.append_nil] at hall

theorem executeChain_crosses (m : Machine D) (index : Nat) (role : Role)
    (h : role = .exit ∨ role = .enter) (payload : Json) (event : String) (chain : Option Chain) :
    Crosses m (if chain.isSome then [(index, role)] else [])
      (m.executeChain index role payload event chain).1 := by
  cases chain with
  | none => exact .refl m
  | some chain =>
    have hrun := execute_crosses m index role payload event fun ctx copy => ctx.run chain copy
    rw [if_pos h] at hrun
    exact hrun

/-- Leaving a node runs its exit chain. -/
theorem leave_crosses (m : Machine D) (payload : Json) (event : String) (n : Node) :
    Crosses m n.exitRuns (m.leave payload event n).1 := by
  let m' : Machine D := { m with
    timeline := m.timeline.cancel n.index
    jobs := m.jobs.filter fun job => job.owner.node ≠ n.index }
  exact executeChain_crosses m' n.index .exit (Or.inl rfl) payload event n.handlers.onExit

/-- Entering a node runs its entry chain. -/
theorem enter_crosses (m : Machine D) (payload : Json) (event : String) (n : Node) :
    Crosses m n.entryRuns (m.enter payload event n).1 := by
  let owner := m.tree.lease n.index
  have hstart := (startRepeater_arranges (m := m) payload owner n.handlers.repeater).crosses
  have hchain := hstart.trans (executeChain_crosses
    (m.startRepeater payload owner n.handlers.repeater) n.index .enter (Or.inr rfl) payload event
    n.handlers.onEnter)
  rw [List.nil_append] at hchain
  unfold enter
  dsimp only
  split <;> rename_i heq <;> rw [heq] at hchain
  · exact hchain
  · have hall := hchain.trans (launch_arranges payload owner n.handlers.awaiting).crosses
    rwa [List.append_nil] at hall

theorem forNodes_crosses {f : Node → Machine D → Machine D × Except MachineError (List Request)}
    {runs : Node → List (Nat × Role)} (h : ∀ n m, Crosses m (runs n) (f n m).1) :
    ∀ {ns : List Node} {m m' : Machine D} {requests : List Request},
      forNodes f ns m = (m', .ok requests) → Crosses m (ns.flatMap runs) m'
  | [], m, _, _, rfl => .refl m
  | n :: ns, m, _, _, heq => by
    obtain ⟨m₁, first, more, hfirst, hmore⟩ := forNodes_cons_eq_ok heq
    have hn := h n m
    rw [hfirst] at hn
    exact hn.trans (forNodes_crosses h hmore)

/-! ### The runs of each transition -/

/-- The exit chains of the nodes that a transition left were run, and then the entry chains of
those that it entered. -/
def Runs (tree : Tree) (t : Transition) (late : List (Happening D)) : Prop :=
  Journal.leg late =
    (tree.nodesAt t.exited).reverse.flatMap (·.exitRuns) ++
      (tree.nodesAt t.entered).flatMap (·.entryRuns)

/-- Each transition of the journal is followed by its runs. -/
def Legs (tree : Tree) (es : List (Happening D)) : Prop :=
  ∀ late t early, es = late ++ .moved t :: early → Runs tree t late

theorem split_of_not_moved {new old late early : List (Happening D)} {t : Transition}
    (moved : ∀ e ∈ new, e.moved? = none) (h : new ++ old = late ++ .moved t :: early) :
    ∃ mid, late = new ++ mid ∧ old = mid ++ .moved t :: early := by
  rcases List.append_eq_append_iff.mp h with ⟨mid, hlate, hold⟩ | ⟨mid, hnew, hearly⟩
  · exact ⟨mid, hlate, hold⟩
  · cases mid with
    | nil => exact ⟨[], by rw [hnew, List.append_nil, List.append_nil], hearly.symm⟩
    | cons e mid =>
      obtain ⟨rfl, -⟩ := List.cons.inj hearly
      cases moved (.moved t) (hnew ▸ by simp)

theorem Crosses.legs {tree : Tree} (h : Crosses m [] m') (hm : Legs tree m.journal) :
    Legs tree m'.journal := by
  obtain ⟨new, hjournal, hmoved, hcrossing⟩ := h
  intro late t early heq
  obtain ⟨mid, rfl, hold⟩ := split_of_not_moved hmoved (hjournal.symm.trans heq)
  rw [Runs, Journal.leg_append hmoved hcrossing]
  exact hm mid t early hold

theorem Legs.arrive {tree : Tree} {target new : Tree} {recalls : Recall}
    {runs : List (Nat × Role)} (hm : Legs tree m.journal)
    (h : Crosses (m.arrive target recalls new) runs m')
    (hruns : (tree.nodesAt (m.transition target recalls new).exited).reverse.flatMap (·.exitRuns) ++
      (tree.nodesAt (m.transition target recalls new).entered).flatMap (·.entryRuns) = runs) :
    Legs tree m'.journal := by
  obtain ⟨after, hjournal, hmoved, hcrossing⟩ := h
  intro late t early heq
  obtain ⟨mid, rfl, hold⟩ := split_of_not_moved hmoved (hjournal.symm.trans heq)
  -- The transition is the one that is made now, or an earlier one.
  cases mid with
  | nil =>
    obtain ⟨hmove, -⟩ := List.cons.inj hold
    cases hmove
    rw [Runs, List.append_nil, Journal.leg_eq_crossings hmoved]
    exact hcrossing.trans hruns.symm
  | cons e mid =>
    obtain ⟨rfl, hreached⟩ := List.cons.inj hold
    have hquiet : ∀ e ∈ ([.reached new] : List (Happening D)), e.moved? = none :=
      fun e he => List.mem_singleton.mp he ▸ rfl
    obtain ⟨earlier, rfl, hbefore⟩ := split_of_not_moved hquiet hreached
    rw [Runs, Journal.leg_append_moved, Journal.leg_append hquiet rfl]
    exact hm earlier t early hbefore

theorem answer_crosses (m : Machine D) (e : Event) : Crosses m [] (m.answer e).1 := by
  have hnote : Crosses m [] (m.note (.handled e)) := .of_note rfl rfl rfl
  unfold answer
  split
  · exact hnote
  · exact hnote.trans (commit_crosses _ _ _)

theorem nodesAt_leaves {tree : Tree} (h : Addressed m.tree) :
    m.tree.nodesAt ((m.leaves tree).map (·.path)) = m.leaves tree := by
  rw [leaves_eq h, List.filter_filter]
  exact Tree.nodesAt_map_path h.paths _

theorem nodesAt_enters {tree : Tree} (h : Addressed m.tree) (ht : Addressed tree)
    (hplain : tree.plain = m.tree.plain) :
    m.tree.nodesAt ((m.enters tree).map (·.path)) = m.enters tree := by
  rw [enters_eq h ht hplain, List.filter_filter]
  exact Tree.nodesAt_map_path h.paths _

/-! ### Machines of a design -/

variable {design : Design D} {settings : Settings} {fresh : String} {c : Compiled D}

/-- Where nothing fails, a deed that is a transition runs the exit chains and then the entry
chains, and no other deed runs any. -/
theorem Deed.legs (h : Deed m m') (hm : Arises design settings fresh m)
    (hc : design.compile (design.id.getD fresh) = .ok c)
    (same : Journal.failures m'.journal = Journal.failures m.journal)
    (hlegs : Legs c.tree m.journal) : Legs c.tree m'.journal := by
  cases h with
  | receive e =>
    have hqueued : Crosses m [] (m.enqueue e) := .of_note rfl rfl rfl
    exact hqueued.legs hlegs
  | @answer e rest queue => exact (answer_crosses { m with queue := rest } e).legs hlegs
  | drop => exact hlegs
  | @move target mem recalls payload event =>
    obtain ⟨tree, m₁, requests, more, hact, hleave, henter⟩ :=
      (move_passage m target recalls payload event).exists_done same
    have hm' : Arises design settings fresh (m.arrive target recalls tree) :=
      hm.changes (.single (.act (.move mem hact)))
    have hplain := (activates_eq_ok hm.faithful.wellFormed hact).plain_eq
    have hnodesAt : ∀ paths, c.tree.nodesAt paths = m.tree.nodesAt paths := fun paths => by
      rw [Tree.nodesAt, Tree.nodesAt, hm.nodes_eq hc]
    have hexited : c.tree.nodesAt (m.transition target recalls tree).exited = m.leaves tree :=
      (hnodesAt _).trans (nodesAt_leaves hm.addressed)
    have hentered : c.tree.nodesAt (m.transition target recalls tree).entered = m.enters tree :=
      (hnodesAt _).trans (nodesAt_enters hm.addressed hm'.addressed hplain)
    have hruns := (forNodes_crosses (fun n m => leave_crosses m payload event n) hleave).trans
      (forNodes_crosses (fun n m => enter_crosses m payload event n) henter)
    exact hlegs.arrive hruns (by rw [hexited, hentered])
  | @work owner role work current kind due payload event run =>
    have hrun := execute_crosses m owner.node role payload event run
    have hrole : ¬ (role = .exit ∨ role = .enter) := by
      rintro (rfl | rfl) <;> cases kind
    rw [if_neg hrole] at hrun
    exact hrun.legs hlegs
  | flush => exact (flush_arranges m).crosses.legs hlegs
  | poll gates => exact hlegs

theorem Deeds.legs (h : Deeds m m') (hm : Arises design settings fresh m)
    (hc : design.compile (design.id.getD fresh) = .ok c)
    (same : Journal.failures m'.journal = Journal.failures m.journal)
    (hlegs : Legs c.tree m.journal) : Legs c.tree m'.journal :=
  h.unfailing (P := fun m => Legs c.tree m.journal) same
    (fun hdeeds hdeed same hlegs => hdeed.legs (hm.changes (hdeeds.changes hm.faithful)) hc same hlegs)
    hlegs

theorem Step.legs (h : Step m m') (hm : Arises design settings fresh m)
    (hc : design.compile (design.id.getD fresh) = .ok c)
    (same : Journal.failures m'.journal = Journal.failures m.journal)
    (hlegs : Legs c.tree m.journal) : Legs c.tree m'.journal := by
  cases h with
  | send e => exact (send_deeds m e).legs hm hc same hlegs
  | pop h =>
    obtain ⟨due, timeline, hpop, hdeeds⟩ := popStep_deeds h hm.faithful
    have hm' : Arises design settings fresh { m with timeline } := hm.changes (.single (.pop hpop))
    exact hdeeds.legs hm' hc same hlegs
  | settle done => exact hlegs
  | poll gates => exact (pollOperations_deeds gates hm.faithful).legs hm hc same hlegs
  | subscribe => exact hlegs
  | unsubscribe s =>
    unfold Machine.unsubscribe
    dsimp only
    split
    · have hstopped : Crosses m [] { m with journal := .stoppedRepeaters :: m.journal } :=
        .of_note rfl rfl rfl
      exact hstopped.legs hlegs
    · exact hlegs

/-- Before the first transition there are no legs. -/
theorem legs_started {tree tree' : Tree} {requests : List Request}
    (h : forNodes (enter .null "start") (tree.activeNodes.map Tree.node)
      (begin design settings c tree) = (m, .ok requests)) : Legs tree' m.journal := by
  obtain ⟨new, hjournal, hmoved, -⟩ :=
    forNodes_crosses (fun n m => enter_crosses m .null "start" n) h
  intro late t early heq
  obtain ⟨mid, -, hbegin⟩ := split_of_not_moved hmoved (hjournal.symm.trans heq)
  rcases List.singleton_eq_append_iff.mp hbegin with ⟨-, hmove⟩ | ⟨-, hmove⟩
  · cases hmove
  · cases hmove

/-- Of paths in some order that has each once, those among some of them are these. -/
theorem filter_mem_of_sublist {l order : List String} (h : l.Sublist order) (nodup : order.Nodup) :
    (order.filter fun p => p ∈ l) = l := by
  have hself : (l.filter fun p => p ∈ l) = l :=
    List.filter_eq_self.mpr fun p hp => decide_eq_true hp
  have hsub : l.Sublist (order.filter fun p => p ∈ l) := by
    have hfilter := h.filter fun p => p ∈ l
    rwa [hself] at hfilter
  refine (hsub.eq_of_length_le ?_).symm
  exact ((nodup.filter _).subperm fun p hp => by simpa using (List.mem_filter.mp hp).2).length_le

theorem map_path_nodesAt {tree : Tree} (nodup : (tree.nodes.map (·.path)).Nodup)
    {paths : List String} (h : paths.Sublist (tree.nodes.map (·.path))) :
    (tree.nodesAt paths).map (·.path) = paths := by
  have hfilter := filter_mem_of_sublist h nodup
  rwa [List.filter_map] at hfilter

theorem activePaths_sublist (h : Addressed m.tree) :
    m.tree.activePaths.Sublist (m.tree.nodes.map (·.path)) := by
  rw [activePaths_eq h]
  exact List.filter_sublist.map _

/-- **Replay.** Let no activation have failed in a machine. Its log has the last of the
transitions that were made, as many as it may keep. All of them, one after another from what
was active after the first activation, leave only what is active, enter only what is not, both
in pre-order, have their target active after them, and lead to what is active now; so each path
is left and entered in turn. If no chain has failed either, then after each transition, and
before the next one, just the exit chains of the nodes that it left are run, each after those
of the nodes below it, and then just the entry chains of those that it entered, each before
those of the nodes below it. -/
theorem Reached.log_replays (h : Reached design settings fresh m)
    (hnone : Journal.failedActivations m.journal = 0) :
    ∃ c tree, design.compile (design.id.getD fresh) = .ok c ∧ Begins c design.data tree ∧
      let order := c.tree.nodes.map (·.path)
      let ts := Journal.transitions m.journal
      order.Nodup ∧ tree.activePaths.Sublist order ∧ m.tree.activePaths.Sublist order ∧
      m.log.records = ts.drop (ts.length - settings.logCapacity) ∧
      Transition.Replays order tree.activePaths.toFinset ts m.tree.activePaths.toFinset ∧
      (∀ p, (decide (p ∈ tree.activePaths) :: Transition.marks p ts).IsChain (· ≠ ·)) ∧
      (Journal.failures m.journal = 0 → ∀ late t early, m.journal = late ++ .moved t :: early →
        let exited := c.tree.nodesAt t.exited
        let entered := c.tree.nodesAt t.entered
        exited.map (·.path) = t.exited ∧ entered.map (·.path) = t.entered ∧
        Journal.leg late =
          exited.reverse.flatMap (·.exitRuns) ++ entered.flatMap (·.entryRuns) ∧
        (exited.reverse.Pairwise fun n k => ¬ n.Above k) ∧
        entered.Pairwise fun n k => ¬ k.Above n) := by
  have hm := h.arises
  obtain ⟨m₀, hcreate, hsteps⟩ := h
  have ⟨c, tree, hc, htree, hchanges⟩ := hm
  have hfirst : Arises design settings fresh (begin design settings c tree) :=
    ⟨c, tree, hc, htree, .refl⟩
  have hreplays := replays_of_changes hc htree hchanges hnone
  have hnodup : (c.tree.nodes.map (·.path)).Nodup := hm.nodes_eq hc ▸ hm.addressed.paths
  refine ⟨c, tree, hc, htree, hnodup, ?_, ?_, hm.records_eq, hreplays, fun p => ?_, ?_⟩
  · rw [← hfirst.nodes_eq hc]
    exact activePaths_sublist hfirst.addressed
  · rw [← hm.nodes_eq hc]
    exact activePaths_sublist hm.addressed
  · have halternates := hreplays.alternates p
    rwa [decide_eq_decide.mpr List.mem_toFinset] at halternates
  · intro hunfailing late t early hjournal
    have hlegs : Legs c.tree m.journal :=
      unfailing_of_create (P := fun m => Legs c.tree m.journal) (fun hstep => hstep) hcreate hsteps
        hunfailing (fun _ henter => legs_started henter)
        (fun hm hdeed same hlegs => hdeed.legs hm hc same hlegs)
        (fun hm hstep same hlegs => hstep.legs hm hc same hlegs)
    obtain ⟨active, hfits⟩ : ∃ active, t.Fits (c.tree.nodes.map (·.path)) active := by
      rw [hjournal, Journal.transitions_append, Journal.transitions_cons, List.append_assoc] at hreplays
      exact hreplays.fits_append
    have hwf : c.tree.WellFormed := (Design.tree_of_compile hc).1
    refine ⟨map_path_nodesAt hnodup hfits.exited_order, map_path_nodesAt hnodup hfits.entered_order,
      hlegs late t early hjournal, ?_, Tree.pairwise_nodesAt hwf _⟩
    exact List.pairwise_reverse.mpr (Tree.pairwise_nodesAt hwf _)

end Machine

/-- A lift on the ground or upstairs. Upstairs it opens its door as soon as it is there, and
when it goes down it says so. -/
def Design.lift : Design Nat where
  id := none
  data := 0
  host := .empty
  root := .mk { initial := some (.child "ground") } [
    ("ground", .mk { on := [("UP", .one (.handler { targets := [.path "upstairs"] } none none))] } []),
    ("upstairs", .mk
      { initial := some (.child "shut")
        on := [("DOWN", .one (.handler { targets := [.path "ground"] } none none))]
        onEnter := some (.one (.handler { targets := [.path "open"] } none none))
        onExit := some (.one (.action (.inline fun n _ _ => (n + 1, none)))) }
      [("shut", .mk {} []), ("open", .mk
        { onEnter := some (.one (.action (.inline fun n _ _ => (n + 1, none)))),
          onExit := some (.one (.action (.inline fun n _ _ => (n + 1, none)))) } [])])]

namespace Machine

/-- The lift goes up, opens its door, and goes down again. Its log keeps the last two of these
transitions, and with the last one it leaves the open door before the floor. -/
theorem log_replays_lift :
    ∃ m, Reached Design.lift { logCapacity := 2 } "m" m ∧
      Journal.failedActivations m.journal = 0 ∧
      m.log.records.map (·.target) = ["m.upstairs.open", "m.ground"] ∧
      ∃ c tree, Design.lift.compile "m" = .ok c ∧ Begins c Design.lift.data tree ∧
        Transition.Replays (c.tree.nodes.map (·.path)) tree.activePaths.toFinset
          (Journal.transitions m.journal) m.tree.activePaths.toFinset ∧
        ∃ late t early, m.journal = late ++ .moved t :: early ∧
          t.exited = ["m.upstairs", "m.upstairs.open"] ∧
          Journal.leg late = [(2, .exit), (3, .exit)] ∧
          (c.tree.nodesAt t.exited).reverse.flatMap (·.exitRuns) ++
            (c.tree.nodesAt t.entered).flatMap (·.entryRuns) = [(2, .exit), (3, .exit)] := by
  let up : Event := ⟨"UP", .null⟩
  let down : Event := ⟨"DOWN", .null⟩
  obtain ⟨m, hcreate, hactivations, hfailures, hrecords, hexited, hleg⟩ :
      ∃ m, create Design.lift { logCapacity := 2 } "m" = .ok m ∧
        Journal.failedActivations ((m.send up).1.send down).1.journal = 0 ∧
        Journal.failures ((m.send up).1.send down).1.journal = 0 ∧
        ((m.send up).1.send down).1.log.records.map (·.target) = ["m.upstairs.open", "m.ground"] ∧
        (((m.send up).1.send down).1.journal[4]?.bind (·.moved?)).map (·.exited) =
          some ["m.upstairs", "m.upstairs.open"] ∧
        Journal.leg (((m.send up).1.send down).1.journal.take 4) = [(2, .exit), (3, .exit)] :=
    ⟨_, rfl, by decide +kernel, by decide +kernel, by decide +kernel, by decide +kernel,
      by decide +kernel⟩
  have hreached : Reached Design.lift { logCapacity := 2 } "m" ((m.send up).1.send down).1 :=
    (Reached.of_create hcreate).steps (.tail (.single (.send m up)) (.send _ down))
  obtain ⟨c, tree, hc, htree, -, -, -, -, hreplays, -, hlegs⟩ := hreached.log_replays hactivations
  obtain ⟨t, hmoved, ht⟩ := Option.map_eq_some_iff.mp hexited
  obtain ⟨e, hget, he⟩ := Option.bind_eq_some_iff.mp hmoved
  obtain rfl : e = .moved t := by
    cases e <;> cases he
    rfl
  obtain ⟨hlt, hget⟩ := List.getElem?_eq_some_iff.mp hget
  have hjournal : ((m.send up).1.send down).1.journal =
      ((m.send up).1.send down).1.journal.take 4 ++
        .moved t :: ((m.send up).1.send down).1.journal.drop 5 := by
    rw [← hget, ← List.drop_eq_getElem_cons hlt, List.take_append_drop]
  obtain ⟨-, -, hruns, -⟩ := hlegs hfailures _ _ _ hjournal
  exact ⟨_, hreached, hactivations, hrecords, c, tree, hc, htree, hreplays, _, t, _, hjournal, ht,
    hleg, hruns.symm.trans hleg⟩

end Machine
end Statechart
