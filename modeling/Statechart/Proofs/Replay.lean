/-
# Replaying transitions

A transition says which paths it left and which it entered. To replay it is to take the ones
from the active paths and add the others (`Transition.apply`); it fits the paths that are
active before it if it leaves only those, enters none of them, and has its target active after
it (`Transition.Fits`). As long as no activation fails, the transitions of a journal fit one
after another, and lead from the first active paths of a machine to those that it has now
(`Machine.replays_of_changes`); so a path is left and entered in turn
(`Transition.Replays.alternates`). The log has the last of these transitions.

Which nodes are left and entered is a matter of what is active in two trees with the same
nodes, and as no two nodes have the same path, of their paths (`Tree.apply_transition`).

Key definitions: `Journal.transitions`, `Transition.apply`, `Transition.Fits`,
`Transition.Replays`, `Transition.marks`.
Key theorems: `Transition.Replays.alternates`, `Transition.Log.records_record`,
`Machine.fits_transition`, `Machine.replays_of_changes`.
-/
import Mathlib.Data.Finset.Basic
import Mathlib.Data.Finset.Dedup
import Statechart.Proofs.Failures
import Statechart.Proofs.Origins

namespace Statechart

namespace Transition

/-! ### Replaying -/

/-- The paths that are active after the transition, if these were before it. -/
def apply (t : Transition) (active : Finset String) : Finset String :=
  (active \ t.exited.toFinset) ∪ t.entered.toFinset

/-- The transition leaves only active paths and enters only others, each in their order, and
its target is active after it. -/
structure Fits (order : List String) (active : Finset String) (t : Transition) : Prop where
  exited : ∀ p ∈ t.exited, p ∈ active
  entered : ∀ p ∈ t.entered, p ∉ active
  target : t.target ∈ t.apply active
  exited_order : t.exited.Sublist order
  entered_order : t.entered.Sublist order

/-- The transitions fit one after another, and lead from some active paths to others. -/
inductive Replays (order : List String) : Finset String → List Transition → Finset String → Prop
  | done (active : Finset String) : Replays order active [] active
  | step {active after : Finset String} {t : Transition} {ts : List Transition}
    (fits : t.Fits order active) (rest : Replays order (t.apply active) ts after) :
    Replays order active (t :: ts) after

/-- What transitions do to a path, in order: they leave it or enter it. -/
def marks (p : String) (ts : List Transition) : List Bool :=
  ts.flatMap fun t =>
    (if p ∈ t.exited then [false] else []) ++ (if p ∈ t.entered then [true] else [])

namespace Replays

variable {order : List String} {a b : Finset String} {ts : List Transition}

theorem snoc (h : Replays order a ts b) {t : Transition} (fits : t.Fits order b) :
    Replays order a (ts ++ [t]) (t.apply b) := by
  induction h with
  | done active => exact .step fits (.done _)
  | step first _ ih => exact .step first (ih fits)

theorem fits_append {us : List Transition} {t : Transition}
    (h : Replays order a (ts ++ t :: us) b) : ∃ c, t.Fits order c := by
  induction ts generalizing a with
  | nil =>
    cases h with
    | step fits _ => exact ⟨a, fits⟩
  | cons u ts ih =>
    cases h with
    | step _ rest => exact ih rest

/-- A path is left and entered in turn: left first if it was active at the beginning, and
entered first if it was not. -/
theorem alternates (h : Replays order a ts b) (p : String) :
    (decide (p ∈ a) :: marks p ts).IsChain (· ≠ ·) := by
  induction h with
  | done active => exact .singleton _
  | @step active after t ts fits rest ih =>
    have hmarks : marks p (t :: ts) = (if p ∈ t.exited then [false] else []) ++
        (if p ∈ t.entered then [true] else []) ++ marks p ts := List.flatMap_cons
    have hafter : p ∈ t.apply active ↔ p ∈ active ∧ p ∉ t.exited ∨ p ∈ t.entered := by
      simp [apply]
    rw [hmarks]
    by_cases hexited : p ∈ t.exited
    · have hactive := fits.exited p hexited
      have hentered : p ∉ t.entered := fun h => fits.entered p h hactive
      have hleft : p ∉ t.apply active := by simp [hafter, hexited, hentered]
      rw [decide_eq_false hleft] at ih
      simpa [hexited, hentered, hactive] using ih
    · by_cases hentered : p ∈ t.entered
      · have hinactive := fits.entered p hentered
        have hin : p ∈ t.apply active := hafter.mpr (Or.inr hentered)
        rw [decide_eq_true hin] at ih
        simpa [hexited, hentered, hinactive] using ih
      · have hsame : p ∈ t.apply active ↔ p ∈ active := by simp [hafter, hexited, hentered]
        rw [decide_eq_decide.mpr hsame] at ih
        simpa [hexited, hentered] using ih

end Replays

/-! ### The log -/

/-- A log that has the last transitions, as many as it keeps, has them with one more. -/
theorem Log.records_record {log : Log} {ts : List Transition}
    (h : log.records = ts.drop (ts.length - log.capacity)) (t : Transition) :
    (log.record t).records = (ts ++ [t]).drop ((ts ++ [t]).length - log.capacity) := by
  unfold record
  split
  · rename_i hzero
    rw [h, hzero, Nat.sub_zero, Nat.sub_zero, List.drop_length, List.drop_length]
  · rename_i hpos
    have hlength : log.records.length = min ts.length log.capacity := by
      rw [h, List.length_drop]
      omega
    have hdrop : (ts ++ [t]).length - log.capacity =
        ts.length - log.capacity + (log.records.length + 1 - log.capacity) := by
      rw [hlength, List.length_append, List.length_singleton]
      omega
    show log.records.drop _ ++ [t] = _
    rw [hdrop, List.drop_append_of_le_length (by omega), ← List.drop_drop, ← h]

theorem Log.capacity_record (log : Log) (t : Transition) :
    (log.record t).capacity = log.capacity := by
  unfold record
  split <;> rfl

end Transition

variable {D : Type}

/-- The transition that was made. -/
def Happening.moved? : Happening D → Option Transition
  | moved t => some t
  | _ => none

/-- The transitions that were made, the first one first. -/
def Journal.transitions (es : List (Happening D)) : List Transition :=
  es.reverse.filterMap (·.moved?)

@[simp] theorem Journal.transitions_append (late early : List (Happening D)) :
    transitions (late ++ early) = transitions early ++ transitions late := by
  rw [transitions, List.reverse_append, List.filterMap_append, transitions, transitions]

theorem Journal.transitions_cons (e : Happening D) (es : List (Happening D)) :
    transitions (e :: es) = transitions es ++ e.moved?.toList := by
  rw [transitions, List.reverse_cons, List.filterMap_append, transitions]
  cases h : e.moved? <;> simp [h]

namespace Tree

/-! ### What is active, by node -/

/-- Every node, in pre-order. -/
def nodes (t : Tree) : List Node := t.preorder.map (·.node)

theorem nodes_eq_of_plain_eq {t t' : Tree} (h : t'.plain = t.plain) : t'.nodes = t.nodes := by
  have hnodes : ∀ t : Tree, t.plain.nodes = t.nodes := fun t => by
    rw [nodes, preorder_mapActivity]
    exact map_map_eq (fun u => node_mapActivity _ u) t.preorder
  rw [← hnodes t', h, hnodes t]

variable {t t' : Tree}

theorem wasActive_eq_activeAt (hwf : t.WellFormed) (h : t.Orderly) (index : Nat) :
    t.wasActive index = t.activeAt index := by
  rw [wasActive, h.activeNodes_eq, Bool.eq_iff_iff, List.any_eq_true]
  unfold activeAt
  constructor
  · rintro ⟨u, hu, hindex⟩
    obtain ⟨hmem, hactive⟩ := List.mem_filter.mp hu
    rw [hwf.find?_eq_some_iff.mpr ⟨hmem, by simpa using hindex⟩]
    exact hactive
  · intro hactive
    cases hfind : t.find? index with
    | none =>
      rw [hfind] at hactive
      cases hactive
    | some u =>
      obtain ⟨hmem, hindex⟩ := hwf.find?_eq_some_iff.mp hfind
      rw [hfind] at hactive
      exact ⟨u, List.mem_filter.mpr ⟨hmem, hactive⟩, by simpa using hindex⟩

theorem map_node_activeNodes (hwf : t.WellFormed) (h : t.Orderly) :
    t.activeNodes.map node = t.nodes.filter fun n => t.activeAt n.index := by
  rw [h.activeNodes_eq, nodes, List.filter_map]
  refine congrArg _ (List.filter_congr fun u hu => ?_)
  exact (hwf.activeAt_iff hu).symm

/-- Of nodes with different paths, the path of one is among those of some just when it is one
of them. -/
theorem path_mem_iff {ns : List Node} (h : (ns.map (·.path)).Nodup) {n : Node} (hn : n ∈ ns)
    (f : Node → Bool) : n.path ∈ (ns.filter f).map (·.path) ↔ f n = true := by
  constructor
  · intro hmem
    obtain ⟨k, hk, hpath⟩ := List.mem_map.mp hmem
    obtain ⟨hin, hf⟩ := List.mem_filter.mp hk
    rwa [List.inj_on_of_nodup_map h hin hn hpath] at hf
  · exact fun hf => List.mem_map_of_mem (List.mem_filter.mpr ⟨hn, hf⟩)

/-- What was active, without what is not any more and with what was not before, is what is
active. -/
theorem apply_transition {ns : List Node} (h : (ns.map (·.path)).Nodup) (before after : Node → Bool)
    {t : Transition} (exited : t.exited = ((ns.filter before).filter fun n => !after n).map (·.path))
    (entered : t.entered = ((ns.filter after).filter fun n => !before n).map (·.path)) :
    t.apply ((ns.filter before).map (·.path)).toFinset = ((ns.filter after).map (·.path)).toFinset := by
  have sub : ∀ {f : Node → Bool} {p : String}, p ∈ (ns.filter f).map (·.path) →
      ∃ n ∈ ns, n.path = p := fun hp => by
    obtain ⟨n, hn, rfl⟩ := List.mem_map.mp hp
    exact ⟨n, (List.mem_filter.mp hn).1, rfl⟩
  have same : ∀ n ∈ ns, (n.path ∈ t.apply ((ns.filter before).map (·.path)).toFinset ↔
      n.path ∈ ((ns.filter after).map (·.path)).toFinset) := by
    intro n hn
    rw [Transition.apply, exited, entered, List.filter_filter, List.filter_filter]
    simp only [Finset.mem_union, Finset.mem_sdiff, List.mem_toFinset, path_mem_iff h hn]
    cases before n <;> cases after n <;> decide
  ext p
  refine ⟨fun hp => ?_, fun hp => ?_⟩
  · have hpath : ∃ n ∈ ns, n.path = p := by
      rw [Transition.apply, exited, entered, List.filter_filter] at hp
      rcases Finset.mem_union.mp hp with hp | hp
      · exact sub (List.mem_toFinset.mp (Finset.mem_sdiff.mp hp).1)
      · rw [List.filter_filter] at hp
        exact sub (List.mem_toFinset.mp hp)
    obtain ⟨n, hn, rfl⟩ := hpath
    exact (same n hn).mp hp
  · obtain ⟨n, hn, rfl⟩ := sub (List.mem_toFinset.mp hp)
    exact (same n hn).mpr hp

end Tree

namespace Machine

variable {m m' : Machine D} {target : Tree} {recalls : Recall} {payload : Json} {tree : Tree}

/-! ### Transitions fit -/

/-- A tree that is orderly and well formed, and no two nodes of which have the same path. -/
structure Addressed (t : Tree) : Prop where
  wellFormed : t.WellFormed
  orderly : t.Orderly
  paths : (t.nodes.map (·.path)).Nodup

theorem leaves_eq (h : Addressed m.tree) (tree : Tree) :
    m.leaves tree = (m.tree.nodes.filter fun n => m.tree.activeAt n.index).filter fun n =>
      !tree.activeAt n.index := by
  rw [leaves, Tree.map_node_activeNodes h.wellFormed h.orderly]

theorem enters_eq (h : Addressed m.tree) (ht : Addressed tree) (hplain : tree.plain = m.tree.plain) :
    m.enters tree = (m.tree.nodes.filter fun n => tree.activeAt n.index).filter fun n =>
      !m.tree.activeAt n.index := by
  rw [enters, Tree.map_node_activeNodes ht.wellFormed ht.orderly, Tree.nodes_eq_of_plain_eq hplain]
  exact List.filter_congr fun n _ => by rw [Tree.wasActive_eq_activeAt h.wellFormed h.orderly]

theorem activePaths_eq (h : Addressed tree) :
    tree.activePaths = (tree.nodes.filter fun n => tree.activeAt n.index).map (·.path) := by
  rw [← Tree.map_node_activeNodes h.wellFormed h.orderly, List.map_map]
  rfl

theorem activates_eq_ok (hm : m.tree.WellFormed)
    (h : m.activates target recalls payload = (tree, none)) :
    Tree.Activates (m.chooser payload) m.tree.wasActive (.down target.node.trail recalls) m.tree tree :=
  Tree.activates_of_activate hm h

/-- The transition of a machine fits its active paths, and makes those of the new tree. -/
theorem fits_transition (hm : Addressed m.tree) (ht : Addressed tree)
    (htrail : m.tree.node.trail = []) (mem : target ∈ m.tree.preorder)
    (h : m.activates target recalls payload = (tree, none)) :
    (m.transition target recalls tree).Fits (m.tree.nodes.map (·.path)) m.tree.activePaths.toFinset ∧
      (m.transition target recalls tree).apply m.tree.activePaths.toFinset =
        tree.activePaths.toFinset := by
  have hact := activates_eq_ok hm.wellFormed h
  have hnodes := Tree.nodes_eq_of_plain_eq hact.plain_eq
  have hexited : (m.transition target recalls tree).exited =
      ((m.tree.nodes.filter fun n => m.tree.activeAt n.index).filter fun n =>
        !tree.activeAt n.index).map (·.path) := congrArg _ (leaves_eq hm tree)
  have hentered : (m.transition target recalls tree).entered =
      ((m.tree.nodes.filter fun n => tree.activeAt n.index).filter fun n =>
        !m.tree.activeAt n.index).map (·.path) := congrArg _ (enters_eq hm ht hact.plain_eq)
  have hafter : (m.transition target recalls tree).apply m.tree.activePaths.toFinset =
      tree.activePaths.toFinset := by
    rw [activePaths_eq hm, activePaths_eq ht, hnodes]
    exact Tree.apply_transition hm.paths _ _ hexited hentered
  refine ⟨⟨fun p hp => ?_, fun p hp => ?_, ?_, ?_, ?_⟩, hafter⟩
  · rw [hexited] at hp
    rw [activePaths_eq hm, List.mem_toFinset]
    exact (List.filter_sublist.map _).subset hp
  · rw [hentered] at hp
    obtain ⟨n, hn, rfl⟩ := List.mem_map.mp hp
    obtain ⟨hn, hinactive⟩ := List.mem_filter.mp hn
    have hmem := (List.mem_filter.mp hn).1
    rw [activePaths_eq hm, List.mem_toFinset, Tree.path_mem_iff hm.paths hmem]
    simpa using hinactive
  · -- The target is entered, and so active in the new tree.
    obtain ⟨u, hu, hentry⟩ :=
      hact.exists_target hm.wellFormed rfl mem (by rw [htrail, List.nil_append])
    have hactive : u ∈ tree.activeNodes := by
      rw [ht.orderly.activeNodes_eq]
      exact List.mem_filter.mpr ⟨hu, hentry.settled.isActive⟩
    rw [hafter, List.mem_toFinset, Tree.activePaths, List.mem_map]
    exact ⟨u, hactive, congrArg Node.path hentry.node_eq⟩
  · rw [hexited]
    exact (List.filter_sublist.trans List.filter_sublist).map _
  · rw [hentered]
    exact (List.filter_sublist.trans List.filter_sublist).map _

/-! ### Machines of a design -/

/-- No transition is made, and the tree stays as it is or an activation fails. -/
structure Stays (m m' : Machine D) : Prop where
  log : m'.log = m.log
  transitions : Journal.transitions m'.journal = Journal.transitions m.journal
  tree : m'.tree = m.tree ∨
    Journal.failedActivations m'.journal = Journal.failedActivations m.journal + 1

/-- One thing is written that is no transition, and the tree stays as it is. -/
theorem Stays.of_note {e : Happening D} (log : m'.log = m.log) (tree : m'.tree = m.tree)
    (journal : m'.journal = e :: m.journal) (moved : e.moved? = none) : Stays m m' where
  log := log
  transitions := by
    rw [journal, Journal.transitions_cons, moved]
    exact List.append_nil _
  tree := Or.inl tree

theorem Chore.stays (h : Chore m m') : Stays m m' := by
  cases h with
  | abandon => exact ⟨rfl, rfl, Or.inl rfl⟩
  | startRepeater payload index r =>
    cases r with
    | none => exact ⟨rfl, rfl, Or.inl rfl⟩
    | some r => exact .of_note rfl rfl rfl rfl
  | launch payload index a =>
    cases a with
    | none => exact ⟨rfl, rfl, Or.inl rfl⟩
    | some a => exact .of_note rfl rfl rfl rfl
  | run => exact .of_note rfl rfl rfl rfl
  | takeOver => exact .of_note rfl rfl rfl rfl
  | postpone => exact .of_note rfl rfl rfl rfl
  | enqueue => exact .of_note rfl rfl rfl rfl

/-- A change is a transition, or it is none. -/
theorem Change.stays_or_arrives (h : Change m m') :
    Stays m m' ∨ ∃ target ∈ m.tree.preorder, ∃ recalls payload tree,
      m.activates target recalls payload = (tree, none) ∧ m' = m.arrive target recalls tree := by
  cases h with
  | act h =>
    cases h with
    | chore h => exact Or.inl h.stays
    | @fall payload target recalls tree e mem h =>
      refine Or.inl ⟨rfl, ?_, Or.inr (Journal.failedActivations_cons _ _)⟩
      exact (Journal.transitions_cons (.reached tree) m.journal).trans (List.append_nil _)
    | move mem h => exact Or.inr ⟨_, mem, _, _, _, h, rfl⟩
  | receive => exact Or.inl (.of_note rfl rfl rfl rfl)
  | take => exact Or.inl (.of_note rfl rfl rfl rfl)
  | notify => exact Or.inl (.of_note rfl rfl rfl rfl)
  | unsubscribe s =>
    unfold Machine.unsubscribe
    dsimp only
    split
    · exact Or.inl (.of_note rfl rfl rfl rfl)
    · exact Or.inl ⟨rfl, rfl, Or.inl rfl⟩
  | _ => exact Or.inl ⟨rfl, rfl, Or.inl rfl⟩

theorem transitions_arrive (m : Machine D) (target : Tree) (recalls : Recall) (tree : Tree) :
    Journal.transitions (m.arrive target recalls tree).journal =
      Journal.transitions m.journal ++ [m.transition target recalls tree] := by
  show Journal.transitions (.moved _ :: .reached tree :: m.journal) = _
  rw [Journal.transitions_cons, Journal.transitions_cons]
  simp [Happening.moved?]

variable {design : Design D} {settings : Settings} {fresh : String} {c : Compiled D}

namespace Arises

theorem plain_eq (h : Arises design settings fresh m)
    (hc : design.compile (design.id.getD fresh) = .ok c) : m.tree.plain = c.tree :=
  (h.compiled hc).2.2.2

theorem nodes_eq (h : Arises design settings fresh m)
    (hc : design.compile (design.id.getD fresh) = .ok c) : m.tree.nodes = c.tree.nodes := by
  refine Tree.nodes_eq_of_plain_eq ((h.plain_eq hc).trans ?_)
  exact (Design.tree_of_compile hc).2.1.symm

theorem addressed (h : Arises design settings fresh m) : Addressed m.tree := by
  have hwf := h.faithful.wellFormed
  have ⟨_, _, hc, _⟩ := h
  have hpathed : m.tree.plain.Pathed := h.plain_eq hc ▸ Tree.pathed_of_compile hc
  have hnodup := (Tree.Pathed.of_mapActivity hpathed).nodup_paths hwf
  refine ⟨hwf, h.orderly.2, ?_⟩
  rwa [Tree.nodes, List.map_map]

theorem trail_eq (h : Arises design settings fresh m) : m.tree.node.trail = [] := by
  have ⟨_, _, hc, _⟩ := h
  exact Tree.trail_of_compile hc (h.plain_eq hc)

/-- The log has the last transitions, as many as it may keep. -/
theorem records_eq (h : Arises design settings fresh m) :
    m.log.records = (Journal.transitions m.journal).drop
      ((Journal.transitions m.journal).length - settings.logCapacity) := by
  obtain ⟨c, tree, hc, htree, hchanges⟩ := h
  have hlog : m.log.capacity = settings.logCapacity ∧
      m.log.records = (Journal.transitions m.journal).drop
        ((Journal.transitions m.journal).length - m.log.capacity) := by
    induction hchanges with
    | refl => exact ⟨rfl, List.drop_nil.symm⟩
    | tail _ hstep ih =>
      obtain ⟨hcapacity, hrecords⟩ := ih
      rcases hstep.stays_or_arrives with hstays | ⟨target, -, recalls, payload, tree, -, rfl⟩
      · rw [hstays.log, hstays.transitions]
        exact ⟨hcapacity, hrecords⟩
      · refine ⟨(Transition.Log.capacity_record _ _).trans hcapacity, ?_⟩
        rw [transitions_arrive]
        show _ = List.drop (_ - (Transition.Log.record _ _).capacity) _
        rw [Transition.Log.capacity_record]
        exact Transition.Log.records_record hrecords _
  rw [← hlog.1]
  exact hlog.2

end Arises

/-- As long as no activation fails, the transitions lead from the first active paths of a
machine to those that it has now. -/
theorem replays_of_changes (hc : design.compile (design.id.getD fresh) = .ok c)
    (htree : Begins c design.data tree) (h : Changes (begin design settings c tree) m)
    (hnone : Journal.failedActivations m.journal = 0) :
    Transition.Replays (c.tree.nodes.map (·.path)) tree.activePaths.toFinset
      (Journal.transitions m.journal) m.tree.activePaths.toFinset := by
  induction h with
  | refl => exact .done _
  | @tail m₁ m₂ hbefore hstep ih =>
    have harises : Arises design settings fresh m₁ := ⟨c, tree, hc, htree, hbefore⟩
    have hafter : Arises design settings fresh m₂ := harises.changes hstep.changes
    have hle := hstep.failedActivations_le
    have hnonneg : 0 ≤ Journal.failedActivations m₁.journal := Changes.failedActivations_le hbefore
    have hreplays := ih (by omega)
    rcases hstep.stays_or_arrives with hstays | ⟨target, mem, recalls, payload, t, hact, rfl⟩
    · rw [hstays.transitions, hstays.tree.resolve_right (by omega)]
      exact hreplays
    · have ht : Addressed t := hafter.addressed
      obtain ⟨hfits, happly⟩ := fits_transition harises.addressed ht harises.trail_eq mem hact
      rw [harises.nodes_eq hc] at hfits
      rw [transitions_arrive]
      show Transition.Replays _ _ _ t.activePaths.toFinset
      rw [← happly]
      exact hreplays.snoc hfits

end Machine
end Statechart
