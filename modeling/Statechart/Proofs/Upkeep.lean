/-
# Work of active nodes

While nothing fails, what is under way is the work of active nodes. A node that is entered
starts its repeater and launches its operation, and when it is left they go, with its timeouts.
So the repeaters are those of the active nodes that were entered since all repeaters were last
stopped, one for each; every timeout is under a lease that is current, but for those of chains
that waited as their node was left; and every operation is under a lease that is current, one
for each node (`Machine.Upkept`).

In a transition the tree changes first, and the nodes are left and entered one after another.
On the way the leases in use are those that were current, without those of the nodes left so far
and with those of the nodes entered so far (`Machine.Tended`); in the end they are the ones that
are current (`Machine.isCurrent_iff_of_activates`).

A failure may come between the tree and the work, and an interval that would next be due past
the end of time is gone, so the steps are those in which neither happens (`Machine.Lasting`).

Key definitions: `Journal.Stopped`, `Journal.PutOffByExit`, `Tree.Repeats`, `Machine.Tended`,
`Machine.Upkept`, `Machine.Lasting`.
Key theorems: `Machine.Tended.leave`, `Machine.Tended.enter`, `Machine.Deed.upkept`,
`Machine.Lasting.upkept`, `Machine.work_of_active_nodes`.
-/
import Statechart.Proofs.Replay
import Statechart.Proofs.Schedules

namespace Statechart

variable {D : Type}

/-! ### What a journal tells of the work -/

namespace Journal

/-- The journal up to the last time that all repeaters were stopped. -/
def beforeStop : List (Happening D) → List (Happening D)
  | [] => []
  | .stoppedRepeaters :: es => es
  | _ :: es => beforeStop es

/-- The lease was current when all repeaters were last stopped. -/
def Stopped (l : Lease) (es : List (Happening D)) : Prop := Holds l (beforeStop es)

/-- The exit chain of a node waited, and put its rest off under the lease. -/
def PutOffByExit (l : Lease) (es : List (Happening D)) : Prop :=
  ∃ late passed time early,
    es = late ++ .deferred l .wait :: .committed passed :: .ran l .exit time :: early

theorem beforeStop_suffix : ∀ es : List (Happening D), beforeStop es <:+ es
  | [] => List.suffix_refl _
  | e :: es => by
    have hes := (beforeStop_suffix es).trans (List.suffix_cons e es)
    cases e with
    | stoppedRepeaters => exact List.suffix_cons _ es
    | _ => exact hes

theorem beforeStop_append_of_arranges {late : List (Happening D)}
    (h : ∀ e ∈ late, e.arranges = true) (es : List (Happening D)) :
    beforeStop (late ++ es) = beforeStop es := by
  induction late with
  | nil => rfl
  | cons e late ih =>
    obtain ⟨he, hlate⟩ := List.forall_mem_cons.mp h
    rw [List.cons_append, ← ih hlate]
    cases e <;> first | rfl | cases he

theorem PutOffByExit.mono {l : Lease} {old new : List (Happening D)} (h : PutOffByExit l old)
    (hsuffix : old <:+ new) : PutOffByExit l new := by
  obtain ⟨late, passed, time, early, rfl⟩ := h
  obtain ⟨later, rfl⟩ := hsuffix
  exact ⟨later ++ late, passed, time, early, (List.append_assoc ..).symm⟩

end Journal

/-! ### Repeaters of a tree -/

namespace Tree

variable {t : Tree} {index : Nat}

/-- The node at a place has a repeater. -/
def Repeats (t : Tree) (index : Nat) : Prop :=
  ∃ n ∈ t.nodes, n.index = index ∧ n.handlers.repeater.isSome = true

theorem WellFormed.nodup_indices (h : t.WellFormed) : (t.nodes.map (·.index)).Nodup := by
  rw [nodes, List.map_map]
  exact h.places

theorem WellFormed.repeats_iff (h : t.WellFormed) {n : Node} (hn : n ∈ t.nodes) :
    t.Repeats n.index ↔ n.handlers.repeater.isSome = true := by
  constructor
  · rintro ⟨k, hk, hindex, hrepeater⟩
    rwa [List.inj_on_of_nodup_map h.nodup_indices hk hn hindex] at hrepeater
  · exact fun hrepeater => ⟨n, hn, rfl, hrepeater⟩

theorem exists_node_of_activeAt (h : t.activeAt index = true) : ∃ n ∈ t.nodes, n.index = index := by
  unfold activeAt at h
  cases hfind : t.find? index with
  | none =>
    rw [hfind] at h
    cases h
  | some v =>
    exact ⟨v.node, List.mem_map_of_mem (List.mem_of_find?_eq_some hfind),
      by simpa using List.find?_some hfind⟩

end Tree

namespace Machine

variable {m m' : Machine D} {live : Lease → Prop}

/-! ### Work and leases -/

/-- What is under way is the work of the leases in use: they have the repeaters, but for those
that were stopped, the timeouts, but for those put off by exit chains, and the operations. -/
structure Tended (m : Machine D) (live : Lease → Prop) : Prop where
  repeating : ∀ l, l ∈ m.timeline.repeating ↔
    live l ∧ m.tree.Repeats l.node ∧ ¬ Journal.Stopped l m.journal
  distinct : (m.timeline.repeating.map (·.node)).Nodup
  timeouts : ∀ t ∈ m.timeline.timeouts, live t.owner ∨ Journal.PutOffByExit t.owner m.journal
  jobs : ∀ job ∈ m.jobs, live job.owner
  single : (m.jobs.map (·.owner.node)).Nodup

/-- What is under way is the work of the leases that are current. -/
abbrev Upkept (m : Machine D) : Prop := m.Tended fun l => m.tree.isCurrent l = true

/-- The nodes are the same, and the journal goes on, but the repeaters are not stopped. -/
structure Continues (m m' : Machine D) : Prop where
  nodes : m'.tree.nodes = m.tree.nodes
  journal : m.journal <:+ m'.journal
  stop : Journal.beforeStop m'.journal = Journal.beforeStop m.journal

namespace Continues

theorem refl (m : Machine D) : Continues m m := ⟨rfl, List.suffix_refl _, rfl⟩

theorem trans {m₁ m₂ m₃ : Machine D} (h : Continues m₁ m₂) (k : Continues m₂ m₃) :
    Continues m₁ m₃ := ⟨k.nodes.trans h.nodes, h.journal.trans k.journal, k.stop.trans h.stop⟩

theorem of_note {e : Happening D} (tree : m'.tree = m.tree) (journal : m'.journal = e :: m.journal)
    (stop : Journal.beforeStop (e :: m.journal) = Journal.beforeStop m.journal) : Continues m m' where
  nodes := congrArg Tree.nodes tree
  journal := journal ▸ List.suffix_cons e m.journal
  stop := journal ▸ stop

end Continues

theorem Arranges.continues (h : Arranges m m') (tree : m'.tree = m.tree) : Continues m m' := by
  obtain ⟨late, hjournal, hlate⟩ := h
  refine ⟨congrArg Tree.nodes tree, hjournal ▸ List.suffix_append late m.journal, ?_⟩
  rw [hjournal, Journal.beforeStop_append_of_arranges hlate]

namespace Tended

theorem congr (h : m.Tended live) {live' : Lease → Prop} (hiff : ∀ l, live l ↔ live' l) :
    m.Tended live' := by
  obtain rfl : live = live' := funext fun l => propext (hiff l)
  exact h

/-- The repeaters and operations stay, and new timeouts are under leases in use. -/
theorem carry (h : m.Tended live) (continues : Continues m m')
    (repeating : m'.timeline.repeating.Perm m.timeline.repeating)
    (timeouts : ∀ t ∈ m'.timeline.timeouts, t ∈ m.timeline.timeouts ∨ live t.owner ∨
      Journal.PutOffByExit t.owner m'.journal)
    (jobs : m'.jobs = m.jobs) : m'.Tended live where
  repeating l := by
    rw [repeating.mem_iff, h.repeating, Tree.Repeats, Tree.Repeats, continues.nodes,
      Journal.Stopped, Journal.Stopped, continues.stop]
  distinct := (repeating.map _).nodup_iff.mpr h.distinct
  timeouts t ht := by
    rcases timeouts t ht with ht | ht
    · exact (h.timeouts t ht).imp_right fun hexit => hexit.mono continues.journal
    · exact ht
  jobs job hjob := h.jobs job (jobs ▸ hjob)
  single := jobs ▸ h.single

theorem carry_of_eq (h : m.Tended live) (continues : Continues m m')
    (timeline : m'.timeline = m.timeline) (jobs : m'.jobs = m.jobs) : m'.Tended live :=
  h.carry continues (by rw [timeline]) (fun _ ht => Or.inl (timeline ▸ ht)) jobs

end Tended

/-! ### Chains -/

theorem mem_waitsOf {runs : List (Lease × Run D)} {w : Lease × Continuation} :
    w ∈ waitsOf runs ↔ ∃ r, (w.1, r) ∈ runs ∧ r.continuation? = some w.2 := by
  unfold waitsOf
  rw [List.mem_filterMap]
  constructor
  · rintro ⟨⟨owner, r⟩, hr, hwait⟩
    obtain ⟨rest, hrest, rfl⟩ := Option.map_eq_some_iff.mp hwait
    exact ⟨r, hr, hrest⟩
  · rintro ⟨r, hr, hrest⟩
    exact ⟨(w.1, r), hr, Option.map_eq_some_iff.mpr ⟨w.2, hrest, rfl⟩⟩

theorem commit_timeline (m : Machine D) (payload : Json) (runs : List (Lease × Run D)) :
    (m.commit payload runs).timeline.repeating = m.timeline.repeating ∧
      ∀ t ∈ (m.commit payload runs).timeline.timeouts,
        t ∈ m.timeline.timeouts ∨ ∃ w ∈ waitsOf runs, t.owner = w.1 := by
  have hwaits : ∀ (waits : List (Lease × Continuation)) (s : Timeline Task),
      (waits.foldl (fun s w => s.setTimeout w.1 w.2.delay (.resume w.2 payload)) s).repeating =
        s.repeating ∧
      ∀ t ∈ (waits.foldl (fun s w => s.setTimeout w.1 w.2.delay (.resume w.2 payload)) s).timeouts,
        t ∈ s.timeouts ∨ ∃ w ∈ waits, t.owner = w.1 := by
    intro waits
    induction waits with
    | nil => exact fun s => ⟨rfl, fun t ht => Or.inl ht⟩
    | cons w waits ih =>
      intro s
      obtain ⟨hrepeating, htimeouts⟩ := ih (s.setTimeout w.1 w.2.delay (.resume w.2 payload))
      refine ⟨hrepeating.trans (Timeline.repeating_setTimeout ..), fun t ht => ?_⟩
      rcases htimeouts t ht with ht | ⟨v, hv, howner⟩
      · rcases Timeline.mem_timeouts_setTimeout ht with howner | ht
        · exact Or.inr ⟨w, List.mem_cons_self, howner⟩
        · exact Or.inl ht
      · exact Or.inr ⟨v, List.mem_cons_of_mem w hv, howner⟩
  obtain ⟨data, owed, queue, journal, heq⟩ := commit_eq m payload runs
  rw [heq]
  exact hwaits _ _

/-- A run that waits puts its rest off as soon as it is taken over. -/
theorem commit_journal (m : Machine D) (payload : Json) (owner : Lease) {r : Run D}
    {rest : Continuation} (h : r.continuation? = some rest) :
    ∃ late passed, (m.commit payload [(owner, r)]).journal =
      late ++ .deferred owner .wait :: .committed passed :: m.journal := by
  have hwaits : waitsOf [(owner, r)] = [(owner, rest)] := by simp [waitsOf, h]
  unfold commit
  show ∃ late passed, (List.foldl enqueue (List.foldl _ _ (waitsOf [(owner, r)])) _).journal = _
  rw [hwaits]
  obtain ⟨late, hlate, -⟩ := enqueueAll_arranges _ _
  exact ⟨late, _, hlate⟩

theorem commit_continues (m : Machine D) (payload : Json) (runs : List (Lease × Run D)) :
    Continues m (m.commit payload runs) := by
  obtain ⟨data, owed, queue, journal, heq⟩ := commit_eq m payload runs
  have hnote : Continues m (m.note (.committed (runs.flatMap fun r => r.2.passed))) :=
    .of_note rfl rfl rfl
  exact hnote.trans ((commit_arranges m payload runs).continues (by rw [heq]; rfl))

theorem execute_continues (m : Machine D) (index : Nat) (role : Role) (payload : Json)
    (event : String) (run : Context D → WorkingCopy D → Run D) :
    Continues m (m.execute index role payload event run).1 := by
  have hran : Continues m (m.note (.ran (m.tree.lease index) role m.timeline.now)) :=
    .of_note rfl rfl rfl
  rcases m.execute_cases index role payload event run with ⟨e, heq⟩ | ⟨r, heq⟩ <;> rw [heq]
  · exact hran
  · have hcommit := commit_continues (m.note (.ran (m.tree.lease index) role m.timeline.now))
      payload [(m.tree.lease index, r)]
    exact hran.trans hcommit

/-- A chain is run for a lease in use, or as its node is left. -/
theorem Tended.execute (h : m.Tended live) {index : Nat} {role : Role}
    (howner : live (m.tree.lease index) ∨ role = .exit) (payload : Json) (event : String)
    (run : Context D → WorkingCopy D → Run D) :
    (m.execute index role payload event run).1.Tended live := by
  have hcontinues := execute_continues m index role payload event run
  rcases m.execute_cases index role payload event run with ⟨e, heq⟩ | ⟨r, heq⟩ <;>
    rw [heq] at hcontinues ⊢
  · exact h.carry_of_eq hcontinues rfl rfl
  · let m₁ := m.note (.ran (m.tree.lease index) role m.timeline.now)
    obtain ⟨hrepeating, htimeouts⟩ := commit_timeline m₁ payload [(m.tree.lease index, r)]
    obtain ⟨data, owed, queue, journal, hcommit⟩ :=
      commit_eq m₁ payload [(m.tree.lease index, r)]
    refine h.carry hcontinues (hrepeating ▸ .refl _) (fun t ht => ?_) (by rw [hcommit]; rfl)
    refine (htimeouts t ht).imp_right ?_
    rintro ⟨w, hw, htimer⟩
    obtain ⟨r', hr, hrest⟩ := mem_waitsOf.mp hw
    obtain ⟨howns, rfl⟩ := Prod.mk.inj (List.mem_singleton.mp hr)
    rw [htimer, howns]
    refine howner.imp_right ?_
    rintro rfl
    obtain ⟨late, passed, hjournal⟩ := commit_journal m₁ payload (m.tree.lease index) hrest
    exact ⟨late, passed, m.timeline.now, m.journal, hjournal⟩

theorem executeChain_continues (m : Machine D) (index : Nat) (role : Role) (payload : Json)
    (event : String) (chain : Option Chain) :
    Continues m (m.executeChain index role payload event chain).1 := by
  cases chain with
  | none => exact .refl m
  | some chain =>
    exact execute_continues m index role payload event fun ctx copy => ctx.run chain copy

theorem Tended.executeChain (h : m.Tended live) {index : Nat} {role : Role}
    (howner : live (m.tree.lease index) ∨ role = .exit) (payload : Json) (event : String)
    (chain : Option Chain) : (m.executeChain index role payload event chain).1.Tended live := by
  cases chain with
  | none => exact h
  | some chain => exact h.execute howner payload event fun ctx copy => ctx.run chain copy

/-! ### Leaving and entering a node -/

/-- When a node is left, its leases are not in use any more. -/
theorem Tended.leave (h : m.Tended live) (payload : Json) (event : String) (n : Node) :
    (m.leave payload event n).1.Tended fun l => live l ∧ l.node ≠ n.index := by
  let m' : Machine D := { m with
    timeline := m.timeline.cancel n.index
    jobs := m.jobs.filter fun job => job.owner.node ≠ n.index }
  have hm' : m'.Tended fun l => live l ∧ l.node ≠ n.index := by
    refine ⟨fun l => ?_, ?_, fun t ht => ?_, fun job hjob => ?_, ?_⟩
    · rw [Timeline.repeating_cancel, List.mem_filter, h.repeating, decide_eq_true_iff]
      exact ⟨fun ⟨⟨hlive, hwork⟩, hnode⟩ => ⟨⟨hlive, hnode⟩, hwork⟩,
        fun ⟨⟨hlive, hnode⟩, hwork⟩ => ⟨⟨hlive, hwork⟩, hnode⟩⟩
    · rw [Timeline.repeating_cancel]
      exact h.distinct.sublist (List.filter_sublist.map _)
    · obtain ⟨ht, hnode⟩ := Timeline.mem_timeouts_cancel ht
      exact (h.timeouts t ht).imp_left fun hlive => ⟨hlive, hnode⟩
    · obtain ⟨hjob, hnode⟩ := List.mem_filter.mp hjob
      exact ⟨h.jobs job hjob, by simpa using hnode⟩
    · exact h.single.sublist (List.filter_sublist.map _)
  exact hm'.executeChain (Or.inr rfl) payload event n.handlers.onExit

theorem repeating_startRepeater (m : Machine D) (payload : Json) (owner : Lease) (r : Repeater) :
    (m.startRepeater payload owner (some r)).timeline.repeating.Perm
      (owner :: m.timeline.repeating) := by
  obtain ⟨chain, _ | d⟩ := r
  · exact Timeline.repeating_addFrame ..
  · exact Timeline.repeating_setInterval ..

/-- A node that is entered starts its repeater under its new lease. -/
theorem Tended.startRepeater (h : m.Tended live) (hwf : m.tree.WellFormed) {n : Node}
    (hn : n ∈ m.tree.nodes) (new : ∀ l, live l → l.node ≠ n.index)
    (unstopped : ¬ Journal.Stopped (m.tree.lease n.index) m.journal) (payload : Json) :
    (m.startRepeater payload (m.tree.lease n.index) n.handlers.repeater).Tended fun l =>
      live l ∨ l = m.tree.lease n.index := by
  have htimeouts := timeouts_startRepeater (m := m) payload (m.tree.lease n.index) n.handlers.repeater
  have hrepeats := hwf.repeats_iff hn
  cases hrepeater : n.handlers.repeater with
  | none =>
    rw [hrepeater] at hrepeats
    refine ⟨fun l => ?_, h.distinct, fun t ht => (h.timeouts t ht).imp_left Or.inl,
      fun job hjob => Or.inl (h.jobs job hjob), h.single⟩
    have hnone : ¬ (l = m.tree.lease n.index ∧ m.tree.Repeats l.node) := by
      rintro ⟨rfl, hwork⟩
      cases hrepeats.mp hwork
    rw [Machine.startRepeater, h.repeating]
    tauto
  | some r =>
    rw [hrepeater] at hrepeats htimeouts
    have hrepeating := repeating_startRepeater m payload (m.tree.lease n.index) r
    have hcontinues : Continues m (m.startRepeater payload (m.tree.lease n.index) (some r)) :=
      (startRepeater_arranges payload _ _).continues rfl
    refine ⟨fun l => ?_, ?_, fun t ht => ?_, fun job hjob => Or.inl (h.jobs job hjob), h.single⟩
    · rw [hrepeating.mem_iff, List.mem_cons, h.repeating, Journal.Stopped, Journal.Stopped,
        hcontinues.stop]
      constructor
      · rintro (rfl | ⟨hlive, hwork⟩)
        · exact ⟨Or.inr rfl, hrepeats.mpr rfl, unstopped⟩
        · exact ⟨Or.inl hlive, hwork⟩
      · rintro ⟨hlive | rfl, hwork⟩
        · exact Or.inr ⟨hlive, hwork⟩
        · exact Or.inl rfl
    · rw [(hrepeating.map _).nodup_iff, List.map_cons, List.nodup_cons]
      refine ⟨fun hmem => ?_, h.distinct⟩
      obtain ⟨l, hl, hnode⟩ := List.mem_map.mp hmem
      exact new l ((h.repeating l).mp hl).1 hnode
    · rw [htimeouts] at ht
      exact (h.timeouts t ht).imp Or.inl fun hexit => hexit.mono hcontinues.journal

theorem Tended.launch (h : m.Tended live) {owner : Lease} (howner : live owner)
    (new : ∀ job ∈ m.jobs, job.owner.node ≠ owner.node) (payload : Json) (a : Option Awaiting) :
    (m.launch payload owner a).Tended live := by
  cases a with
  | none => exact h
  | some a =>
    have hcontinues : Continues m (m.launch payload owner (some a)) :=
      (launch_arranges payload owner (some a)).continues rfl
    have hm : (m.note (.deferred owner .operation)).Tended live :=
      h.carry_of_eq ⟨rfl, hcontinues.journal, hcontinues.stop⟩ rfl rfl
    refine ⟨hm.repeating, hm.distinct, hm.timeouts, fun job hjob => ?_, ?_⟩
    · rcases List.mem_append.mp hjob with hjob | hjob
      · exact h.jobs job hjob
      · rw [List.mem_singleton.mp hjob]
        exact howner
    · show ((m.jobs ++ [_]).map _).Nodup
      rw [List.map_append, List.map_singleton, List.nodup_append]
      refine ⟨h.single, List.nodup_singleton _, ?_⟩
      rintro _ hnode _ hlast rfl
      obtain ⟨job, hjob, heq⟩ := List.mem_map.mp hnode
      exact new job hjob (heq.trans (List.mem_singleton.mp hlast))

theorem enter_tree (m : Machine D) (payload : Json) (event : String) (n : Node) :
    (m.enter payload event n).1.tree = m.tree := (enter_chores m n payload event).tree_eq

theorem enter_continues (m : Machine D) (payload : Json) (event : String) (n : Node) :
    Continues m (m.enter payload event n).1 := by
  let m₁ := m.startRepeater payload (m.tree.lease n.index) n.handlers.repeater
  have hstart : Continues m m₁ :=
    (startRepeater_arranges payload _ n.handlers.repeater).continues
      (Chore.startRepeater m payload n.index n.handlers.repeater).tree_eq
  have hchain := hstart.trans
    (executeChain_continues m₁ n.index .enter payload event n.handlers.onEnter)
  unfold enter
  dsimp only
  split <;> rename_i heq <;> rw [heq] at hchain
  · exact hchain
  · refine hchain.trans ((launch_arranges payload _ n.handlers.awaiting).continues ?_)
    cases n.handlers.awaiting <;> rfl

/-- When a node is entered, its new lease is in use. -/
theorem Tended.enter (h : m.Tended live) (hwf : m.tree.WellFormed) {n : Node}
    (hn : n ∈ m.tree.nodes) (new : ∀ l, live l → l.node ≠ n.index)
    (unstopped : ¬ Journal.Stopped (m.tree.lease n.index) m.journal) {payload : Json}
    {event : String} {requests : List Request}
    (henter : m.enter payload event n = (m', .ok requests)) :
    m'.Tended fun l => live l ∨ l = m.tree.lease n.index := by
  let m₁ := m.startRepeater payload (m.tree.lease n.index) n.handlers.repeater
  have htree : m₁.tree = m.tree := (Chore.startRepeater m payload n.index n.handlers.repeater).tree_eq
  have hjobs : m₁.jobs = m.jobs := by
    show (m.startRepeater _ _ n.handlers.repeater).jobs = m.jobs
    cases n.handlers.repeater <;> rfl
  have hstart : m₁.Tended fun l => live l ∨ l = m.tree.lease n.index :=
    h.startRepeater hwf hn new unstopped payload
  have hchain : (m₁.executeChain n.index .enter payload event n.handlers.onEnter).1.Tended
      fun l => live l ∨ l = m.tree.lease n.index :=
    hstart.executeChain (Or.inl (Or.inr (congrArg (Tree.lease · n.index) htree))) payload event _
  have hjobs' : (m₁.executeChain n.index .enter payload event n.handlers.onEnter).1.jobs = m.jobs := by
    obtain ⟨data, owed, queue, timeline, journal, heq⟩ :=
      executeChain_eq m₁ n.index .enter payload event n.handlers.onEnter
    rw [heq]
    exact hjobs
  rw [Machine.enter] at henter
  split at henter <;> rename_i heq <;> rw [heq] at hchain hjobs'
  · cases henter
  · cases henter
    refine hchain.launch (Or.inr rfl) (fun job hjob => ?_) payload n.handlers.awaiting
    exact new job.owner (h.jobs job (hjobs' ▸ hjob))

/-! ### Leaving and entering nodes -/

theorem leave_tree (m : Machine D) (payload : Json) (event : String) (n : Node) :
    (m.leave payload event n).1.tree = m.tree := by
  obtain ⟨data, owed, queue, timeline, journal, heq⟩ := executeChain_eq { m with
    timeline := m.timeline.cancel n.index
    jobs := m.jobs.filter fun job => job.owner.node ≠ n.index } n.index .exit payload event
    n.handlers.onExit
  unfold leave
  dsimp only
  rw [heq]

theorem leave_continues (m : Machine D) (payload : Json) (event : String) (n : Node) :
    Continues m (m.leave payload event n).1 := by
  have habandon : Continues m { m with
      timeline := m.timeline.cancel n.index
      jobs := m.jobs.filter fun job => job.owner.node ≠ n.index } := ⟨rfl, List.suffix_refl _, rfl⟩
  exact habandon.trans (executeChain_continues _ n.index .exit payload event n.handlers.onExit)

theorem Tended.leaveAll {payload : Json} {event : String} : ∀ {ns : List Node} {m m' : Machine D}
    {live : Lease → Prop} {requests : List Request}, m.Tended live →
      forNodes (Machine.leave payload event) ns m = (m', .ok requests) →
        m'.Tended fun l => live l ∧ ∀ n ∈ ns, l.node ≠ n.index
  | [], _, _, _, _, h, rfl => h.congr fun l => ⟨fun hlive => ⟨hlive, nofun⟩, And.left⟩
  | n :: ns, _, _, _, _, h, hall => by
    obtain ⟨m₁, first, more, hfirst, hrest⟩ := forNodes_cons_eq_ok hall
    have hn := h.leave payload event n
    rw [hfirst] at hn
    refine (hn.leaveAll hrest).congr fun l => ?_
    rw [List.forall_mem_cons, and_assoc]

theorem Tended.enterAll {payload : Json} {event : String} : ∀ {ns : List Node} {m m' : Machine D}
    {live : Lease → Prop} {requests : List Request}, m.Tended live → m.tree.WellFormed →
      (∀ n ∈ ns, n ∈ m.tree.nodes) → (ns.map (·.index)).Nodup →
      (∀ l, live l → ∀ n ∈ ns, l.node ≠ n.index) →
      (∀ n ∈ ns, ¬ Journal.Stopped (m.tree.lease n.index) m.journal) →
      forNodes (Machine.enter payload event) ns m = (m', .ok requests) →
        m'.Tended fun l => live l ∨ ∃ n ∈ ns, l = m.tree.lease n.index
  | [], _, _, _, _, h, _, _, _, _, _, rfl => h.congr fun l => by simp
  | n :: ns, m, _, live, _, h, hwf, hnodes, hnodup, hnew, hunstopped, hall => by
    obtain ⟨m₁, first, more, hfirst, hrest⟩ := forNodes_cons_eq_ok hall
    obtain ⟨hn, hns⟩ := List.forall_mem_cons.mp hnodes
    rw [List.map_cons, List.nodup_cons] at hnodup
    have htree := m.enter_tree payload event n
    have hcontinues := m.enter_continues payload event n
    have hnow := h.enter hwf hn (fun l hl => hnew l hl n List.mem_cons_self)
      (hunstopped n List.mem_cons_self) hfirst
    rw [hfirst] at htree hcontinues
    dsimp only at htree hcontinues
    have hlater := hnow.enterAll (htree ▸ hwf) (htree ▸ hns) hnodup.2
      (fun l hl k hk => ?_) (fun k hk => ?_) hrest
    · rw [htree] at hlater
      refine hlater.congr fun l => ?_
      rw [List.exists_mem_cons_iff, or_assoc]
    · rcases hl with hl | rfl
      · exact hnew l hl k (List.mem_cons_of_mem n hk)
      · exact fun hindex => hnodup.1 (List.mem_map.mpr ⟨k, hk, hindex.symm⟩)
    · rw [htree, Journal.Stopped, hcontinues.stop]
      exact hunstopped k (List.mem_cons_of_mem n hk)

/-! ### Transitions -/

variable {target tree : Tree} {recalls : Recall} {payload : Json}

theorem activates_rel (h : m.activates target recalls payload = (tree, none)) :
    Tree.Rel Activity.Turn m.tree tree := by
  have hrel : Tree.Rel Activity.Turn m.tree (m.activates target recalls payload).1 :=
    Tree.activate_rel m.tree _
  rwa [h] at hrel

/-- The leases that are current are those of the active nodes. -/
theorem isCurrent_iff_exists (h : Addressed tree) (l : Lease) :
    tree.isCurrent l = true ↔ ∃ n ∈ tree.activeNodes.map Tree.node, l = tree.lease n.index := by
  rw [Tree.isCurrent_iff, Tree.map_node_activeNodes h.wellFormed h.orderly]
  constructor
  · rintro ⟨hactive, hlease⟩
    obtain ⟨n, hn, hindex⟩ := Tree.exists_node_of_activeAt hactive
    rw [← hindex] at hactive hlease
    exact ⟨n, List.mem_filter.mpr ⟨hn, hactive⟩, hlease.symm⟩
  · rintro ⟨n, hn, rfl⟩
    exact ⟨(List.mem_filter.mp hn).2, rfl⟩

theorem mem_leaves (hm : Addressed m.tree) {n : Node} : n ∈ m.leaves tree ↔
    n ∈ m.tree.nodes ∧ m.tree.activeAt n.index = true ∧ tree.activeAt n.index = false := by
  rw [leaves_eq hm, List.mem_filter, List.mem_filter, and_assoc, Bool.not_eq_true']

theorem mem_enters (hm : Addressed m.tree) (ht : Addressed tree) (hplain : tree.plain = m.tree.plain)
    {n : Node} : n ∈ m.enters tree ↔
      n ∈ m.tree.nodes ∧ tree.activeAt n.index = true ∧ m.tree.activeAt n.index = false := by
  rw [enters_eq hm ht hplain, List.mem_filter, List.mem_filter, and_assoc, Bool.not_eq_true']

theorem nodup_enters (ht : Addressed tree) : ((m.enters tree).map (·.index)).Nodup := by
  refine ht.wellFormed.nodup_indices.sublist ?_
  rw [enters, Tree.map_node_activeNodes ht.wellFormed ht.orderly]
  exact (List.filter_sublist.trans List.filter_sublist).map _

/-- After a transition the leases are current that were before, but for those of the nodes left,
and the new ones of the nodes entered. -/
theorem isCurrent_iff_of_activates (hm : Addressed m.tree) (ht : Addressed tree)
    (h : m.activates target recalls payload = (tree, none)) (l : Lease) :
    tree.isCurrent l = true ↔
      (m.tree.isCurrent l = true ∧ ∀ n ∈ (m.leaves tree).reverse, l.node ≠ n.index) ∨
        ∃ n ∈ m.enters tree, l = tree.lease n.index := by
  have hrel := activates_rel h
  have hnodes := Tree.nodes_eq_of_plain_eq hrel.plain_eq
  rw [Tree.isCurrent_iff, Tree.isCurrent_iff]
  constructor
  · rintro ⟨hactive, hlease⟩
    cases hbefore : m.tree.activeAt l.node with
    | true =>
      refine Or.inl ⟨⟨rfl, (hrel.lease_eq hbefore hactive).symm.trans hlease⟩, fun n hn hindex => ?_⟩
      rw [hindex, ((mem_leaves hm).mp (List.mem_reverse.mp hn)).2.2] at hactive
      cases hactive
    | false =>
      obtain ⟨n, hn, hindex⟩ := Tree.exists_node_of_activeAt hactive
      rw [← hindex] at hactive hbefore hlease
      have henters := (mem_enters hm ht hrel.plain_eq).mpr ⟨hnodes ▸ hn, hactive, hbefore⟩
      exact Or.inr ⟨n, henters, hlease.symm⟩
  · rintro (⟨⟨hbefore, hlease⟩, hstays⟩ | ⟨n, hn, rfl⟩)
    · obtain ⟨n, hn, hindex⟩ := Tree.exists_node_of_activeAt hbefore
      cases hactive : tree.activeAt l.node with
      | true => exact ⟨rfl, (hrel.lease_eq hbefore hactive).trans hlease⟩
      | false =>
        rw [← hindex] at hbefore hactive
        have hleaves := (mem_leaves hm).mpr ⟨hn, hbefore, hactive⟩
        exact absurd hindex.symm (hstays n (List.mem_reverse.mpr hleaves))
    · exact ⟨((mem_enters hm ht hrel.plain_eq).mp hn).2.1, rfl⟩

/-- The lease of a node that is entered was not current when the repeaters were stopped. -/
theorem Faithful.not_stopped (hm : m.Faithful) (hlater : m.tree.Later tree) {index : Nat}
    (hinactive : m.tree.activeAt index = false) :
    ¬ Journal.Stopped (tree.lease index) m.journal := by
  rintro ⟨t, ht, hcurrent⟩
  obtain ⟨late, hlate⟩ := Journal.beforeStop_suffix m.journal
  have hsound : Journal.Sound (late ++ Journal.beforeStop m.journal) := hlate.symm ▸ hm.sound
  have hthen : t.Later m.tree := hsound.later ht (hlate.symm ▸ hm.reached)
  obtain ⟨hactive, hlease⟩ := Tree.isCurrent_iff.mp hcurrent
  have hle : (m.tree.lease index).generation ≤ (t.lease index).generation := by
    have hgeneration := hlater.generation_le index
    rwa [← hlease] at hgeneration
  exact Bool.false_ne_true (hinactive.symm.trans (hthen.activeAt hactive hle))

/-- What was the work of the active nodes is that after a transition. -/
theorem Upkept.move (hup : m.Upkept) (hfaithful : m.Faithful) (hm : Addressed m.tree)
    (ht : Addressed tree) (hact : m.activates target recalls payload = (tree, none))
    {event : String} {m₁ : Machine D} {requests more : List Request}
    (hleave : forNodes (Machine.leave payload event) (m.leaves tree).reverse
      (m.arrive target recalls tree) = (m₁, .ok requests))
    (henter : forNodes (Machine.enter payload event) (m.enters tree) m₁ = (m', .ok more)) :
    m'.Upkept := by
  have hrel := activates_rel hact
  have hnodes := Tree.nodes_eq_of_plain_eq hrel.plain_eq
  -- The machine has arrived, and no node has been left or entered.
  have harrive : Continues m (m.arrive target recalls tree) :=
    ⟨hnodes, (List.suffix_cons _ _).trans (List.suffix_cons _ _), rfl⟩
  have harrived := hup.carry_of_eq harrive rfl rfl
  -- All nodes that are not active any more have been left.
  have hleft := harrived.leaveAll hleave
  have htree : m₁.tree = tree :=
    forNodes_keeps (P := fun m => m.tree = tree) hleave
      (fun n _ m hm => (m.leave_tree payload event n).trans hm) rfl
  have hcontinues : Continues m m₁ :=
    forNodes_keeps (P := fun m₂ => Continues m m₂) hleave
      (fun n _ m hm => hm.trans (m.leave_continues payload event n)) harrive
  -- All nodes that have become active have been entered.
  have henters := fun n => (mem_enters hm ht hrel.plain_eq (n := n)).mp
  have hentered := hleft.enterAll (htree ▸ ht.wellFormed)
    (fun n hn => htree ▸ hnodes ▸ (henters n hn).1) (nodup_enters ht)
    (fun l hl n hn hindex => ?_) (fun n hn => ?_) henter
  · have htree' : m'.tree = m₁.tree :=
      forNodes_keeps (P := fun m => m.tree = m₁.tree) henter
        (fun n _ m hm => (m.enter_tree payload event n).trans hm) rfl
    rw [Upkept, htree', htree]
    rw [htree] at hentered
    exact hentered.congr fun l => (isCurrent_iff_of_activates hm ht hact l).symm
  · have hactive := (Tree.isCurrent_iff.mp hl.1).1
    rw [hindex, (henters n hn).2.2] at hactive
    cases hactive
  · rw [htree, Journal.Stopped, hcontinues.stop]
    exact hfaithful.not_stopped (hrel.mono fun h => h.later) (henters n hn).2.2

/-! ### Deeds -/

theorem isCurrent_of_mem_chainsFor (hm : m.tree.WellFormed) {event : String} {c : Lease × Chain}
    (hc : c ∈ m.chainsFor event) : m.tree.isCurrent c.1 = true := by
  refine Tree.isCurrent_iff.mpr ⟨?_, lease_of_mem_chainsFor hm hc⟩
  obtain ⟨u, hu, hc⟩ := List.mem_flatMap.mp hc
  obtain ⟨chain, -, rfl⟩ := List.mem_map.mp hc
  obtain ⟨hmem, hactive⟩ := Tree.mem_activeNodes hu
  exact (hm.activeAt_iff hmem).trans hactive

/-- The chains for an event are run under leases that are current. -/
theorem Upkept.answer (hup : m.Upkept) (hm : m.tree.WellFormed) (e : Event) :
    (m.answer e).1.Upkept := by
  have hnote : Continues m (m.note (.handled e)) := .of_note rfl rfl rfl
  obtain ⟨data, owed, queue, timeline, journal, heq⟩ := answer_eq m e
  have htree : (m.answer e).1.tree = m.tree := by rw [heq]
  have hjobs : (m.answer e).1.jobs = m.jobs := by rw [heq]
  rw [Upkept, htree]
  unfold Machine.answer at hjobs ⊢
  split
  · exact hup.carry_of_eq hnote rfl rfl
  · rename_i hnone
    rw [hnone] at hjobs
    obtain ⟨hrepeating, htimeouts⟩ := commit_timeline (m.note (.handled e)) e.payload (m.runsFor e)
    refine hup.carry (hnote.trans (commit_continues _ e.payload _)) (hrepeating ▸ .refl _)
      (fun t ht => ?_) hjobs
    refine (htimeouts t ht).imp_right ?_
    rintro ⟨w, hw, howner⟩
    obtain ⟨r, hr, -⟩ := mem_waitsOf.mp hw
    obtain ⟨c, hc, hlease⟩ := fst_mem_of_mem_traverse hr
    have hcurrent := isCurrent_of_mem_chainsFor hm hc
    rw [hlease] at hcurrent
    exact Or.inl (howner ▸ hcurrent)

/-- Polled operations that stay are under the leases that they were under. -/
theorem owners_poll_sublist (m : Machine D) (gates : Gates) :
    ((m.poll gates).1.jobs.map (·.owner)).Sublist (m.jobs.map (·.owner)) := by
  unfold poll
  dsimp only
  induction m.jobs with
  | nil => exact .slnil
  | cons job jobs ih =>
    rw [List.map_cons, List.filterMap_cons]
    split
    · exact ih.cons _
    · rename_i job' hstays
      obtain rfl : { job with asked := job.asked + 1 } = job' := by
        split at hstays
        · exact Option.some.inj hstays
        · cases hstays
      exact ih.cons_cons _

theorem Upkept.poll (hup : m.Upkept) (gates : Gates) : (m.poll gates).1.Upkept := by
  have howners := owners_poll_sublist m gates
  refine ⟨hup.repeating, hup.distinct, hup.timeouts, fun job hjob => ?_, ?_⟩
  · obtain ⟨job', hjob', howner⟩ := List.mem_map.mp (howners.subset (List.mem_map_of_mem hjob))
    exact howner ▸ hup.jobs job' hjob'
  · have hsingle := hup.single
    rw [← Tree.map_map_eq (g := Lease.node) (f := Job.owner) (fun _ => rfl)] at hsingle ⊢
    exact hsingle.sublist (howners.map _)

variable {design : Design D} {settings : Settings} {fresh : String}

/-- A deed in which nothing fails keeps the work that of the active nodes. -/
theorem Deed.upkept (h : Deed m m') (hm : Arises design settings fresh m)
    (same : Journal.failures m'.journal = Journal.failures m.journal) (hup : m.Upkept) :
    m'.Upkept := by
  have hwf := hm.faithful.wellFormed
  cases h with
  | receive e => exact hup.carry_of_eq (.of_note rfl rfl rfl) rfl rfl
  | @answer e rest queue =>
    have htaken : ({ m with queue := rest } : Machine D).Upkept :=
      hup.carry_of_eq ⟨rfl, List.suffix_refl _, rfl⟩ rfl rfl
    exact htaken.answer hwf e
  | drop => exact hup.carry_of_eq ⟨rfl, List.suffix_refl _, rfl⟩ rfl rfl
  | @move target mem recalls payload event =>
    obtain ⟨tree, m₁, requests, more, hact, hleave, henter⟩ :=
      (move_passage m target recalls payload event).exists_done same
    have hm' : Arises design settings fresh (m.arrive target recalls tree) :=
      hm.changes (.single (.act (.move mem hact)))
    exact hup.move hm.faithful hm.addressed hm'.addressed hact hleave henter
  | @work owner role work current kind due payload event run =>
    obtain ⟨data, owed, queue, timeline, journal, heq⟩ :=
      execute_eq m owner.node role payload event run
    have htree : (m.execute owner.node role payload event run).1.tree = m.tree := by rw [heq]
    rw [Upkept, htree]
    exact hup.execute (Or.inl ((Tree.lease_eq_of_isCurrent current).symm ▸ current)) payload event run
  | flush =>
    obtain ⟨owed, journal, heq⟩ := flush_eq m
    have htree : m.flush.tree = m.tree := by rw [heq]
    rw [Upkept, htree]
    exact hup.carry_of_eq ((flush_arranges m).continues htree) (by rw [heq]) (by rw [heq])
  | poll gates => exact hup.poll gates

theorem Deeds.upkept (h : Deeds m m') (hm : Arises design settings fresh m)
    (same : Journal.failures m'.journal = Journal.failures m.journal) (hup : m.Upkept) :
    m'.Upkept :=
  h.unfailing (P := Upkept) same (fun hdeeds hdeed same hup =>
    hdeed.upkept (hm.changes (hdeeds.changes hm.faithful)) same hup) hup

/-! ### Steps -/

/-- A step from outside in which no interval runs out. -/
def Lasting (m m' : Machine D) : Prop :=
  Step m m' ∧ ∀ horizon failure, m.popStep horizon = some (m', failure) →
    ¬ m.timeline.RunsOut horizon

theorem Upkept.unsubscribe (hup : m.Upkept) (hm : m.Faithful) (s : Nat) :
    (m.unsubscribe s).1.Upkept := by
  unfold Machine.unsubscribe
  dsimp only
  split
  · -- Every lease that is current now is one of a repeater that was stopped.
    refine ⟨fun l => ?_, ?_, fun t ht => ?_, hup.jobs, hup.single⟩
    · show l ∈ m.timeline.clearRepeating.repeating ↔ _
      rw [Timeline.repeating_clearRepeating]
      refine ⟨fun hl => (nomatch hl), fun ⟨hcurrent, _, hunstopped⟩ => ?_⟩
      exact absurd ⟨m.tree, hm.reached, hcurrent⟩ hunstopped
    · show (m.timeline.clearRepeating.repeating.map _).Nodup
      rw [Timeline.repeating_clearRepeating]
      exact List.nodup_nil
    · have hexit := hup.timeouts t (Timeline.mem_timeouts_clearRepeating ht)
      exact hexit.imp_right fun hexit => hexit.mono (List.suffix_cons _ _)
  · exact hup.carry_of_eq ⟨rfl, List.suffix_refl _, rfl⟩ rfl rfl

/-- A step in which nothing fails and no interval runs out keeps the work that of the active
nodes. -/
theorem Lasting.upkept (h : Lasting m m') (hm : Arises design settings fresh m)
    (same : Journal.failures m'.journal = Journal.failures m.journal) (hup : m.Upkept) :
    m'.Upkept := by
  obtain ⟨hstep, hlasts⟩ := h
  cases hstep with
  | send e => exact (send_deeds m e).upkept hm same hup
  | pop hpop =>
    obtain ⟨due, timeline, hdue, hdeeds⟩ := popStep_deeds hpop hm.faithful
    obtain ⟨hrepeating, htimeouts⟩ := Timeline.holds_of_popDue hdue (hlasts _ _ hpop)
    have htaken : ({ m with timeline } : Machine D).Upkept :=
      hup.carry ⟨rfl, List.suffix_refl _, rfl⟩ hrepeating (fun t ht => Or.inl (htimeouts t ht)) rfl
    exact hdeeds.upkept (hm.changes (.single (.pop hdue))) same htaken
  | @settle horizon done =>
    have hsettle : (m.timeline.settle horizon).repeating = m.timeline.repeating ∧
        (m.timeline.settle horizon).timeouts = m.timeline.timeouts := by
      unfold Timeline.settle
      split <;> exact ⟨rfl, rfl⟩
    have hsettled : ({ m with timeline := m.timeline.settle horizon } : Machine D).Upkept :=
      hup.carry ⟨rfl, List.suffix_refl _, rfl⟩ (hsettle.1 ▸ .refl _)
        (fun t ht => Or.inl (hsettle.2 ▸ ht)) rfl
    exact hsettled
  | poll gates => exact (pollOperations_deeds gates hm.faithful).upkept hm same hup
  | subscribe => exact hup.carry_of_eq ⟨rfl, List.suffix_refl _, rfl⟩ rfl rfl
  | unsubscribe s => exact hup.unsubscribe hm.faithful s

/-- A machine that has entered its first states does the work of them. -/
theorem upkept_started {c : Compiled D} {tree : Tree} {requests : List Request}
    (ht : Addressed tree) (h : forNodes (Machine.enter .null "start")
      (tree.activeNodes.map Tree.node) (begin design settings c tree) = (m, .ok requests)) :
    m.Upkept := by
  have hbegin : (begin design settings c tree).Tended fun _ => False :=
    ⟨fun l => ⟨fun hl => (nomatch hl : False).elim, fun hl => hl.1.elim⟩, List.nodup_nil,
      fun t htimer => (nomatch htimer), fun job hjob => (nomatch hjob), List.nodup_nil⟩
  have hmap := Tree.map_node_activeNodes ht.wellFormed ht.orderly
  have hentered := hbegin.enterAll ht.wellFormed (fun n hn => ?_) ?_ (fun l hl => hl.elim)
    (fun n hn hstopped => ?_) h
  · have htree : m.tree = tree :=
      forNodes_keeps (P := fun m => m.tree = tree) h
        (fun n _ m hm => (m.enter_tree .null "start" n).trans hm) rfl
    rw [Upkept, htree]
    exact hentered.congr fun l =>
      ⟨fun hl => (isCurrent_iff_exists ht l).mpr (hl.resolve_left fun h => h.elim),
        fun hl => Or.inr ((isCurrent_iff_exists ht l).mp hl)⟩
  · rw [hmap] at hn
    exact (List.mem_filter.mp hn).1
  · rw [hmap]
    exact ht.wellFormed.nodup_indices.sublist (List.filter_sublist.map _)
  · obtain ⟨t, hnone, -⟩ := hstopped
    cases hnone

theorem Upkept.mem_repeating_iff (hup : m.Upkept) (hm : Addressed m.tree) (l : Lease) :
    l ∈ m.timeline.repeating ↔ ∃ u ∈ m.tree.activeNodes,
      u.node.handlers.repeater.isSome = true ∧ m.tree.lease u.node.index = l ∧
        ¬ Journal.Stopped l m.journal := by
  have hmem : ∀ u ∈ m.tree.activeNodes, u.node ∈ m.tree.nodes := fun u hu =>
    List.mem_map_of_mem (Tree.mem_activeNodes hu).1
  rw [hup.repeating, isCurrent_iff_exists hm]
  constructor
  · rintro ⟨⟨n, hn, rfl⟩, hrepeats, hunstopped⟩
    obtain ⟨u, hu, rfl⟩ := List.mem_map.mp hn
    exact ⟨u, hu, (hm.wellFormed.repeats_iff (hmem u hu)).mp hrepeats, rfl, hunstopped⟩
  · rintro ⟨u, hu, hrepeater, rfl, hunstopped⟩
    exact ⟨⟨u.node, List.mem_map_of_mem hu, rfl⟩,
      (hm.wellFormed.repeats_iff (hmem u hu)).mpr hrepeater, hunstopped⟩

/-- **Upkeep.** Let nothing have failed in a machine, from its creation on, and no interval have
run out. Its intervals and frame tasks are those of the active nodes that have a repeater and
were entered since all repeaters were last stopped: one for each, under the lease that the node
has now. Each timeout is under a lease that is current, unless an exit chain put it off. Each
pending operation is under a lease that is current, and no two are of the same node. -/
theorem work_of_active_nodes {m₀ m : Machine D} (hcreate : create design settings fresh = .ok m₀)
    (h : Relation.ReflTransGen Lasting m₀ m) (hnone : Journal.failures m.journal = 0) :
    ((m.timeline.repeating.map (·.node)).Nodup ∧
      ∀ l, l ∈ m.timeline.repeating ↔ ∃ u ∈ m.tree.activeNodes,
        u.node.handlers.repeater.isSome = true ∧ m.tree.lease u.node.index = l ∧
          ¬ Journal.Stopped l m.journal) ∧
    (∀ t ∈ m.timeline.timeouts,
      m.tree.isCurrent t.owner = true ∨ Journal.PutOffByExit t.owner m.journal) ∧
    (∀ job ∈ m.jobs, m.tree.isCurrent job.owner = true) ∧
    (m.jobs.map (·.owner.node)).Nodup := by
  have hup : m.Upkept :=
    unfailing_of_create (P := Upkept) And.left hcreate h hnone
      (fun hbegin henter => upkept_started hbegin.addressed henter)
      (fun hm hdeed same hup => hdeed.upkept hm same hup)
      (fun hm hstep same hup => Lasting.upkept hstep hm same hup)
  have hsteps : Steps m₀ m := Relation.ReflTransGen.mono (fun _ _ h => h.1) _ _ h
  have hm : Arises design settings fresh m := ((Reached.of_create hcreate).steps hsteps).arises
  exact ⟨⟨hup.distinct, hup.mem_repeating_iff hm.addressed⟩, hup.timeouts, hup.jobs, hup.single⟩

end Machine

/-- A beacon that blinks, and is off or on. When it goes on it waits for a second; while it is
on its light blinks too, and it asks for a reply that never comes. -/
def Design.beacon : Design Nat where
  id := none
  data := 0
  host := .empty
  root := .mk
    { initial := some (.child "off")
      repeater := some ⟨.one (.action (.inline fun n _ _ => (n + 1, none))), none⟩ } [
    ("off", .mk
      { on := [("ON", .one (.handler { targets := [.path "on"] } none none))]
        onExit := some (.many [
          .handler { wait := some (.seconds 1) } none none,
          .action (.inline fun n _ _ => (n + 1, none))]) } []),
    ("on", .mk
      { repeater := some ⟨.one (.action (.inline fun n _ _ => (n + 1, none))), none⟩
        awaiting := some ⟨.inline fun _ _ _ => ⟨fun _ _ => none⟩,
          .one (.action (.inline fun n _ _ => (n, none))), none⟩ } [])]

namespace Machine

/-- The beacon is looked at for a moment, so that it stops blinking, and then it goes on. Its
light blinks and its reply is awaited, and the wait of its exit chain is there as well. -/
theorem work_of_active_nodes_beacon :
    ∃ m₀ m : Machine Nat, create Design.beacon {} "m" = .ok m₀ ∧
      Relation.ReflTransGen Lasting m₀ m ∧ Journal.failures m.journal = 0 ∧
      m.snapshot.active = ["m", "m.on"] ∧ m.timeline.repeating.map (·.node) = [1] ∧
      (∀ l, l ∈ m.timeline.repeating ↔ ∃ u ∈ m.tree.activeNodes,
        u.node.handlers.repeater.isSome = true ∧ m.tree.lease u.node.index = l ∧
          ¬ Journal.Stopped l m.journal) ∧
      Journal.Stopped (m.tree.lease 2) m.journal ∧
      (∃ t ∈ m.timeline.timeouts, m.tree.isCurrent t.owner = false ∧
        Journal.PutOffByExit t.owner m.journal) ∧
      m.jobs.map (·.owner.node) = [1] ∧ ∀ job ∈ m.jobs, m.tree.isCurrent job.owner = true := by
  let looked (m : Machine Nat) : Machine Nat := (m.subscribe.1.unsubscribe 0).1
  let on (m : Machine Nat) : Machine Nat := ((looked m).send ⟨"ON", .null⟩).1
  have lasting : ∀ {m m' : Machine Nat}, Step m m' → m.timeline.timers = [] → Lasting m m' :=
    fun hstep htimers => ⟨hstep, fun horizon _ _ =>
      Timeline.not_runsOut (by rw [htimers]; rfl) horizon⟩
  obtain ⟨m, hcreate, htimers, hlooked, hfailures, hactive, hrepeating, hstopped, ⟨t, ht, hstale⟩,
      hjobs⟩ : ∃ m, create Design.beacon {} "m" = .ok m ∧
        m.timeline.timers = [] ∧ (looked m).timeline.timers = [] ∧
        Journal.failures (on m).journal = 0 ∧
        (on m).snapshot.active = ["m", "m.on"] ∧
        (on m).timeline.repeating.map (·.node) = [1] ∧
        (Journal.lastTree (Journal.beforeStop (on m).journal)).map
          (·.isCurrent ((on m).tree.lease 2)) = some true ∧
        (∃ t ∈ (on m).timeline.timeouts, (on m).tree.isCurrent t.owner = false) ∧
        (on m).jobs.map (·.owner.node) = [1] :=
    ⟨_, rfl, by decide +kernel, by decide +kernel, by decide +kernel, by decide +kernel,
      by decide +kernel, by decide +kernel, by decide +kernel, by decide +kernel⟩
  have hsteps : Relation.ReflTransGen Lasting m (on m) :=
    .head (lasting (.subscribe m) htimers) (.head (lasting (.unsubscribe m.subscribe.1 0) htimers)
      (.single (lasting (.send (looked m) _) hlooked)))
  obtain ⟨⟨-, hiff⟩, htimeouts, hcurrent, -⟩ := work_of_active_nodes hcreate hsteps hfailures
  obtain ⟨tree, hlast, hthen⟩ := Option.map_eq_some_iff.mp hstopped
  have hexit := (htimeouts t ht).resolve_left (by rw [hstale]; exact Bool.false_ne_true)
  exact ⟨m, on m, hcreate, hsteps, hfailures, hactive, hrepeating, hiff, ⟨tree, hlast, hthen⟩,
    ⟨t, ht, hstale, hexit⟩, hjobs, hcurrent⟩

end Machine
end Statechart
