/-
# What a machine foresees of an event

A machine that is asked whether it can handle an event probes the chain of each active node on its
own, and one that fails counts as one that finds no handler. To handle the event it runs the chains
one after another, and one that fails ends them all. For designs whose chains for events are direct
(`Design.Direct`: nothing in them waits, none has an `else` chain, and there are none for all
events) the two differ in just one case: a chain fails before any has found a handler
(`Context.Baulks`). Then the machine says that it can handle the event if a later chain would find
one, but when the event comes nothing passes, and nothing changes. In all other cases a handler
passes exactly when the machine says so (`Machine.Reached.answers_iff`).

Key definitions: `Design.Direct`, `Chain.Direct`, `Context.Baulks`, `Context.Passes`,
`Machine.Answers`.
Key theorems: `Host.chain_direct`, `Machine.Reached.direct`, `Context.passes_iff`,
`Machine.Reached.answers_iff`.
-/
import Statechart.Proofs.Atomicity
import Statechart.Proofs.Dispatch
import Statechart.Proofs.Origins
import Statechart.Proofs.Probe

namespace Statechart

variable {D : Type}

/-! ### Direct chains -/

/-- No handler of the chain waits or has an `else` chain, at any depth. -/
inductive Definition.Chain.Direct : Definition.Chain D → Prop
  | links {c : Chain D}
    (wait : ∀ body thenDo otherwise, .handler body thenDo otherwise ∈ c.links → body.wait = none)
    (otherwise : ∀ body thenDo otherwise, .handler body thenDo otherwise ∈ c.links →
      otherwise = none)
    (thenDo : ∀ body t otherwise, .handler body (some t) otherwise ∈ c.links → Direct t) : Direct c

/-- No state of the design has a chain for all events, and those for single ones are direct. -/
def Design.Direct (d : Design D) : Prop :=
  ∀ s : Definition.State D, s.Within d.root →
    s.body.onEvent = none ∧ ∀ e ∈ s.body.on, e.2.Direct

/-- Nothing in the chain waits, and a probe of it meets no `else` chain. -/
structure Chain.Direct (chain : Chain) : Prop where
  waits : Chain.waits chain = 0
  elseBodies : Chain.elseBodies chain = []

namespace Chain.Direct

theorem nil : Chain.Direct [] := ⟨rfl, by rw [Chain.elseBodies]⟩

theorem cons (body : Handler.Body) (thenDo : Option Chain) {rest : Chain}
    (hwait : body.wait = none) (hthen : ∀ t, thenDo = some t → Chain.Direct t)
    (hrest : Chain.Direct rest) : Chain.Direct (.mk body thenDo none :: rest) := by
  have hinner : Handler.Body.waits (thenDo.elim [] Chain.bodies) = 0 := by
    cases thenDo with
    | none => rfl
    | some t => exact (hthen t rfl).waits
  refine ⟨?_, ?_⟩
  · rw [waits_cons, Handler.inner_mk, Option.elim_none, List.append_nil, hinner, hrest.waits,
      Handler.body, hwait]
    rfl
  · rw [elseBodies_cons, hrest.elseBodies]
    rfl

end Chain.Direct

namespace Host

variable (host : Host D)

theorem links_direct : ∀ (ls : List (Definition.Link D)),
    (∀ body thenDo otherwise, .handler body thenDo otherwise ∈ ls → body.wait = none) →
    (∀ body thenDo otherwise, .handler body thenDo otherwise ∈ ls → otherwise = none) →
    (∀ body c otherwise, .handler body (some c) otherwise ∈ ls →
      ∀ t : Table D, ((host.chain c).run t).1.Direct) →
    ∀ t : Table D, ((host.links ls).run t).1.Direct
  | [], _, _, _, _ => .nil
  | l :: ls, hwait, helse, hthen, t => by
    have hrest := links_direct ls (fun body t e h => hwait body t e (List.mem_cons_of_mem l h))
      (fun body t e h => helse body t e (List.mem_cons_of_mem l h))
      (fun body c e h => hthen body c e (List.mem_cons_of_mem l h))
    cases l with
    | action ref => exact .cons { actions := [_] } none rfl nofun (hrest _)
    | handler body thenDo otherwise =>
      obtain rfl := helse body thenDo otherwise List.mem_cons_self
      have hbody : ((host.handlerBody body).run t).1.wait = none := by
        unfold handlerBody
        rw [hwait body thenDo none List.mem_cons_self]
        rfl
      cases thenDo with
      | none => exact .cons _ none hbody nofun (hrest _)
      | some c =>
        refine .cons _ (some _) hbody (fun t ht => ?_) (hrest _)
        cases ht
        exact hthen body c none List.mem_cons_self _

/-- A direct chain is compiled to a direct one. -/
theorem chain_direct {c : Definition.Chain D} (h : c.Direct) :
    ∀ t : Table D, ((host.chain c).run t).1.Direct := by
  induction h with
  | @links c wait otherwise _ ih =>
    intro t
    rw [chain_run]
    exact host.links_direct c.links wait otherwise ih t

theorem events_direct : ∀ {on : List (String × Definition.Chain D)}, (∀ e ∈ on, e.2.Direct) →
    ∀ t : Table D, ∀ e ∈ ((host.events on).run t).1, e.2.Direct
  | [], _, _, _, he => nomatch he
  | (event, c) :: rest, h, t, e, he => by
    obtain ⟨hc, hrest⟩ := List.forall_mem_cons.mp h
    rcases List.mem_cons.mp he with rfl | he
    · exact host.chain_direct hc t
    · exact events_direct hrest _ e he

end Host

/-- The chains in a compiled direct design are direct, and there are none for all events. -/
theorem Tree.direct_of_compile {d : Design D} {id : String} {c : Compiled D}
    (hc : d.compile id = .ok c) (h : d.Direct) : ∀ u ∈ c.tree.preorder,
      u.node.handlers.onEvent = none ∧ ∀ e ∈ u.node.handlers.on, e.2.Direct := by
  intro u hu
  obtain ⟨s, hwithin, hstate⟩ := (mirrors_of_compile hc).exists_within hu
  cases hstate with
  | @node _ body states n cs table _ handlers _ _ _ =>
    obtain ⟨honEvent, hon⟩ := h _ hwithin
    rw [node_mk, handlers]
    refine ⟨?_, d.host.events_direct hon table⟩
    have hnone : body.onEvent = none := honEvent
    rw [Host.handlers, hnone]
    rfl

namespace Context

variable {ctx : Context D} {data : D} {chain : Chain} {err : FunctionError}

/-! ### Running what was probed -/

/-- A probe of a direct chain goes as a run. -/
theorem wouldPass_of_direct (h : chain.Direct) :
    ctx.wouldPass data chain = (ctx.searchLeft data chain .null).map Option.isNone :=
  ctx.probe_eq_search_of_keepsResults data chain .null
    (ctx.keepsResults_of_get_eq_nil data chain .null (by simp [h.elseBodies]))

theorem wouldPass_singleton (body : Handler.Body) (thenDo : Option Chain) :
    ctx.wouldPass data [.mk body thenDo none] =
      (ctx.gather .result data body.get .null).map fun given => ctx.passes data given body.guards := by
  rw [wouldPass, probe]
  cases ctx.gather .result data body.get .null with
  | error e => rfl
  | ok given =>
    dsimp only [Except.map]
    split
    · rename_i hpass
      rw [hpass]
    · rename_i hpass
      rw [probe, Bool.eq_false_iff.mpr hpass]

/-- A direct chain whose probe fails, fails before any of its handlers passes. -/
theorem run_of_wouldPass_error (h : chain.Direct) (hprobe : ctx.wouldPass data chain = .error err) :
    (ctx.run chain { base := data }).stop = some (.failed err) ∧
      (ctx.run chain { base := data }).passed = [] := by
  have hrun := ctx.run_agrees h.waits data
  rw [wouldPass_of_direct h] at hprobe
  rcases hs : ctx.searchLeft data chain .null with e | (_ | left) <;> rw [hs] at hprobe hrun
  · cases hprobe
    exact ⟨hrun.2.2, hrun.1⟩
  · cases hprobe
  · cases hprobe

/-- A direct chain whose probe finds no handler does nothing. -/
theorem run_of_wouldPass_false (h : chain.Direct) (hprobe : ctx.wouldPass data chain = .ok false) :
    ∃ result, ctx.run chain { base := data } = .start { base := data } result := by
  have hrun := ctx.run_agrees h.waits data
  rw [wouldPass_of_direct h] at hprobe
  rcases hs : ctx.searchLeft data chain .null with e | (_ | left) <;> rw [hs] at hprobe hrun
  · cases hprobe
  · cases hprobe
  · exact ⟨left, hrun⟩

/-- A handler passes in the run of a direct chain whose probe finds one. -/
theorem run_of_wouldPass_true (h : chain.Direct) (hprobe : ctx.wouldPass data chain = .ok true) :
    ∃ g ∈ (ctx.run chain { base := data }).passed, g.body ∈ Chain.bodies chain := by
  have hrun := ctx.run_agrees h.waits data
  rw [wouldPass_of_direct h] at hprobe
  rcases hs : ctx.searchLeft data chain .null with e | (_ | left) <;> rw [hs] at hprobe hrun
  · cases hprobe
  · obtain ⟨g, x, hbody, -, -, hgrows⟩ := hrun
    have hpassed := (ctx.enact_grows g (r := x) ⟨List.prefix_rfl, id⟩).passed.trans hgrows.passed
    exact ⟨g, hpassed.subset (List.mem_append_right _ List.mem_cons_self), hbody⟩
  · cases hprobe

/-- Of chains that are probed in order, some find no handler, and then one fails. -/
inductive Baulks (ctx : Context D) (data : D) (err : FunctionError) : List (Lease × Chain) → Prop
  | here {owner : Lease} {chain : Chain} {rest : List (Lease × Chain)}
    (fails : ctx.wouldPass data chain = .error err) : Baulks ctx data err ((owner, chain) :: rest)
  | later {owner : Lease} {chain : Chain} {rest : List (Lease × Chain)}
    (vain : ctx.wouldPass data chain = .ok false) (baulks : Baulks ctx data err rest) :
    Baulks ctx data err ((owner, chain) :: rest)

/-- When the chains are run, a handler of one of them passes. -/
def Passes (ctx : Context D) (data : D) (chains : List (Lease × Chain)) : Prop :=
  ∃ c ∈ chains, ∃ r ∈ Machine.traverse ctx chains { base := data },
    r.1 = c.1 ∧ ∃ h ∈ r.2.passed, h.body ∈ Chain.bodies c.2

section Chains

variable {chains : List (Lease × Chain)}

/-- Chains that baulk fail when they are run. -/
theorem Baulks.fails (h : ctx.Baulks data err chains) (hdirect : ∀ c ∈ chains, c.2.Direct) :
    Machine.Fails ctx err chains { base := data } := by
  induction h with
  | here fails => exact .here (run_of_wouldPass_error (hdirect _ List.mem_cons_self) fails).1
  | @later owner chain rest vain _ ih =>
    obtain ⟨hchain, hrest⟩ := List.forall_mem_cons.mp hdirect
    obtain ⟨result, hrun⟩ := run_of_wouldPass_false hchain vain
    refine .later ?_ ?_ ?_ <;> rw [hrun]
    · exact nofun
    · exact nofun
    · exact ih hrest

/-- What chains do behind one that does nothing. -/
theorem traverse_of_vain (owner : Lease) (chains : List (Lease × Chain)) (h : chain.Direct)
    (vain : ctx.wouldPass data chain = .ok false) : ∃ r : Run D, r.passed = [] ∧
      Machine.traverse ctx ((owner, chain) :: chains) { base := data } =
        (owner, r) :: Machine.traverse ctx chains { base := data } := by
  obtain ⟨result, hrun⟩ := run_of_wouldPass_false h vain
  refine ⟨.start { base := data } result, rfl, ?_⟩
  rw [Machine.traverse, hrun]
  rfl

theorem traverse_of_fails (owner : Lease) (chains : List (Lease × Chain)) (h : chain.Direct)
    (fails : ctx.wouldPass data chain = .error err) : ∃ r : Run D, r.passed = [] ∧
      Machine.traverse ctx ((owner, chain) :: chains) { base := data } = [(owner, r)] := by
  obtain ⟨hstop, hpassed⟩ := run_of_wouldPass_error h fails
  refine ⟨_, hpassed, ?_⟩
  rw [Machine.traverse, hstop]

theorem head_mem_traverse (owner : Lease) (copy : WorkingCopy D) :
    (owner, ctx.run chain copy) ∈ Machine.traverse ctx ((owner, chain) :: chains) copy := by
  rw [Machine.traverse]
  split <;> exact List.mem_cons_self

/-- A handler passes if the chains do not baulk and a probe of one finds a handler. -/
theorem passes_of_wouldPass : ∀ {chains : List (Lease × Chain)}, (∀ c ∈ chains, c.2.Direct) →
    (∃ c ∈ chains, ctx.wouldPass data c.2 = .ok true) → (∀ err, ¬ ctx.Baulks data err chains) →
      ctx.Passes data chains
  | [], _, ⟨_, hc, _⟩, _ => nomatch hc
  | (owner, chain) :: rest, hdirect, ⟨c, hc, hpass⟩, hsteady => by
    obtain ⟨hchain, hrest⟩ := List.forall_mem_cons.mp hdirect
    match hprobe : ctx.wouldPass data chain with
    | .error err => exact absurd (.here hprobe) (hsteady err)
    | .ok true =>
      exact ⟨_, List.mem_cons_self, _, head_mem_traverse owner _, rfl,
        run_of_wouldPass_true hchain hprobe⟩
    | .ok false =>
      -- The chain does nothing, so that the others are run as if it were not there.
      have hlater : c ∈ rest := by
        rcases List.mem_cons.mp hc with rfl | hc
        · cases hprobe.symm.trans hpass
        · exact hc
      obtain ⟨c, hc, r, hr, howner, hpassed⟩ := passes_of_wouldPass hrest ⟨c, hlater, hpass⟩
        fun err hbaulks => hsteady err (.later hprobe hbaulks)
      obtain ⟨first, -, htraverse⟩ := traverse_of_vain owner rest hchain hprobe
      exact ⟨c, List.mem_cons_of_mem _ hc, r, htraverse ▸ List.mem_cons_of_mem _ hr, howner, hpassed⟩

/-- If a handler passes, a probe of a chain finds one, and the chains do not baulk. -/
theorem wouldPass_of_passed : ∀ {chains : List (Lease × Chain)}, (∀ c ∈ chains, c.2.Direct) →
    (∃ r ∈ Machine.traverse ctx chains { base := data }, r.2.passed ≠ []) →
      (∃ c ∈ chains, ctx.wouldPass data c.2 = .ok true) ∧ ∀ err, ¬ ctx.Baulks data err chains
  | [], _, ⟨_, hr, _⟩ => nomatch hr
  | (owner, chain) :: rest, hdirect, ⟨r, hr, hpassed⟩ => by
    obtain ⟨hchain, hrest⟩ := List.forall_mem_cons.mp hdirect
    match hprobe : ctx.wouldPass data chain with
    | .error err =>
      obtain ⟨first, hnone, htraverse⟩ :=
        traverse_of_fails owner rest hchain hprobe
      obtain rfl := List.mem_singleton.mp (htraverse ▸ hr)
      exact absurd hnone hpassed
    | .ok true =>
      refine ⟨⟨_, List.mem_cons_self, hprobe⟩, fun err hbaulks => ?_⟩
      cases hbaulks with
      | here fails => cases hprobe.symm.trans fails
      | later vain _ => cases hprobe.symm.trans vain
    | .ok false =>
      obtain ⟨first, hnone, htraverse⟩ :=
        traverse_of_vain owner rest hchain hprobe
      have hlater : r ∈ Machine.traverse ctx rest { base := data } := by
        rcases List.mem_cons.mp (htraverse ▸ hr) with rfl | hr
        · exact absurd hnone hpassed
        · exact hr
      obtain ⟨⟨c, hc, hpass⟩, hsteady⟩ := wouldPass_of_passed hrest ⟨r, hlater, hpassed⟩
      refine ⟨⟨c, List.mem_cons_of_mem _ hc, hpass⟩, fun err hbaulks => ?_⟩
      cases hbaulks with
      | here fails => cases hprobe.symm.trans fails
      | later _ hbaulks => exact hsteady err hbaulks

/-- When direct chains are run, a handler passes just when a probe of one finds a handler and they
do not baulk. -/
theorem passes_iff (hdirect : ∀ c ∈ chains, c.2.Direct) : ctx.Passes data chains ↔
    (∃ c ∈ chains, ctx.wouldPass data c.2 = .ok true) ∧ ∀ err, ¬ ctx.Baulks data err chains := by
  refine ⟨fun ⟨c, hc, r, hr, howner, h, hpassed, hbody⟩ => ?_, fun ⟨hpass, hsteady⟩ =>
    passes_of_wouldPass hdirect hpass hsteady⟩
  exact wouldPass_of_passed hdirect ⟨r, hr, List.ne_nil_of_mem hpassed⟩

/-- Where no function fails, no chains baulk. -/
theorem not_baulks (hT : ctx.table.NeverFails) : ¬ ctx.Baulks data err chains := by
  intro h
  induction h with
  | @here owner chain rest fails =>
    obtain ⟨b, hb⟩ := exists_wouldPass_eq hT data chain
    cases hb.symm.trans fails
  | later _ _ ih => exact ih

end Chains

end Context

namespace Machine

variable {m : Machine D} {design : Design D} {settings : Settings} {fresh : String}

/-! ### Handling what was foreseen -/

/-- When the event is handled, a handler of an active node's chain for it passes. -/
def Answers (m : Machine D) (e : Event) : Prop :=
  ∃ t ∈ m.tree.activeNodes, ∃ chain, t.node.handlers.on.lookup e.name = some chain ∧
    ∃ r ∈ m.runsFor e, r.1 = ⟨t.node.index, t.activity.generation⟩ ∧
      ∃ h ∈ r.2.passed, h.body ∈ Chain.bodies chain

/-- Of the chains for the event, one fails before any of them finds a handler. -/
def Baulks (m : Machine D) (e : Event) (err : FunctionError) : Prop :=
  (m.context e.payload).Baulks m.data err (m.chainsFor e.name)

/-- The chains of the active nodes for single events are direct, and there are none for all
events. -/
def Direct (m : Machine D) : Prop :=
  ∀ t ∈ m.tree.activeNodes, t.node.handlers.onEvent = none ∧ ∀ e ∈ t.node.handlers.on, e.2.Direct

theorem Reached.direct (h : Reached design settings fresh m) (hdesign : design.Direct) :
    m.Direct := by
  obtain ⟨c, tree, hc, hbegins, hchanges⟩ := h.arises
  obtain ⟨-, -, -, hplain⟩ := h.arises.compiled hc
  intro t ht
  have hmem : t.plain ∈ c.tree.preorder := by
    rw [← hplain]
    exact Tree.mem_preorder_mapActivity.mpr ⟨t, (Tree.mem_activeNodes ht).1, rfl⟩
  have hdirect := Tree.direct_of_compile hc hdesign t.plain hmem
  rwa [Tree.node_mapActivity] at hdirect

namespace Direct

variable (hm : m.Direct)
include hm

theorem mem_chainsFor_iff {event : String} {p : Lease × Chain} : p ∈ m.chainsFor event ↔
    ∃ t ∈ m.tree.activeNodes, t.node.handlers.on.lookup event = some p.2 ∧
      p.1 = ⟨t.node.index, t.activity.generation⟩ := by
  have hchains : ∀ t ∈ m.tree.activeNodes,
      t.node.handlers.chains event = (t.node.handlers.on.lookup event).toList := fun t ht => by
    rw [Handlers.chains, (hm t ht).1, Option.toList_none, List.append_nil]
  unfold chainsFor
  simp only [List.mem_flatMap, List.mem_map]
  constructor
  · rintro ⟨t, ht, c, hc, rfl⟩
    rw [hchains t ht] at hc
    exact ⟨t, ht, Option.mem_toList.mp hc, rfl⟩
  · rintro ⟨t, ht, hlookup, howner⟩
    refine ⟨t, ht, p.2, ?_, Prod.ext howner.symm rfl⟩
    rw [hchains t ht]
    exact Option.mem_toList.mpr hlookup

theorem chainsFor {event : String} : ∀ p ∈ m.chainsFor event, p.2.Direct := by
  intro p hp
  obtain ⟨t, ht, hlookup, -⟩ := hm.mem_chainsFor_iff.mp hp
  obtain ⟨before, after, hon, -⟩ := List.lookup_eq_some_iff.mp hlookup
  have hmem : (event, p.2) ∈ t.node.handlers.on := by simp [hon]
  exact (hm t ht).2 _ hmem

theorem can_iff (e : Event) : m.can e = true ↔
    ∃ p ∈ m.chainsFor e.name, (m.context e.payload).wouldPass m.data p.2 = .ok true := by
  unfold can
  rw [List.any_eq_true]
  constructor
  · rintro ⟨t, ht, hpass⟩
    split at hpass
    · cases hpass
    · rename_i chain hlookup
      refine ⟨(⟨t.node.index, t.activity.generation⟩, chain),
        hm.mem_chainsFor_iff.mpr ⟨t, ht, hlookup, rfl⟩, ?_⟩
      split at hpass
      · rename_i passes hprobe
        rw [hprobe, hpass]
      · cases hpass
  · rintro ⟨p, hp, hpass⟩
    obtain ⟨t, ht, hlookup, -⟩ := hm.mem_chainsFor_iff.mp hp
    exact ⟨t, ht, by rw [hlookup]; dsimp only; rw [hpass]⟩

theorem answers_iff_passes (e : Event) :
    m.Answers e ↔ (m.context e.payload).Passes m.data (m.chainsFor e.name) := by
  constructor
  · rintro ⟨t, ht, chain, hlookup, r, hr, howner, hpassed⟩
    exact ⟨(_, chain), hm.mem_chainsFor_iff.mpr ⟨t, ht, hlookup, rfl⟩, r, hr, howner, hpassed⟩
  · rintro ⟨p, hp, r, hr, howner, hpassed⟩
    obtain ⟨t, ht, hlookup, hlease⟩ := hm.mem_chainsFor_iff.mp hp
    exact ⟨t, ht, p.2, hlookup, r, hr, howner.trans hlease, hpassed⟩

theorem answers_iff_can (e : Event) :
    m.Answers e ↔ m.can e = true ∧ ∀ err, ¬ m.Baulks e err := by
  rw [hm.answers_iff_passes, Context.passes_iff hm.chainsFor, hm.can_iff]
  rfl

end Direct

/-- **What a machine foresees.** When a machine of a design with direct chains handles an event, a
handler of an active node's chain passes just when the machine says that one would and no chain
fails before. If one does, the event fails and changes nothing. No chain does where no function
fails, so that a handler passes there just when the machine says so. -/
theorem Reached.answers_iff (h : Reached design settings fresh m) (hdesign : design.Direct)
    (e : Event) :
    (m.Answers e ↔ m.can e = true ∧ ∀ err, ¬ m.Baulks e err) ∧
      (∀ err, m.Baulks e err → ∀ budget,
        m.handle budget e = (m.note (.handled e), budget, some (.eval e.name err))) ∧
      (m.table.NeverFails → (m.Answers e ↔ m.can e = true)) := by
  have hm := h.direct hdesign
  refine ⟨hm.answers_iff_can e, fun err hbaulks budget => ?_, fun hnever => ?_⟩
  · have hfails : m.TraversalFails e err := hbaulks.fails hm.chainsFor
    exact handle_of_fails hfails budget
  · rw [hm.answers_iff_can e]
    exact and_iff_left fun err => Context.not_baulks hnever

end Machine

/-- A radio that plays, and that is asked for the signal first, which fails. -/
def Design.radio : Design Nat where
  id := none
  data := 0
  host := .empty
  root := .mk
    { initial := some (.child "on")
      on := [("PLAY", .one (.handler { get := [.inline fun _ _ _ => .error "no signal"] } none none))] }
    [("on", .mk
      { on := [("PLAY", .one (.action (.inline fun n _ _ => (n + 1, none)))),
          ("LOUDER", .one (.action (.inline fun n _ _ => (n + 1, none))))] } [])]

theorem Design.radio_direct : radio.Direct := by
  intro s hs
  cases hs with
  | self =>
    refine ⟨rfl, fun e he => ?_⟩
    obtain rfl := List.mem_singleton.mp he
    refine .links ?_ ?_ ?_ <;> simp +contextual [Definition.Chain.links]
  | inside hmem hs =>
    obtain ⟨rfl, rfl⟩ := Prod.mk.inj (List.mem_singleton.mp hmem)
    cases hs with
    | inside hmem => cases hmem
    | self =>
      refine ⟨rfl, fun e he => ?_⟩
      rcases List.mem_pair.mp he with rfl | rfl <;> refine .links ?_ ?_ ?_ <;>
        simp [Definition.Chain.links]

namespace Machine

/-- The radio says that it can play, but when it is to, nothing passes. -/
theorem can_play_radio : ∃ m, Reached Design.radio {} "m" m ∧ Design.radio.Direct ∧
    m.can ⟨"PLAY", .null⟩ = true ∧ ¬ m.Answers ⟨"PLAY", .null⟩ ∧
    (m.send ⟨"PLAY", .null⟩).2 = some (.eval "PLAY" ⟨.result, "<inline result>", "no signal"⟩) := by
  obtain ⟨m, hcreate, hsend, root, child, body, body', hchains, hfails, hpasses⟩ :
      ∃ m, create Design.radio {} "m" = .ok m ∧
        (m.send ⟨"PLAY", .null⟩).2 =
          some (.eval "PLAY" ⟨.result, "<inline result>", "no signal"⟩) ∧
        ∃ root child body body', m.chainsFor "PLAY" =
            [(root, [.mk body none none]), (child, [.mk body' none none])] ∧
          (m.context .null).gather .result m.data body.get .null =
            .error ⟨.result, "<inline result>", "no signal"⟩ ∧
          ((m.context .null).gather .result m.data body'.get .null).map
            (fun given => (m.context .null).passes m.data given body'.guards) = .ok true :=
    ⟨_, rfl, by decide +kernel, _, _, _, _, rfl, rfl, rfl⟩
  have hreached : Reached Design.radio {} "m" m := .of_create hcreate
  have hm := hreached.direct Design.radio_direct
  have hbaulks : m.Baulks ⟨"PLAY", .null⟩ ⟨.result, "<inline result>", "no signal"⟩ := by
    unfold Baulks
    rw [hchains]
    exact .here (by rw [Context.wouldPass_singleton, hfails]; rfl)
  have hcan : m.can ⟨"PLAY", .null⟩ = true := by
    refine (hm.can_iff _).mpr ⟨(child, [.mk body' none none]), ?_, ?_⟩
    · rw [hchains]
      exact List.mem_cons_of_mem _ List.mem_cons_self
    · exact (Context.wouldPass_singleton body' none).trans hpasses
  exact ⟨m, hreached, Design.radio_direct, hcan,
    fun hanswers => ((hm.answers_iff_can _).mp hanswers).2 _ hbaulks, hsend⟩

/-- The radio says that it can be louder, and so it can. -/
theorem answers_louder_radio : ∃ m, Reached Design.radio {} "m" m ∧ Design.radio.Direct ∧
    m.can ⟨"LOUDER", .null⟩ = true ∧ m.Answers ⟨"LOUDER", .null⟩ := by
  obtain ⟨m, hcreate, child, body, hchains, hpasses⟩ :
      ∃ m, create Design.radio {} "m" = .ok m ∧
        ∃ child body, m.chainsFor "LOUDER" = [(child, [.mk body none none])] ∧
          ((m.context .null).gather .result m.data body.get .null).map
            (fun given => (m.context .null).passes m.data given body.guards) = .ok true :=
    ⟨_, rfl, _, _, rfl, rfl⟩
  have hreached : Reached Design.radio {} "m" m := .of_create hcreate
  have hprobe := (Context.wouldPass_singleton body none).trans hpasses
  have hcan : m.can ⟨"LOUDER", .null⟩ = true := by
    refine ((hreached.direct Design.radio_direct).can_iff _).mpr
      ⟨(child, [.mk body none none]), ?_, hprobe⟩
    rw [hchains]
    exact List.mem_cons_self
  refine ⟨m, hreached, Design.radio_direct, hcan,
    (hreached.answers_iff Design.radio_direct _).1.mpr ⟨hcan, fun err hbaulks => ?_⟩⟩
  unfold Baulks at hbaulks
  rw [hchains] at hbaulks
  cases hbaulks with
  | here fails => cases hprobe.symm.trans fails
  | later vain _ => cases hprobe.symm.trans vain

end Machine
end Statechart
