/-
# Functions found by their places

A compiled design calls functions by their places in a table, and its definition refers to them by
name or holds them. To compare the two, the compiled design is read back: each place is replaced by
the reference that its slot was filed for (`Table.readState`). What is read is the definition that
was compiled, part for part and in the same order, with its shorthands written out: an action that
stands for a handler is a handler with that action, and a link that stands for a chain is a list of
one link (`Definition.State.long`).

Key definitions: `Definition.Chain.long`, `Definition.State.long`, `Table.readChain`,
`Table.readState`, `Tree.places`, `Compiled.Dispatches`.
Key theorems: `Host.chain_filed`, `Host.initial_filed`, `Host.handlers_filed`, `Host.state_filed`,
`Design.dispatches_of_compile`.
-/
import Statechart.Proofs.Filing
import Statechart.Proofs.Mentions
import Statechart.Proofs.Nodes
import Statechart.Proofs.Waits

namespace Statechart

variable {D : Type}

/-! ### Definitions with their shorthands written out -/

namespace Definition

mutual

/-- A link written out: an action alone is a handler with that action. -/
def Link.long : Link D → Link D
  | .action ref => .handler { actions := [ref] } none none
  | .handler body thenDo otherwise =>
    .handler body
      (match thenDo with
        | none => none
        | some c => some (Chain.long c))
      (match otherwise with
        | none => none
        | some c => some (Chain.long c))

/-- A chain written out, at every depth: a link alone is a list of one link. -/
def Chain.long : Chain D → Chain D
  | .one l => .many [Link.long l]
  | .many ls => .many (longLinks ls)

def longLinks : List (Link D) → List (Link D)
  | [] => []
  | l :: ls => Link.long l :: longLinks ls

end

theorem Link.long_handler (body : Handler D) (thenDo otherwise : Option (Chain D)) :
    Link.long (.handler body thenDo otherwise) =
      .handler body (thenDo.map Chain.long) (otherwise.map Chain.long) := by
  cases thenDo <;> cases otherwise <;> rw [Link.long] <;> rfl

theorem longLinks_eq : ∀ ls : List (Link D), longLinks ls = ls.map Link.long
  | [] => rfl
  | l :: ls => by rw [longLinks, longLinks_eq ls, List.map_cons]

/-- A chain that is written out has the links of the chain, written out. -/
theorem Chain.long_eq (c : Chain D) : c.long = .many (c.links.map Link.long) := by
  cases c with
  | one l => rw [Chain.long]; rfl
  | many ls => rw [Chain.long, longLinks_eq, links]

def Repeater.long (r : Repeater D) : Repeater D := { r with chain := r.chain.long }

def Awaiting.long (a : Awaiting D) : Awaiting D :=
  { a with onResolve := a.onResolve.long, onReject := a.onReject.map Chain.long }

/-- A state without the states in it, its chains written out. -/
def State.Body.long (b : State.Body D) : State.Body D where
  initial := b.initial
  on := b.on.map fun e => (e.1, e.2.long)
  onEnter := b.onEnter.map Chain.long
  onExit := b.onExit.map Chain.long
  onEvent := b.onEvent.map Chain.long
  repeater := b.repeater.map Repeater.long
  awaiting := b.awaiting.map Awaiting.long

mutual

/-- A state with the chains of all states in it written out. -/
def State.long : State D → State D
  | .mk body states => .mk body.long (longStates states)

def longStates : List (String × State D) → List (String × State D)
  | [] => []
  | (name, s) :: rest => (name, State.long s) :: longStates rest

end

theorem longStates_eq : ∀ states : List (String × State D),
    longStates states = states.map fun s => (s.1, s.2.long)
  | [] => rfl
  | (name, s) :: rest => by rw [longStates, longStates_eq rest, List.map_cons]

end Definition

/-! ### Reading a compiled design -/

namespace Table

variable (t : Table D)

def readGuards (g : Guards) : Definition.Guards D where
  all := g.all.map (t.reference .condition)
  any := g.any.map (t.reference .condition)
  noneOf := g.noneOf.map (t.reference .condition)
  notAll := g.notAll.map (t.reference .condition)

def readDestination : Destination → Definition.Target D
  | .path target => .path target
  | .computed i => .computed (t.target i).fn

def readDelay : Delay → Definition.Delay D
  | .fixed seconds => .seconds seconds
  | .computed i => .computed (t.reference .time i)

def readBody (b : Handler.Body) : Definition.Handler D where
  get := b.get.map (t.reference .result)
  guards := t.readGuards b.guards
  actions := b.actions.map (t.reference .action)
  secretActions := b.secretActions.map (t.reference .action)
  targets := b.targets.map t.readDestination
  secretTargets := b.secretTargets.map t.readDestination
  send := b.send
  wait := b.wait.map t.readDelay
  breakWhen := b.breakWhen.map (t.reference .condition)

mutual

def readHandler : Handler → Definition.Link D
  | .mk body thenDo otherwise =>
    .handler (t.readBody body)
      (match thenDo with
        | none => none
        | some c => some (.many (readHandlers c)))
      (match otherwise with
        | none => none
        | some c => some (.many (readHandlers c)))

def readHandlers : List Handler → List (Definition.Link D)
  | [] => []
  | h :: hs => readHandler h :: readHandlers hs

end

/-- The definition of a chain, each place in it replaced by the reference that its slot was filed
for. -/
def readChain (c : Chain) : Definition.Chain D := .many (t.readHandlers c)

def readRule : InitialRule → Definition.Initial D
  | .child name => .child name
  | .decision get guards child thenDo otherwise =>
    .decision (get.map (t.reference .result)) (t.readGuards guards) child
      (match thenDo with
        | none => none
        | some rule => some (readRule rule))
      (match otherwise with
        | none => none
        | some rule => some (readRule rule))

def readRepeater (r : Repeater) : Definition.Repeater D :=
  ⟨t.readChain r.chain, r.delay.map t.readDelay⟩

def readAwaiting (a : Awaiting) : Definition.Awaiting D :=
  ⟨t.reference .operation a.operation, t.readChain a.onResolve, a.onReject.map t.readChain⟩

/-- The rule that a node of this shape starts by. -/
def readShape : Shape → Option (Definition.Initial D)
  | .branch rule => some (t.readRule rule)
  | _ => none

def readNode (n : Node) : Definition.State.Body D where
  initial := t.readShape n.shape
  on := n.handlers.on.map fun e => (e.1, t.readChain e.2)
  onEnter := n.handlers.onEnter.map t.readChain
  onExit := n.handlers.onExit.map t.readChain
  onEvent := n.handlers.onEvent.map t.readChain
  repeater := n.handlers.repeater.map t.readRepeater
  awaiting := n.handlers.awaiting.map t.readAwaiting

mutual

/-- The definition of a state, read from its node and those below. -/
def readState : Tree → Definition.State D
  | .mk node _ children => .mk (t.readNode node) (readStates children)

def readStates : List Tree → List (String × Definition.State D)
  | [] => []
  | c :: cs => (c.node.name, readState c) :: readStates cs

end

theorem readHandler_mk (body : Handler.Body) (thenDo otherwise : Option Chain) :
    t.readHandler (.mk body thenDo otherwise) =
      .handler (t.readBody body) (thenDo.map t.readChain) (otherwise.map t.readChain) := by
  cases thenDo <;> cases otherwise <;> rw [readHandler] <;> rfl

theorem readRule_decision (get : List Nat) (guards : Guards) (child : Option String)
    (thenDo otherwise : Option InitialRule) :
    t.readRule (.decision get guards child thenDo otherwise) =
      .decision (get.map (t.reference .result)) (t.readGuards guards) child
        (thenDo.map t.readRule) (otherwise.map t.readRule) := by
  cases thenDo <;> cases otherwise <;> rw [readRule] <;> rfl

theorem readStates_eq : ∀ cs : List Tree,
    t.readStates cs = cs.map fun c => (c.node.name, t.readState c)
  | [] => rfl
  | c :: cs => by rw [readStates, readStates_eq cs, List.map_cons]

end Table

/-! ### The places in a compiled design -/

/-- Places on the list of a kind. -/
def Kind.places (k : Kind) (is : List Nat) : List Place := is.map (Prod.mk (.functions k))

def Guards.places (g : Guards) : List Place :=
  Kind.condition.places g.all ++ Kind.condition.places g.any ++ Kind.condition.places g.noneOf ++
    Kind.condition.places g.notAll

def Destination.places : Destination → List Place
  | .path _ => []
  | .computed i => [(.targets, i)]

def Delay.places : Delay → List Place
  | .fixed _ => []
  | .computed i => [(.functions .time, i)]

def Handler.Body.places (b : Handler.Body) : List Place :=
  Kind.result.places b.get ++ b.guards.places ++ Kind.action.places b.actions ++
    Kind.action.places b.secretActions ++ b.targets.flatMap Destination.places ++
    b.secretTargets.flatMap Destination.places ++ b.wait.elim [] Delay.places ++
    b.breakWhen.elim [] fun i => [(.functions .condition, i)]

/-- The places in a chain, at every depth. -/
def Chain.places (c : Chain) : List Place := (Chain.bodies c).flatMap Handler.Body.places

theorem Chain.places_cons (h : Handler) (rest : Chain) :
    Chain.places (h :: rest) = Chain.places [h] ++ Chain.places rest := by
  simp [Chain.places, Chain.bodies]

theorem Chain.places_ofAction (fn : Nat) :
    Chain.places [.ofAction fn] = [(.functions .action, fn)] := rfl

theorem Chain.places_singleton (body : Handler.Body) (thenDo otherwise : Option Chain) :
    Chain.places [.mk body thenDo otherwise] =
      body.places ++ thenDo.elim [] Chain.places ++ otherwise.elim [] Chain.places := by
  have helim : ∀ o : Option Chain,
      (o.elim [] Chain.bodies).flatMap Handler.Body.places = o.elim [] Chain.places := by
    rintro (_ | c) <;> rfl
  simp [Chain.places, Chain.bodies, Handler.inner_mk, Handler.body, ← helim]

def InitialRule.places : InitialRule → List Place
  | .child _ => []
  | .decision get guards _ thenDo otherwise =>
    Kind.result.places get ++ guards.places ++
      (match thenDo with
        | none => []
        | some rule => rule.places) ++
      (match otherwise with
        | none => []
        | some rule => rule.places)

theorem InitialRule.places_decision (get : List Nat) (guards : Guards) (child : Option String)
    (thenDo otherwise : Option InitialRule) :
    (decision get guards child thenDo otherwise).places =
      Kind.result.places get ++ guards.places ++ thenDo.elim [] places ++
        otherwise.elim [] places := by
  cases thenDo <;> cases otherwise <;> rw [places] <;> rfl

def Repeater.places (r : Repeater) : List Place :=
  Chain.places r.chain ++ r.delay.elim [] Delay.places

def Awaiting.places (a : Awaiting) : List Place :=
  Chain.places a.onResolve ++ a.onReject.elim [] Chain.places ++
    [(.functions .operation, a.operation)]

def Handlers.places (h : Handlers) : List Place :=
  h.on.flatMap (fun e => Chain.places e.2) ++ h.repeater.elim [] Repeater.places ++
    h.awaiting.elim [] Awaiting.places ++ h.onEnter.elim [] Chain.places ++
    h.onExit.elim [] Chain.places ++ h.onEvent.elim [] Chain.places

def Shape.places : Shape → List Place
  | .branch rule => rule.places
  | _ => []

def Node.places (n : Node) : List Place := n.shape.places ++ n.handlers.places

/-- All places in a compiled design, one for each time that it refers to a function. -/
def Tree.places (t : Tree) : List Place := t.postorder.flatMap (·.node.places)

theorem Tree.places_mk (n : Node) (a : Activity) (cs : List Tree) :
    (mk n a cs).places = cs.flatMap places ++ n.places := by
  rw [places, postorder_mk, List.flatMap_append, List.flatMap_assoc, List.flatMap_singleton]
  rfl

/-! ### What is filed for the parts of a design -/

namespace Host

variable {host : Host D} {t : Table D} {path : String}

theorem referAll_filed {k : Kind} : ∀ (refs : List (Definition.Reference (k.Fn D))) {t : Table D},
    host.Stocked t → host.missingAll path k refs = [] →
      host.Filed t ((host.referAll k refs).run t).2 (k.places ((host.referAll k refs).run t).1)
        fun T => ((host.referAll k refs).run t).1.map (T.reference k) = refs
  | [], _, ht, _ => .refl ht fun _ => rfl
  | ref :: refs, t, ht, offered => by
    obtain ⟨hfirst, hrest⟩ := List.append_eq_nil_iff.mp offered
    have first := host.refer_filed ht hfirst
    have rest := referAll_filed refs first.stocked hrest
    exact (first.and rest).mono fun T h => congrArg₂ List.cons h.1 h.2

theorem guards_filed (ht : host.Stocked t) {g : Definition.Guards D}
    (offered : host.guardsProblems path g = []) :
    host.Filed t ((host.guards g).run t).2 ((host.guards g).run t).1.places
      fun T => T.readGuards ((host.guards g).run t).1 = g := by
  simp only [guardsProblems, List.append_eq_nil_iff] at offered
  obtain ⟨⟨⟨hall, hany⟩, hnoneOf⟩, hnotAll⟩ := offered
  have all := referAll_filed g.all ht hall
  have any := referAll_filed g.any all.stocked hany
  have noneOf := referAll_filed g.noneOf any.stocked hnoneOf
  have notAll := referAll_filed g.notAll noneOf.stocked hnotAll
  refine (((all.and any).and noneOf).and notAll).mono fun T h => ?_
  obtain ⟨⟨⟨rall, rany⟩, rnoneOf⟩, rnotAll⟩ := h
  obtain ⟨_, _, _, _⟩ := g
  exact (Definition.Guards.mk.injEq ..).mpr ⟨rall, rany, rnoneOf, rnotAll⟩

theorem destinations_filed : ∀ (targets : List (Definition.Target D)) {t : Table D},
    host.Stocked t →
      host.Filed t ((destinations targets).run t).2
        (((destinations targets).run t).1.flatMap Destination.places)
        fun T => ((destinations targets).run t).1.map T.readDestination = targets
  | [], _, ht => .refl ht fun _ => rfl
  | .path target :: rest, t, ht =>
    (destinations_filed rest ht).mono fun T hrest =>
      congrArg (Definition.Target.path target :: ·) hrest
  | .computed fn :: rest, t, ht => by
    have first := computed_filed ht fn
    have others := destinations_filed rest first.stocked
    exact (first.and others).mono fun T h =>
      congrArg₂ (fun fn rest => Definition.Target.computed fn :: rest) h.1 h.2

theorem delay_filed (ht : host.Stocked t) {d : Definition.Delay D}
    (offered : host.timeProblems path d = []) :
    host.Filed t ((host.delay d).run t).2 ((host.delay d).run t).1.places
      fun T => T.readDelay ((host.delay d).run t).1 = d := by
  cases d with
  | seconds x => exact .refl ht fun _ => rfl
  | computed ref =>
    exact (host.refer_filed ht offered).mono fun T href => congrArg Definition.Delay.computed href

theorem problems_of_elim {α β : Type} {f : α → List β} {o : Option α} {a : α}
    (h : o.elim [] f = []) (ha : o = some a) : f a = [] := by
  rw [ha] at h
  exact h

/-- Something that may be absent. -/
theorem optional_filed {α β γ : Type} (f : α → Filing D β) (places : β → List Place)
    (read : Table D → β → γ) (written : α → γ) (ht : host.Stocked t) (o : Option α)
    (hf : ∀ a, o = some a → host.Filed t ((f a).run t).2 (places ((f a).run t).1)
      fun T => read T ((f a).run t).1 = written a) :
    host.Filed t ((optional f o).run t).2 (((optional f o).run t).1.elim [] places)
      fun T => ((optional f o).run t).1.map (read T) = o.map written := by
  cases o with
  | none => exact .refl ht fun _ => rfl
  | some a => exact (hf a rfl).mono fun T ha => congrArg some ha

theorem handlerBody_filed (ht : host.Stocked t) {b : Definition.Handler D}
    (offered : host.handlerProblems path b = []) :
    host.Filed t ((host.handlerBody b).run t).2 ((host.handlerBody b).run t).1.places
      fun T => T.readBody ((host.handlerBody b).run t).1 = b := by
  simp only [handlerProblems, List.append_eq_nil_iff] at offered
  obtain ⟨⟨⟨⟨⟨hget, hguards⟩, hactions⟩, hsecret⟩, hwait⟩, hbreak⟩ := offered
  have get := referAll_filed b.get ht hget
  have guards := guards_filed get.stocked hguards
  have actions := referAll_filed b.actions guards.stocked hactions
  have secret := referAll_filed b.secretActions actions.stocked hsecret
  have targets := destinations_filed b.targets secret.stocked
  have secretTargets := destinations_filed b.secretTargets targets.stocked
  have wait := optional_filed host.delay Delay.places Table.readDelay id
    secretTargets.stocked b.wait fun d hd => delay_filed secretTargets.stocked (problems_of_elim hwait hd)
  have breakWhen := optional_filed (host.refer .condition) (fun i => [(.functions .condition, i)])
    (fun T => T.reference .condition) id wait.stocked b.breakWhen
    fun ref href => host.refer_filed wait.stocked (problems_of_elim hbreak href)
  refine (((((((get.and guards).and actions).and secret).and targets).and secretTargets).and
    wait).and breakWhen).mono fun T h => ?_
  obtain ⟨⟨⟨⟨⟨⟨⟨rget, rguards⟩, ractions⟩, rsecret⟩, rtargets⟩, rsecretTargets⟩, rwait⟩,
    rbreak⟩ := h
  rw [Option.map_id_fun, id] at rwait rbreak
  obtain ⟨_, _, _, _, _, _, _, _, _⟩ := b
  exact (Definition.Handler.mk.injEq ..).mpr
    ⟨rget, rguards, ractions, rsecret, rtargets, rsecretTargets, rfl, rwait, rbreak⟩

/-! ### Chains -/

theorem chain_run (c : Definition.Chain D) (t : Table D) :
    (host.chain c).run t = (host.links c.links).run t := by
  cases c <;> rfl

theorem linkProblems_handler (body : Definition.Handler D)
    (thenDo otherwise : Option (Definition.Chain D)) :
    host.linkProblems path (.handler body thenDo otherwise) =
      host.handlerProblems path body ++ thenDo.elim [] (host.chainProblems path) ++
        otherwise.elim [] (host.chainProblems path) := by
  cases thenDo <;> cases otherwise <;> rfl

theorem link_handler (body : Definition.Handler D)
    (thenDo otherwise : Option (Definition.Chain D)) :
    host.link (.handler body thenDo otherwise) = (do
      let body ← host.handlerBody body
      let thenDo ← optional host.chain thenDo
      let otherwise ← optional host.chain otherwise
      return Handler.mk body thenDo otherwise) := by
  cases thenDo <;> cases otherwise <;> rfl

/-- A chain without problems is filed in any table and read back from what that becomes. -/
def Fileable (host : Host D) (path : String) (c : Definition.Chain D) : Prop :=
  ∀ t : Table D, host.Stocked t → host.chainProblems path c = [] →
    host.Filed t ((host.chain c).run t).2 (Chain.places ((host.chain c).run t).1)
      fun T => T.readChain ((host.chain c).run t).1 = c.long

theorem link_filed (ht : host.Stocked t) {l : Definition.Link D}
    (inside : ∀ body thenDo otherwise, l = .handler body thenDo otherwise →
      ∀ c, thenDo = some c ∨ otherwise = some c → host.Fileable path c)
    (offered : host.linkProblems path l = []) :
    host.Filed t ((host.link l).run t).2 (Chain.places [((host.link l).run t).1])
      fun T => T.readHandler ((host.link l).run t).1 = l.long := by
  cases l with
  | action ref =>
    have filed := host.refer_filed ht offered
    rw [← Chain.places_ofAction] at filed
    refine filed.mono fun T href => ?_
    have hread : ∀ i, T.reference .action i = ref →
        T.readHandler (.ofAction i) = (Definition.Link.action ref).long := by
      rintro i rfl
      rfl
    exact hread _ href
  | handler body thenDo otherwise =>
    rw [linkProblems_handler, List.append_eq_nil_iff, List.append_eq_nil_iff] at offered
    obtain ⟨⟨hbody, hthen⟩, helse⟩ := offered
    have handler := handlerBody_filed ht hbody
    have onPass := optional_filed host.chain Chain.places Table.readChain Definition.Chain.long
      handler.stocked thenDo fun c hc =>
        inside _ _ _ rfl c (.inl hc) _ handler.stocked (problems_of_elim hthen hc)
    have onFail := optional_filed host.chain Chain.places Table.readChain Definition.Chain.long
      onPass.stocked otherwise fun c hc =>
        inside _ _ _ rfl c (.inr hc) _ onPass.stocked (problems_of_elim helse hc)
    have all := (handler.and onPass).and onFail
    rw [← Chain.places_singleton] at all
    rw [link_handler, Definition.Link.long_handler]
    refine all.mono fun T h => ?_
    obtain ⟨⟨rbody, rthen⟩, relse⟩ := h
    have hread := congr (congr (congrArg Definition.Link.handler rbody) rthen) relse
    have hread := (T.readHandler_mk ..).trans hread
    exact hread

theorem links_filed {ls : List (Definition.Link D)}
    (inside : ∀ body thenDo otherwise, .handler body thenDo otherwise ∈ ls →
      ∀ c, thenDo = some c ∨ otherwise = some c → host.Fileable path c) :
    ∀ {t : Table D}, host.Stocked t → host.linksProblems path ls = [] →
      host.Filed t ((host.links ls).run t).2 (Chain.places ((host.links ls).run t).1)
        fun T => T.readHandlers ((host.links ls).run t).1 = ls.map Definition.Link.long := by
  induction ls with
  | nil => exact fun ht _ => .refl ht fun _ => rfl
  | cons l ls ih =>
    intro t ht offered
    obtain ⟨hlink, hlinks⟩ := List.append_eq_nil_iff.mp offered
    have first := link_filed ht (fun body t o h => inside body t o (h ▸ List.mem_cons_self)) hlink
    have rest := ih (fun body t o h => inside body t o (List.mem_cons_of_mem l h)) first.stocked
      hlinks
    have all := first.and rest
    rw [← Chain.places_cons] at all
    exact all.mono fun T h => congrArg₂ List.cons h.1 h.2

/-- Chains are filed link by link, each with the chains in it. -/
theorem chain_filed (c : Definition.Chain D) : host.Fileable path c := by
  induction c using Definition.Chain.induction with
  | links c ih =>
    intro t ht offered
    rw [chainProblems_eq, ← linksProblems_eq] at offered
    have inside : ∀ body thenDo otherwise, .handler body thenDo otherwise ∈ c.links →
        ∀ c', thenDo = some c' ∨ otherwise = some c' → host.Fileable path c' :=
      fun body thenDo otherwise hmem c' hc' =>
        hc'.elim ((ih body thenDo otherwise hmem).1 c') ((ih body thenDo otherwise hmem).2 c')
    rw [chain_run]
    refine (links_filed inside ht offered).mono fun T hlinks => ?_
    rw [c.long_eq, ← hlinks, Table.readChain]

/-! ### Rules and handlers -/

theorem initial_decision (get : List (Definition.Reference (Kind.result.Fn D)))
    (guards : Definition.Guards D) (child : Option String)
    (thenDo otherwise : Option (Definition.Initial D)) :
    host.initial (.decision get guards child thenDo otherwise) = (do
      let get ← host.referAll .result get
      let guards ← host.guards guards
      let thenDo ← optional host.initial thenDo
      let otherwise ← optional host.initial otherwise
      return InitialRule.decision get guards child thenDo otherwise) := by
  cases thenDo <;> cases otherwise <;> rfl

theorem initialProblems_decision {names : List String}
    (get : List (Definition.Reference (Kind.result.Fn D))) (guards : Definition.Guards D)
    (child : Option String) (thenDo otherwise : Option (Definition.Initial D)) :
    host.initialProblems path names (.decision get guards child thenDo otherwise) =
      child.elim [] (childProblems path names) ++ host.missingAll path .result get ++
        host.guardsProblems path guards ++ thenDo.elim [] (host.initialProblems path names) ++
        otherwise.elim [] (host.initialProblems path names) := by
  cases thenDo <;> cases otherwise <;> rfl

/-- Rules are filed as they are read: the results and the guards, and then the rules in them. -/
theorem initial_filed {names : List String} (rule : Definition.Initial D) : ∀ t : Table D,
    host.Stocked t → host.initialProblems path names rule = [] →
      host.Filed t ((host.initial rule).run t).2 ((host.initial rule).run t).1.places
        fun T => T.readRule ((host.initial rule).run t).1 = rule := by
  induction rule using Definition.Initial.induction with
  | child name => exact fun t ht _ => .refl ht fun _ => rfl
  | decision get guards child thenDo otherwise ihThen ihElse =>
    intro t ht offered
    simp only [initialProblems_decision, List.append_eq_nil_iff] at offered
    obtain ⟨⟨⟨⟨-, hget⟩, hguards⟩, hthen⟩, helse⟩ := offered
    have get := referAll_filed get ht hget
    have guards := guards_filed get.stocked hguards
    have onPass := optional_filed host.initial InitialRule.places Table.readRule id guards.stocked
      thenDo fun r hr => ihThen r hr _ guards.stocked (problems_of_elim hthen hr)
    have onFail := optional_filed host.initial InitialRule.places Table.readRule id onPass.stocked
      otherwise fun r hr => ihElse r hr _ onPass.stocked (problems_of_elim helse hr)
    have all := ((get.and guards).and onPass).and onFail
    rw [← InitialRule.places_decision _ _ child] at all
    rw [initial_decision]
    refine all.mono fun T h => ?_
    obtain ⟨⟨⟨rget, rguards⟩, rthen⟩, relse⟩ := h
    rw [Option.map_id_fun, id] at rthen relse
    have hread := congrFun (congrArg₂ Definition.Initial.decision rget rguards) child
    have hread := congr (congr hread rthen) relse
    have hread := (T.readRule_decision ..).trans hread
    exact hread

theorem events_filed : ∀ (on : List (String × Definition.Chain D)) {seen : List String}
    {t : Table D}, host.Stocked t → host.eventProblems path seen on = [] →
      host.Filed t ((host.events on).run t).2
        (((host.events on).run t).1.flatMap fun e => Chain.places e.2)
        fun T => (((host.events on).run t).1.map fun e => (e.1, T.readChain e.2)) =
          on.map fun e => (e.1, e.2.long)
  | [], _, _, ht, _ => .refl ht fun _ => rfl
  | (event, c) :: rest, seen, t, ht, offered => by
    simp only [eventProblems, List.append_eq_nil_iff] at offered
    obtain ⟨⟨hchain, -⟩, hrest⟩ := offered
    have first := chain_filed c t ht hchain
    have others := events_filed rest first.stocked hrest
    exact (first.and others).mono fun T h =>
      congrArg₂ (fun c rest => (event, c) :: rest) h.1 h.2

theorem optionalChain_filed (ht : host.Stocked t) {o : Option (Definition.Chain D)}
    (offered : o.elim [] (host.chainProblems path) = []) :
    host.Filed t ((optional host.chain o).run t).2
      (((optional host.chain o).run t).1.elim [] Chain.places)
      fun T => ((optional host.chain o).run t).1.map T.readChain = o.map Definition.Chain.long :=
  optional_filed host.chain Chain.places Table.readChain Definition.Chain.long ht o
    fun c hc => chain_filed c t ht (problems_of_elim offered hc)

theorem repeater_filed (ht : host.Stocked t) {r : Definition.Repeater D}
    (offered : host.chainProblems path r.chain ++ r.delay.elim [] (host.timeProblems path) = []) :
    host.Filed t ((host.repeater r).run t).2 ((host.repeater r).run t).1.places
      fun T => T.readRepeater ((host.repeater r).run t).1 = r.long := by
  obtain ⟨hchain, hdelay⟩ := List.append_eq_nil_iff.mp offered
  have chain := chain_filed r.chain t ht hchain
  have delay := optional_filed host.delay Delay.places Table.readDelay id chain.stocked r.delay
    fun d hd => delay_filed chain.stocked (problems_of_elim hdelay hd)
  refine (chain.and delay).mono fun T h => ?_
  obtain ⟨rchain, rdelay⟩ := h
  rw [Option.map_id_fun, id] at rdelay
  exact congrArg₂ Definition.Repeater.mk rchain rdelay

theorem awaiting_filed (ht : host.Stocked t) {a : Definition.Awaiting D}
    (offered : host.chainProblems path a.onResolve ++
      a.onReject.elim [] (host.chainProblems path) ++
      host.missing path .operation a.operation = []) :
    host.Filed t ((host.awaiting a).run t).2 ((host.awaiting a).run t).1.places
      fun T => T.readAwaiting ((host.awaiting a).run t).1 = a.long := by
  simp only [List.append_eq_nil_iff] at offered
  obtain ⟨⟨hresolve, hreject⟩, hoperation⟩ := offered
  have onResolve := chain_filed a.onResolve t ht hresolve
  have onReject := optionalChain_filed onResolve.stocked hreject
  have operation := host.refer_filed onReject.stocked hoperation
  refine ((onResolve.and onReject).and operation).mono fun T h => ?_
  obtain ⟨⟨rresolve, rreject⟩, roperation⟩ := h
  exact (Definition.Awaiting.mk.injEq ..).mpr ⟨roperation, rresolve, rreject⟩

/-- The handlers of a node are those of its state. -/
theorem handlers_filed (ht : host.Stocked t) {b : Definition.State.Body D}
    (offered : host.bodyProblems path b = []) :
    host.Filed t ((host.handlers b).run t).2 ((host.handlers b).run t).1.places
      fun T => ∀ n : Node, n.handlers = ((host.handlers b).run t).1 →
        T.readNode n = { b.long with initial := T.readShape n.shape } := by
  simp only [bodyProblems, List.append_eq_nil_iff] at offered
  obtain ⟨⟨⟨⟨⟨hon, hrepeater⟩, hawaiting⟩, henter⟩, hexit⟩, hevent⟩ := offered
  have on := events_filed b.on ht hon
  have repeater := optional_filed host.repeater Repeater.places Table.readRepeater
    Definition.Repeater.long on.stocked b.repeater fun r hr => by
      have hproblems := problems_of_elim hrepeater hr
      exact repeater_filed on.stocked hproblems
  have awaiting := optional_filed host.awaiting Awaiting.places Table.readAwaiting
    Definition.Awaiting.long repeater.stocked b.awaiting fun a ha => by
      have hproblems := problems_of_elim hawaiting ha
      exact awaiting_filed repeater.stocked hproblems
  have onEnter := optionalChain_filed awaiting.stocked henter
  have onExit := optionalChain_filed onEnter.stocked hexit
  have onEvent := optionalChain_filed onExit.stocked hevent
  refine (((((on.and repeater).and awaiting).and onEnter).and onExit).and onEvent).mono
    fun T h n hn => ?_
  obtain ⟨⟨⟨⟨⟨ron, rrepeater⟩, rawaiting⟩, renter⟩, rexit⟩, revent⟩ := h
  rw [Table.readNode, hn]
  exact (Definition.State.Body.mk.injEq ..).mpr
    ⟨rfl, ron, renter, rexit, revent, rrepeater, rawaiting⟩

/-- The rule that a node starts by is that of its state. -/
theorem shape_filed (ht : host.Stocked t) {b : Definition.State.Body D} {names : List String}
    (cs : List Tree) (offered : host.startProblems path b.initial names = []) :
    host.Filed t ((host.shape b cs).run t).2 ((host.shape b cs).run t).1.places
      fun T => T.readShape ((host.shape b cs).run t).1 = b.initial := by
  unfold shape
  cases hinitial : b.initial with
  | none => cases cs <;> exact .refl ht fun _ => rfl
  | some rule =>
    rw [hinitial, startProblems] at offered
    split at offered
    · cases offered
    · exact (initial_filed rule t ht offered).mono fun T hrule => congrArg some hrule

/-! ### States -/

theorem state_run (name path : String) (trail : List String) (first : Nat)
    (body : Definition.State.Body D) (states : List (String × Definition.State D)) (t : Table D) :
    (host.state name path trail first (.mk body states)).run t =
      let inside := (host.children path trail first states).run t
      let shape := (host.shape body inside.1).run inside.2
      let handlers := (host.handlers body).run shape.2
      let index := first + (inside.1.flatMap Tree.preorder).length
      (.mk { index, name, path, trail, shape := shape.1, handlers := handlers.1 } {} inside.1,
        handlers.2) := by
  simp only [List.length_flatMap]
  rfl

theorem name_state (name path : String) (trail : List String) (first : Nat)
    (s : Definition.State D) (t : Table D) :
    ((host.state name path trail first s).run t).1.node.name = name := by
  cases s
  rfl

mutual

/-- A state is filed after those in it, its rule before its handlers. -/
theorem state_filed {above : String} (name path : String) (trail : List String) (first : Nat) :
    ∀ (s : Definition.State D) {t : Table D}, host.Stocked t → host.stateProblems above s = [] →
      host.Filed t ((host.state name path trail first s).run t).2
        ((host.state name path trail first s).run t).1.places
        fun T => T.readState ((host.state name path trail first s).run t).1 = s.long
  | .mk body states, t, ht, offered => by
    simp only [stateProblems, List.append_eq_nil_iff] at offered
    obtain ⟨⟨hstates, hstart⟩, hbody⟩ := offered
    have inside := children_filed path trail first states ht hstates
    have shape := shape_filed inside.stocked
      ((host.children path trail first states).run t).1 hstart
    have handlers := handlers_filed shape.stocked hbody
    rw [state_run, Tree.places_mk]
    refine (inside.and (shape.and handlers)).mono fun T h => ?_
    obtain ⟨rinside, rshape, rhandlers⟩ := h
    rw [Table.readState, Definition.State.long, rinside, rhandlers _ rfl, rshape]
    rfl

theorem children_filed {above : String} {seen : List String} (path : String)
    (trail : List String) (first : Nat) : ∀ (states : List (String × Definition.State D))
      {t : Table D}, host.Stocked t → host.statesProblems above seen states = [] →
        host.Filed t ((host.children path trail first states).run t).2
          (((host.children path trail first states).run t).1.flatMap Tree.places)
          fun T => T.readStates ((host.children path trail first states).run t).1 =
            Definition.longStates states
  | [], t, ht, _ => .refl ht fun _ => rfl
  | (name, s) :: rest, t, ht, offered => by
    rw [statesProblems] at offered
    split at offered
    · cases offered
    · split at offered
      · cases offered
      · obtain ⟨hstate, hrest⟩ := List.append_eq_nil_iff.mp offered
        have first' := state_filed name (Path.join path name) (trail ++ [name]) first s ht hstate
        have others := children_filed path trail (first + (host.state name (Path.join path name)
          (trail ++ [name]) first s |>.run t).1.size) rest first'.stocked hrest
        refine (first'.and others).mono fun T h => ?_
        obtain ⟨hfirst, hothers⟩ := h
        have hname := host.name_state name (Path.join path name) (trail ++ [name]) first s t
        exact congrArg₂ List.cons (congrArg₂ Prod.mk hname hfirst) hothers

end

end Host

/-! ### Compiled designs -/

namespace Table

/-- Slots in the table stand for the names that they were filed under, or for the functions in
them. -/
theorem reference_eq_named_iff {t : Table D} {k : Kind} {i : Nat} {name : String} :
    t.reference k i = .named name ↔ (t.slot k i).source = some name := by
  unfold reference Slot.reference
  cases (t.slot k i).source <;> simp

theorem reference_eq_inline_iff {t : Table D} {k : Kind} {i : Nat} {fn : k.Fn D} :
    t.reference k i = .inline fn ↔ (t.slot k i).source = none ∧ t.fn k i = fn := by
  unfold reference Slot.reference
  cases (t.slot k i).source <;> simp [Table.fn]

end Table

/-- A compiled design calls the functions that its definition refers to. -/
structure Compiled.Dispatches (c : Compiled D) (d : Design D) : Prop where
  /-- The states are those of the definition, part for part, each function found by its place. -/
  reads : c.table.readState c.tree = d.root.long
  /-- No place is outside of the table. -/
  range : ∀ p ∈ c.tree.places, p.2 < (c.table.sources p.1).length
  /-- What is referred to by name is the function that the host has under the name. -/
  named : ∀ k i name, (.functions k, i) ∈ c.tree.places → c.table.reference k i = .named name →
    (c.table.slot k i).source = some name ∧ (d.host.functions k).find? name = some (c.table.fn k i)
  /-- References have the same slot if they have the same name, and else not. -/
  once : ∀ k i j name other, (.functions k, i) ∈ c.tree.places → (.functions k, j) ∈ c.tree.places →
    c.table.reference k i = .named name → c.table.reference k j = .named other →
      (i = j ↔ name = other)
  /-- What is inline has a slot of its own. -/
  own : ∀ k i fn, (.functions k, i) ∈ c.tree.places → c.table.reference k i = .inline fn →
    (c.table.slot k i).source = none ∧ c.table.fn k i = fn ∧
      c.tree.places.count (.functions k, i) = 1
  computed : ∀ i, (.targets, i) ∈ c.tree.places → c.tree.places.count (.targets, i) = 1

namespace Design

variable {d : Design D} {id : String} {c : Compiled D}

/-- All that a compiled design has in its table was filed for its states. -/
theorem filed_of_compile (hc : d.compile id = .ok c) :
    d.host.Filed {} c.table c.tree.places fun T => T.readState c.tree = d.root.long := by
  obtain ⟨hproblems, rfl⟩ := compile_eq_ok_iff.mp hc
  have filed := d.host.state_filed id id [] 0 d.root d.host.stocked_empty hproblems
  exact filed.withValues d.host.values

/-- The states of a compiled design read as those of its definition. -/
theorem reads_of_compile (hc : d.compile id = .ok c) : c.table.readState c.tree = d.root.long :=
  (filed_of_compile hc).reads c.table (.refl c.table)

/-- A compiled design calls functions by place as its definition refers to them by name or holds
them, and nothing of the definition is left out. -/
theorem dispatches_of_compile (hc : d.compile id = .ok c) : c.Dispatches d := by
  have filed := filed_of_compile hc
  have hcount : ∀ p ∈ c.tree.places, (c.table.sources p.1)[p.2]? = some none →
      c.tree.places.count p = 1 := fun p _ hp => by
    have hempty : (({} : Table D).sources p.1).length = 0 := by
      rcases p.1 with (_ | _ | _ | _ | _) | _ <;> rfl
    have hown := filed.own p hp
    simpa [hempty] using hown
  constructor
  case reads => exact reads_of_compile hc
  case range => exact filed.range
  case named =>
    intro k i name hi href
    have hsource := Table.reference_eq_named_iff.mp href
    have hslot := List.mem_of_getElem? (filed.getElem?_slots hi)
    exact ⟨hsource, filed.stocked.functions k _ hslot name hsource⟩
  case once =>
    intro k i j name other hi hj href href'
    have hsource := Table.reference_eq_named_iff.mp href
    have hsource' := Table.reference_eq_named_iff.mp href'
    constructor
    · rintro rfl
      exact Option.some.inj (hsource.symm.trans hsource')
    · rintro rfl
      exact filed.stocked.eq_of_source_eq (filed.getElem?_slots hi) (filed.getElem?_slots hj)
        hsource hsource'
  case own =>
    intro k i fn hi href
    obtain ⟨hsource, hfn⟩ := Table.reference_eq_inline_iff.mp href
    refine ⟨hsource, hfn, hcount _ hi ?_⟩
    simp [Table.sources, filed.getElem?_slots hi, hsource]
  case computed =>
    intro i hi
    refine hcount _ hi ?_
    have hlt : i < c.table.targets.length := by
      have hrange := filed.range _ hi
      rwa [Table.sources, List.length_map] at hrange
    have hsource : c.table.targets[i].source = none :=
      filed.stocked.targets _ (List.getElem_mem hlt)
    simp [Table.sources, hlt, hsource]

/-- A turnstile that counts coins. A condition and an action have the same name, and some functions
are inline. -/
def turnstile : Design Nat where
  id := none
  data := 0
  root := .mk
    { initial := some
        (.decision [] { all := [.named "coin"] } (some "free") none (some (.child "shut")))
      on := [("COIN", .many [
        .action (.named "coin"),
        .handler { guards := { any := [.named "coin", .inline fun _ _ _ => false] } }
          (some (.one (.handler { targets := [.computed fun _ _ _ => .ok "free"] } none none)))
          (some (.one (.action (.named "coin"))))])] }
    [("shut", .mk {} []),
      ("free", .mk { onEnter := some (.one (.action (.inline fun n _ _ => (n, none)))) } [])]
  host :=
    { functions := fun
        | .condition => [("coin", fun n _ _ => n > 0)]
        | .action => [("coin", fun n _ _ => (n + 1, none))]
        | _ => []
      values := [] }

theorem compile_turnstile : turnstile.compile "turnstile" = .ok (turnstile.build "turnstile") :=
  compile_eq_ok_iff.mpr ⟨by decide, rfl⟩

theorem dispatches_turnstile :
    turnstile.compile "turnstile" = .ok (turnstile.build "turnstile") ∧
      (turnstile.build "turnstile").Dispatches turnstile ∧
      (turnstile.build "turnstile").tree.places =
        [(.functions .action, 0), (.functions .condition, 0), (.functions .action, 1),
          (.functions .condition, 0), (.functions .condition, 1), (.targets, 0),
          (.functions .action, 1)] :=
  ⟨compile_turnstile, dispatches_of_compile compile_turnstile, by decide⟩

end Design
end Statechart
