/-
# Shorthands in definitions

A definition may name an action where a handler goes, and give a link where a chain goes. Each is a
shorthand: for the handler that does that action and nothing else, and for the list of that link
alone. A shorthand may be written out, or a long form shortened, at any places of a definition and
at any depth (`Definition.State.WritesOut`, and what it generates). Compiling does not tell the
difference (`Design.compile_eq_of_alike`): both become the same tree with the same table, slot by
slot, or have the same problems in the same order.

The reason is that both have the same long form (`Definition.State.long_eq_of_alike`), and a
definition is compiled as its long form is (`Host.state_long`, `Host.stateProblems_long`).

Key definitions: `Definition.Link.WritesOut`, `Definition.Chain.WritesOut`,
`Definition.State.WritesOut`.
Key theorems: `Definition.State.long_eq_of_alike`, `Host.chain_long`, `Host.state_long`,
`Host.stateProblems_long`, `Design.compile_eq_of_alike`.
-/
import Mathlib.Logic.Relation
import Statechart.Proofs.Dispatch

namespace Statechart

variable {D : Type}

/-! ### Writing out one shorthand -/

namespace Definition

mutual

/-- The second link is the first with one shorthand written out: the action that it is, or one in
its chains. -/
inductive Link.WritesOut : Link D → Link D → Prop
  | action (ref : Reference (Kind.action.Fn D)) :
    Link.WritesOut (.action ref) (.handler { actions := [ref] } none none)
  | thenDo (body : Handler D) {c c' : Chain D} (otherwise : Option (Chain D))
    (h : Chain.WritesOut c c') :
    Link.WritesOut (.handler body (some c) otherwise) (.handler body (some c') otherwise)
  | otherwise (body : Handler D) (thenDo : Option (Chain D)) {c c' : Chain D}
    (h : Chain.WritesOut c c') :
    Link.WritesOut (.handler body thenDo (some c)) (.handler body thenDo (some c'))

/-- The second chain is the first with one shorthand written out: the link that it is, or one in a
link. -/
inductive Chain.WritesOut : Chain D → Chain D → Prop
  | one (l : Link D) : Chain.WritesOut (.one l) (.many [l])
  | inOne {l l' : Link D} (h : Link.WritesOut l l') : Chain.WritesOut (.one l) (.one l')
  | inMany (before : List (Link D)) {l l' : Link D} (after : List (Link D))
    (h : Link.WritesOut l l') :
    Chain.WritesOut (.many (before ++ l :: after)) (.many (before ++ l' :: after))

end

/-- One shorthand is written out in one of the chains of a state. -/
inductive State.Body.WritesOut : Body D → Body D → Prop
  | on (b : Body D) (before : List (String × Chain D)) (event : String) {c c' : Chain D}
    (after : List (String × Chain D)) (h : c.WritesOut c') :
    WritesOut { b with on := before ++ (event, c) :: after }
      { b with on := before ++ (event, c') :: after }
  | onEnter (b : Body D) {c c' : Chain D} (h : c.WritesOut c') :
    WritesOut { b with onEnter := some c } { b with onEnter := some c' }
  | onExit (b : Body D) {c c' : Chain D} (h : c.WritesOut c') :
    WritesOut { b with onExit := some c } { b with onExit := some c' }
  | onEvent (b : Body D) {c c' : Chain D} (h : c.WritesOut c') :
    WritesOut { b with onEvent := some c } { b with onEvent := some c' }
  | repeater (b : Body D) {c c' : Chain D} (delay : Option (Delay D)) (h : c.WritesOut c') :
    WritesOut { b with repeater := some ⟨c, delay⟩ } { b with repeater := some ⟨c', delay⟩ }
  | onResolve (b : Body D) (operation : Reference (Kind.operation.Fn D)) {c c' : Chain D}
    (onReject : Option (Chain D)) (h : c.WritesOut c') :
    WritesOut { b with awaiting := some ⟨operation, c, onReject⟩ }
      { b with awaiting := some ⟨operation, c', onReject⟩ }
  | onReject (b : Body D) (operation : Reference (Kind.operation.Fn D)) (onResolve : Chain D)
    {c c' : Chain D} (h : c.WritesOut c') :
    WritesOut { b with awaiting := some ⟨operation, onResolve, some c⟩ }
      { b with awaiting := some ⟨operation, onResolve, some c'⟩ }

/-- One shorthand is written out in a state or in a state inside it. -/
inductive State.WritesOut : State D → State D → Prop
  | body {b b' : Body D} (states : List (String × State D)) (h : b.WritesOut b') :
    WritesOut (.mk b states) (.mk b' states)
  | inside (b : Body D) (before : List (String × State D)) (name : String) {s s' : State D}
    (after : List (String × State D)) (h : WritesOut s s') :
    WritesOut (.mk b (before ++ (name, s) :: after)) (.mk b (before ++ (name, s') :: after))

/-! ### Long forms stay -/

mutual

theorem Link.WritesOut.long_eq : ∀ {l l' : Link D}, l.WritesOut l' → l.long = l'.long
  | _, _, .action ref => rfl
  | _, _, .thenDo body otherwise h => by
    rw [Link.long_handler, Link.long_handler, Option.map_some, Option.map_some, h.long_eq]
  | _, _, .otherwise body thenDo h => by
    rw [Link.long_handler, Link.long_handler, Option.map_some, Option.map_some, h.long_eq]

theorem Chain.WritesOut.long_eq : ∀ {c c' : Chain D}, c.WritesOut c' → c.long = c'.long
  | _, _, .one l => rfl
  | _, _, .inOne h => by rw [Chain.long, Chain.long, h.long_eq]
  | _, _, .inMany before after h => by
    simp only [Chain.long, longLinks_eq, List.map_append, List.map_cons, h.long_eq]

end

theorem State.Body.WritesOut.long_eq {b b' : State.Body D} (h : b.WritesOut b') :
    b.long = b'.long := by
  cases h with
  | on b before event after h =>
    simp only [Body.long, List.map_append, List.map_cons, h.long_eq]
  | onEnter b h | onExit b h | onEvent b h =>
    simp only [Body.long, Option.map_some, h.long_eq]
  | repeater b delay h =>
    simp only [Body.long, Option.map_some, Repeater.long, h.long_eq]
  | onResolve b operation onReject h | onReject b operation onResolve h =>
    simp only [Body.long, Option.map_some, Awaiting.long, h.long_eq]

theorem State.WritesOut.long_eq {s s' : State D} (h : s.WritesOut s') : s.long = s'.long := by
  induction h with
  | body states h => rw [State.long, State.long, h.long_eq]
  | inside b before name after h ih =>
    simp only [State.long, longStates_eq, List.map_append, List.map_cons, ih]

/-- States that differ in shorthands have the same long form. -/
theorem State.long_eq_of_alike {s s' : State D} (h : Relation.EqvGen State.WritesOut s s') :
    s.long = s'.long := by
  induction h with
  | rel _ _ h => exact h.long_eq
  | refl => rfl
  | symm _ _ _ ih => exact ih.symm
  | trans _ _ _ _ _ ih ih' => exact ih.trans ih'

end Definition

namespace Host

variable (host : Host D) (path : String)

/-! ### Problems of long forms -/

theorem elim_map_eq {α β : Type} {f : α → List β} {g : α → α} {o : Option α}
    (h : ∀ a, o = some a → f (g a) = f a) : (o.map g).elim [] f = o.elim [] f := by
  cases o with
  | none => rfl
  | some a => exact h a rfl

theorem linkProblems_long {l : Definition.Link D}
    (inside : ∀ body thenDo otherwise, l = .handler body thenDo otherwise →
      ∀ c, thenDo = some c ∨ otherwise = some c →
        host.chainProblems path c.long = host.chainProblems path c) :
    host.linkProblems path l.long = host.linkProblems path l := by
  cases l with
  | action ref => simp [Definition.Link.long, linkProblems, handlerProblems, guardsProblems, missingAll]
  | handler body thenDo otherwise =>
    have inside := inside body thenDo otherwise rfl
    rw [Definition.Link.long_handler, linkProblems_handler, linkProblems_handler,
      elim_map_eq fun c hc => inside c (Or.inl hc), elim_map_eq fun c hc => inside c (Or.inr hc)]

/-- A chain written out has the problems of the chain. -/
theorem chainProblems_long (c : Definition.Chain D) :
    host.chainProblems path c.long = host.chainProblems path c := by
  induction c using Definition.Chain.induction with
  | links c ih =>
    rw [c.long_eq, chainProblems_eq, chainProblems_eq, Definition.Chain.links, List.flatMap_map]
    refine List.flatMap_congr fun l hl => ?_
    refine host.linkProblems_long path fun body thenDo otherwise heq c' hc' => ?_
    obtain ⟨onPass, onFail⟩ := ih body thenDo otherwise (heq ▸ hl)
    exact hc'.elim (onPass c') (onFail c')

theorem eventProblems_long : ∀ (on : List (String × Definition.Chain D)) (seen : List String),
    host.eventProblems path seen (on.map fun e => (e.1, e.2.long)) = host.eventProblems path seen on
  | [], _ => rfl
  | (event, c) :: rest, seen => by
    rw [List.map_cons, eventProblems, eventProblems, chainProblems_long,
      eventProblems_long rest (event :: seen)]

theorem bodyProblems_long (b : Definition.State.Body D) :
    host.bodyProblems path b.long = host.bodyProblems path b := by
  have chains : ∀ o : Option (Definition.Chain D),
      (o.map Definition.Chain.long).elim [] (host.chainProblems path) =
        o.elim [] (host.chainProblems path) := fun o =>
    elim_map_eq fun c _ => host.chainProblems_long path c
  unfold bodyProblems Definition.State.Body.long
  dsimp only
  rw [eventProblems_long, chains, chains, chains,
    elim_map_eq fun r _ => by rw [Definition.Repeater.long, chainProblems_long],
    elim_map_eq fun a _ => by unfold Definition.Awaiting.long; rw [chainProblems_long, chains]]

theorem names_longStates (states : List (String × Definition.State D)) :
    childNames (Definition.longStates states) = childNames states := by
  rw [childNames, childNames, Definition.longStates_eq, List.map_map]
  rfl

mutual

/-- A state with all chains in it written out has the problems of the state. -/
theorem stateProblems_long (path : String) : ∀ s : Definition.State D,
    host.stateProblems path s.long = host.stateProblems path s
  | .mk body states => by
    rw [Definition.State.long, stateProblems, stateProblems, statesProblems_long, names_longStates,
      bodyProblems_long]
    rfl

theorem statesProblems_long (path : String) : ∀ (states : List (String × Definition.State D))
    (seen : List String), host.statesProblems path seen (Definition.longStates states) =
      host.statesProblems path seen states
  | [], _ => rfl
  | (name, s) :: rest, seen => by
    rw [Definition.longStates, statesProblems, statesProblems, stateProblems_long,
      statesProblems_long path rest seen, statesProblems_long path rest (name :: seen)]

end

/-! ### Compiling long forms -/

theorem optional_map_eq {α β : Type} {f : α → Filing D β} {g : α → α} {o : Option α}
    (h : ∀ a, o = some a → f (g a) = f a) : optional f (o.map g) = optional f o := by
  cases o with
  | none => rfl
  | some a =>
    rw [Option.map_some, optional, optional, h a rfl]

theorem link_long {l : Definition.Link D}
    (inside : ∀ body thenDo otherwise, l = .handler body thenDo otherwise →
      ∀ c, thenDo = some c ∨ otherwise = some c → host.chain c.long = host.chain c) :
    host.link l.long = host.link l := by
  cases l with
  | action ref => rfl
  | handler body thenDo otherwise =>
    have inside := inside body thenDo otherwise rfl
    rw [Definition.Link.long_handler, link_handler, link_handler,
      optional_map_eq fun c hc => inside c (Or.inl hc),
      optional_map_eq fun c hc => inside c (Or.inr hc)]

theorem links_long {ls : List (Definition.Link D)} (h : ∀ l ∈ ls, host.link l.long = host.link l) :
    host.links (ls.map Definition.Link.long) = host.links ls := by
  induction ls with
  | nil => rfl
  | cons l ls ih =>
    obtain ⟨hl, hls⟩ := List.forall_mem_cons.mp h
    rw [List.map_cons, links, links, hl, ih hls]

theorem chain_eq_links (c : Definition.Chain D) : host.chain c = host.links c.links :=
  funext fun t => host.chain_run c t

/-- A chain is compiled as it is when it is written out: the same handlers, and the same slots in
the same order. -/
theorem chain_long (c : Definition.Chain D) : host.chain c.long = host.chain c := by
  induction c using Definition.Chain.induction with
  | links c ih =>
    rw [chain_eq_links, chain_eq_links, c.long_eq, Definition.Chain.links]
    refine host.links_long fun l hl => host.link_long fun body thenDo otherwise heq c' hc' => ?_
    obtain ⟨onPass, onFail⟩ := ih body thenDo otherwise (heq ▸ hl)
    exact hc'.elim (onPass c') (onFail c')

theorem events_long : ∀ on : List (String × Definition.Chain D),
    host.events (on.map fun e => (e.1, e.2.long)) = host.events on
  | [] => rfl
  | (event, c) :: rest => by rw [List.map_cons, events, events, chain_long, events_long rest]

theorem handlers_long (b : Definition.State.Body D) : host.handlers b.long = host.handlers b := by
  have chains : ∀ o : Option (Definition.Chain D),
      optional host.chain (o.map Definition.Chain.long) = optional host.chain o := fun o =>
    optional_map_eq fun c _ => host.chain_long c
  have repeaters : optional host.repeater (b.repeater.map Definition.Repeater.long) =
      optional host.repeater b.repeater :=
    optional_map_eq fun r _ => by rw [repeater, repeater, Definition.Repeater.long, chain_long]
  have awaitings : optional host.awaiting (b.awaiting.map Definition.Awaiting.long) =
      optional host.awaiting b.awaiting :=
    optional_map_eq fun a _ => by
      rw [awaiting, awaiting, Definition.Awaiting.long, chain_long, chains]
  unfold handlers Definition.State.Body.long
  dsimp only
  rw [events_long, repeaters, awaitings, chains, chains, chains]

mutual

/-- A state is compiled as it is with all chains in it written out. -/
theorem state_long (name path : String) (trail : List String) (first : Nat) :
    ∀ s : Definition.State D,
      host.state name path trail first s.long = host.state name path trail first s
  | .mk body states => by
    refine StateT.ext fun t => ?_
    rw [Definition.State.long, state_run, state_run, children_long, handlers_long]
    rfl

theorem children_long (path : String) (trail : List String) (first : Nat) :
    ∀ states : List (String × Definition.State D),
      host.children path trail first (Definition.longStates states) =
        host.children path trail first states
  | [] => rfl
  | (name, s) :: rest => by
    rw [Definition.longStates, children, children, state_long]
    congr 1
    funext t
    rw [children_long path trail (first + t.size) rest]

end

end Host

namespace Design

/-- A design is compiled as it is with all its shorthands written out. -/
theorem compile_long (d : Design D) (id : String) :
    ({ d with root := d.root.long } : Design D).compile id = d.compile id := by
  have hproblems : ({ d with root := d.root.long } : Design D).problems id = d.problems id :=
    d.host.stateProblems_long id d.root
  have hbuild : ({ d with root := d.root.long } : Design D).build id = d.build id := by
    unfold build
    dsimp only
    rw [Host.state_long]
  rw [compile, compile, hproblems, hbuild]

/-- **Shorthands mean the same as long forms.** When the root of a design is written with other
shorthands, at any places and at any depth, the design has the same problems, or is compiled to the
same tree and the same table. -/
theorem compile_eq_of_alike {d : Design D} {root : Definition.State D}
    (h : Relation.EqvGen Definition.State.WritesOut d.root root) (id : String) :
    ({ d with root } : Design D).compile id = d.compile id := by
  have hlong := Definition.State.long_eq_of_alike h
  rw [← compile_long ({ d with root } : Design D), ← compile_long d, hlong]

/-- The states of the turnstile, with an action written out as a handler and two links as lists. -/
def spelledOut : Definition.State Nat :=
  .mk
    { turnstile.root.body with
      on := [("COIN", .many [
        .handler { actions := [.named "coin"] } none none,
        .handler { guards := { any := [.named "coin", .inline fun _ _ _ => false] } }
          (some (.one (.handler { targets := [.computed fun _ _ _ => .ok "free"] } none none)))
          (some (.many [.action (.named "coin")]))])] }
    [("shut", .mk {} []),
      ("free", .mk { onEnter := some (.many [.action (.inline fun n _ _ => (n, none))]) } [])]

theorem compile_spelledOut :
    ({ turnstile with root := spelledOut } : Design Nat).compile "turnstile" =
      .ok (turnstile.build "turnstile") := by
  have h : Relation.EqvGen Definition.State.WritesOut turnstile.root spelledOut :=
    .trans _ _ _ (.rel _ _ (.body _ (.on turnstile.root.body [] "COIN" []
        (.inMany [] [_] (.action (.named "coin"))))))
      (.trans _ _ _ (.rel _ _ (.body _ (.on turnstile.root.body [] "COIN" []
          (.inMany [_] [] (.otherwise _ _ (.one (.action (.named "coin"))))))))
        (.rel _ _ (.inside _ [_] "free" [] (.body [] (.onEnter {} (.one _))))))
  rw [compile_eq_of_alike h, compile_turnstile]

end Design
end Statechart
