/-
# What definitions refer to

A definition refers to functions by name: in the links of its chains and in the handlers of
these, at every depth, in its repeater and its operation, and in its initial rule, which names
children besides. To each place there is a rule of `Mentions`, or of `Initial.Names` for a
child. The search for problems finds just these: a reference is one if the host does not offer
the function (`Host.mem_chainProblems_iff`, `Host.mem_bodyProblems_iff`), and so is a name in an
initial rule that no child has (`Host.mem_initialProblems_iff`).

Key definitions: `Host.Offers`, `Definition.Chain.Mentions`, `Definition.Initial.Mentions`,
`Definition.Initial.Names`, `Definition.State.Body.Mentions`, `Definition.Initial.Flaw`.
Key theorems: `Definition.Chain.induction`, `Host.mem_chainProblems_iff`,
`Host.mem_initialProblems_iff`, `Host.mem_bodyProblems_iff`.
-/
import Mathlib.Data.List.Duplicate
import Statechart.Design.Problem

namespace Statechart

variable {D : Type}

/-! ### Functions of a host -/

namespace Host

/-- The host has a function of this kind under the name. -/
def Offers (host : Host D) (k : Kind) (name : String) : Prop := ∃ fn, (name, fn) ∈ host.functions k

theorem offers_iff {host : Host D} {k : Kind} {name : String} :
    host.Offers k name ↔ ((host.functions k).find? name).isSome = true := by
  unfold Offers
  induction host.functions k with
  | nil => simp [Registry.find?]
  | cons entry rest ih =>
    obtain ⟨other, fn⟩ := entry
    by_cases h : name = other
    · simp [Registry.find?, h]
    · simp [Registry.find?, h, ih]

end Host

namespace Definition

/-! ### Handlers and guards -/

/-- A condition in one of the clauses has the name. -/
inductive Guards.Mentions (g : Guards D) (name : String) : Prop
  | all (mem : .named name ∈ g.all)
  | any (mem : .named name ∈ g.any)
  | noneOf (mem : .named name ∈ g.noneOf)
  | notAll (mem : .named name ∈ g.notAll)

/-- The delay is that of a function of the name. -/
def Delay.Mentions (name : String) : Delay D → Prop
  | .computed (.named n) => n = name
  | _ => False

/-- A handler refers to a function of this kind and name, outside of the chains in it. -/
inductive Handler.Mentions (h : Handler D) : Kind → String → Prop
  | get {name : String} (mem : .named name ∈ h.get) : Mentions h .result name
  | guards {name : String} (mentions : h.guards.Mentions name) : Mentions h .condition name
  | action {name : String} (mem : .named name ∈ h.actions) : Mentions h .action name
  | secretAction {name : String} (mem : .named name ∈ h.secretActions) : Mentions h .action name
  | wait {name : String} {d : Delay D} (wait : h.wait = some d) (mentions : d.Mentions name) :
    Mentions h .time name
  | breakWhen {name : String} (breakWhen : h.breakWhen = some (.named name)) :
    Mentions h .condition name

/-! ### Chains -/

/-- A chain refers to a function of this kind and name: one of its links does, or a chain in
one. -/
inductive Chain.Mentions : Chain D → Kind → String → Prop
  | action {c : Chain D} {name : String} (mem : .action (.named name) ∈ c.links) :
    Mentions c .action name
  | handler {c : Chain D} {k : Kind} {name : String} {body : Handler D}
    {thenDo otherwise : Option (Chain D)} (mem : .handler body thenDo otherwise ∈ c.links)
    (mentions : body.Mentions k name) : Mentions c k name
  | thenDo {c t : Chain D} {k : Kind} {name : String} {body : Handler D}
    {otherwise : Option (Chain D)} (mem : .handler body (some t) otherwise ∈ c.links)
    (mentions : Mentions t k name) : Mentions c k name
  | otherwise {c e : Chain D} {k : Kind} {name : String} {body : Handler D}
    {thenDo : Option (Chain D)} (mem : .handler body thenDo (some e) ∈ c.links)
    (mentions : Mentions e k name) : Mentions c k name

/-- What holds of a chain if it holds of the chains in its links, holds of every chain. -/
@[elab_as_elim]
theorem Chain.induction {P : Chain D → Prop}
    (links : ∀ c : Chain D, (∀ body thenDo otherwise, .handler body thenDo otherwise ∈ c.links →
      (∀ t, thenDo = some t → P t) ∧ ∀ e, otherwise = some e → P e) → P c) : ∀ c, P c := by
  let inside : Link D → Prop := fun l => ∀ body thenDo otherwise,
    l = .handler body thenDo otherwise →
      (∀ t, thenDo = some t → P t) ∧ ∀ e, otherwise = some e → P e
  refine Chain.rec (motive_1 := inside) (motive_2 := P)
    (motive_3 := fun o => ∀ c, o = some c → P c) (motive_4 := fun ls => ∀ l ∈ ls, inside l)
    ?_ ?_ ?_ ?_ ?_ ?_ ?_ ?_
  · rintro ref _ _ _ ⟨⟩
  · rintro body t e ht he _ _ _ ⟨⟩
    exact ⟨ht, he⟩
  · exact fun l hl => links _ fun b t e h => hl b t e (List.mem_singleton.mp h).symm
  · exact fun ls hls => links _ fun b t e h => hls _ h b t e rfl
  · exact fun c h => nomatch h
  · rintro c hc _ ⟨⟩
    exact hc
  · exact fun l h => nomatch h
  · exact fun l ls hl hls => List.forall_mem_cons.mpr ⟨hl, hls⟩

/-! ### Initial rules -/

/-- What holds of a child, and of a decision if it holds of the rules in it, holds of every
rule. -/
@[elab_as_elim]
theorem Initial.induction {P : Initial D → Prop} (child : ∀ name, P (.child name))
    (decision : ∀ get guards child thenDo otherwise, (∀ r, thenDo = some r → P r) →
      (∀ r, otherwise = some r → P r) → P (.decision get guards child thenDo otherwise)) :
    ∀ rule, P rule := by
  refine Initial.rec (motive_1 := P) (motive_2 := fun o => ∀ r, o = some r → P r) child
    decision ?_ ?_
  · exact fun r h => nomatch h
  · rintro r hr _ ⟨⟩
    exact hr

/-- A rule refers to a function of this kind and name, or a rule in it does. -/
inductive Initial.Mentions : Initial D → Kind → String → Prop
  | get {get : List (Reference (Kind.result.Fn D))} {guards : Guards D} {child : Option String}
    {thenDo otherwise : Option (Initial D)} {name : String} (mem : .named name ∈ get) :
    Mentions (.decision get guards child thenDo otherwise) .result name
  | guards {get : List (Reference (Kind.result.Fn D))} {guards : Guards D} {child : Option String}
    {thenDo otherwise : Option (Initial D)} {name : String} (mentions : guards.Mentions name) :
    Mentions (.decision get guards child thenDo otherwise) .condition name
  | thenDo {get : List (Reference (Kind.result.Fn D))} {guards : Guards D} {child : Option String}
    {rule : Initial D} {otherwise : Option (Initial D)} {k : Kind} {name : String}
    (mentions : Mentions rule k name) :
    Mentions (.decision get guards child (some rule) otherwise) k name
  | otherwise {get : List (Reference (Kind.result.Fn D))} {guards : Guards D}
    {child : Option String} {thenDo : Option (Initial D)} {rule : Initial D} {k : Kind}
    {name : String} (mentions : Mentions rule k name) :
    Mentions (.decision get guards child thenDo (some rule)) k name

/-- A rule names a child, or a rule in it does. -/
inductive Initial.Names : Initial D → String → Prop
  | child (name : String) : Names (.child name) name
  | decision {get : List (Reference (Kind.result.Fn D))} {guards : Guards D} {name : String}
    {thenDo otherwise : Option (Initial D)} :
    Names (.decision get guards (some name) thenDo otherwise) name
  | thenDo {get : List (Reference (Kind.result.Fn D))} {guards : Guards D} {child : Option String}
    {rule : Initial D} {otherwise : Option (Initial D)} {name : String} (names : Names rule name) :
    Names (.decision get guards child (some rule) otherwise) name
  | otherwise {get : List (Reference (Kind.result.Fn D))} {guards : Guards D}
    {child : Option String} {thenDo : Option (Initial D)} {rule : Initial D} {name : String}
    (names : Names rule name) : Names (.decision get guards child thenDo (some rule)) name

/-- Something wrong in the initial rule of the state at a path: it refers to a function that
the host does not offer, or names none of the children. -/
inductive Initial.Flaw (host : Host D) (path : String) (children : List String) (r : Initial D) :
    Problem → Prop
  | missing {k : Kind} {name : String} (mentions : r.Mentions k name)
    (missing : ¬ host.Offers k name) : Flaw host path children r (.missingEntry path k name)
  | unknown {name : String} (names : r.Names name) (unknown : name ∉ children) :
    Flaw host path children r (.unknownInitial path name)

/-! ### States -/

/-- The chains, the repeater and the operation of a state refer to a function of this kind and
name. -/
inductive State.Body.Mentions (b : State.Body D) : Kind → String → Prop
  | on {event : String} {c : Chain D} {k : Kind} {name : String} (mem : (event, c) ∈ b.on)
    (mentions : c.Mentions k name) : Mentions b k name
  | onEnter {c : Chain D} {k : Kind} {name : String} (onEnter : b.onEnter = some c)
    (mentions : c.Mentions k name) : Mentions b k name
  | onExit {c : Chain D} {k : Kind} {name : String} (onExit : b.onExit = some c)
    (mentions : c.Mentions k name) : Mentions b k name
  | onEvent {c : Chain D} {k : Kind} {name : String} (onEvent : b.onEvent = some c)
    (mentions : c.Mentions k name) : Mentions b k name
  | onRepeat {r : Repeater D} {k : Kind} {name : String} (repeater : b.repeater = some r)
    (mentions : r.chain.Mentions k name) : Mentions b k name
  | delay {r : Repeater D} {d : Delay D} {name : String} (repeater : b.repeater = some r)
    (delay : r.delay = some d) (mentions : d.Mentions name) : Mentions b .time name
  | onResolve {a : Awaiting D} {k : Kind} {name : String} (awaiting : b.awaiting = some a)
    (mentions : a.onResolve.Mentions k name) : Mentions b k name
  | onReject {a : Awaiting D} {c : Chain D} {k : Kind} {name : String}
    (awaiting : b.awaiting = some a) (onReject : a.onReject = some c)
    (mentions : c.Mentions k name) : Mentions b k name
  | operation {a : Awaiting D} {name : String} (awaiting : b.awaiting = some a)
    (operation : a.operation = .named name) : Mentions b .operation name

end Definition

namespace Host

variable (host : Host D) (path : String) {p : Problem}

/-! ### Problems of references -/

theorem mem_missing_iff {k : Kind} {ref : Definition.Reference (k.Fn D)} :
    p ∈ host.missing path k ref ↔
      ∃ name, ref = .named name ∧ ¬ host.Offers k name ∧ p = .missingEntry path k name := by
  cases ref with
  | inline fn => simp [missing]
  | named name =>
    simp only [missing, offers_iff, Definition.Reference.named.injEq]
    split <;> simp_all

theorem mem_missingAll_iff {k : Kind} {refs : List (Definition.Reference (k.Fn D))} :
    p ∈ host.missingAll path k refs ↔
      ∃ name, .named name ∈ refs ∧ ¬ host.Offers k name ∧ p = .missingEntry path k name := by
  simp only [missingAll, List.mem_flatMap, mem_missing_iff]
  exact ⟨fun ⟨ref, hmem, name, heq, h⟩ => ⟨name, heq ▸ hmem, h⟩,
    fun ⟨name, hmem, h⟩ => ⟨_, hmem, name, rfl, h⟩⟩

/-- A problem is that of a function that `mentions` tells of. -/
def Misses (mentions : Kind → String → Prop) (p : Problem) : Prop :=
  ∃ k name, mentions k name ∧ ¬ host.Offers k name ∧ p = .missingEntry path k name

theorem mem_guardsProblems_iff {g : Definition.Guards D} :
    p ∈ host.guardsProblems path g ↔
      ∃ name, g.Mentions name ∧ ¬ host.Offers .condition name ∧
        p = .missingEntry path .condition name := by
  simp only [guardsProblems, List.mem_append, mem_missingAll_iff]
  constructor
  · rintro (((⟨name, hmem, h⟩ | ⟨name, hmem, h⟩) | ⟨name, hmem, h⟩) | ⟨name, hmem, h⟩)
    · exact ⟨name, .all hmem, h⟩
    · exact ⟨name, .any hmem, h⟩
    · exact ⟨name, .noneOf hmem, h⟩
    · exact ⟨name, .notAll hmem, h⟩
  · rintro ⟨name, hmem | hmem | hmem | hmem, h⟩
    · exact Or.inl (Or.inl (Or.inl ⟨name, hmem, h⟩))
    · exact Or.inl (Or.inl (Or.inr ⟨name, hmem, h⟩))
    · exact Or.inl (Or.inr ⟨name, hmem, h⟩)
    · exact Or.inr ⟨name, hmem, h⟩

theorem mem_timeProblems_iff {d : Definition.Delay D} :
    p ∈ host.timeProblems path d ↔
      ∃ name, d.Mentions name ∧ ¬ host.Offers .time name ∧ p = .missingEntry path .time name := by
  cases d with
  | seconds x => simp [timeProblems, Definition.Delay.Mentions]
  | computed ref =>
    rw [timeProblems, mem_missing_iff]
    cases ref with
    | inline fn => simp [Definition.Delay.Mentions]
    | named n => simp [Definition.Delay.Mentions]

theorem mem_elim_iff {α β : Type} {o : Option α} {f : α → List β} {b : β} :
    b ∈ o.elim [] f ↔ ∃ a, o = some a ∧ b ∈ f a := by
  cases o <;> simp

theorem mem_handlerProblems_iff {h : Definition.Handler D} :
    p ∈ host.handlerProblems path h ↔ host.Misses path h.Mentions p := by
  simp only [handlerProblems, List.mem_append, mem_elim_iff, mem_missingAll_iff,
    mem_guardsProblems_iff, mem_timeProblems_iff, mem_missing_iff]
  constructor
  · rintro (((((⟨name, hmem, hm⟩ | ⟨name, hmem, hm⟩) | ⟨name, hmem, hm⟩) | ⟨name, hmem, hm⟩) |
      ⟨d, hd, name, hmem, hm⟩) | ⟨_, href, name, rfl, hm⟩)
    · exact ⟨_, name, .get hmem, hm⟩
    · exact ⟨_, name, .guards hmem, hm⟩
    · exact ⟨_, name, .action hmem, hm⟩
    · exact ⟨_, name, .secretAction hmem, hm⟩
    · exact ⟨_, name, .wait hd hmem, hm⟩
    · exact ⟨_, name, .breakWhen href, hm⟩
  · rintro ⟨_, name, hmem | hmem | hmem | hmem | ⟨hd, hmem⟩ | href, hm⟩
    · exact Or.inl (Or.inl (Or.inl (Or.inl (Or.inl ⟨name, hmem, hm⟩))))
    · exact Or.inl (Or.inl (Or.inl (Or.inl (Or.inr ⟨name, hmem, hm⟩))))
    · exact Or.inl (Or.inl (Or.inl (Or.inr ⟨name, hmem, hm⟩)))
    · exact Or.inl (Or.inl (Or.inr ⟨name, hmem, hm⟩))
    · exact Or.inl (Or.inr ⟨_, hd, name, hmem, hm⟩)
    · exact Or.inr ⟨_, href, name, rfl, hm⟩

/-! ### Problems of chains -/

theorem linksProblems_eq : ∀ links : List (Definition.Link D),
    host.linksProblems path links = links.flatMap (host.linkProblems path)
  | [] => rfl
  | l :: ls => by rw [linksProblems, linksProblems_eq ls, List.flatMap_cons]

theorem chainProblems_eq (c : Definition.Chain D) :
    host.chainProblems path c = c.links.flatMap (host.linkProblems path) := by
  cases c with
  | one l => simp [chainProblems, Definition.Chain.links]
  | many ls => rw [chainProblems, linksProblems_eq, Definition.Chain.links]

theorem mem_linkProblems_iff {body : Definition.Handler D}
    {thenDo otherwise : Option (Definition.Chain D)} :
    p ∈ host.linkProblems path (.handler body thenDo otherwise) ↔
      p ∈ host.handlerProblems path body ∨ (∃ t, thenDo = some t ∧ p ∈ host.chainProblems path t) ∨
        ∃ e, otherwise = some e ∧ p ∈ host.chainProblems path e := by
  cases thenDo <;> cases otherwise <;> simp [linkProblems]

/-- The problems of a chain are the functions that it refers to, at any depth, and that the
host does not offer. -/
theorem mem_chainProblems_iff {c : Definition.Chain D} :
    p ∈ host.chainProblems path c ↔ host.Misses path c.Mentions p := by
  induction c using Definition.Chain.induction with
  | links c ih =>
    rw [chainProblems_eq, List.mem_flatMap]
    constructor
    · rintro ⟨⟨ref⟩ | ⟨body, thenDo, otherwise⟩, hmem, hp⟩
      · obtain ⟨name, rfl, h⟩ := (host.mem_missing_iff path).mp hp
        exact ⟨_, name, .action hmem, h⟩
      · obtain ⟨ihThen, ihElse⟩ := ih body thenDo otherwise hmem
        rcases (host.mem_linkProblems_iff path).mp hp with hbody | ⟨t, rfl, ht⟩ | ⟨e, rfl, he⟩
        · obtain ⟨k, name, hbody, h⟩ := (host.mem_handlerProblems_iff path).mp hbody
          exact ⟨k, name, .handler hmem hbody, h⟩
        · obtain ⟨k, name, hchain, h⟩ := (ihThen t rfl).mp ht
          exact ⟨k, name, .thenDo hmem hchain, h⟩
        · obtain ⟨k, name, hchain, h⟩ := (ihElse e rfl).mp he
          exact ⟨k, name, .otherwise hmem hchain, h⟩
    · rintro ⟨k, name, hmentions, h⟩
      cases hmentions with
      | action hmem => exact ⟨_, hmem, (host.mem_missing_iff path).mpr ⟨name, rfl, h⟩⟩
      | handler hmem hbody =>
        have hp := (host.mem_handlerProblems_iff path).mpr ⟨k, name, hbody, h⟩
        exact ⟨_, hmem, (host.mem_linkProblems_iff path).mpr (Or.inl hp)⟩
      | thenDo hmem hchain =>
        have hp := ((ih _ _ _ hmem).1 _ rfl).mpr ⟨k, name, hchain, h⟩
        exact ⟨_, hmem, (host.mem_linkProblems_iff path).mpr (Or.inr (Or.inl ⟨_, rfl, hp⟩))⟩
      | otherwise hmem hchain =>
        have hp := ((ih _ _ _ hmem).2 _ rfl).mpr ⟨k, name, hchain, h⟩
        exact ⟨_, hmem, (host.mem_linkProblems_iff path).mpr (Or.inr (Or.inr ⟨_, rfl, hp⟩))⟩

/-! ### Problems of initial rules -/

theorem mem_childProblems_iff {children : List String} {name : String} :
    p ∈ childProblems path children name ↔ name ∉ children ∧ p = .unknownInitial path name := by
  unfold childProblems
  split <;> simp_all

theorem mem_initialProblems_decision_iff {children : List String}
    {get : List (Definition.Reference (Kind.result.Fn D))} {guards : Definition.Guards D}
    {child : Option String} {thenDo otherwise : Option (Definition.Initial D)} :
    p ∈ host.initialProblems path children (.decision get guards child thenDo otherwise) ↔
      (∃ name, child = some name ∧ p ∈ childProblems path children name) ∨
        p ∈ host.missingAll path .result get ∨ p ∈ host.guardsProblems path guards ∨
        (∃ r, thenDo = some r ∧ p ∈ host.initialProblems path children r) ∨
        ∃ r, otherwise = some r ∧ p ∈ host.initialProblems path children r := by
  cases thenDo <;> cases otherwise <;> simp [initialProblems, mem_elim_iff]

theorem mem_initialProblems_of_mentions {children : List String} {r : Definition.Initial D}
    {k : Kind} {name : String} (h : r.Mentions k name) (missing : ¬ host.Offers k name) :
    .missingEntry path k name ∈ host.initialProblems path children r := by
  induction h with
  | get hmem =>
    have hp := (host.mem_missingAll_iff path).mpr ⟨_, hmem, missing, rfl⟩
    exact (host.mem_initialProblems_decision_iff path).mpr (Or.inr (Or.inl hp))
  | guards hmem =>
    have hp := (host.mem_guardsProblems_iff path).mpr ⟨_, hmem, missing, rfl⟩
    exact (host.mem_initialProblems_decision_iff path).mpr (Or.inr (Or.inr (Or.inl hp)))
  | thenDo _ ih =>
    have hp := ih missing
    exact (host.mem_initialProblems_decision_iff path).mpr
      (Or.inr (Or.inr (Or.inr (Or.inl ⟨_, rfl, hp⟩))))
  | otherwise _ ih =>
    have hp := ih missing
    exact (host.mem_initialProblems_decision_iff path).mpr
      (Or.inr (Or.inr (Or.inr (Or.inr ⟨_, rfl, hp⟩))))

theorem mem_initialProblems_of_names {children : List String} {r : Definition.Initial D}
    {name : String} (h : r.Names name) (unknown : name ∉ children) :
    .unknownInitial path name ∈ host.initialProblems path children r := by
  have hname : .unknownInitial path name ∈ childProblems path children name :=
    (mem_childProblems_iff path).mpr ⟨unknown, rfl⟩
  induction h with
  | child name => exact hname
  | decision => exact (host.mem_initialProblems_decision_iff path).mpr (Or.inl ⟨_, rfl, hname⟩)
  | thenDo _ ih =>
    have hp := ih unknown hname
    exact (host.mem_initialProblems_decision_iff path).mpr
      (Or.inr (Or.inr (Or.inr (Or.inl ⟨_, rfl, hp⟩))))
  | otherwise _ ih =>
    have hp := ih unknown hname
    exact (host.mem_initialProblems_decision_iff path).mpr
      (Or.inr (Or.inr (Or.inr (Or.inr ⟨_, rfl, hp⟩))))

theorem flaw_of_mem_initialProblems {children : List String} : ∀ r : Definition.Initial D,
    p ∈ host.initialProblems path children r → r.Flaw host path children p
  | .child name, hp => by
    obtain ⟨hunknown, rfl⟩ := (mem_childProblems_iff path).mp hp
    exact .unknown (.child name) hunknown
  | .decision get guards child thenDo otherwise, hp => by
    rcases (host.mem_initialProblems_decision_iff path).mp hp with
      ⟨name, rfl, hp'⟩ | hp' | hp' | ⟨r, rfl, hp'⟩ | ⟨r, rfl, hp'⟩
    · obtain ⟨hunknown, rfl⟩ := (mem_childProblems_iff path).mp hp'
      exact .unknown .decision hunknown
    · obtain ⟨name, hmem, hmissing, rfl⟩ := (host.mem_missingAll_iff path).mp hp'
      exact .missing (.get hmem) hmissing
    · obtain ⟨name, hmem, hmissing, rfl⟩ := (host.mem_guardsProblems_iff path).mp hp'
      exact .missing (.guards hmem) hmissing
    · cases flaw_of_mem_initialProblems r hp' with
      | missing hmentions hmissing => exact .missing (.thenDo hmentions) hmissing
      | unknown hnames hunknown => exact .unknown (.thenDo hnames) hunknown
    · cases flaw_of_mem_initialProblems r hp' with
      | missing hmentions hmissing => exact .missing (.otherwise hmentions) hmissing
      | unknown hnames hunknown => exact .unknown (.otherwise hnames) hunknown

/-- The problems of a rule are what is wrong in it. -/
theorem mem_initialProblems_iff {children : List String} {r : Definition.Initial D} :
    p ∈ host.initialProblems path children r ↔ r.Flaw host path children p := by
  constructor
  · exact host.flaw_of_mem_initialProblems path r
  · rintro (⟨hmentions, hmissing⟩ | ⟨hnames, hunknown⟩)
    · exact host.mem_initialProblems_of_mentions path hmentions hmissing
    · exact host.mem_initialProblems_of_names path hnames hunknown

/-! ### Problems of states -/

/-- A name of the list comes up again, `seen` being those that came up before the list. -/
def Recurs (seen names : List String) (name : String) : Prop :=
  name ∈ names ∧ (name ∈ seen ∨ names.Duplicate name)

theorem recurs_nil_iff {names : List String} {name : String} :
    Recurs [] names name ↔ names.Duplicate name := by
  simp only [Recurs, List.not_mem_nil, false_or]
  exact ⟨fun h => h.2, fun h => ⟨h.mem, h⟩⟩

/-- A name comes up again at the head of a list if it was seen, and after it if it was seen
before or at the head. -/
theorem recurs_cons_iff {seen names : List String} {first name : String} :
    Recurs seen (first :: names) name ↔
      name = first ∧ first ∈ seen ∨ Recurs (first :: seen) names name := by
  simp only [Recurs, List.mem_cons, List.duplicate_cons_iff]
  constructor
  · rintro ⟨hmem, hseen | ⟨rfl, hagain⟩ | hdup⟩
    · rcases hmem with rfl | hmem
      · exact Or.inl ⟨rfl, hseen⟩
      · exact Or.inr ⟨hmem, Or.inl (Or.inr hseen)⟩
    · exact Or.inr ⟨hagain, Or.inl (Or.inl rfl)⟩
    · exact Or.inr ⟨hdup.mem, Or.inr hdup⟩
  · rintro (⟨rfl, hseen⟩ | ⟨hmem, (rfl | hseen) | hdup⟩)
    · exact ⟨Or.inl rfl, Or.inl hseen⟩
    · exact ⟨Or.inl rfl, Or.inr (Or.inl ⟨rfl, hmem⟩)⟩
    · exact ⟨Or.inr hmem, Or.inl hseen⟩
    · exact ⟨Or.inr hmem, Or.inr (Or.inr hdup)⟩

theorem recurs_congr {seen seen' names : List String} {name : String}
    (h : name ∈ seen ↔ name ∈ seen') : Recurs seen names name ↔ Recurs seen' names name := by
  simp only [Recurs, h]

/-- The problems of the chains for events are those of each chain, and the events that come up
again. -/
theorem mem_eventProblems_iff {on : List (String × Definition.Chain D)} {seen : List String} :
    p ∈ host.eventProblems path seen on ↔
      (∃ event c, (event, c) ∈ on ∧ p ∈ host.chainProblems path c) ∨
        ∃ event, Recurs seen (on.map (·.1)) event ∧ p = .duplicateEvent path event := by
  induction on generalizing seen with
  | nil => simp [eventProblems, Recurs]
  | cons entry rest ih =>
    obtain ⟨event, c⟩ := entry
    have hagain : p ∈ (if seen.contains event then [Problem.duplicateEvent path event] else []) ↔
        event ∈ seen ∧ p = .duplicateEvent path event := by
      split <;> simp_all
    rw [eventProblems, List.mem_append, List.mem_append, ih, hagain]
    simp only [List.map_cons, recurs_cons_iff, List.mem_cons]
    constructor
    · rintro ((hp | ⟨hseen, hp⟩) | ⟨event', c', hmem, hp⟩ | ⟨event', hrecurs, hp⟩)
      · exact Or.inl ⟨event, c, Or.inl rfl, hp⟩
      · exact Or.inr ⟨event, Or.inl ⟨rfl, hseen⟩, hp⟩
      · exact Or.inl ⟨event', c', Or.inr hmem, hp⟩
      · exact Or.inr ⟨event', Or.inr hrecurs, hp⟩
    · rintro (⟨event', c', hmem | hmem, hp⟩ | ⟨event', ⟨rfl, hseen⟩ | hrecurs, hp⟩)
      · cases hmem
        exact Or.inl (Or.inl hp)
      · exact Or.inr (Or.inl ⟨event', c', hmem, hp⟩)
      · exact Or.inl (Or.inr ⟨hseen, hp⟩)
      · exact Or.inr (Or.inr ⟨event', hrecurs, hp⟩)

/-- The problems of a state without its initial rule and the states in it are the functions that
it refers to and that the host does not offer, and the events that it has twice. -/
theorem mem_bodyProblems_iff {b : Definition.State.Body D} :
    p ∈ host.bodyProblems path b ↔
      host.Misses path b.Mentions p ∨
        ∃ event, (b.on.map (·.1)).Duplicate event ∧ p = .duplicateEvent path event := by
  simp only [bodyProblems, List.mem_append, mem_elim_iff, mem_eventProblems_iff, recurs_nil_iff,
    mem_chainProblems_iff, mem_timeProblems_iff, mem_missing_iff]
  constructor
  · rintro ((((((⟨event, c, hmem, k, name, hc, h⟩ | hevent) |
      ⟨r, hr, ⟨k, name, hc, h⟩ | ⟨d, hd, name, hc, h⟩⟩) |
      ⟨a, ha, (⟨k, name, hc, h⟩ | ⟨c, hreject, k, name, hc, h⟩) | ⟨name, hoperation, h⟩⟩) |
      ⟨c, heq, k, name, hc, h⟩) | ⟨c, heq, k, name, hc, h⟩) | ⟨c, heq, k, name, hc, h⟩)
    · exact Or.inl ⟨k, name, .on hmem hc, h⟩
    · exact Or.inr hevent
    · exact Or.inl ⟨k, name, .onRepeat hr hc, h⟩
    · exact Or.inl ⟨_, name, .delay hr hd hc, h⟩
    · exact Or.inl ⟨k, name, .onResolve ha hc, h⟩
    · exact Or.inl ⟨k, name, .onReject ha hreject hc, h⟩
    · exact Or.inl ⟨_, name, .operation ha hoperation, h⟩
    · exact Or.inl ⟨k, name, .onEnter heq hc, h⟩
    · exact Or.inl ⟨k, name, .onExit heq hc, h⟩
    · exact Or.inl ⟨k, name, .onEvent heq hc, h⟩
  · rintro (⟨k, name, hmentions, h⟩ | hevent)
    · cases hmentions <;> grind [Misses]
    · simp [hevent]

end Host
end Statechart
