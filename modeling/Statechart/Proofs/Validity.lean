/-
# Valid designs

A state is sound (`Definition.State.Sound`) when the names of the states in it are proper and
different, its initial rule has states to choose from and names only these, no event comes up
twice, and the host offers every function that is referred to. A design compiles exactly if all
of its states are sound (`Design.compiles_iff_sound`).

The search for problems looks into a state only if its name is proper and none before it has the
name, and into an initial rule only if the state has a child with a proper name. What it reports
of a state is `Definition.State.Reports`, and where it looks is `Definition.State.Searched`; so
it reports exactly what there is to report of the states that it looks into
(`Design.mem_problems_iff`). A defect of such a state is reported unless it is the repetition of a
name that is not proper, or in an initial rule that is not looked into
(`Design.reports_defects`). What is wrong with other states is not seen.

Key definitions: `Definition.ProperName`, `Definition.State.Sound`, `Definition.State.Reports`,
`Definition.State.Searched`, `Definition.State.Defect`.
Key theorems: `Host.mem_stateProblems_iff`, `Design.mem_problems_iff`,
`Design.compiles_iff_sound`, `Design.reports_defects`.
-/
import Statechart.Proofs.Mentions
import Statechart.Proofs.Origins

namespace Statechart

variable {D : Type}

namespace Definition

/-! ### Names -/

/-- A name that a state may have. -/
structure ProperName (name : String) : Prop where
  nonempty : name ≠ ""
  undotted : '.' ∉ name.toList
  not_previous : name ≠ "previous"
  not_restore : name ≠ "restore"

theorem validStateName_iff {name : String} : validStateName name = true ↔ ProperName name := by
  have hempty : name.isEmpty = false ↔ name ≠ "" := by
    rw [← Bool.not_eq_true, String.isEmpty_iff]
  have hdot : name.toList.contains '.' = false ↔ '.' ∉ name.toList := by
    rw [← Bool.not_eq_true, List.contains_iff_mem]
  simp only [validStateName, Recall.word, Bool.and_eq_true, Bool.not_eq_true', bne_iff_ne, hempty,
    hdot]
  constructor
  · rintro ⟨⟨⟨not_empty, no_dot⟩, not_previous⟩, not_restore⟩
    exact ⟨not_empty, no_dot, not_previous, not_restore⟩
  · rintro ⟨not_empty, no_dot, not_previous, not_restore⟩
    exact ⟨⟨⟨not_empty, no_dot⟩, not_previous⟩, not_restore⟩

namespace State

/-- The names of the states in a state. -/
def names (s : State D) : List String := s.states.map (·.1)

/-- What holds of a state if it holds of the states in it, holds of every state. -/
@[elab_as_elim]
theorem induction {P : State D → Prop}
    (mk : ∀ body states, (∀ s ∈ states, P s.2) → P (.mk body states)) : ∀ s, P s := by
  refine State.rec (motive_1 := P) (motive_2 := fun states => ∀ s ∈ states, P s.2)
    (motive_3 := fun s => P s.2) mk ?_ ?_ ?_
  · exact fun s h => nomatch h
  · exact fun s states hs hstates => List.forall_mem_cons.mpr ⟨hs, hstates⟩
  · exact fun name s hs => hs

/-! ### Sound states -/

/-- There is nothing wrong with a state, apart from the states in it. -/
structure Sound (host : Host D) (s : State D) : Prop where
  proper : ∀ name ∈ s.names, ProperName name
  distinct : s.names.Nodup
  start : ∀ rule, s.body.initial = some rule → s.states ≠ []
  children : ∀ rule, s.body.initial = some rule → ∀ name, rule.Names name → name ∈ s.names
  decisions : ∀ rule, s.body.initial = some rule →
    ∀ k name, rule.Mentions k name → host.Offers k name
  events : (s.body.on.map (·.1)).Nodup
  functions : ∀ k name, s.body.Mentions k name → host.Offers k name

/-- What the search for problems reports of the state at a path, apart from the states in it. -/
inductive Reports (host : Host D) (path : String) (s : State D) : Problem → Prop
  | invalidName {name : String} (mem : name ∈ s.names) (improper : ¬ ProperName name) :
    Reports host path s (.invalidStateName path name)
  | repeatedName {name : String} (again : s.names.Duplicate name) (proper : ProperName name) :
    Reports host path s (.duplicateState path name)
  | withoutStates {rule : Initial D} (initial : s.body.initial = some rule)
    (childless : Host.childNames s.states = []) : Reports host path s (.initialWithoutStates path)
  | rule {rule : Initial D} {p : Problem} (initial : s.body.initial = some rule)
    (children : Host.childNames s.states ≠ [])
    (flaw : rule.Flaw host path (Host.childNames s.states) p) : Reports host path s p
  | repeatedEvent {event : String} (again : (s.body.on.map (·.1)).Duplicate event) :
    Reports host path s (.duplicateEvent path event)
  | missing {k : Kind} {name : String} (mentions : s.body.Mentions k name)
    (missing : ¬ host.Offers k name) : Reports host path s (.missingEntry path k name)

end State

end Definition

namespace Host

variable (host : Host D) (path : String) {p : Problem}

/-! ### The search -/

theorem mem_childNames_iff {states : List (String × Definition.State D)} {name : String} :
    name ∈ childNames states ↔ name ∈ states.map (·.1) ∧ Definition.ProperName name := by
  rw [childNames, List.mem_eraseDups, List.mem_filter, Definition.validStateName_iff]

theorem mem_startProblems_iff {initial : Option (Definition.Initial D)} {children : List String} :
    p ∈ host.startProblems path initial children ↔
      ∃ rule, initial = some rule ∧ (children = [] ∧ p = .initialWithoutStates path ∨
        children ≠ [] ∧ rule.Flaw host path children p) := by
  cases initial with
  | none => simp [startProblems]
  | some rule =>
    by_cases h : children = []
    · simp [startProblems, h]
    · simp [startProblems, h, mem_initialProblems_iff]

/-- The problems of the states in a state: a name that is not proper, a proper name that comes up
again, and those of each state that is the first of its name, which is proper. -/
theorem mem_statesProblems_iff {states : List (String × Definition.State D)}
    {seen : List String} :
    p ∈ host.statesProblems path seen states ↔
      (∃ name ∈ states.map (·.1), ¬ Definition.ProperName name ∧ p = .invalidStateName path name) ∨
      (∃ name, Recurs seen (states.map (·.1)) name ∧ Definition.ProperName name ∧
        p = .duplicateState path name) ∨
      ∃ name s, states.lookup name = some s ∧ Definition.ProperName name ∧ name ∉ seen ∧
        p ∈ host.stateProblems (Path.join path name) s := by
  induction states generalizing seen with
  | nil => simp [statesProblems, Recurs]
  | cons entry rest ih =>
    obtain ⟨first, s⟩ := entry
    have hother : ∀ {name : String}, name ≠ first →
        (Recurs seen (first :: rest.map (·.1)) name ↔ Recurs seen (rest.map (·.1)) name) :=
      fun {name} hne => by
        have hseen : name ∈ first :: seen ↔ name ∈ seen := by simp [hne]
        rw [recurs_cons_iff, recurs_congr hseen]
        simp [hne]
    by_cases hproper : Definition.ProperName first
    · have hvalid := Definition.validStateName_iff.mpr hproper
      by_cases hseen : first ∈ seen
      · have heq : host.statesProblems path seen ((first, s) :: rest) =
            .duplicateState path first :: host.statesProblems path seen rest := by
          simp [statesProblems, hvalid, hseen]
        rw [heq, List.mem_cons, ih, List.map_cons]
        grind [recurs_cons_iff]
      · have heq : host.statesProblems path seen ((first, s) :: rest) =
            host.stateProblems (Path.join path first) s ++
              host.statesProblems path (first :: seen) rest := by
          simp [statesProblems, hvalid, hseen]
        rw [heq, List.mem_append, ih, List.map_cons]
        grind [recurs_cons_iff]
    · have hvalid : validStateName first = false := by
        simpa [← Definition.validStateName_iff] using hproper
      have heq : host.statesProblems path seen ((first, s) :: rest) =
          .invalidStateName path first :: host.statesProblems path seen rest := by
        simp [statesProblems, hvalid]
      rw [heq, List.mem_cons, ih, List.map_cons]
      grind

/-- The problems of a state are what is reported of it and the problems of the states in it that
are looked into. -/
theorem mem_stateProblems_cases {s : Definition.State D} :
    p ∈ host.stateProblems path s ↔ s.Reports host path p ∨
      ∃ name t, s.states.lookup name = some t ∧ Definition.ProperName name ∧
        p ∈ host.stateProblems (Path.join path name) t := by
  obtain ⟨body, states⟩ := s
  rw [stateProblems, List.mem_append, List.mem_append, mem_statesProblems_iff, mem_startProblems_iff,
    mem_bodyProblems_iff]
  simp only [recurs_nil_iff, List.not_mem_nil, not_false_eq_true, true_and]
  constructor
  · rintro (((⟨name, hmem, himproper, rfl⟩ | ⟨name, hagain, hproper, rfl⟩ | hinside) |
      ⟨rule, hrule, ⟨hnone, rfl⟩ | ⟨hsome, hflaw⟩⟩) | ⟨k, name, hmentions, hmissing, rfl⟩ |
      ⟨event, hagain, rfl⟩)
    · exact Or.inl (.invalidName hmem himproper)
    · exact Or.inl (.repeatedName hagain hproper)
    · exact Or.inr hinside
    · exact Or.inl (.withoutStates hrule hnone)
    · exact Or.inl (.rule hrule hsome hflaw)
    · exact Or.inl (.missing hmentions hmissing)
    · exact Or.inl (.repeatedEvent hagain)
  · rintro (hreports | hinside)
    · cases hreports with
      | invalidName hmem himproper => exact Or.inl (Or.inl (Or.inl ⟨_, hmem, himproper, rfl⟩))
      | repeatedName hagain hproper =>
        exact Or.inl (Or.inl (Or.inr (Or.inl ⟨_, hagain, hproper, rfl⟩)))
      | withoutStates hrule hnone => exact Or.inl (Or.inr ⟨_, hrule, Or.inl ⟨hnone, rfl⟩⟩)
      | rule hrule hsome hflaw => exact Or.inl (Or.inr ⟨_, hrule, Or.inr ⟨hsome, hflaw⟩⟩)
      | repeatedEvent hagain => exact Or.inr (Or.inr ⟨_, hagain, rfl⟩)
      | missing hmentions hmissing => exact Or.inr (Or.inl ⟨_, _, hmentions, hmissing, rfl⟩)
    · exact Or.inl (Or.inl (Or.inr (Or.inr hinside)))

end Host

namespace Definition.State

variable {host : Host D} {id path : String} {s t u : State D} {p : Problem}

/-- The search for problems in the state `s` at `id` comes to a state at a path: to `s`, and from
a state that it comes to, to each state in it that is the first of its name, which is proper. -/
inductive Searched (s : State D) (id : String) : String → State D → Prop
  | self : Searched s id id s
  | inside {path name : String} {t u : State D} (h : Searched s id path t)
    (first : t.states.lookup name = some u) (proper : ProperName name) :
    Searched s id (Path.join path name) u

theorem Searched.trans {path' : String} (h : s.Searched id path t) (h' : t.Searched path path' u) :
    s.Searched id path' u := by
  induction h' with
  | self => exact h
  | inside _ first proper ih => exact .inside ih first proper

theorem mem_of_lookup {name : String} (h : s.states.lookup name = some t) : (name, t) ∈ s.states := by
  obtain ⟨l₁, l₂, heq, -⟩ := List.lookup_eq_some_iff.mp h
  simp [heq]

theorem Searched.within (h : s.Searched id path t) : t.Within s := by
  induction h with
  | self => exact .self s
  | inside _ first _ ih => exact ((Within.self _).inside (mem_of_lookup first)).trans ih

end Definition.State

namespace Host

/-- The problems of a state are what is reported of the states that are looked into. -/
theorem mem_stateProblems_iff (host : Host D) {s : Definition.State D} {p : Problem} :
    ∀ {path : String}, p ∈ host.stateProblems path s ↔
      ∃ path' t, s.Searched path path' t ∧ t.Reports host path' p := by
  intro path
  constructor
  · induction s using Definition.State.induction generalizing path with
    | mk body states ih =>
      intro hp
      rcases (host.mem_stateProblems_cases path).mp hp with hreports | ⟨name, t, hfirst, hproper, hp⟩
      · exact ⟨path, _, .self, hreports⟩
      · obtain ⟨path', u, hsearched, hreports⟩ := ih _ (Definition.State.mem_of_lookup hfirst) hp
        exact ⟨path', u, (Definition.State.Searched.self.inside hfirst hproper).trans hsearched,
          hreports⟩
  · rintro ⟨path', t, hsearched, hreports⟩
    have hup : p ∈ host.stateProblems path' t → p ∈ host.stateProblems path s := by
      clear hreports
      induction hsearched with
      | self => exact id
      | inside _ first proper ih =>
        exact fun hp => ih ((host.mem_stateProblems_cases _).mpr (Or.inr ⟨_, _, first, proper, hp⟩))
    exact hup ((host.mem_stateProblems_cases path').mpr (Or.inl hreports))

end Host
/-! ### Sound designs -/

namespace Definition.State

variable {host : Host D} {s : State D} {path : String}

/-- Of a sound state there is nothing to report. -/
theorem Sound.not_reports (h : s.Sound host) {p : Problem} : ¬ s.Reports host path p := by
  rintro (⟨hmem, himproper⟩ | ⟨hagain, -⟩ | ⟨hrule, hnone⟩ | ⟨hrule, -, hflaw⟩ | hagain |
    ⟨hmentions, hmissing⟩)
  · exact himproper (h.proper _ hmem)
  · exact List.nodup_iff_forall_not_duplicate.mp h.distinct _ hagain
  · obtain ⟨⟨name, t⟩, hmem⟩ := List.exists_mem_of_ne_nil _ (h.start _ hrule)
    have hname : name ∈ s.names := List.mem_map_of_mem hmem
    have hchild := Host.mem_childNames_iff.mpr ⟨hname, h.proper name hname⟩
    rw [hnone] at hchild
    exact List.not_mem_nil hchild
  · cases hflaw with
    | missing hmentions hmissing => exact hmissing (h.decisions _ hrule _ _ hmentions)
    | @unknown name hnames hunknown =>
      have hname : name ∈ s.names := h.children _ hrule name hnames
      exact hunknown (Host.mem_childNames_iff.mpr ⟨hname, h.proper name hname⟩)
  · exact List.nodup_iff_forall_not_duplicate.mp h.events _ hagain
  · exact hmissing (h.functions _ _ hmentions)

/-- A state of which there is nothing to report is sound. -/
theorem sound_of_not_reports (path : String) (h : ∀ p, ¬ s.Reports host path p) : s.Sound host := by
  have hproper : ∀ name ∈ s.names, ProperName name := fun name hmem => by
    by_contra himproper
    exact h _ (.invalidName hmem himproper)
  -- the search looks into an initial rule: otherwise it tells that there is none to start in
  have hchildren : ∀ rule, s.body.initial = some rule → Host.childNames s.states ≠ [] :=
    fun rule hrule hnone => h _ (.withoutStates hrule hnone)
  have hflaw : ∀ rule, s.body.initial = some rule → ∀ p,
      ¬ rule.Flaw host path (Host.childNames s.states) p :=
    fun rule hrule p hflaw => h p (.rule hrule (hchildren rule hrule) hflaw)
  constructor
  case proper => exact hproper
  case distinct =>
    refine List.nodup_iff_forall_not_duplicate.mpr fun name hagain => ?_
    exact h _ (.repeatedName hagain (hproper name hagain.mem))
  case start =>
    intro rule hrule hnone
    exact hchildren rule hrule (by rw [hnone]; rfl)
  case children =>
    intro rule hrule name hnames
    by_contra hunknown
    exact hflaw rule hrule _ (.unknown hnames fun hmem => hunknown (Host.mem_childNames_iff.mp hmem).1)
  case decisions =>
    intro rule hrule k name hmentions
    by_contra hmissing
    exact hflaw rule hrule _ (.missing hmentions hmissing)
  case events =>
    exact List.nodup_iff_forall_not_duplicate.mpr fun event hagain => h _ (.repeatedEvent hagain)
  case functions =>
    intro k name hmentions
    by_contra hmissing
    exact h _ (.missing hmentions hmissing)

end Definition.State

namespace Design

variable {d : Design D} {id : String} {ps : List Problem} {p : Problem}

theorem mem_problems_iff : p ∈ d.problems id ↔
    ∃ path s, d.root.Searched id path s ∧ s.Reports d.host path p :=
  d.host.mem_stateProblems_iff

/-- A design compiles exactly if each of its states, at every depth, is sound. -/
theorem compiles_iff_sound (d : Design D) (id : String) :
    (∃ c, d.compile id = .ok c) ↔ ∀ s : Definition.State D, s.Within d.root → s.Sound d.host := by
  simp only [compile_eq_ok_iff, exists_and_left, exists_eq, and_true]
  constructor
  · intro hnone s hwithin
    obtain ⟨path, hstate⟩ := d.host.stateProblems_of_within hwithin hnone
    refine Definition.State.sound_of_not_reports path fun p hreports => ?_
    have hp := (d.host.mem_stateProblems_cases path).mpr (Or.inl hreports)
    rw [hstate] at hp
    exact List.not_mem_nil hp
  · intro hsound
    refine List.eq_nil_iff_forall_not_mem.mpr fun p hp => ?_
    obtain ⟨path, s, hsearched, hreports⟩ := mem_problems_iff.mp hp
    exact (hsound s hsearched.within).not_reports hreports

end Design

/-! ### Defects that are reported -/

namespace Definition.State

variable {host : Host D} {s : State D} {id path : String} {p : Problem}

/-- A state at a path in the state `s` at `id`, at any depth. -/
inductive At (s : State D) (id : String) : String → State D → Prop
  | self : At s id id s
  | inside {path name : String} {t u : State D} (h : At s id path t) (mem : (name, u) ∈ t.states) :
    At s id (Path.join path name) u

/-- Something wrong in the state at a path, apart from the states in it, and how it is to be
reported. -/
inductive Defect (host : Host D) (path : String) (s : State D) : Problem → Prop
  | invalidName {name : String} (mem : name ∈ s.names) (improper : ¬ ProperName name) :
    Defect host path s (.invalidStateName path name)
  | repeatedName {name : String} (again : s.names.Duplicate name) :
    Defect host path s (.duplicateState path name)
  | withoutStates {rule : Initial D} (initial : s.body.initial = some rule)
    (childless : s.states = []) : Defect host path s (.initialWithoutStates path)
  | rule {rule : Initial D} {p : Problem} (initial : s.body.initial = some rule)
    (flaw : rule.Flaw host path s.names p) : Defect host path s p
  | repeatedEvent {event : String} (again : (s.body.on.map (·.1)).Duplicate event) :
    Defect host path s (.duplicateEvent path event)
  | missing {k : Kind} {name : String} (mentions : s.body.Mentions k name)
    (missing : ¬ host.Offers k name) : Defect host path s (.missingEntry path k name)

/-- What the search does not see of a state that it looks into: that a name which is not proper
comes up again, and what is wrong in an initial rule if no child has a proper name. -/
inductive PassesOver (host : Host D) (path : String) (s : State D) : Problem → Prop
  | repeatedName {name : String} (again : s.names.Duplicate name) (improper : ¬ ProperName name) :
    PassesOver host path s (.duplicateState path name)
  | rule {rule : Initial D} {p : Problem} (initial : s.body.initial = some rule)
    (children : Host.childNames s.states = []) (flaw : rule.Flaw host path s.names p) :
    PassesOver host path s p

end Definition.State

/-- With fewer children there is more wrong in a rule. -/
theorem Definition.Initial.Flaw.mono {host : Host D} {path : String} {r : Definition.Initial D}
    {children children' : List String} {p : Problem} (h : r.Flaw host path children p)
    (hsub : children' ⊆ children) : r.Flaw host path children' p := by
  cases h with
  | missing hmentions hmissing => exact .missing hmentions hmissing
  | unknown hnames hunknown => exact .unknown hnames fun hmem => hunknown (hsub hmem)

/-- A defect is reported or passed over. -/
theorem Definition.State.Defect.reports_or {host : Host D} {s : Definition.State D} {path : String}
    {p : Problem} (h : s.Defect host path p) : s.Reports host path p ∨ s.PassesOver host path p := by
  cases h with
  | invalidName hmem himproper => exact Or.inl (.invalidName hmem himproper)
  | @repeatedName name hagain =>
    by_cases hproper : ProperName name
    · exact Or.inl (.repeatedName hagain hproper)
    · exact Or.inr (.repeatedName hagain hproper)
  | withoutStates hrule hnone => exact Or.inl (.withoutStates hrule (by rw [hnone]; rfl))
  | rule hrule hflaw =>
    by_cases hchildren : Host.childNames s.states = []
    · exact Or.inr (.rule hrule hchildren hflaw)
    · exact Or.inl (.rule hrule hchildren (hflaw.mono fun _ h => (Host.mem_childNames_iff.mp h).1))
  | repeatedEvent hagain => exact Or.inl (.repeatedEvent hagain)
  | missing hmentions hmissing => exact Or.inl (.missing hmentions hmissing)

namespace Design

variable {d : Design D} {id : String} {ps : List Problem} {p : Problem}

/-- A compilation that fails reports exactly what there is to report of the states that it looks
into, so every defect of these but what it passes over. -/
theorem reports_defects (h : d.compile id = .error ps) :
    (∀ p, p ∈ ps ↔ ∃ path s, d.root.Searched id path s ∧ s.Reports d.host path p) ∧
      ∀ path s, d.root.Searched id path s → ∀ p, s.Defect d.host path p →
        p ∈ ps ∨ s.PassesOver d.host path p := by
  obtain ⟨-, rfl⟩ := compile_eq_error_iff.mp h
  refine ⟨fun p => mem_problems_iff, fun path s hsearched p hdefect => ?_⟩
  rcases hdefect.reports_or with hreports | hover
  · exact Or.inl (mem_problems_iff.mpr ⟨path, s, hsearched, hreports⟩)
  · exact Or.inr hover

/-- A machine with two states `a`: the first starts in a state that it does not have, if it is
`ready`, and the second handles `GO` by `run`. Its host offers nothing. -/
def twins : Design Unit where
  id := none
  data := ()
  root := .mk {} [
    ("a", .mk { initial := some (.decision [] { all := [.named "ready"] } (some "b") none none) } []),
    ("a", .mk { on := [("GO", .one (.action (.named "run")))] } [])]
  host := .empty

theorem compile_twins : twins.compile "m" =
    .error [.initialWithoutStates "m.a", .duplicateState "m" "a"] :=
  compile_eq_error_iff.mpr ⟨by decide, by decide⟩

theorem reports_defects_twins :
    let ps : List Problem := [.initialWithoutStates "m.a", .duplicateState "m" "a"]
    twins.compile "m" = .error ps ∧
      (∀ p, p ∈ ps ↔ ∃ path s, twins.root.Searched "m" path s ∧ s.Reports twins.host path p) ∧
        ∀ path s, twins.root.Searched "m" path s → ∀ p, s.Defect twins.host path p →
          p ∈ ps ∨ s.PassesOver twins.host path p :=
  ⟨compile_twins, reports_defects compile_twins⟩

/-- It is not reported that there is no `run`, since the second `a` is not looked into, and
neither that there is no `ready` and no state `b`, since the first `a` has no states. -/
theorem not_reports_defects_twins : ∃ ps, twins.compile "m" = .error ps ∧
    ¬ ∀ path s, twins.root.At "m" path s → ∀ p, s.Defect twins.host path p → p ∈ ps := by
  refine ⟨_, compile_twins, fun h => ?_⟩
  have hstate : twins.root.At "m" (Path.join "m" "a")
      (.mk { on := [("GO", .one (.action (.named "run")))] } []) :=
    .inside .self (List.mem_cons_of_mem _ List.mem_cons_self)
  have hrun := h _ _ hstate (.missingEntry (Path.join "m" "a") .action "run")
    (.missing (.on List.mem_cons_self (.action List.mem_cons_self)) nofun)
  revert hrun
  decide

end Design
end Statechart
