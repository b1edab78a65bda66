/-
# Where the nodes of a tree come from

The tree of a compiled design has a node for each state of the design, with the states in it
as its children (`Tree.Mirrors`). So what holds of all states of a design (`State.Within`)
holds of the nodes: the path of a node is the names that lead to it, joined by dots, and its
handlers are those of its state.

The names of the states of a design have no dots, so that a path tells the names it is made
of, and these tell the node: no two nodes have the same path (`Tree.nodup_paths`).

Key definitions: `Definition.State.Within`, `Tree.Mirrors`, `Path.dotted`.
Key theorems: `Tree.Mirrors.exists_within`, `Path.dotted_injective`, `Tree.nodup_paths`,
`Tree.awaiting_of_compile`.
-/
import Statechart.Proofs.CompiledTree

namespace Statechart

variable {D : Type}

/-! ### The states of a design -/

namespace Definition.State

/-- The state is the other one, or one inside it. -/
inductive Within : State D → State D → Prop
  | self (s : State D) : Within s s
  | inside {s t u : State D} {name : String} (mem : (name, t) ∈ u.states) (h : Within s t) :
    Within s u

theorem Within.trans {s t u : State D} (h : s.Within t) (h' : t.Within u) : s.Within u := by
  induction h' with
  | self => exact h
  | inside mem _ ih => exact .inside mem ih

end Definition.State

/-- No state without problems has one inside it with problems, or with a name that is not
valid. -/
theorem Host.stateProblems_of_mem (host : Host D) {path : String} :
    ∀ {states : List (String × Definition.State D)} {seen : List String} {s : String × Definition.State D},
      host.statesProblems path seen states = [] → s ∈ states →
        validStateName s.1 = true ∧ host.stateProblems (Path.join path s.1) s.2 = []
  | (name, state) :: rest, seen, s, h, hs => by
    rw [statesProblems] at h
    split at h
    · cases h
    · rename_i hvalid
      split at h
      · cases h
      · obtain ⟨hstate, hrest⟩ := List.append_eq_nil_iff.mp h
        rcases List.mem_cons.mp hs with rfl | hs
        · exact ⟨by simpa using hvalid, hstate⟩
        · exact host.stateProblems_of_mem hrest hs

namespace Tree

/-! ### Trees of states -/

/-- The tree has a node for each state, in order: each has the handlers of its state, and its
path is that of the node above with its name. -/
inductive Mirrors (host : Host D) : String → Definition.State D → Tree → Prop
  | node {path : String} {body : Definition.State.Body D}
    {states : List (String × Definition.State D)} {n : Node} {cs : List Tree} {table : Table D}
    (place : n.path = path) (handlers : n.handlers = ((host.handlers body).run table).1)
    (length : states.length = cs.length)
    (names : ∀ s c, (s, c) ∈ states.zip cs → c.node.name = s.1)
    (inside : ∀ s c, (s, c) ∈ states.zip cs → Mirrors host (Path.join path s.1) s.2 c) :
    Mirrors host path (.mk body states) (.mk n {} cs)

namespace Mirrors

variable {host : Host D} {path : String} {def_ : Definition.State D} {t u : Tree}

theorem path_eq (h : Mirrors host path def_ t) : t.node.path = path := by
  cases h
  assumption

theorem length_states (h : Mirrors host path def_ t) : def_.states.length = t.children.length := by
  cases h
  assumption

/-- The children of a node are named after the states in its state, and mirror them. -/
theorem child (h : Mirrors host path def_ t) {s : String × Definition.State D} {c : Tree}
    (hsc : (s, c) ∈ def_.states.zip t.children) :
    c.node.name = s.1 ∧ Mirrors host (Path.join path s.1) s.2 c := by
  cases h with
  | node _ _ _ names inside => exact ⟨names s c hsc, inside s c hsc⟩

/-- Each node mirrors a state of the definition. -/
theorem exists_within (h : Mirrors host path def_ t) (hu : u ∈ t.preorder) :
    ∃ s, s.Within def_ ∧ Mirrors host u.node.path s u := by
  induction h with
  | @node path body states n cs table place handlers length names inside ih =>
    rcases mem_preorder_iff.mp hu with rfl | ⟨c, hc, hu⟩
    · exact ⟨_, .self _, place ▸ .node place handlers length names inside⟩
    · obtain ⟨s, hs⟩ := exists_mem_zip_right length hc
      obtain ⟨s', hwithin, hmirrors⟩ := ih s c hs hu
      exact ⟨s', .inside (List.of_mem_zip hs).1 hwithin, hmirrors⟩

/-- The path of a child goes on from that of the node above it. -/
theorem path_child (h : Mirrors host path def_ t) (hu : u ∈ t.preorder) {c : Tree}
    (hc : c ∈ u.children) : c.node.path = Path.join u.node.path c.node.name := by
  obtain ⟨s, -, hmirrors⟩ := h.exists_within hu
  obtain ⟨s', hs'⟩ := exists_mem_zip_right hmirrors.length_states hc
  obtain ⟨hname, hchild⟩ := hmirrors.child hs'
  rw [hname]
  exact hchild.path_eq

end Mirrors

end Tree

namespace Host

variable (host : Host D)

theorem exists_handlers_eq (name path : String) (trail : List String) (first : Nat)
    (body : Definition.State.Body D) (states : List (String × Definition.State D))
    (table : Table D) : ∃ index shape table',
      ((host.state name path trail first (.mk body states)).run table).1 =
        .mk { index, name, path, trail, shape
              handlers := ((host.handlers body).run table').1 } {}
          ((host.children path trail first states).run table).1 := ⟨_, _, _, rfl⟩

mutual

theorem state_mirrors (name path : String) (trail : List String) (first : Nat) :
    ∀ (def_ : Definition.State D) (table : Table D),
      Tree.Mirrors host path def_ ((host.state name path trail first def_).run table).1 ∧
        ((host.state name path trail first def_).run table).1.node.name = name
  | .mk body states, table => by
    obtain ⟨index, shape, table', heq⟩ :=
      host.exists_handlers_eq name path trail first body states table
    obtain ⟨hlength, hinside⟩ := children_mirror path trail first states table
    rw [heq]
    exact ⟨.node rfl rfl hlength (fun s c h => (hinside s c h).1) fun s c h => (hinside s c h).2, rfl⟩

theorem children_mirror (path : String) (trail : List String) (first : Nat) :
    ∀ (states : List (String × Definition.State D)) (table : Table D),
      let cs := ((host.children path trail first states).run table).1
      states.length = cs.length ∧ ∀ s c, (s, c) ∈ states.zip cs →
        c.node.name = s.1 ∧ Tree.Mirrors host (Path.join path s.1) s.2 c
  | [], _ => ⟨rfl, fun _ _ h => nomatch h⟩
  | (name, state) :: rest, table => by
    obtain ⟨table', heq⟩ := host.exists_run_children_eq path trail first name state rest table
    obtain ⟨hstate, hname⟩ :=
      state_mirrors name (Path.join path name) (trail ++ [name]) first state table
    obtain ⟨hlength, hinside⟩ := children_mirror path trail _ rest table'
    rw [heq]
    refine ⟨congrArg Nat.succ hlength, fun s c hsc => ?_⟩
    rcases List.mem_cons.mp hsc with hsc | hsc
    · cases hsc
      exact ⟨hname, hstate⟩
    · exact hinside s c hsc

end

/-- A state within one that has no problems has none. -/
theorem stateProblems_of_within {s def_ : Definition.State D} (h : s.Within def_) :
    ∀ {path : String}, host.stateProblems path def_ = [] →
      ∃ path', host.stateProblems path' s = [] := by
  induction h with
  | self => exact fun h => ⟨_, h⟩
  | @inside t u name mem _ ih =>
    intro path h
    obtain ⟨body, states⟩ := u
    rw [stateProblems] at h
    simp only [List.append_eq_nil_iff] at h
    exact ih (host.stateProblems_of_mem h.1.1 mem).2

end Host

/-! ### Paths -/

namespace Path

/-- Names, each behind a dot. -/
def dotted (names : List String) : List Char := names.flatMap fun name => '.' :: name.toList

theorem toList_join (parent name : String) (names : List String) :
    (join parent name).toList ++ dotted names = parent.toList ++ dotted (name :: names) := by
  simp [join, dotted]

theorem takeWhile_dotted (names : List String) : (dotted names).takeWhile (· ≠ '.') = [] := by
  cases names with
  | nil => rfl
  | cons name names => simp [dotted]

/-- Names without dots are told from where they are joined. -/
theorem dotted_injective : ∀ {names names' : List String}, (∀ n ∈ names, '.' ∉ n.toList) →
    (∀ n ∈ names', '.' ∉ n.toList) → dotted names = dotted names' → names = names'
  | [], [], _, _, _ => rfl
  | [], _ :: _, _, _, h => nomatch h
  | _ :: _, [], _, _, h => nomatch h
  | n :: names, n' :: names', hn, hn', h => by
    have first : ∀ {n : String} (names : List String), '.' ∉ n.toList →
        (n.toList ++ dotted names).takeWhile (· ≠ '.') = n.toList := by
      intro n names hdot
      rw [List.takeWhile_append_of_pos, takeWhile_dotted, List.append_nil]
      rintro c hc
      simpa using fun heq : c = '.' => hdot (heq ▸ hc)
    obtain ⟨hdot, hnames⟩ := List.forall_mem_cons.mp hn
    obtain ⟨hdot', hnames'⟩ := List.forall_mem_cons.mp hn'
    have hchars : n.toList ++ dotted names = n'.toList ++ dotted names' := List.cons.inj h |>.2
    have hname : n.toList = n'.toList := by
      rw [← first names hdot, hchars, first names' hdot']
    rw [hname] at hchars
    rw [String.toList_inj.mp hname,
      dotted_injective hnames hnames' (List.append_cancel_left hchars)]

end Path

namespace Tree

/-- No name in the tree below its root has a dot, and the path of each node goes on from that
of the node above it. -/
structure Pathed (t : Tree) : Prop where
  names : ∀ u ∈ t.preorder, ∀ c ∈ u.children, '.' ∉ c.node.name.toList
  paths : ∀ u ∈ t.preorder, ∀ c ∈ u.children, c.node.path = Path.join u.node.path c.node.name

theorem Pathed.of_child {t c : Tree} (h : t.Pathed) (hc : c ∈ t.children) : c.Pathed where
  names u hu := h.names u (mem_preorder_of_child hc hu)
  paths u hu := h.paths u (mem_preorder_of_child hc hu)

theorem Pathed.of_mapActivity {f : Activity → Activity} {t : Tree}
    (h : (t.mapActivity f).Pathed) : t.Pathed := by
  have hmem : ∀ {u : Tree}, u ∈ t.preorder → u.mapActivity f ∈ (t.mapActivity f).preorder :=
    fun hu => mem_preorder_mapActivity.mpr ⟨_, hu, rfl⟩
  have hchild : ∀ {u c : Tree}, c ∈ u.children → c.mapActivity f ∈ (u.mapActivity f).children :=
    fun hc => by
      rw [children_mapActivity]
      exact List.mem_map_of_mem hc
  refine ⟨fun u hu c hc => ?_, fun u hu c hc => ?_⟩
  · simpa using h.names _ (hmem hu) _ (hchild hc)
  · simpa using h.paths _ (hmem hu) _ (hchild hc)

/-- The path of a node is that of the root with the names on the way behind it. -/
theorem Pathed.path_eq {t : Tree} : ∀ {u : Tree}, t.Pathed → t.WellFormed → u ∈ t.preorder →
    ∃ names, u.node.trail = t.node.trail ++ names ∧ (∀ n ∈ names, '.' ∉ n.toList) ∧
      u.node.path.toList = t.node.path.toList ++ Path.dotted names := by
  induction t using Tree.induction with
  | mk n a cs ih =>
    intro u h hwf hu
    rcases mem_preorder_iff.mp hu with rfl | ⟨c, hc, hu⟩
    · exact ⟨[], (List.append_nil _).symm, nofun, (List.append_nil _).symm⟩
    · obtain ⟨names, htrail, hdots, hpath⟩ := ih c hc (h.of_child hc) (hwf.of_child hc) hu
      refine ⟨c.node.name :: names, ?_, List.forall_mem_cons.mpr ⟨?_, hdots⟩, ?_⟩
      · rw [htrail, hwf.trails _ (self_mem_preorder _) c hc, List.append_assoc]
        rfl
      · exact h.names _ (self_mem_preorder _) c hc
      · rw [hpath, h.paths _ (self_mem_preorder _) c hc, Path.toList_join]

/-- A node is the one with its trail. -/
theorem WellFormed.eq_of_trail_eq {t : Tree} : ∀ {u v : Tree}, t.WellFormed → u ∈ t.preorder →
    v ∈ t.preorder → u.node.trail = v.node.trail → u = v := by
  induction t using Tree.induction with
  | mk n a cs ih =>
    intro u v h hu hv htrail
    obtain ⟨names, hnames⟩ := exists_trail_eq h hu
    have hv' := h.trail_cases hv (htrail ▸ hnames)
    rcases h.trail_cases hu hnames with ⟨rfl, rfl⟩ | ⟨c, hc, rest, rfl, huc, -⟩
    · rcases hv' with ⟨-, rfl⟩ | ⟨_, _, _, hnil, _⟩
      · rfl
      · cases hnil
    · rcases hv' with ⟨hnil, -⟩ | ⟨d, hd, rest', hcons, hvd, -⟩
      · cases hnil
      · injection hcons with hname _
        have hcd : c = d :=
          List.inj_on_of_nodup_map (h.names _ (self_mem_preorder _)) hc hd hname
        exact ih c hc (h.of_child hc) huc (hcd ▸ hvd) htrail

/-- No two nodes have the same path. -/
theorem Pathed.nodup_paths {t : Tree} (h : t.Pathed) (hwf : t.WellFormed) :
    (t.preorder.map (·.node.path)).Nodup := by
  have hnodes : t.preorder.Nodup := List.Nodup.of_map _ hwf.places
  refine hnodes.map_on fun u hu v hv hpath => ?_
  obtain ⟨names, htrail, hdots, hu'⟩ := h.path_eq hwf hu
  obtain ⟨names', htrail', hdots', hv'⟩ := h.path_eq hwf hv
  have hpath : u.node.path = v.node.path := hpath
  have hnames : names = names' := by
    rw [hpath, hv'] at hu'
    exact Path.dotted_injective hdots hdots' (List.append_cancel_left hu').symm
  exact hwf.eq_of_trail_eq hu hv (by rw [htrail, htrail', hnames])

/-! ### Compiled trees -/

variable {d : Design D} {id : String} {c : Compiled D}

theorem mirrors_of_compile (hc : d.compile id = .ok c) : Mirrors d.host id d.root c.tree := by
  obtain ⟨-, rfl⟩ := Design.compile_eq_ok_iff.mp hc
  exact (d.host.state_mirrors id id [] 0 d.root {}).1

/-- The names of the children in a compiled tree are valid. -/
theorem validStateName_of_child (hc : d.compile id = .ok c) {u : Tree}
    (hu : u ∈ c.tree.preorder) {ch : Tree}
    (hch : ch ∈ u.children) : validStateName ch.node.name = true := by
  have hmirrors := mirrors_of_compile hc
  have hproblems : d.host.stateProblems id d.root = [] := (Design.compile_eq_ok_iff.mp hc).1
  obtain ⟨⟨body, states⟩, hwithin, hstate⟩ := hmirrors.exists_within hu
  obtain ⟨path, hnone⟩ := d.host.stateProblems_of_within hwithin hproblems
  rw [Host.stateProblems] at hnone
  simp only [List.append_eq_nil_iff] at hnone
  obtain ⟨s, hs⟩ := exists_mem_zip_right hstate.length_states hch
  rw [(hstate.child hs).1]
  exact (d.host.stateProblems_of_mem hnone.1.1 (List.of_mem_zip hs).1).1

theorem pathed_of_compile (hc : d.compile id = .ok c) : c.tree.Pathed := by
  refine ⟨fun u hu ch hch => ?_, fun u hu ch hch => (mirrors_of_compile hc).path_child hu hch⟩
  have hvalid := validStateName_of_child hc hu hch
  simp only [validStateName, Bool.and_eq_true, Bool.not_eq_true'] at hvalid
  simpa using hvalid.1.1.2

/-- The nodes of a design none of whose states has an operation launch none. -/
theorem awaiting_of_compile (hc : d.compile id = .ok c)
    (h : ∀ s : Definition.State D, s.Within d.root → s.body.awaiting = none) :
    ∀ u ∈ c.tree.preorder, u.node.handlers.awaiting = none := by
  intro u hu
  obtain ⟨s, hwithin, hstate⟩ := (mirrors_of_compile hc).exists_within hu
  cases hstate with
  | @node _ body states n cs table _ handlers _ _ _ =>
    have hbody : body.awaiting = none := h _ hwithin
    rw [node_mk, handlers, Host.handlers, hbody]
    rfl

end Tree
end Statechart
