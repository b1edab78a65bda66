/-
# The arrangement of a compiled tree

A compiled tree is arranged as its definition is. The nodes take their places from the leaves up,
each behind all below it, so that the root has the last place and each place is taken once. The
trail of a node is the way to it from the root: by it are told how deep the node is, its path, and
the state that it was made from. A node has the children that its state declares, in that order,
and starts by the rule of its state. The names that a rule can give are names of children, so the
first child is entered in place of another only if a rule gives none.

Key definitions: `Tree.follow`, `Tree.level`, `Definition.State.follow`, `Compiled.Arranged`.
Key theorems: `Host.state_postorder`, `Tree.mem_level_iff`, `Table.follow_readState`,
`Design.arranged_of_compile`.
-/
import Statechart.Proofs.Addresses
import Statechart.Proofs.Decisions
import Statechart.Proofs.Dispatch
import Statechart.Proofs.Validity

namespace Statechart

variable {D : Type}

/-! ### The way to a node -/

namespace Tree

/-- The node that names lead to, each to the child of the name. -/
def follow : List String → Tree → Option Tree
  | [], t => some t
  | name :: names, t => (t.child? name).bind (follow names)

/-- The nodes that many steps below, each step one to a child. -/
def level : Nat → Tree → List Tree
  | 0, t => [t]
  | k + 1, t => t.children.flatMap (level k)

theorem child?_eq_some {t c : Tree} (h : t.WellFormed) (hc : c ∈ t.children) :
    t.child? c.node.name = some c := by
  unfold child?
  cases hfind : t.children.find? (·.node.name == c.node.name) with
  | none => simpa using List.find?_eq_none.mp hfind c hc
  | some b =>
    have hb := List.mem_of_find?_eq_some hfind
    have hname : b.node.name = c.node.name := by simpa using List.find?_some hfind
    rw [List.inj_on_of_nodup_map (h.names t t.self_mem_preorder) hb hc hname]

/-- There is a first child with the name of a child. -/
theorem exists_named_eq {cs : List Tree} {name : String} (h : name ∈ cs.map (·.node.name)) :
    ∃ i c, named cs name = some i ∧ cs[i]? = some c ∧ c.node.name = name := by
  cases hnamed : named cs name with
  | none =>
    obtain ⟨c, hc, rfl⟩ := List.mem_map.mp h
    simpa using List.findIdx?_eq_none_iff.mp hnamed c hc
  | some i =>
    obtain ⟨hi, hname, -⟩ := List.findIdx?_eq_some_iff_getElem.mp hnamed
    exact ⟨i, cs[i], rfl, List.getElem?_eq_getElem hi, by simpa using hname⟩

/-- The rest of its trail leads to a node. -/
theorem follow_trail : ∀ {names : List String} {t u : Tree}, t.WellFormed → u ∈ t.preorder →
    u.node.trail = t.node.trail ++ names → t.follow names = some u
  | names, t, u, h, hu, htrail => by
    rcases h.trail_cases hu htrail with ⟨rfl, rfl⟩ | ⟨c, hc, rest, rfl, huc, hrest⟩
    · rfl
    · rw [follow, child?_eq_some h hc, Option.bind_some]
      exact follow_trail (h.of_child hc) huc hrest

theorem mem_level_of_trail : ∀ {names : List String} {t u : Tree}, t.WellFormed → u ∈ t.preorder →
    u.node.trail = t.node.trail ++ names → u ∈ t.level names.length
  | names, t, u, h, hu, htrail => by
    rcases h.trail_cases hu htrail with ⟨rfl, rfl⟩ | ⟨c, hc, rest, rfl, huc, hrest⟩
    · simp [level]
    · have hbelow := mem_level_of_trail (h.of_child hc) huc hrest
      exact List.mem_flatMap.mpr ⟨c, hc, hbelow⟩

theorem depth_of_mem_level {k : Nat} : ∀ {t u : Tree}, t.WellFormed → u ∈ t.level k →
    u ∈ t.preorder ∧ u.node.depth = t.node.depth + k := by
  induction k with
  | zero =>
    intro t u h hu
    obtain rfl : u = t := by simpa [level] using hu
    exact ⟨u.self_mem_preorder, rfl⟩
  | succ k ih =>
    intro t u h hu
    obtain ⟨c, hc, huc⟩ := List.mem_flatMap.mp hu
    obtain ⟨hmem, hdepth⟩ := ih (h.of_child hc) huc
    have hchild : c.node.depth = t.node.depth + 1 := by
      simp [Node.depth, h.trails t t.self_mem_preorder c hc]
    exact ⟨mem_preorder_of_child hc hmem, by omega⟩

/-- A node is as many steps below another as its trail is longer. -/
theorem mem_level_iff {k : Nat} {t u : Tree} (h : t.WellFormed) :
    u ∈ t.level k ↔ u ∈ t.preorder ∧ u.node.depth = t.node.depth + k := by
  refine ⟨depth_of_mem_level h, fun hbelow => ?_⟩
  obtain ⟨hu, hdepth⟩ := hbelow
  obtain ⟨names, htrail⟩ := h.exists_trail_eq hu
  have hlength : names.length = k := by
    simp only [Node.depth, htrail, List.length_append] at hdepth
    omega
  exact hlength ▸ mem_level_of_trail h hu htrail

/-! ### The order of places -/

theorem size_mk (n : Node) (a : Activity) (cs : List Tree) :
    (mk n a cs).size = (cs.flatMap preorder).length + 1 := by
  rw [size, preorder_mk, List.length_cons]

theorem postorder_sublist {t u : Tree} (hu : u ∈ t.preorder) :
    u.postorder.Sublist t.postorder := by
  induction t using Tree.induction with
  | mk n a cs ih =>
    rcases mem_preorder_iff.mp hu with rfl | ⟨c, hc, hu⟩
    · exact List.Sublist.refl _
    · have hsub : c.postorder.Sublist (cs.flatMap postorder) := by
        rw [List.flatMap_def]
        exact List.sublist_flatten_of_mem (List.mem_map_of_mem hc)
      rw [postorder_mk]
      exact (ih c hc hu).trans (hsub.trans (List.sublist_append_left _ _))

/-- Where places go up from the leaves, a child has a lower one than its parent. -/
theorem index_lt_of_child {t u c : Tree} (h : (t.postorder.map (·.node.index)).Pairwise (· < ·))
    (hu : u ∈ t.preorder) (hc : c ∈ u.children) : c.node.index < u.node.index := by
  have hsorted := (List.pairwise_map.mp h).sublist (postorder_sublist hu)
  obtain ⟨n, a, cs⟩ := u
  rw [postorder_mk, List.pairwise_append] at hsorted
  obtain ⟨-, -, hbelow⟩ := hsorted
  have hmem : c ∈ cs.flatMap postorder :=
    List.mem_flatMap.mpr ⟨c, hc, c.postorder_perm.mem_iff.mpr c.self_mem_preorder⟩
  exact hbelow c hmem _ (List.mem_singleton.mpr rfl)

end Tree

namespace Host

variable (host : Host D)

/-- A state has the place behind those in it. -/
theorem index_state (name path : String) (trail : List String) (first : Nat)
    (s : Definition.State D) (t : Table D) :
    ((host.state name path trail first s).run t).1.node.index + 1 =
      first + ((host.state name path trail first s).run t).1.size := by
  obtain ⟨body, states⟩ := s
  rw [state_run, Tree.size_mk, Tree.node_mk]
  exact Nat.add_assoc _ _ _

mutual

/-- The nodes of a state take the places from the first one on, from the leaves up. -/
theorem state_postorder (name path : String) (trail : List String) (first : Nat) :
    ∀ (s : Definition.State D) (t : Table D),
      ((host.state name path trail first s).run t).1.postorder.map (·.node.index) =
        List.range' first ((host.state name path trail first s).run t).1.size
  | .mk body states, t => by
    have hinside := children_postorder path trail first states t
    rw [state_run, Tree.postorder_mk, Tree.size_mk, List.map_append, hinside, List.range'_1_concat]
    rfl

theorem children_postorder (path : String) (trail : List String) (first : Nat) :
    ∀ (states : List (String × Definition.State D)) (t : Table D),
      (((host.children path trail first states).run t).1.flatMap Tree.postorder).map
          (·.node.index) =
        List.range' first
          (((host.children path trail first states).run t).1.flatMap Tree.preorder).length
  | [], _ => rfl
  | (name, s) :: rest, t => by
    obtain ⟨table', heq⟩ := host.exists_run_children_eq path trail first name s rest t
    have hfirst := state_postorder name (Path.join path name) (trail ++ [name]) first s t
    have hrest := children_postorder path trail (first + (host.state name (Path.join path name)
      (trail ++ [name]) first s |>.run t).1.size) rest table'
    rw [heq, List.flatMap_cons, List.map_append, hfirst, hrest, List.flatMap_cons,
      List.length_append]
    exact List.range'_append_1

end

theorem shape_ne_parallel {b : Definition.State.Body D} {t : Table D} :
    ((host.shape b []).run t).1 ≠ .parallel := by
  unfold shape
  cases b.initial <;> exact fun h => nomatch h

mutual

/-- A node all of whose children are entered has some. -/
theorem ne_nil_of_parallel (name path : String) (trail : List String) (first : Nat) :
    ∀ (s : Definition.State D) (t : Table D),
      ∀ u ∈ ((host.state name path trail first s).run t).1.preorder,
        u.node.shape = .parallel → u.children ≠ []
  | .mk body states, t, u, hu, hshape => by
    rw [state_run] at hu
    rcases Tree.mem_preorder_iff.mp hu with rfl | ⟨c, hc, hu⟩
    · intro hnil
      rw [Tree.children_mk] at hnil
      rw [Tree.node_mk, hnil] at hshape
      exact host.shape_ne_parallel hshape
    · exact children_ne_nil_of_parallel path trail first states t c hc u hu hshape

theorem children_ne_nil_of_parallel (path : String) (trail : List String) (first : Nat) :
    ∀ (states : List (String × Definition.State D)) (t : Table D),
      ∀ c ∈ ((host.children path trail first states).run t).1, ∀ u ∈ c.preorder,
        u.node.shape = .parallel → u.children ≠ []
  | [], _, c, hc, _, _, _ => nomatch hc
  | (name, s) :: rest, t, c, hc, u, hu, hshape => by
    obtain ⟨table', heq⟩ := host.exists_run_children_eq path trail first name s rest t
    rw [heq] at hc
    rcases List.mem_cons.mp hc with rfl | hc
    · exact ne_nil_of_parallel name _ _ first s t u hu hshape
    · exact children_ne_nil_of_parallel path trail _ rest table' c hc u hu hshape

end

end Host

/-! ### The states along the way -/

namespace Definition.State

/-- The state that names lead to, each to the state of the name. -/
def follow : List String → State D → Option (State D)
  | [], s => some s
  | name :: names, s => (s.states.lookup name).bind (follow names)

theorem within_of_follow : ∀ {names : List String} {s t : State D}, s.follow names = some t →
    t.Within s
  | [], s, t, h => by
    obtain rfl : s = t := Option.some.inj h
    exact .self s
  | name :: names, s, t, h => by
    obtain ⟨u, hu, ht⟩ := Option.bind_eq_some_iff.mp h
    exact .inside (mem_of_lookup hu) (within_of_follow ht)

theorem lookup_map {α β : Type} (f : α → β) (name : String) : ∀ l : List (String × α),
    (l.map fun e => (e.1, f e.2)).lookup name = (l.lookup name).map f
  | [] => rfl
  | e :: l => by
    rw [List.map_cons, List.lookup_cons, List.lookup_cons, lookup_map f name l]
    cases name == e.1 <;> rfl

theorem follow_long : ∀ (names : List String) (s : State D),
    s.long.follow names = (s.follow names).map long
  | [], _ => rfl
  | name :: names, .mk body states => by
    have hlookup : (longStates states).lookup name = (states.lookup name).map long := by
      rw [longStates_eq, lookup_map]
    rw [long, follow, State.states, hlookup, follow, State.states]
    cases states.lookup name with
    | none => rfl
    | some s => exact follow_long names s

end Definition.State

namespace Table

theorem lookup_readStates (t : Table D) (name : String) : ∀ cs : List Tree,
    (t.readStates cs).lookup name = (cs.find? (·.node.name == name)).map t.readState
  | [] => rfl
  | c :: cs => by
    rw [readStates, List.lookup_cons, List.find?_cons, lookup_readStates t name cs, BEq.comm]
    cases c.node.name == name <;> rfl

/-- Names lead to a state of what is read just where they lead to a node that it is read from. -/
theorem follow_readState (t : Table D) : ∀ (names : List String) (u : Tree),
    (t.readState u).follow names = (u.follow names).map t.readState
  | [], _ => rfl
  | name :: names, .mk n a cs => by
    rw [readState, Definition.State.follow, Definition.State.states, lookup_readStates, Tree.follow,
      Tree.child?, Tree.children_mk]
    cases cs.find? (·.node.name == name) with
    | none => rfl
    | some c => exact follow_readState t names c

end Table

/-! ### The names of rules -/

namespace Context

variable (ctx : Context D)

/-- What a rule gives is one of its names. -/
theorem names_of_decide {data : D} (rule : InitialRule) : ∀ {result : Json} {name : String},
    ctx.decide data rule result = .ok (some name) → (ctx.table.readRule rule).Names name := by
  induction rule using InitialRule.induction with
  | child child =>
    intro result name h
    obtain rfl : child = name := by simpa [decide] using h
    exact .child child
  | decision get guards child thenDo otherwise ihThen ihElse =>
    intro result name h
    rw [Table.readRule_decision]
    unfold decide at h
    split at h
    · cases h
    · split at h
      · split at h
        · obtain rfl : _ = name := by simpa using h
          exact .decision
        · exact .thenDo (ihThen _ rfl h)
        · cases h
      · split at h
        · exact .otherwise (ihElse _ rfl h)
        · cases h

end Context

/-! ### Compiled trees -/

/-- A node has the children of its state, and starts by its rule. -/
structure Compiled.Fits (c : Compiled D) (s : Definition.State D) (u : Tree) : Prop where
  children : u.children.map (·.node.name) = s.names
  leaf : u.node.shape = .leaf ↔ u.children = []
  branch : (∃ rule, u.node.shape = .branch rule) ↔ ∃ rule, s.body.initial = some rule
  parallel : u.node.shape = .parallel ↔ u.children ≠ [] ∧ s.body.initial = none
  /-- Where the rule gives a name, the child of the name is entered. -/
  given : ∀ rule, u.node.shape = .branch rule → ∀ data payload name,
    (⟨c.table, payload⟩ : Context D).initialChild data rule = .ok (some name) →
      ∃ i ch, Tree.named u.children name = some i ∧ u.children[i]? = some ch ∧ ch.node.name = name ∧
        Tree.initialIndex (Context.initialChild ⟨c.table, payload⟩ data) rule u.children = .ok i

/-- The nodes of a compiled design are arranged as the states of its definition. -/
structure Compiled.Arranged (c : Compiled D) (d : Design D) : Prop where
  /-- From the leaves up, the nodes have the places in order. -/
  places : c.tree.postorder.map (·.node.index) = List.range c.tree.size
  /-- In pre-order each place comes once. -/
  visits : (c.tree.preorder.map (·.node.index)).Perm (List.range c.tree.size)
  root : c.tree.node.index + 1 = c.tree.size
  below : ∀ u ∈ c.tree.preorder, ∀ ch ∈ u.children, ch.node.index < u.node.index
  path : ∀ u ∈ c.tree.preorder, u.node.path = u.node.trail.foldl Path.join c.id
  depth : ∀ u ∈ c.tree.preorder, ∀ k, u ∈ c.tree.level k ↔ u.node.depth = k
  way : ∀ u ∈ c.tree.preorder, c.tree.follow u.node.trail = some u
  paths : (c.tree.preorder.map (·.node.path)).Nodup
  /-- Names lead to a node just where they lead to a state, and the node fits it. -/
  states : ∀ names, (c.tree.follow names).isSome = (d.root.follow names).isSome
  fits : ∀ u ∈ c.tree.preorder, ∃ s, d.root.follow u.node.trail = some s ∧ c.Fits s u

namespace Path

theorem toList_foldl_join (names : List String) : ∀ path : String,
    (names.foldl join path).toList = path.toList ++ dotted names := by
  induction names with
  | nil => exact fun path => (List.append_nil _).symm
  | cons name names ih =>
    intro path
    calc (names.foldl join (join path name)).toList
        = (join path name).toList ++ dotted names := ih _
      _ = path.toList ++ dotted (name :: names) := toList_join path name names

end Path

namespace Design

variable {d : Design D} {id : String} {c : Compiled D}

theorem sound_of_compile (hc : d.compile id = .ok c) {s : Definition.State D}
    (hs : s.Within d.root) : s.Sound d.host := by
  have hproblems : d.host.stateProblems id d.root = [] := (compile_eq_ok_iff.mp hc).1
  obtain ⟨path, hnone⟩ := d.host.stateProblems_of_within hs hproblems
  refine Definition.State.sound_of_not_reports path fun p hreports => ?_
  have hp := (d.host.mem_stateProblems_cases path).mpr (Or.inl hreports)
  simp [hnone] at hp

/-- Where names lead in the tree and in the definition is the same. -/
theorem follow_of_compile (hc : d.compile id = .ok c) (names : List String) :
    (c.tree.follow names).map c.table.readState =
      (d.root.follow names).map Definition.State.long := by
  calc (c.tree.follow names).map c.table.readState
      = (c.table.readState c.tree).follow names := (c.table.follow_readState names c.tree).symm
    _ = d.root.long.follow names := by rw [reads_of_compile hc]
    _ = (d.root.follow names).map Definition.State.long := Definition.State.follow_long names d.root

/-- A node that reads as a sound state fits it. -/
theorem fits_of_reads {s : Definition.State D} {u : Tree} (hwf : u.WellFormed)
    (hparallel : u.node.shape = .parallel → u.children ≠ [])
    (hreads : c.table.readState u = s.long) (hsound : s.Sound d.host) : c.Fits s u := by
  obtain ⟨n, a, cs⟩ := u
  obtain ⟨body, states⟩ := s
  rw [Table.readState, Definition.State.long] at hreads
  injection hreads with hbody hstates
  have hinitial : c.table.readShape n.shape = body.initial :=
    congrArg Definition.State.Body.initial hbody
  have hnames : cs.map (·.node.name) = states.map (·.1) := by
    have h := congrArg (List.map Prod.fst) hstates
    rw [Table.readStates_eq, Definition.longStates_eq, List.map_map, List.map_map] at h
    exact h
  have hself := (Tree.mk n a cs).self_mem_preorder
  have hleaf : n.shape = .leaf → cs = [] := hwf.leaves _ hself
  have hbranch : ∀ rule, n.shape = .branch rule → cs ≠ [] := hwf.branches _ hself
  constructor
  case children => exact hnames
  case leaf =>
    refine ⟨hleaf, fun hnil => ?_⟩
    cases hshape : n.shape with
    | leaf => exact hshape
    | branch rule => exact absurd hnil (hbranch rule hshape)
    | parallel => exact absurd hnil (hparallel hshape)
  case branch =>
    have hrule : (∃ rule, n.shape = .branch rule) ↔
        ∃ rule, c.table.readShape n.shape = some rule := by
      cases n.shape <;> simp [Table.readShape]
    rwa [hinitial] at hrule
  case parallel =>
    refine ⟨fun hshape => ⟨hparallel hshape, ?_⟩, fun h => ?_⟩
    · rw [Tree.node_mk] at hshape
      simp [Definition.State.body, ← hinitial, hshape, Table.readShape]
    · obtain ⟨hne, hnone⟩ := h
      rw [Definition.State.body, ← hinitial] at hnone
      cases hshape : n.shape with
      | leaf => exact absurd (hleaf hshape) hne
      | branch rule => simp [hshape, Table.readShape] at hnone
      | parallel => exact hshape
  case given =>
    intro rule hshape data payload name hgives
    have hrule : body.initial = some (c.table.readRule rule) := by
      rw [Tree.node_mk] at hshape
      rw [← hinitial, hshape, Table.readShape]
    have hmem : name ∈ cs.map (·.node.name) := by
      rw [hnames]
      exact hsound.children _ hrule name (Context.names_of_decide _ rule hgives)
    obtain ⟨i, ch, hnamed, hch, hname⟩ := Tree.exists_named_eq hmem
    refine ⟨i, ch, hnamed, hch, hname, ?_⟩
    simp [Tree.initialIndex, hgives, hnamed]

/-- The tree of a compiled design is arranged as its definition. -/
theorem arranged_of_compile (hc : d.compile id = .ok c) : c.Arranged d := by
  obtain ⟨hwf, -, htrail, -⟩ := tree_of_compile hc
  have hplaces : c.tree.postorder.map (·.node.index) = List.range c.tree.size := by
    obtain ⟨-, rfl⟩ := compile_eq_ok_iff.mp hc
    exact (d.host.state_postorder id id [] 0 d.root {}).trans List.range_eq_range'.symm
  have hsorted : (c.tree.postorder.map (·.node.index)).Pairwise (· < ·) := by
    rw [hplaces]
    exact List.pairwise_lt_range
  constructor
  case places => exact hplaces
  case visits =>
    rw [← hplaces]
    exact (c.tree.postorder_perm.map _).symm
  case root =>
    obtain ⟨-, rfl⟩ := compile_eq_ok_iff.mp hc
    exact (d.host.index_state id id [] 0 d.root {}).trans (Nat.zero_add _)
  case below => exact fun u hu ch hch => Tree.index_lt_of_child hsorted hu hch
  case path =>
    intro u hu
    have hpath := (Tree.path_of_compile hc hu).1
    have hid : c.id = id := by
      obtain ⟨-, rfl⟩ := compile_eq_ok_iff.mp hc
      rfl
    rw [← String.toList_inj, hpath, Path.toList_foldl_join, hid]
  case depth =>
    intro u hu k
    rw [Tree.mem_level_iff hwf]
    simp [Node.depth, htrail, hu]
  case way =>
    intro u hu
    exact Tree.follow_trail hwf hu (by simp [htrail])
  case paths => exact (Tree.pathed_of_compile hc).nodup_paths hwf
  case states =>
    intro names
    have h := congrArg Option.isSome (follow_of_compile hc names)
    rwa [Option.isSome_map, Option.isSome_map] at h
  case fits =>
    intro u hu
    have hway : c.tree.follow u.node.trail = some u := Tree.follow_trail hwf hu (by simp [htrail])
    have hfollow := follow_of_compile hc u.node.trail
    rw [hway, Option.map_some, eq_comm, Option.map_eq_some_iff] at hfollow
    obtain ⟨s, hs, hreads⟩ := hfollow
    have hsound := sound_of_compile hc (Definition.State.within_of_follow hs)
    refine ⟨s, hs, fits_of_reads (hwf.of_mem hu) ?_ hreads.symm hsound⟩
    obtain ⟨-, rfl⟩ := compile_eq_ok_iff.mp hc
    exact d.host.ne_nil_of_parallel id id [] 0 d.root {} u hu

theorem arranged_turnstile :
    turnstile.compile "turnstile" = .ok (turnstile.build "turnstile") ∧
      (turnstile.build "turnstile").Arranged turnstile ∧
      (turnstile.build "turnstile").tree.preorder.map (fun u => (u.node.index, u.node.path)) =
        [(2, "turnstile"), (0, "turnstile.shut"), (1, "turnstile.free")] :=
  ⟨compile_turnstile, arranged_of_compile compile_turnstile, by decide⟩

end Design
end Statechart
