/-
# The tree of a compiled design

A design that compiles has no problems, so the names of the states in a state are
different and a state with an initial rule has states. The compiler puts the nodes into
the table from the leaves up, so a node takes the place behind all below it. Together
this makes the tree well formed (`Design.tree_of_compile`).

Key definitions: `Tree.Placed`, `Tree.PlacedAll`.
Key theorems: `Host.state_placed`, `Design.tree_of_compile`.
-/
import Statechart.Design.Compile
import Statechart.Proofs.Nodes

namespace Statechart

variable {D : Type}

namespace Tree

/-! ### Trees in the table of nodes -/

/-- The nodes of the tree take the places from `first` on, as many as there are nodes. -/
structure Placed (first : Nat) (t : Tree) : Prop where
  wellFormed : t.WellFormed
  plain : t.plain = t
  range : ∀ u ∈ t.preorder, first ≤ u.node.index ∧ u.node.index < first + t.size

/-- The nodes of the trees take the places from `first` on, one tree after another, and the
trees are the children of the node that `trail` leads to. -/
structure PlacedAll (trail : List String) (first : Nat) (ts : List Tree) : Prop where
  wellFormed : ∀ t ∈ ts, t.WellFormed
  plain : ts.map Tree.plain = ts
  trails : ∀ t ∈ ts, t.node.trail = trail ++ [t.node.name]
  places : ((ts.flatMap preorder).map (·.node.index)).Nodup
  range : ∀ u ∈ ts.flatMap preorder,
    first ≤ u.node.index ∧ u.node.index < first + (ts.flatMap preorder).length

theorem placedAll_nil (trail : List String) (first : Nat) : PlacedAll trail first [] :=
  ⟨by simp, rfl, by simp, by simp, by simp⟩

theorem PlacedAll.cons {trail : List String} {first : Nat} {t : Tree} {ts : List Tree}
    (h : t.Placed first) (htrail : t.node.trail = trail ++ [t.node.name])
    (hs : PlacedAll trail (first + t.size) ts) : PlacedAll trail first (t :: ts) where
  wellFormed := List.forall_mem_cons.mpr ⟨h.wellFormed, hs.wellFormed⟩
  plain := by rw [List.map_cons, h.plain, hs.plain]
  trails := List.forall_mem_cons.mpr ⟨htrail, hs.trails⟩
  places := by
    rw [List.flatMap_cons, List.map_append, List.nodup_append]
    refine ⟨h.wellFormed.places, hs.places, fun i hi j hj => ?_⟩
    obtain ⟨u, hu, rfl⟩ := List.mem_map.mp hi
    obtain ⟨v, hv, rfl⟩ := List.mem_map.mp hj
    have := h.range u hu
    have := hs.range v hv
    omega
  range u hu := by
    rw [List.flatMap_cons, List.length_append, ← size]
    rw [List.flatMap_cons, List.mem_append] at hu
    rcases hu with hu | hu
    · have := h.range u hu
      omega
    · have := hs.range u hu
      omega

/-- A node takes the place behind those of its children. -/
theorem PlacedAll.node {n : Node} {first : Nat} {cs : List Tree} (h : PlacedAll n.trail first cs)
    (names : (cs.map (·.node.name)).Nodup) (leaf : n.shape = .leaf → cs = [])
    (branch : ∀ rule, n.shape = .branch rule → cs ≠ [])
    (index : n.index = first + (cs.flatMap preorder).length) : (Tree.mk n {} cs).Placed first where
  wellFormed := by
    have hmem : ∀ {u : Tree}, u ∈ (Tree.mk n {} cs).preorder →
        u = Tree.mk n {} cs ∨ ∃ c ∈ cs, u ∈ c.preorder := mem_preorder_iff.mp
    refine ⟨?_, fun u hu => ?_, fun u hu => ?_, fun u hu => ?_, fun u hu => ?_⟩
    · rw [preorder_mk, List.map_cons, List.nodup_cons]
      refine ⟨fun hi => ?_, h.places⟩
      obtain ⟨u, hu, hui⟩ := List.mem_map.mp hi
      have := h.range u hu
      rw [node_mk] at hui
      omega
    · rcases hmem hu with rfl | ⟨c, hc, hu⟩
      · exact names
      · exact (h.wellFormed c hc).names u hu
    · rcases hmem hu with rfl | ⟨c, hc, hu⟩
      · exact h.trails
      · exact (h.wellFormed c hc).trails u hu
    · rcases hmem hu with rfl | ⟨c, hc, hu⟩
      · exact leaf
      · exact (h.wellFormed c hc).leaves u hu
    · rcases hmem hu with rfl | ⟨c, hc, hu⟩
      · exact branch
      · exact (h.wellFormed c hc).branches u hu
  plain := by rw [plain_mk, h.plain]
  range u hu := by
    rw [size, preorder_mk, List.length_cons]
    rcases mem_preorder_iff.mp hu with rfl | ⟨c, hc, hu⟩
    · rw [node_mk]
      omega
    · have := h.range u (List.mem_flatMap.mpr ⟨c, hc, hu⟩)
      omega

end Tree

namespace Host

variable (host : Host D)

/-! ### Designs without problems -/

/-- States without problems have different names, and none that was there before. -/
theorem nodup_of_statesProblems {path : String} : ∀ {states : List (String × Definition.State D)}
    {seen : List String}, host.statesProblems path seen states = [] →
      (states.map (·.1)).Nodup ∧ ∀ name ∈ states.map (·.1), name ∉ seen
  | [], _, _ => ⟨List.nodup_nil, fun _ h => nomatch h⟩
  | (name, state) :: rest, seen, h => by
    rw [statesProblems] at h
    split at h
    · cases h
    · split at h
      · cases h
      · rename_i hseen
        obtain ⟨hnodup, hnew⟩ := nodup_of_statesProblems (List.append_eq_nil_iff.mp h).2
        rw [List.map_cons]
        refine ⟨List.nodup_cons.mpr ⟨fun hmem => hnew name hmem List.mem_cons_self, hnodup⟩, ?_⟩
        refine List.forall_mem_cons.mpr ⟨by simpa using hseen, fun n hn hmem => ?_⟩
        exact hnew n hn (List.mem_cons_of_mem name hmem)

theorem ne_nil_of_startProblems {path : String} {rule : Definition.Initial D}
    {states : List (String × Definition.State D)}
    (h : host.startProblems path (some rule) (childNames states) = []) : states ≠ [] := by
  rintro rfl
  simp [startProblems, childNames] at h

/-! ### The tree of a state -/

theorem shape_eq_leaf {b : Definition.State.Body D} {cs : List Tree} {table : Table D}
    (h : ((host.shape b cs).run table).1 = .leaf) : cs = [] := by
  unfold shape at h
  split at h
  · cases cs with
    | nil => rfl
    | cons c cs => cases h
  · cases h

theorem exists_initial_of_shape {b : Definition.State.Body D} {cs : List Tree} {table : Table D}
    {rule : InitialRule} (h : ((host.shape b cs).run table).1 = .branch rule) :
    ∃ rule, b.initial = some rule := by
  unfold shape at h
  split at h
  · cases cs <;> cases h
  · exact ⟨_, ‹_›⟩

theorem exists_run_state_eq (name path : String) (trail : List String) (first : Nat)
    (body : Definition.State.Body D) (states : List (String × Definition.State D))
    (table : Table D) : ∃ table' handlers,
      let cs := ((host.children path trail first states).run table).1
      ((host.state name path trail first (.mk body states)).run table).1 =
        .mk { index := first + (cs.flatMap Tree.preorder).length, name, path, trail, handlers
              shape := ((host.shape body cs).run table').1 } {} cs := by
  simp only [List.length_flatMap]
  exact ⟨_, _, rfl⟩

theorem exists_run_children_eq (path : String) (trail : List String) (first : Nat) (name : String)
    (state : Definition.State D) (rest : List (String × Definition.State D)) (table : Table D) :
    ∃ table',
      let t := ((host.state name (Path.join path name) (trail ++ [name]) first state).run table).1
      ((host.children path trail first ((name, state) :: rest)).run table).1 =
        t :: ((host.children path trail (first + t.size) rest).run table').1 := ⟨_, rfl⟩

mutual

/-- The tree of a state without problems is well formed, and its nodes take the places
from the first one on. -/
theorem state_placed {above : String} (name path : String) (trail : List String) (first : Nat) :
    ∀ (def_ : Definition.State D) (table : Table D), host.stateProblems above def_ = [] →
      ((host.state name path trail first def_).run table).1.Placed first ∧
        ((host.state name path trail first def_).run table).1.node.name = name ∧
        ((host.state name path trail first def_).run table).1.node.trail = trail
  | .mk body states, table, h => by
    rw [stateProblems] at h
    simp only [List.append_eq_nil_iff] at h
    obtain ⟨⟨hstates, hstart⟩, -⟩ := h
    obtain ⟨hplaced, hnames⟩ := children_placedAll path trail first states table hstates
    obtain ⟨table', handlers, heq⟩ :=
      host.exists_run_state_eq name path trail first body states table
    rw [heq]
    refine ⟨hplaced.node ?_ (fun hs => host.shape_eq_leaf hs) (fun rule hs => ?_) rfl, rfl, rfl⟩
    · rw [hnames]
      exact (host.nodup_of_statesProblems hstates).1
    · obtain ⟨initial, hinitial⟩ := host.exists_initial_of_shape hs
      rw [hinitial] at hstart
      rintro hnil
      rw [hnil, List.map_nil, eq_comm, List.map_eq_nil_iff] at hnames
      exact host.ne_nil_of_startProblems hstart hnames

theorem children_placedAll {above : String} {seen : List String} (path : String)
    (trail : List String) (first : Nat) : ∀ (states : List (String × Definition.State D)) (table : Table D),
      host.statesProblems above seen states = [] →
        Tree.PlacedAll trail first ((host.children path trail first states).run table).1 ∧
          ((host.children path trail first states).run table).1.map (·.node.name) =
            states.map (·.1)
  | [], _, _ => ⟨Tree.placedAll_nil trail first, rfl⟩
  | (name, state) :: rest, table, h => by
    rw [statesProblems] at h
    split at h
    · cases h
    · split at h
      · cases h
      · obtain ⟨hstate, hrest⟩ := List.append_eq_nil_iff.mp h
        obtain ⟨table', heq⟩ := host.exists_run_children_eq path trail first name state rest table
        obtain ⟨hplaced, hname, htrail⟩ :=
          state_placed name (Path.join path name) (trail ++ [name]) first state table hstate
        obtain ⟨hall, hnames⟩ := children_placedAll path trail _ rest table' hrest
        rw [heq]
        refine ⟨Tree.PlacedAll.cons hplaced ?_ hall, ?_⟩
        · rw [htrail, hname]
        · rw [List.map_cons, List.map_cons, hname, hnames]

end

end Host

/-- The tree of a compiled design is well formed; nothing in it is active or remembered, its
root has the empty trail, and its nodes have the first places of the table. -/
theorem Design.tree_of_compile {d : Design D} {id : String} {c : Compiled D}
    (h : d.compile id = .ok c) : c.tree.WellFormed ∧ c.tree.plain = c.tree ∧
      c.tree.node.trail = [] ∧ ∀ u ∈ c.tree.preorder, u.node.index < c.tree.size := by
  obtain ⟨hproblems, rfl⟩ := compile_eq_ok_iff.mp h
  obtain ⟨hplaced, -, htrail⟩ := d.host.state_placed id id [] 0 d.root {} hproblems
  refine ⟨hplaced.wellFormed, hplaced.plain, htrail, fun u hu => ?_⟩
  have := (hplaced.range u hu).2
  rw [Nat.zero_add] at this
  exact this

end Statechart
