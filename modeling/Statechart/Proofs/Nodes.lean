/-
# The nodes of a tree

Everything a tree says of its nodes but their activity is fixed, so trees are compared
up to activity: with none at all (`Tree.plain`), with what they remember
(`Tree.memory`), or with what is active in them (`Tree.configuration`). A tree is well
formed (`Tree.WellFormed`) if its nodes have different places, the children of a node
different names, the trails follow the names, and the shapes fit the children.

Key definitions: `Tree.postorder`, `Tree.mapActivity`, `Tree.plain`, `Tree.memory`,
`Tree.configuration`, `Tree.WellFormed`.
Key theorems: `Tree.induction`, `Tree.postorder_perm`, `Tree.preorder_mapActivity`,
`Tree.WellFormed.find?_eq_some_iff`, `Tree.WellFormed.trail_cases`.
-/
import Mathlib.Data.List.Nodup
import Mathlib.Data.List.Perm.Basic
import Statechart.Tree.Activation

namespace Statechart
namespace Tree

/-- What holds of a node if it holds of its children, holds of every tree. -/
@[elab_as_elim]
theorem induction {P : Tree → Prop}
    (mk : ∀ node activity children, (∀ c ∈ children, P c) → P (mk node activity children)) :
    ∀ t, P t := by
  refine Tree.rec (motive_1 := P) (motive_2 := fun ts => ∀ c ∈ ts, P c) mk ?_ ?_
  · exact fun c hc => nomatch hc
  · intro t ts ht hts c hc
    rcases List.mem_cons.mp hc with rfl | hc
    · exact ht
    · exact hts c hc

@[simp] theorem node_mk (n : Node) (a : Activity) (cs : List Tree) : (mk n a cs).node = n := rfl

@[simp] theorem activity_mk (n : Node) (a : Activity) (cs : List Tree) :
    (mk n a cs).activity = a := rfl

@[simp] theorem children_mk (n : Node) (a : Activity) (cs : List Tree) :
    (mk n a cs).children = cs := rfl

@[simp] theorem isActive_mk (n : Node) (a : Activity) (cs : List Tree) :
    (mk n a cs).isActive = a.active := rfl

/-! ### The order of the nodes -/

theorem preorderAll_eq : ∀ ts : List Tree, preorderAll ts = ts.flatMap preorder
  | [] => rfl
  | t :: ts => by rw [preorderAll, preorderAll_eq ts, List.flatMap_cons]

theorem activeNodesAll_eq : ∀ ts : List Tree, activeNodesAll ts = ts.flatMap activeNodes
  | [] => rfl
  | t :: ts => by rw [activeNodesAll, activeNodesAll_eq ts, List.flatMap_cons]

theorem preorder_mk (n : Node) (a : Activity) (cs : List Tree) :
    (mk n a cs).preorder = mk n a cs :: cs.flatMap preorder := by
  rw [preorder, preorderAll_eq]

theorem mem_preorder_iff {t u : Tree} :
    u ∈ t.preorder ↔ u = t ∨ ∃ c ∈ t.children, u ∈ c.preorder := by
  obtain ⟨n, a, cs⟩ := t
  rw [preorder_mk, List.mem_cons, List.mem_flatMap, children_mk]

theorem self_mem_preorder (t : Tree) : t ∈ t.preorder := mem_preorder_iff.mpr (Or.inl rfl)

theorem mem_preorder_of_child {t c u : Tree} (hc : c ∈ t.children) (hu : u ∈ c.preorder) :
    u ∈ t.preorder := mem_preorder_iff.mpr (Or.inr ⟨c, hc, hu⟩)

/-- Each node but the root is a child of one. -/
theorem exists_parent {t u : Tree} (hu : u ∈ t.preorder) :
    u = t ∨ ∃ p ∈ t.preorder, u ∈ p.children := by
  induction t using Tree.induction with
  | mk n a cs ih =>
    rcases mem_preorder_iff.mp hu with rfl | ⟨c, hc, hu⟩
    · exact Or.inl rfl
    · rcases ih c hc hu with rfl | ⟨p, hp, hup⟩
      · exact Or.inr ⟨_, self_mem_preorder _, hc⟩
      · exact Or.inr ⟨p, mem_preorder_of_child hc hp, hup⟩

/-- What is below a node of a tree is in the tree. -/
theorem mem_preorder_trans {t : Tree} : ∀ {u v : Tree}, u ∈ t.preorder → v ∈ u.preorder →
    v ∈ t.preorder := by
  induction t using Tree.induction with
  | mk n a cs ih =>
    intro u v hu hv
    rcases mem_preorder_iff.mp hu with rfl | ⟨c, hc, hu⟩
    · exact hv
    · exact mem_preorder_of_child hc (ih c hc hu hv)

/-- What is reached through active nodes is in the tree and active. -/
theorem mem_activeNodes {t u : Tree} (hu : u ∈ t.activeNodes) :
    u ∈ t.preorder ∧ u.isActive = true := by
  induction t using Tree.induction with
  | mk n a cs ih =>
    rw [activeNodes, activeNodesAll_eq] at hu
    split at hu
    · rename_i ha
      rcases List.mem_cons.mp hu with rfl | hu
      · exact ⟨self_mem_preorder _, ha⟩
      · obtain ⟨c, hc, hu⟩ := List.mem_flatMap.mp hu
        exact ⟨mem_preorder_of_child hc (ih c hc hu).1, (ih c hc hu).2⟩
    · cases hu

theorem preorder_sublist {t u : Tree} (hu : u ∈ t.preorder) :
    u.preorder.Sublist t.preorder := by
  induction t using Tree.induction with
  | mk n a cs ih =>
    rcases mem_preorder_iff.mp hu with rfl | ⟨c, hc, hu⟩
    · exact List.Sublist.refl _
    · rw [preorder_mk]
      have hsub : c.preorder.Sublist (cs.flatMap preorder) := by
        rw [List.flatMap_def]
        exact List.sublist_flatten_of_mem (List.mem_map_of_mem hc)
      exact ((ih c hc hu).trans hsub).cons _

mutual

/-- Every node with what is below it, a parent after its children. -/
def postorder : Tree → List Tree
  | mk node activity children => postorderAll children ++ [mk node activity children]

def postorderAll : List Tree → List Tree
  | [] => []
  | t :: ts => postorder t ++ postorderAll ts

end

theorem postorderAll_eq : ∀ ts : List Tree, postorderAll ts = ts.flatMap postorder
  | [] => rfl
  | t :: ts => by rw [postorderAll, postorderAll_eq ts, List.flatMap_cons]

theorem postorder_mk (n : Node) (a : Activity) (cs : List Tree) :
    (mk n a cs).postorder = cs.flatMap postorder ++ [mk n a cs] := by
  rw [postorder, postorderAll_eq]

/-- Either order has every node once. -/
theorem postorder_perm (t : Tree) : t.postorder.Perm t.preorder := by
  induction t using Tree.induction with
  | mk n a cs ih =>
    rw [postorder_mk, preorder_mk]
    have hcs : (cs.flatMap postorder).Perm (cs.flatMap preorder) := List.Perm.flatMap_left cs ih
    exact (List.perm_append_singleton _ _).trans (hcs.cons _)

/-! ### Lists of children -/

theorem mem_append_cons_iff {α : Type} {a b : α} {l r : List α} :
    a ∈ l ++ b :: r ↔ a = b ∨ a ∈ l ++ r := by
  simp only [List.mem_append, List.mem_cons]
  exact or_left_comm

theorem exists_mem_zip_left {α β : Type} {l : List α} {m : List β} (h : l.length = m.length)
    {a : α} (ha : a ∈ l) : ∃ b, (a, b) ∈ l.zip m := by
  rw [← show (l.zip m).map Prod.fst = l from List.map_fst_zip (Nat.le_of_eq h)] at ha
  obtain ⟨⟨_, b⟩, hab, rfl⟩ := List.mem_map.mp ha
  exact ⟨b, hab⟩

theorem exists_mem_zip_right {α β : Type} {l : List α} {m : List β} (h : l.length = m.length)
    {b : β} (hb : b ∈ m) : ∃ a, (a, b) ∈ l.zip m := by
  rw [← show (l.zip m).map Prod.snd = m from List.map_snd_zip (Nat.le_of_eq h.symm)] at hb
  obtain ⟨⟨a, _⟩, hab, rfl⟩ := List.mem_map.mp hb
  exact ⟨a, hab⟩

theorem forall₂_comp {α β γ : Type} {P : α → β → Prop} {Q : β → γ → Prop} {R : α → γ → Prop}
    (h : ∀ a b c, P a b → Q b c → R a c) : ∀ {l : List α} {m : List β} {n : List γ},
      List.Forall₂ P l m → List.Forall₂ Q m n → List.Forall₂ R l n
  | [], [], _, .nil, .nil => .nil
  | _ :: _, _ :: _, _, .cons p ps, .cons q qs => .cons (h _ _ _ p q) (forall₂_comp h ps qs)

theorem map_eq_map_of_zip {α β γ : Type} {f : α → γ} {g : β → γ} : ∀ {l : List α} {m : List β},
    l.length = m.length → (∀ a b, (a, b) ∈ l.zip m → f a = g b) → l.map f = m.map g
  | [], [], _, _ => rfl
  | a :: l, b :: m, hl, h => by
    rw [List.map_cons, List.map_cons, h a b List.mem_cons_self,
      map_eq_map_of_zip (Nat.succ.inj hl) fun a b hab => h a b (List.mem_cons_of_mem _ hab)]

/-- What goes over from a list to another with the same images, elements side by side. -/
theorem map_eq_map_of_map_eq {α β γ : Type} {f : α → β} {g : α → γ} : ∀ {l l' m : List α},
    l.length = l'.length → l.map f = m.map f →
      (∀ a a' b, (a, a') ∈ l.zip l' → b ∈ m → f a = f b → g a' = g b) → l'.map g = m.map g
  | [], [], m, _, hf, _ => by
    rw [List.map_nil, eq_comm, List.map_eq_nil_iff] at hf
    rw [hf]
  | a :: l, a' :: l', [], _, hf, _ => nomatch hf
  | a :: l, a' :: l', b :: m, hl, hf, h => by
    rw [List.map_cons, List.map_cons] at hf
    injection hf with ha hf
    rw [List.map_cons, List.map_cons, h a a' b List.mem_cons_self List.mem_cons_self ha,
      map_eq_map_of_map_eq (Nat.succ.inj hl) hf fun x x' y hx hy =>
        h x x' y (List.mem_cons_of_mem _ hx) (List.mem_cons_of_mem _ hy)]

theorem map_map_eq {α β γ : Type} {f : α → β} {g : β → γ} {h : α → γ} (hgf : ∀ a, g (f a) = h a)
    (l : List α) : (l.map f).map g = l.map h := by
  rw [List.map_map]
  exact List.map_congr_left fun a _ => hgf a

theorem map_append_cons_inj {α β : Type} {f : α → β} {l l' r r' : List α} {a a' : α}
    (length : l.length = l'.length) (h : (l ++ a :: r).map f = (l' ++ a' :: r').map f) :
    l.map f = l'.map f ∧ f a = f a' ∧ r.map f = r'.map f := by
  rw [List.map_append, List.map_append, List.map_cons, List.map_cons] at h
  obtain ⟨hl, hcons⟩ := List.append_inj h (by rw [List.length_map, List.length_map, length])
  injection hcons with ha hr
  exact ⟨hl, ha, hr⟩

/-! ### Trees up to activity -/

mutual

/-- Change the activity of every node. -/
def mapActivity (f : Activity → Activity) : Tree → Tree
  | mk node activity children => mk node (f activity) (mapActivityAll f children)

def mapActivityAll (f : Activity → Activity) : List Tree → List Tree
  | [] => []
  | t :: ts => mapActivity f t :: mapActivityAll f ts

end

/-- The tree with no activity at all. -/
abbrev plain : Tree → Tree := mapActivity fun _ => {}

/-- The tree with nothing of its activity but what its branches entered. -/
abbrev memory : Tree → Tree := mapActivity fun a => { history := a.history }

/-- The tree with nothing of its activity but what is active. -/
abbrev configuration : Tree → Tree := mapActivity fun a => { active := a.active }

theorem mapActivityAll_eq (f : Activity → Activity) : ∀ ts : List Tree,
    mapActivityAll f ts = ts.map (mapActivity f)
  | [] => rfl
  | t :: ts => by rw [mapActivityAll, mapActivityAll_eq f ts, List.map_cons]

@[simp] theorem mapActivity_mk (f : Activity → Activity) (n : Node) (a : Activity)
    (cs : List Tree) : (mk n a cs).mapActivity f = mk n (f a) (cs.map (mapActivity f)) := by
  rw [mapActivity, mapActivityAll_eq]

@[simp] theorem node_mapActivity (f : Activity → Activity) (t : Tree) :
    (t.mapActivity f).node = t.node := by
  cases t
  rw [mapActivity_mk]
  rfl

@[simp] theorem activity_mapActivity (f : Activity → Activity) (t : Tree) :
    (t.mapActivity f).activity = f t.activity := by
  cases t
  rw [mapActivity_mk]
  rfl

@[simp] theorem children_mapActivity (f : Activity → Activity) (t : Tree) :
    (t.mapActivity f).children = t.children.map (mapActivity f) := by
  cases t
  rw [mapActivity_mk]
  rfl

@[simp] theorem mapActivity_mapActivity (f g : Activity → Activity) (t : Tree) :
    (t.mapActivity f).mapActivity g = t.mapActivity fun a => g (f a) := by
  induction t using Tree.induction with
  | mk n a cs ih =>
    simp only [mapActivity_mk, List.map_map, mk.injEq, true_and]
    exact List.map_congr_left fun c hc => ih c hc

theorem preorder_mapActivity (f : Activity → Activity) (t : Tree) :
    (t.mapActivity f).preorder = t.preorder.map (mapActivity f) := by
  induction t using Tree.induction with
  | mk n a cs ih =>
    rw [mapActivity_mk, preorder_mk, preorder_mk, List.map_cons, mapActivity_mk, List.map_flatMap,
      List.flatMap_map]
    exact congrArg _ (List.flatMap_congr fun c hc => ih c hc)

theorem deactivateAll_eq : ∀ ts : List Tree, deactivateAll ts = ts.map deactivate
  | [] => rfl
  | t :: ts => by rw [deactivateAll, deactivateAll_eq ts, List.map_cons]

theorem deactivate_eq (t : Tree) : t.deactivate = t.mapActivity Activity.leave := by
  induction t using Tree.induction with
  | mk n a cs ih =>
    rw [deactivate, deactivateAll_eq, mapActivity_mk]
    exact congrArg _ (List.map_congr_left ih)

theorem plain_mk (n : Node) (a : Activity) (cs : List Tree) :
    (mk n a cs).plain = mk n {} (cs.map plain) := mapActivity_mk _ n a cs

theorem memory_mk (n : Node) (a : Activity) (cs : List Tree) :
    (mk n a cs).memory = mk n { history := a.history } (cs.map memory) := mapActivity_mk _ n a cs

theorem configuration_mk (n : Node) (a : Activity) (cs : List Tree) :
    (mk n a cs).configuration = mk n { active := a.active } (cs.map configuration) :=
  mapActivity_mk _ n a cs

@[simp] theorem node_deactivate (t : Tree) : t.deactivate.node = t.node := by
  rw [deactivate_eq, node_mapActivity]

@[simp] theorem plain_deactivate (t : Tree) : t.deactivate.plain = t.plain := by
  rw [deactivate_eq]
  exact mapActivity_mapActivity _ _ t

/-- Leaving a tree, it remembers what it did. -/
@[simp] theorem memory_deactivate (t : Tree) : t.deactivate.memory = t.memory := by
  rw [deactivate_eq]
  exact mapActivity_mapActivity _ _ t

theorem size_mapActivity (f : Activity → Activity) (t : Tree) :
    (t.mapActivity f).size = t.size := by
  rw [size, preorder_mapActivity, List.length_map, size]

theorem mem_preorder_mapActivity {f : Activity → Activity} {t u : Tree} :
    u ∈ (t.mapActivity f).preorder ↔ ∃ v ∈ t.preorder, v.mapActivity f = u := by
  rw [preorder_mapActivity, List.mem_map]

/-! ### Well-formed trees -/

/-- The nodes of the tree have different places, the children of a node have different
names and trails that follow them, a leaf has no children and a branch some. -/
structure WellFormed (t : Tree) : Prop where
  places : (t.preorder.map (·.node.index)).Nodup
  names : ∀ u ∈ t.preorder, (u.children.map (·.node.name)).Nodup
  trails : ∀ u ∈ t.preorder, ∀ c ∈ u.children, c.node.trail = u.node.trail ++ [c.node.name]
  leaves : ∀ u ∈ t.preorder, u.node.shape = .leaf → u.children = []
  branches : ∀ u ∈ t.preorder, ∀ rule, u.node.shape = .branch rule → u.children ≠ []

namespace WellFormed

theorem of_mem {t u : Tree} (h : t.WellFormed) (hu : u ∈ t.preorder) : u.WellFormed where
  places := h.places.sublist ((preorder_sublist hu).map _)
  names v hv := h.names v (mem_preorder_trans hu hv)
  trails v hv := h.trails v (mem_preorder_trans hu hv)
  leaves v hv := h.leaves v (mem_preorder_trans hu hv)
  branches v hv := h.branches v (mem_preorder_trans hu hv)

theorem of_child {t c : Tree} (h : t.WellFormed) (hc : c ∈ t.children) : c.WellFormed :=
  h.of_mem (mem_preorder_of_child hc c.self_mem_preorder)

/-- Whether a tree is well formed is no matter of activity. -/
theorem of_mapActivity {f : Activity → Activity} {t : Tree} (h : (t.mapActivity f).WellFormed) :
    t.WellFormed := by
  have hmem : ∀ {u : Tree}, u ∈ t.preorder → u.mapActivity f ∈ (t.mapActivity f).preorder :=
    fun hu => mem_preorder_mapActivity.mpr ⟨_, hu, rfl⟩
  refine ⟨?_, fun u hu => ?_, fun u hu c hc => ?_, fun u hu hs => ?_, fun u hu rule hs => ?_⟩
  · have := h.places
    rw [preorder_mapActivity, List.map_map] at this
    simpa [Function.comp_def] using this
  · have := h.names _ (hmem hu)
    rw [children_mapActivity, List.map_map] at this
    simpa [Function.comp_def] using this
  · have := h.trails _ (hmem hu) (c.mapActivity f) (by simpa using ⟨c, hc, rfl⟩)
    simpa using this
  · have := h.leaves _ (hmem hu) (by simpa using hs)
    simpa using this
  · have := h.branches _ (hmem hu) rule (by simpa using hs)
    simpa using this

/-- A node is the one at its place. -/
theorem eq_of_index_eq {t u v : Tree} (h : t.WellFormed) (hu : u ∈ t.preorder)
    (hv : v ∈ t.preorder) (hi : u.node.index = v.node.index) : u = v :=
  List.inj_on_of_nodup_map h.places hu hv hi

theorem find?_eq_some_iff {t u : Tree} (h : t.WellFormed) {index : Nat} :
    t.find? index = some u ↔ u ∈ t.preorder ∧ u.node.index = index := by
  unfold find?
  constructor
  · intro hf
    exact ⟨List.mem_of_find?_eq_some hf, by simpa using List.find?_some hf⟩
  · rintro ⟨hu, rfl⟩
    cases hf : t.preorder.find? (·.node.index == u.node.index) with
    | none => simpa using List.find?_eq_none.mp hf u hu
    | some v =>
      have hi : v.node.index = u.node.index := by simpa using List.find?_some hf
      rw [h.eq_of_index_eq (List.mem_of_find?_eq_some hf) hu hi]

theorem activeAt_iff {t u : Tree} (h : t.WellFormed) (hu : u ∈ t.preorder) :
    t.activeAt u.node.index = u.isActive := by
  rw [activeAt, h.find?_eq_some_iff.mpr ⟨hu, rfl⟩]
  rfl

/-- The trail of a node goes on from those of the nodes above it. -/
theorem exists_trail_eq {t : Tree} : ∀ {u : Tree}, t.WellFormed → u ∈ t.preorder →
    ∃ names, u.node.trail = t.node.trail ++ names := by
  induction t using Tree.induction with
  | mk n a cs ih =>
    intro u h hu
    rcases mem_preorder_iff.mp hu with rfl | ⟨c, hc, hu⟩
    · exact ⟨[], (List.append_nil _).symm⟩
    · obtain ⟨names, htrail⟩ := ih c hc (h.of_child hc) hu
      rw [h.trails _ (self_mem_preorder _) c hc, List.append_assoc] at htrail
      exact ⟨_, htrail⟩

/-- Where the way down to a node begins: it is there already, or the first name leads to
the child that it is below. -/
theorem trail_cases {t u : Tree} (h : t.WellFormed) (hu : u ∈ t.preorder) {names : List String}
    (htrail : u.node.trail = t.node.trail ++ names) :
    names = [] ∧ u = t ∨ ∃ c ∈ t.children, ∃ rest, names = c.node.name :: rest ∧
      u ∈ c.preorder ∧ u.node.trail = c.node.trail ++ rest := by
  rcases mem_preorder_iff.mp hu with rfl | ⟨c, hc, hu⟩
  · exact Or.inl ⟨by simpa using htrail, rfl⟩
  · obtain ⟨rest, hrest⟩ := exists_trail_eq (h.of_child hc) hu
    refine Or.inr ⟨c, hc, rest, ?_, hu, hrest⟩
    rw [htrail, h.trails t t.self_mem_preorder c hc, List.append_assoc] at hrest
    simpa using hrest

/-- A node is below one child only. -/
theorem child_eq {t c s u : Tree} (h : t.WellFormed) (hc : c ∈ t.children) (hs : s ∈ t.children)
    (huc : u ∈ c.preorder) (hus : u ∈ s.preorder) : c = s := by
  have hself := t.self_mem_preorder
  obtain ⟨names, hnames⟩ := exists_trail_eq (h.of_child hc) huc
  obtain ⟨names', hnames'⟩ := exists_trail_eq (h.of_child hs) hus
  rw [hnames, h.trails t hself c hc, h.trails t hself s hs, List.append_assoc,
    List.append_assoc] at hnames'
  have hname : c.node.name = s.node.name := by
    simpa using congrArg List.head? (List.append_cancel_left hnames')
  exact List.inj_on_of_nodup_map (h.names t hself) hc hs hname

end WellFormed

end Tree
end Statechart
