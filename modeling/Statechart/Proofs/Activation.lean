/-
# Successful activations

An activation that succeeds goes down the tree in one of three ways at each node
(`Tree.Activates`): it enters a leaf alone, a parallel node with all its children, and a
branch with one child while it leaves the others. So it enters or leaves every node once,
and leaves the tree settled (`Tree.Settled`): what it entered is active, and nothing is
below what it left. A settled tree is in a legal configuration. The way down to a target
ends at the target (`Tree.Activates.exists_target`).

Key definitions: `Tree.Activates`, `Tree.Settled`, `Tree.Legal`.
Key theorems: `Tree.activates_of_activate`, `Tree.Activates.settled`, `Tree.Settled.legal`,
`Tree.Activates.exists_target`, `Tree.activate_legal`.
-/
import Statechart.Proofs.CompiledTree

namespace Statechart

@[simp] theorem Activity.active_enter (a : Activity) : a.enter.active = true := by
  unfold enter
  split
  · assumption
  · rfl

@[simp] theorem Activity.history_enter (a : Activity) : a.enter.history = a.history := by
  unfold enter
  split <;> rfl

@[simp] theorem Activity.active_remember (a : Activity) (name : String) :
    (a.remember name).active = a.active := by
  unfold remember
  split <;> rfl

@[simp] theorem Activity.getLast?_history_remember (a : Activity) (name : String) :
    (a.remember name).history.getLast? = some name := by
  unfold remember
  split
  · assumption
  · simp

namespace Tree

/-! ### The child of a name -/

/-- A child is where its name says. -/
theorem named_append {l r : List Tree} {c : Tree}
    (h : ((l ++ c :: r).map (·.node.name)).Nodup) :
    named (l ++ c :: r) c.node.name = some l.length := by
  rw [named, List.findIdx?_eq_some_iff_getElem]
  refine ⟨by simp, by simp, fun j hj => ?_⟩
  rw [List.getElem_append_left hj]
  rw [List.map_append, List.map_cons, List.nodup_append] at h
  have := h.2.2 _ (List.mem_map_of_mem (List.getElem_mem hj)) _ List.mem_cons_self
  simpa using this

theorem exists_split {ts : List Tree} {i : Nat} (h : i < ts.length) :
    ∃ l c r, ts = l ++ c :: r ∧ l.length = i :=
  ⟨ts.take i, ts[i], ts.drop (i + 1), by simp, by simp; omega⟩

theorem named_lt {ts : List Tree} {name : String} {i : Nat} (h : named ts name = some i) :
    i < ts.length := (List.findIdx?_eq_some_iff_getElem.mp h).1

/-- Which child a name says is no matter of what is in the children. -/
theorem named_congr {ts us : List Tree} (h : ts.map (·.node.name) = us.map (·.node.name))
    (name : String) : named ts name = named us name := by
  have hmap : ∀ ts : List Tree, named ts name = (ts.map (·.node.name)).findIdx? (· == name) :=
    fun ts => by rw [List.findIdx?_map]; rfl
  rw [hmap, hmap, h]

theorem initialIndex_congr (choose : Chooser) (initial : InitialRule) {ts us : List Tree}
    (h : ts.map (·.node.name) = us.map (·.node.name)) :
    initialIndex choose initial ts = initialIndex choose initial us := by
  unfold initialIndex
  rw [funext (named_congr h)]

theorem initialIndex_lt {choose : Chooser} {initial : InitialRule} {ts : List Tree} {i : Nat}
    (hts : ts ≠ []) (h : initialIndex choose initial ts = .ok i) : i < ts.length := by
  unfold initialIndex at h
  split at h
  · cases h
  · rename_i name _
    cases h
    cases hn : name.bind (named ts) with
    | none => exact List.length_pos_iff.mpr hts
    | some i =>
      obtain ⟨name, -, hname⟩ := Option.bind_eq_some_iff.mp hn
      exact named_lt hname

theorem historyIndex_lt {a : Activity} {ts : List Tree} {i : Nat} (h : historyIndex a ts = some i) :
    i < ts.length := by
  obtain ⟨name, -, hname⟩ := Option.bind_eq_some_iff.mp h
  exact named_lt hname

/-- The child that a branch enters is one of its children. -/
theorem select_lt {choose : Chooser} {initial : InitialRule} {a : Activity} {wasActive : Bool}
    {ts : List Tree} {entry entry' : Approach} {i : Nat} (hts : ts ≠ [])
    (h : select choose initial a wasActive ts entry = .ok (i, entry')) : i < ts.length := by
  have hinitial : ∀ {e : Approach},
      (initialIndex choose initial ts).map (·, e) = .ok (i, entry') → i < ts.length :=
    fun {e} h => by
      cases hi : initialIndex choose initial ts with
      | error _ =>
        rw [hi] at h
        cases h
      | ok _ =>
        rw [hi] at h
        cases h
        exact initialIndex_lt hts hi
  unfold select at h
  split at h
  · split at h
    · cases h
      exact named_lt ‹_›
    · exact hinitial h
  · split at h
    · rename_i hi
      cases h
      split at hi
      · cases hi
      · exact historyIndex_lt hi
    · exact hinitial h
  · rename_i restore
    dsimp only at h
    cases hr : if restore then historyIndex a ts else none with
    | some j =>
      rw [hr] at h
      cases h
      split at hr
      · exact historyIndex_lt hr
      · cases hr
    | none =>
      rw [hr] at h
      cases hk : if wasActive then ts.findIdx? isActive else none with
      | some j =>
        rw [hk] at h
        cases h
        split at hk
        · exact (List.findIdx?_eq_some_iff_getElem.mp hk).1
        · cases hk
      | none =>
        rw [hk] at h
        exact hinitial h

/-! ### Activations that succeed -/

/-- Entering the tree succeeds and gives another. A branch enters one child and leaves the
others, a parallel node enters all of its children. -/
inductive Activates (choose : Chooser) (before : Nat → Bool) : Approach → Tree → Tree → Prop
  | leaf {entry : Approach} {n : Node} {a : Activity} (shape : n.shape = .leaf) :
    Activates choose before entry (mk n a []) (mk n a.enter [])
  | parallel {entry : Approach} {n : Node} {a : Activity} {cs cs' : List Tree}
    (shape : n.shape = .parallel) (length : cs.length = cs'.length)
    (children : ∀ c c', (c, c') ∈ cs.zip cs' →
      Activates choose before (entry.region c.node.name) c c') :
    Activates choose before entry (mk n a cs) (mk n a.enter cs')
  | branch {entry entry' : Approach} {n : Node} {a : Activity} {rule : InitialRule}
    {l r : List Tree} {c c' : Tree} (shape : n.shape = .branch rule)
    (chosen : select choose rule a.enter (before n.index) (l ++ c :: r) entry =
      .ok (l.length, entry'))
    (child : Activates choose before entry' c c') :
    Activates choose before entry (mk n a (l ++ c :: r))
      (mk n (a.enter.remember c.node.name) (l.map deactivate ++ c' :: r.map deactivate))

section

variable {choose : Chooser} {before : Nat → Bool}

theorem activateAll_eq_ok {entry : Approach} : ∀ {cs cs' : List Tree},
    activateAll choose before entry cs = (cs', none) →
      cs.length = cs'.length ∧ ∀ c c', (c, c') ∈ cs.zip cs' →
        activate choose before (entry.region c.node.name) c = (c', none)
  | [], cs', h => by
    cases h
    exact ⟨rfl, fun _ _ h => nomatch h⟩
  | t :: ts, cs', h => by
    rw [activateAll] at h
    split at h
    · cases h
    · rename_i t' ht
      simp only [Prod.mk.injEq] at h
      obtain ⟨rfl, hts⟩ := h
      obtain ⟨hlength, hall⟩ := activateAll_eq_ok (Prod.ext rfl hts)
      refine ⟨by simp [hlength], fun c c' hc => ?_⟩
      rcases List.mem_cons.mp hc with heq | hc
      · cases heq
        exact ht
      · exact hall c c' hc

theorem activateAll_of_zip {entry : Approach} : ∀ {cs cs' : List Tree}, cs.length = cs'.length →
    (∀ c c', (c, c') ∈ cs.zip cs' →
      activate choose before (entry.region c.node.name) c = (c', none)) →
        activateAll choose before entry cs = (cs', none)
  | [], [], _, _ => rfl
  | c :: cs, c' :: cs', length, h => by
    have hc := h c c' List.mem_cons_self
    have hcs := activateAll_of_zip (Nat.succ.inj length) fun d d' hd =>
      h d d' (List.mem_cons_of_mem _ hd)
    rw [activateAll, hc, hcs]

theorem activateOnly_append (entry : Approach) (c : Tree) (r : List Tree) : ∀ l : List Tree,
    activateOnly choose before entry l.length (l ++ c :: r) =
      (l.map deactivate ++ (activate choose before entry c).1 :: r.map deactivate,
        (activate choose before entry c).2)
  | [] => by
    rw [List.length_nil, List.nil_append, activateOnly, deactivateAll_eq]
    rfl
  | t :: l => by
    rw [List.length_cons, List.cons_append, activateOnly, activateOnly_append entry c r l]
    rfl

/-- What an activation does when it succeeds. -/
theorem activates_of_activate {t : Tree} : ∀ {entry : Approach} {t' : Tree}, t.WellFormed →
    activate choose before entry t = (t', none) → Activates choose before entry t t' := by
  induction t using Tree.induction with
  | mk n a cs ih =>
    intro entry t' hwf h
    rw [activate] at h
    cases hs : n.shape with
    | leaf =>
      obtain rfl : cs = [] := hwf.leaves _ (self_mem_preorder _) hs
      rw [hs] at h
      cases h
      exact .leaf hs
    | parallel =>
      rw [hs] at h
      simp only [Prod.mk.injEq] at h
      obtain ⟨rfl, hnone⟩ := h
      obtain ⟨hlength, hall⟩ := activateAll_eq_ok (Prod.ext rfl hnone)
      refine .parallel hs hlength fun c c' hc => ?_
      have hmem := (List.of_mem_zip hc).1
      exact ih c hmem (hwf.of_child hmem) (hall c c' hc)
    | branch rule =>
      rw [hs] at h
      simp only at h
      split at h
      · cases h
      · rename_i i entry' hsel
        obtain ⟨l, c, r, rfl, rfl⟩ := exists_split
          (select_lt (hwf.branches _ (self_mem_preorder _) rule hs) hsel)
        rw [activateOnly_append] at h
        simp only [Prod.mk.injEq] at h
        obtain ⟨rfl, hnone⟩ := h
        have hmem : c ∈ l ++ c :: r := by simp
        have hc := ih c hmem (hwf.of_child hmem) (Prod.ext rfl hnone)
        simpa using Activates.branch hs hsel hc

/-- There is one way only in which an activation can come out. -/
theorem Activates.activate_eq {entry : Approach} {t t' : Tree}
    (h : Activates choose before entry t t') : activate choose before entry t = (t', none) := by
  induction h with
  | leaf shape => rw [activate, shape]
  | parallel shape length _ ih =>
    rw [activate, shape]
    simp only [activateAll_of_zip length ih]
  | @branch entry entry' n a rule l r c c' shape chosen _ ih =>
    have hget : (l ++ c :: r)[l.length]? = some c := by simp
    rw [activate, shape]
    simp only [chosen, hget, Option.map_some, Option.elim_some, activateOnly_append, ih]

theorem Activates.node_eq {entry : Approach} {t t' : Tree}
    (h : Activates choose before entry t t') : t'.node = t.node := by
  cases h <;> rfl

/-- A successful activation changes nothing but activity. -/
theorem Activates.plain_eq {entry : Approach} {t t' : Tree}
    (h : Activates choose before entry t t') : t'.plain = t.plain := by
  induction h with
  | leaf _ => rfl
  | parallel _ length _ ih =>
    rw [plain_mk, plain_mk]
    exact congrArg _ (map_eq_map_of_zip length fun c c' hc => (ih c c' hc).symm).symm
  | branch _ _ _ ih =>
    have hleft : ∀ ts : List Tree, (ts.map deactivate).map plain = ts.map plain :=
      map_map_eq plain_deactivate
    rw [plain_mk, plain_mk, List.map_append, List.map_cons, List.map_append, List.map_cons, hleft,
      hleft, ih]

end

/-! ### What an activation leaves -/

/-- Nothing in the tree is active. -/
def Dormant (t : Tree) : Prop := ∀ u ∈ t.preorder, u.isActive = false

/-- What a successful activation leaves: an active branch remembers its active child last,
and nothing is active in its other children. -/
inductive Settled : Tree → Prop
  | leaf {n : Node} {a : Activity} (shape : n.shape = .leaf) (active : a.active = true) :
    Settled (mk n a [])
  | parallel {n : Node} {a : Activity} {cs : List Tree} (shape : n.shape = .parallel)
    (active : a.active = true) (children : ∀ c ∈ cs, Settled c) : Settled (mk n a cs)
  | branch {n : Node} {a : Activity} {rule : InitialRule} {l r : List Tree} {c : Tree}
    (shape : n.shape = .branch rule) (active : a.active = true)
    (latest : a.history.getLast? = some c.node.name) (child : Settled c)
    (others : ∀ s ∈ l ++ r, s.Dormant) : Settled (mk n a (l ++ c :: r))

theorem dormant_deactivate (t : Tree) : t.deactivate.Dormant := by
  intro u hu
  rw [deactivate_eq] at hu
  obtain ⟨v, -, rfl⟩ := mem_preorder_mapActivity.mp hu
  rw [isActive, activity_mapActivity]
  rfl

/-- Nothing is active in the children that a branch leaves. -/
theorem dormant_of_mem_map_deactivate {l r : List Tree} :
    ∀ s ∈ l.map deactivate ++ r.map deactivate, s.Dormant := fun s hs => by
  rw [← List.map_append] at hs
  obtain ⟨u, -, rfl⟩ := List.mem_map.mp hs
  exact dormant_deactivate u

theorem Activates.settled {choose : Chooser} {before : Nat → Bool} {entry : Approach}
    {t t' : Tree} (h : Activates choose before entry t t') : t'.Settled := by
  induction h with
  | leaf shape => exact .leaf shape (Activity.active_enter _)
  | parallel shape length _ ih =>
    refine .parallel shape (Activity.active_enter _) fun c' hc' => ?_
    obtain ⟨c, hc⟩ := exists_mem_zip_right length hc'
    exact ih c c' hc
  | branch shape _ child ih =>
    exact .branch shape (by simp) (by simp [child.node_eq]) ih dormant_of_mem_map_deactivate

theorem filter_isActive_of_dormant {l r : List Tree} {c : Tree} (hc : c.isActive = true)
    (others : ∀ s ∈ l ++ r, s.Dormant) : (l ++ c :: r).filter isActive = [c] := by
  have hnone : ∀ {ts : List Tree}, (∀ s ∈ ts, s.Dormant) → ts.filter isActive = [] := fun hts =>
    List.filter_eq_nil_iff.mpr fun s hs => by simp [hts s hs s s.self_mem_preorder]
  rw [List.filter_append, List.filter_cons_of_pos hc,
    hnone fun s hs => others s (List.mem_append_left r hs),
    hnone fun s hs => others s (List.mem_append_right l hs), List.nil_append]

namespace Settled

theorem isActive {t : Tree} (h : t.Settled) : t.isActive = true := by
  cases h <;> assumption

/-- Each node of a settled tree is settled, or nothing is active from there. -/
theorem settled_or_dormant {t u : Tree} (h : t.Settled) (hu : u ∈ t.preorder) :
    u.Settled ∨ u.Dormant := by
  induction h with
  | leaf shape active =>
    obtain rfl : u = _ := by simpa [preorder_mk] using hu
    exact Or.inl (.leaf shape active)
  | parallel shape active children ih =>
    rcases mem_preorder_iff.mp hu with rfl | ⟨c, hc, hu⟩
    · exact Or.inl (.parallel shape active children)
    · exact ih c hc hu
  | branch shape active latest child others ih =>
    rcases mem_preorder_iff.mp hu with rfl | ⟨s, hs, hu'⟩
    · exact Or.inl (.branch shape active latest child others)
    · rcases mem_append_cons_iff.mp hs with rfl | hs
      · exact ih hu'
      · exact Or.inr fun v hv => others s hs v (mem_preorder_trans hu' hv)

/-- An active node of a settled tree is settled. -/
theorem of_mem {t u : Tree} (h : t.Settled) (hu : u ∈ t.preorder) (ha : u.isActive = true) :
    u.Settled := by
  refine (h.settled_or_dormant hu).resolve_right fun hd => ?_
  rw [hd u u.self_mem_preorder] at ha
  cases ha

/-- A settled branch has one active child. -/
theorem exists_filter_isActive {t : Tree} (h : t.Settled) {rule : InitialRule}
    (hs : t.node.shape = .branch rule) : ∃ c, t.children.filter Tree.isActive = [c] := by
  cases h with
  | leaf shape => cases shape.symm.trans hs
  | parallel shape => cases shape.symm.trans hs
  | branch _ _ _ child others => exact ⟨_, filter_isActive_of_dormant child.isActive others⟩

theorem isActive_of_parallel {t c : Tree} (h : t.Settled) (hs : t.node.shape = .parallel)
    (hc : c ∈ t.children) : c.isActive = true := by
  cases h with
  | leaf shape => cases shape.symm.trans hs
  | parallel _ _ children => exact (children c hc).isActive
  | branch shape => cases shape.symm.trans hs

end Settled

/-- A legal configuration: the root is active, an active branch has exactly one active
child, an active parallel node all of them, and nothing is active below a node that is
not. -/
structure Legal (t : Tree) : Prop where
  root : t.isActive = true
  branch : ∀ u ∈ t.preorder, u.isActive = true → ∀ rule, u.node.shape = .branch rule →
    ∃ c, u.children.filter isActive = [c]
  parallel : ∀ u ∈ t.preorder, u.isActive = true → u.node.shape = .parallel →
    ∀ c ∈ u.children, c.isActive = true
  inactive : ∀ u ∈ t.preorder, u.isActive = false → ∀ v ∈ u.preorder, v.isActive = false

theorem Settled.legal {t : Tree} (h : t.Settled) : t.Legal where
  root := h.isActive
  branch u hu ha _ hs := (h.of_mem hu ha).exists_filter_isActive hs
  parallel u hu ha hs _ hc := (h.of_mem hu ha).isActive_of_parallel hs hc
  inactive u hu ha := by
    refine (h.settled_or_dormant hu).resolve_left fun hsettled => ?_
    rw [hsettled.isActive] at ha
    cases ha

/-! ### Where an activation gets -/

section

variable {choose : Chooser} {before : Nat → Bool}

/-- The way down goes through each node on it, with the names that are left. -/
theorem Activates.exists_way {entry : Approach} {t t' : Tree}
    (h : Activates choose before entry t t') : ∀ {names rest : List String} {recalls : Recall}
    {u : Tree}, t.WellFormed → entry = .down (names ++ rest) recalls → u ∈ t.preorder →
      u.node.trail = t.node.trail ++ names →
        ∃ u' ∈ t'.preorder, Activates choose before (.down rest recalls) u u' := by
  have here : ∀ {t t' u : Tree} {names rest : List String} {recalls : Recall} {entry : Approach},
      Activates choose before entry t t' → entry = .down (names ++ rest) recalls →
        names = [] ∧ u = t →
          ∃ u' ∈ t'.preorder, Activates choose before (.down rest recalls) u u' := by
    rintro t t' _ _ rest recalls _ h rfl ⟨rfl, rfl⟩
    exact ⟨t', t'.self_mem_preorder, h⟩
  induction h with
  | leaf shape =>
    intro names rest recalls u hwf he hu htrail
    rcases hwf.trail_cases hu htrail with h | ⟨c, hc, _⟩
    · exact here (.leaf shape) he h
    · cases hc
  | @parallel entry n a cs cs' shape length children ih =>
    intro names rest recalls u hwf he hu htrail
    rcases hwf.trail_cases hu htrail with h | ⟨c, hc, names', rfl, hu', htrail'⟩
    · exact here (.parallel shape length children) he h
    · obtain ⟨c', hzip⟩ := exists_mem_zip_left length hc
      have hregion : entry.region c.node.name = .down (names' ++ rest) recalls := by
        rw [he, List.cons_append, Approach.down, Approach.region, if_pos rfl]
      obtain ⟨u', hin, hact⟩ := ih c c' hzip (hwf.of_child hc) hregion hu' htrail'
      exact ⟨u', mem_preorder_of_child (List.of_mem_zip hzip).2 hin, hact⟩
  | @branch entry entry' n a rule l r c c' shape chosen child ih =>
    intro names rest recalls u hwf he hu htrail
    rcases hwf.trail_cases hu htrail with h | ⟨s, hs, names', rfl, hu', htrail'⟩
    · exact here (.branch shape chosen child) he h
    -- The branch enters the child of the first name, which is the one that `u` is below.
    · obtain ⟨l', r', hsplit⟩ := List.append_of_mem hs
      rw [children_mk] at hsplit
      have hnames := hwf.names _ (self_mem_preorder _)
      rw [children_mk, hsplit] at hnames
      rw [he, hsplit, List.cons_append, Approach.down, select, named_append hnames] at chosen
      simp only [Except.ok.injEq, Prod.mk.injEq] at chosen
      obtain ⟨rfl, hcons⟩ := List.append_inj hsplit chosen.1.symm
      cases hcons
      obtain ⟨u', hin, hact⟩ := ih (hwf.of_child hs) chosen.2.symm hu' htrail'
      exact ⟨u', mem_preorder_of_child (by simp) hin, hact⟩

/-- The way down to a node enters it as the target. -/
theorem Activates.exists_target {entry : Approach} {t t' : Tree}
    (h : Activates choose before entry t t') {names : List String} {recalls : Recall} {u : Tree}
    (hwf : t.WellFormed) (he : entry = .down names recalls) (hu : u ∈ t.preorder)
    (htrail : u.node.trail = t.node.trail ++ names) :
    ∃ u' ∈ t'.preorder, Activates choose before (.target recalls) u u' := by
  have hway : entry = .down (names ++ []) recalls := by rw [he, List.append_nil]
  exact h.exists_way hwf hway hu htrail

/-- What is not active after an activation was left by it, or was not active before it. -/
theorem Activates.exists_deactivate_eq {entry : Approach} {t t' : Tree}
    (h : Activates choose before entry t t') : ∀ u' ∈ t'.preorder, u'.isActive = false →
      ∃ u ∈ t.preorder, u.deactivate = u' := by
  induction h with
  | leaf shape =>
    intro u' hu' ha
    obtain rfl : u' = _ := by simpa [preorder_mk] using hu'
    simp at ha
  | parallel shape length children ih =>
    intro u' hu' ha
    rcases mem_preorder_iff.mp hu' with rfl | ⟨c', hc', hu'⟩
    · simp at ha
    · obtain ⟨c, hc⟩ := exists_mem_zip_right length hc'
      obtain ⟨u, hu, heq⟩ := ih c c' hc u' hu' ha
      exact ⟨u, mem_preorder_of_child (List.of_mem_zip hc).1 hu, heq⟩
  | branch shape chosen child ih =>
    intro u' hu' ha
    rcases mem_preorder_iff.mp hu' with rfl | ⟨s', hs', hin⟩
    · simp at ha
    · rcases mem_append_cons_iff.mp hs' with rfl | hs'
      · obtain ⟨u, hu, heq⟩ := ih u' hin ha
        exact ⟨u, mem_preorder_of_child (by simp) hu, heq⟩
      · rw [← List.map_append] at hs'
        obtain ⟨s, hs, rfl⟩ := List.mem_map.mp hs'
        rw [deactivate_eq] at hin
        obtain ⟨u, hu, rfl⟩ := mem_preorder_mapActivity.mp hin
        exact ⟨u, mem_preorder_of_child (mem_append_cons_iff.mpr (Or.inr hs)) hu, deactivate_eq u⟩

end

/-! ### Activations of compiled trees -/

variable {D : Type} {d : Design D} {id : String} {c : Compiled D}

theorem wellFormed_of_compile (hc : d.compile id = .ok c) {t : Tree} (ht : t.plain = c.tree) :
    t.WellFormed := by
  refine WellFormed.of_mapActivity (f := fun _ => {}) ?_
  rw [show t.mapActivity _ = c.tree from ht]
  exact (Design.tree_of_compile hc).1

theorem trail_of_compile (hc : d.compile id = .ok c) {t : Tree} (ht : t.plain = c.tree) :
    t.node.trail = [] := by
  rw [← node_mapActivity fun _ => {}, show t.mapActivity _ = c.tree from ht]
  exact (Design.tree_of_compile hc).2.2.1

/-- **Legal configurations.** A successful activation of the tree of a compiled design,
whatever was active in it before, leaves a legal configuration, in which the target of the
activation is active with all above it; and no node, and no child of a branch, is looked up
where there is none. -/
theorem activate_legal (hc : d.compile id = .ok c) {t : Tree} (ht : t.plain = c.tree) :
    (∀ (choose : Chooser) (before : Nat → Bool) (entry : Approach) (t' : Tree),
      activate choose before entry t = (t', none) →
        t'.Legal ∧ t'.plain = c.tree ∧
          ∀ n ∈ t.preorder, ∀ recalls, entry = .down n.node.trail recalls →
            ∀ v ∈ t'.preorder, (∃ w ∈ v.preorder, w.node = n.node) → v.isActive = true) ∧
      ∀ u ∈ t.preorder, u.node.index < t.size ∧ t.find? u.node.index = some u ∧
        ∀ rule, u.node.shape = .branch rule →
          ∀ (choose : Chooser) (a : Activity) (wasActive : Bool) (entry entry' : Approach)
            (i : Nat), select choose rule a wasActive u.children entry = .ok (i, entry') →
              i < u.children.length := by
  have hwf := wellFormed_of_compile hc ht
  constructor
  · intro choose before entry t' h
    have hact := activates_of_activate hwf h
    have hlegal := hact.settled.legal
    have hplain : t'.plain = c.tree := hact.plain_eq.trans ht
    refine ⟨hlegal, hplain, fun n hn recalls hentry v hv hw => ?_⟩
    obtain ⟨w, hw, hwn⟩ := hw
    -- A node above the target that was not active would have the target below it inactive.
    obtain ⟨n', hn', htarget⟩ := hact.exists_target hwf hentry hn
      (by rw [trail_of_compile hc ht, List.nil_append])
    have heq : w = n' := (wellFormed_of_compile hc hplain).eq_of_index_eq
      (mem_preorder_trans hv hw) hn' (by rw [hwn, htarget.node_eq])
    cases hva : v.isActive with
    | true => rfl
    | false =>
      have hwa := hlegal.inactive v hv hva w hw
      rw [heq, htarget.settled.isActive] at hwa
      cases hwa
  · intro u hu
    refine ⟨?_, hwf.find?_eq_some_iff.mpr ⟨hu, rfl⟩, fun rule hs choose a wasActive entry entry' i
      h => select_lt (hwf.branches u hu rule hs) h⟩
    have hlt := (Design.tree_of_compile hc).2.2.2 u.plain
      (ht ▸ mem_preorder_mapActivity.mpr ⟨u, hu, rfl⟩)
    rw [← ht, size_mapActivity, node_mapActivity] at hlt
    exact hlt

end Tree

/-- A device that is off or on; when it is on, its fan runs and its lamp is dim or bright. -/
def Design.device : Design Unit where
  id := none
  data := ()
  host := .empty
  root := .mk { initial := some (.child "off") } [
    ("off", .mk {} []),
    ("on", .mk {} [
      ("lamp", .mk { initial := some (.child "dim") } [("dim", .mk {} []), ("bright", .mk {} [])]),
      ("fan", .mk {} [])])]

theorem Design.compile_device : device.compile "m" = .ok (device.build "m") :=
  compile_eq_ok_iff.mpr ⟨by decide, rfl⟩

/-- An activation of the device from a configuration that is not legal: all is active, and
its branches remember children that there are not. -/
theorem Tree.activate_legal_device :
    let t := (Design.device.build "m").tree.mapActivity fun _ =>
      { active := true, history := ["x"] }
    let choose := (⟨(Design.device.build "m").table, .null⟩ : Context Unit).initialChild ()
    let after := activate choose t.wasActive (.down ["on", "lamp", "bright"] .restore) t
    t.plain = (Design.device.build "m").tree ∧ ¬ t.Legal ∧ after.2 = none ∧ after.1.Legal ∧
      after.1.activePaths = ["m", "m.on", "m.on.lamp", "m.on.lamp.bright", "m.on.fan"] := by
  intro t choose after
  have ht : t.plain = (Design.device.build "m").tree := rfl
  have hafter : after = (after.1, none) := Prod.ext rfl (by decide)
  have hlegal := ((activate_legal Design.compile_device ht).1 _ _ _ _ hafter).1
  refine ⟨ht, fun h => ?_, congrArg Prod.snd hafter, hlegal, by decide⟩
  obtain ⟨c, hc⟩ := h.branch t t.self_mem_preorder rfl _ rfl
  cases hc

end Statechart
