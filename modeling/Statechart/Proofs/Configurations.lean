/-
# Configurations of machines

On its way down a transition makes a branch active before it decides which child of the
branch to enter. When the initial rule fails there, the activation ends where it is
(`Tree.Fails`), and a branch that was not active before is left with no active child. A
machine is in a legal configuration until that happens (`Machine.Arises.legal_or_stranded`),
and is not in one right after it (`Machine.legal_move_iff`). At no time is its configuration
less than orderly (`Tree.Orderly`): a branch has at most one active child, and nothing is
active below a node that is not.

Key definitions: `Tree.Fails`, `Tree.Orderly`, `Machine.Strands`.
Key theorems: `Tree.fails_of_activate`, `Tree.Fails.legal_iff`, `Tree.Fails.orderly`,
`Machine.legal_move_iff`, `Machine.Reached.legal_until_stranded`.
-/
import Statechart.Proofs.Reached

namespace Statechart
namespace Tree

/-! ### Activations that fail -/

/-- Entering the tree fails and leaves another, as the initial rule of the branch `u` gives
an error. What comes before that branch has been entered, and what comes after it has not. -/
inductive Fails (choose : Chooser) (before : Nat → Bool) (e : FunctionError) :
    Approach → Tree → Tree → Tree → Prop
  | here {entry : Approach} {n : Node} {a : Activity} {rule : InitialRule} {cs : List Tree}
    (shape : n.shape = .branch rule)
    (chosen : select choose rule a.enter (before n.index) cs entry = .error e) :
    Fails choose before e entry (mk n a cs) (mk n a.enter cs) (mk n a cs)
  | parallel {entry : Approach} {n : Node} {a : Activity} {l l' r : List Tree} {c c' u : Tree}
    (shape : n.shape = .parallel) (length : l.length = l'.length)
    (entered : ∀ d d', (d, d') ∈ l.zip l' →
      Activates choose before (entry.region d.node.name) d d')
    (child : Fails choose before e (entry.region c.node.name) c c' u) :
    Fails choose before e entry (mk n a (l ++ c :: r)) (mk n a.enter (l' ++ c' :: r)) u
  | branch {entry entry' : Approach} {n : Node} {a : Activity} {rule : InitialRule}
    {l r : List Tree} {c c' u : Tree} (shape : n.shape = .branch rule)
    (chosen : select choose rule a.enter (before n.index) (l ++ c :: r) entry =
      .ok (l.length, entry'))
    (child : Fails choose before e entry' c c' u) :
    Fails choose before e entry (mk n a (l ++ c :: r))
      (mk n (a.enter.remember c.node.name) (l.map deactivate ++ c' :: r.map deactivate)) u

section

variable {choose : Chooser} {before : Nat → Bool} {e : FunctionError}

theorem activateAll_eq_error {entry : Approach} {cs cs' : List Tree}
    (h : activateAll choose before entry cs = (cs', some e)) :
    ∃ l c r l' c', cs = l ++ c :: r ∧ cs' = l' ++ c' :: r ∧ l.length = l'.length ∧
      (∀ d d', (d, d') ∈ l.zip l' →
        activate choose before (entry.region d.node.name) d = (d', none)) ∧
      activate choose before (entry.region c.node.name) c = (c', some e) := by
  induction cs generalizing cs' with
  | nil => cases h
  | cons t ts ih =>
    rw [activateAll] at h
    split at h
    · rename_i t' e' ht
      cases h
      exact ⟨[], t, ts, [], t', rfl, rfl, rfl, fun _ _ hd => (List.not_mem_nil hd).elim, ht⟩
    · rename_i t' ht
      simp only [Prod.mk.injEq] at h
      obtain ⟨rfl, hts⟩ := h
      obtain ⟨l, c, r, l', c', rfl, hts', hlength, hall, hc⟩ := ih (Prod.ext rfl hts)
      refine ⟨t :: l, c, r, t' :: l', c', rfl, congrArg (t' :: ·) hts', congrArg Nat.succ hlength,
        fun d d' hd => ?_, hc⟩
      rcases List.mem_cons.mp hd with heq | hd
      · cases heq
        exact ht
      · exact hall d d' hd

/-- What an activation does when it fails. -/
theorem fails_of_activate {t : Tree} : ∀ {entry : Approach} {t' : Tree}, t.WellFormed →
    activate choose before entry t = (t', some e) → ∃ u, Fails choose before e entry t t' u := by
  induction t using Tree.induction with
  | mk n a cs ih =>
    intro entry t' hwf h
    rw [activate] at h
    cases hs : n.shape with
    | leaf =>
      rw [hs] at h
      cases h
    | parallel =>
      rw [hs] at h
      simp only [Prod.mk.injEq] at h
      obtain ⟨rfl, hsome⟩ := h
      obtain ⟨l, c, r, l', c', rfl, hcs', hlength, hall, hc⟩ :=
        activateAll_eq_error (Prod.ext rfl hsome)
      obtain ⟨u, hu⟩ := ih c (by simp) (hwf.of_child (by simp)) hc
      rw [show Prod.fst (activateAll choose before entry (l ++ c :: r)) = _ from hcs']
      refine ⟨u, .parallel hs hlength (fun d d' hd => ?_) hu⟩
      have hmem : d ∈ l ++ c :: r := List.mem_append_left _ (List.of_mem_zip hd).1
      exact activates_of_activate (hwf.of_child hmem) (hall d d' hd)
    | branch rule =>
      rw [hs] at h
      simp only at h
      split at h
      · rename_i hsel
        cases h
        exact ⟨_, .here hs hsel⟩
      · rename_i i entry' hsel
        obtain ⟨l, c, r, rfl, rfl⟩ := exists_split
          (select_lt (hwf.branches _ (self_mem_preorder _) rule hs) hsel)
        rw [activateOnly_append] at h
        simp only [Prod.mk.injEq] at h
        obtain ⟨rfl, hsome⟩ := h
        obtain ⟨u, hu⟩ := ih c (by simp) (hwf.of_child (by simp)) (Prod.ext rfl hsome)
        exact ⟨u, by simpa using Fails.branch hs hsel hu⟩

namespace Fails

variable {entry : Approach} {t t' u : Tree}

theorem mem (h : Fails choose before e entry t t' u) : u ∈ t.preorder := by
  induction h with
  | here => exact self_mem_preorder _
  | parallel _ _ _ _ ih => exact mem_preorder_of_child (by simp) ih
  | branch _ _ _ ih => exact mem_preorder_of_child (by simp) ih

theorem isActive (h : Fails choose before e entry t t' u) : t'.isActive = true := by
  cases h <;> simp

/-- The branch is made active, and that is all. -/
theorem entered (h : Fails choose before e entry t t' u) :
    mk u.node u.activity.enter u.children ∈ t'.preorder ∧ ∃ rule, u.node.shape = .branch rule := by
  induction h with
  | here shape => exact ⟨self_mem_preorder _, _, shape⟩
  | parallel _ _ _ _ ih => exact ⟨mem_preorder_of_child (by simp) ih.1, ih.2⟩
  | branch _ _ _ ih => exact ⟨mem_preorder_of_child (by simp) ih.1, ih.2⟩

/-- The error is one that an initial rule of the tree gave. -/
theorem exists_rule (h : Fails choose before e entry t t' u) :
    ∃ rule, u.node.shape = .branch rule ∧ choose rule = .error e := by
  induction h with
  | @here entry n a rule cs shape chosen =>
    refine ⟨rule, shape, ?_⟩
    have hinitial : ∀ {entry : Approach},
        (initialIndex choose rule cs).map (·, entry) = .error e → choose rule = .error e := by
      intro entry h
      unfold initialIndex at h
      split at h
      · rename_i e' hrule
        cases h
        exact hrule
      · cases h
    unfold select at chosen
    split at chosen
    · split at chosen
      · cases chosen
      · exact hinitial chosen
    · dsimp only at chosen
      split at chosen
      · cases chosen
      · exact hinitial chosen
    · dsimp only at chosen
      split at chosen
      · cases chosen
      · cases chosen
      · exact hinitial chosen
  | parallel _ _ _ _ ih => exact ih
  | branch _ _ _ ih => exact ih

end Fails

end

/-! ### Orderly configurations -/

/-- A branch has at most one active child, and nothing is active below a node that is not. -/
structure Orderly (t : Tree) : Prop where
  branch : ∀ u ∈ t.preorder, ∀ rule, u.node.shape = .branch rule →
    (u.children.filter isActive).length ≤ 1
  inactive : ∀ u ∈ t.preorder, u.isActive = false → u.Dormant

theorem Dormant.of_mem {t u : Tree} (h : t.Dormant) (hu : u ∈ t.preorder) : u.Dormant :=
  fun v hv => h v (mem_preorder_trans hu hv)

theorem Dormant.filter_children {t : Tree} (h : t.Dormant) : t.children.filter isActive = [] :=
  List.filter_eq_nil_iff.mpr fun c hc => by
    simp [h c (mem_preorder_of_child hc c.self_mem_preorder)]

theorem Dormant.orderly {t : Tree} (h : t.Dormant) : t.Orderly where
  branch u hu _ _ := by
    rw [(h.of_mem hu).filter_children]
    exact Nat.zero_le 1
  inactive u hu _ := h.of_mem hu

theorem Legal.orderly {t : Tree} (h : t.Legal) : t.Orderly where
  branch u hu rule hs := by
    cases ha : u.isActive with
    | true =>
      obtain ⟨c, hc⟩ := h.branch u hu ha rule hs
      rw [hc]
      exact Nat.le_refl 1
    | false =>
      rw [Dormant.filter_children (h.inactive u hu ha)]
      exact Nat.zero_le 1
  inactive u hu ha := h.inactive u hu ha

theorem Orderly.of_mem {t u : Tree} (h : t.Orderly) (hu : u ∈ t.preorder) : u.Orderly where
  branch v hv := h.branch v (mem_preorder_trans hu hv)
  inactive v hv := h.inactive v (mem_preorder_trans hu hv)

/-- A tree is orderly at its root and in its children. -/
theorem orderly_mk {n : Node} {a : Activity} {cs : List Tree}
    (branch : ∀ rule, n.shape = .branch rule → (cs.filter isActive).length ≤ 1)
    (active : a.active = true) (children : ∀ c ∈ cs, c.Orderly) : (mk n a cs).Orderly where
  branch u hu rule hs := by
    rcases mem_preorder_iff.mp hu with rfl | ⟨c, hc, hu⟩
    · exact branch rule hs
    · exact (children c hc).branch u hu rule hs
  inactive u hu ha := by
    rcases mem_preorder_iff.mp hu with rfl | ⟨c, hc, hu⟩
    · cases ha.symm.trans active
    · exact (children c hc).inactive u hu ha

/-- In an orderly configuration every active node is reached through active nodes. -/
theorem Orderly.activeNodes_eq {t : Tree} (h : t.Orderly) :
    t.activeNodes = t.preorder.filter isActive := by
  induction t using Tree.induction with
  | mk n a cs ih =>
    have hchildren : cs.flatMap activeNodes = (cs.flatMap preorder).filter isActive := by
      rw [List.filter_flatMap]
      exact List.flatMap_congr fun c hc =>
        ih c hc (h.of_mem (mem_preorder_of_child hc c.self_mem_preorder))
    rw [activeNodes, activeNodesAll_eq, preorder_mk]
    cases ha : a.active with
    | true =>
      have hroot : (Tree.mk n a cs).isActive = true := ha
      rw [if_pos rfl, List.filter_cons_of_pos hroot, hchildren]
    | false =>
      have hdormant := h.inactive _ (self_mem_preorder _) ha
      rw [if_neg Bool.false_ne_true, ← preorder_mk, eq_comm, List.filter_eq_nil_iff]
      exact fun u hu => by simp [hdormant u hu]

/-- An activation that fails leaves an orderly configuration orderly. -/
theorem Fails.orderly {choose : Chooser} {before : Nat → Bool} {e : FunctionError}
    {entry : Approach} {t t' u : Tree} (h : Fails choose before e entry t t' u)
    (ht : t.Orderly) : t'.Orderly := by
  have child : ∀ {n : Node} {a : Activity} {cs : List Tree}, (mk n a cs).Orderly →
      ∀ c ∈ cs, c.Orderly := fun h c hc => h.of_mem (mem_preorder_of_child hc c.self_mem_preorder)
  induction h with
  | here shape _ =>
    exact orderly_mk (ht.branch _ (self_mem_preorder _)) (Activity.active_enter _) (child ht)
  | @parallel entry n a l l' r c c' u shape length entered _ ih =>
    refine orderly_mk (fun rule hs => nomatch shape.symm.trans hs) (Activity.active_enter _)
      fun d hd => ?_
    rcases List.mem_append.mp hd with hd | hd
    · obtain ⟨d₀, hzip⟩ := exists_mem_zip_right length hd
      exact (entered d₀ d hzip).settled.legal.orderly
    · rcases List.mem_cons.mp hd with rfl | hd
      · exact ih (child ht c (by simp))
      · exact child ht d (by simp [hd])
  | @branch entry entry' n a rule l r c c' u shape _ hfails ih =>
    have hothers := dormant_of_mem_map_deactivate (l := l) (r := r)
    refine orderly_mk (fun _ _ => ?_) (by simp) fun d hd => ?_
    · rw [filter_isActive_of_dormant hfails.isActive hothers]
      exact Nat.le_refl 1
    · rcases mem_append_cons_iff.mp hd with rfl | hd
      · exact ih (child ht c (by simp))
      · exact (hothers d hd).orderly

/-! ### Legal configurations -/

/-- A tree is legal at its root, and legal or dormant in its children. -/
theorem legal_mk {n : Node} {a : Activity} {cs : List Tree} (active : a.active = true)
    (branch : ∀ rule, n.shape = .branch rule → ∃ c, cs.filter isActive = [c])
    (parallel : n.shape = .parallel → ∀ c ∈ cs, c.isActive = true)
    (children : ∀ c ∈ cs, c.Legal ∨ c.Dormant) : (mk n a cs).Legal := by
  have below : ∀ u ∈ (mk n a cs).preorder, u = mk n a cs ∨
      ∃ c ∈ cs, u ∈ c.preorder ∧ (c.Legal ∨ u.Dormant) := by
    intro u hu
    rcases mem_preorder_iff.mp hu with rfl | ⟨c, hc, hu⟩
    · exact Or.inl rfl
    · exact Or.inr ⟨c, hc, hu, (children c hc).imp_right fun h => h.of_mem hu⟩
  have dormant : ∀ {u : Tree}, u.Dormant → u.isActive = true → False := fun h ha => by
    rw [h _ (self_mem_preorder _)] at ha
    cases ha
  refine ⟨active, fun u hu ha rule hs => ?_, fun u hu ha hs => ?_, fun u hu ha => ?_⟩
  · rcases below u hu with rfl | ⟨c, -, hu, hc | hd⟩
    · exact branch rule hs
    · exact hc.branch u hu ha rule hs
    · exact (dormant hd ha).elim
  · rcases below u hu with rfl | ⟨c, -, hu, hc | hd⟩
    · exact parallel hs
    · exact hc.parallel u hu ha hs
    · exact (dormant hd ha).elim
  · rcases below u hu with rfl | ⟨c, -, hu, hc | hd⟩
    · cases ha.symm.trans active
    · exact hc.inactive u hu ha
    · exact hd

/-- A node of a legal tree is legal if it is active, and otherwise dormant. -/
theorem Legal.legal_or_dormant {t u : Tree} (h : t.Legal) (hu : u ∈ t.preorder) :
    u.isActive = true ∧ u.Legal ∨ u.isActive = false ∧ u.Dormant := by
  cases ha : u.isActive with
  | true =>
    refine Or.inl ⟨rfl, ha, fun v hv => ?_, fun v hv => ?_, fun v hv => ?_⟩
    · exact h.branch v (mem_preorder_trans hu hv)
    · exact h.parallel v (mem_preorder_trans hu hv)
    · exact h.inactive v (mem_preorder_trans hu hv)
  | false => exact Or.inr ⟨rfl, h.inactive u hu ha⟩

theorem Legal.of_active {t c u : Tree} (h : t.Legal) (hc : c ∈ t.children) (hu : u ∈ c.preorder)
    (ha : u.isActive = true) : c.Legal := by
  rcases h.legal_or_dormant (mem_preorder_of_child hc c.self_mem_preorder) with ⟨-, h⟩ | ⟨-, hd⟩
  · exact h
  · cases ha.symm.trans (hd u hu)

/-- An activation that fails in a branch that was active leaves a legal configuration legal:
the branch keeps the child it had. -/
theorem Fails.legal {choose : Chooser} {before : Nat → Bool} {e : FunctionError}
    {entry : Approach} {t t' u : Tree} (h : Fails choose before e entry t t' u) (ht : t.Legal)
    (ha : u.isActive = true) : t'.Legal := by
  induction h with
  | @here entry n a rule cs shape _ =>
    -- To enter a branch that is active changes nothing.
    rw [show a.enter = a from if_pos ha]
    exact ht
  | @parallel entry n a l l' r c c' u shape length entered hfails ih =>
    -- The regions before the failure are settled, and those after it are as they were.
    have hc' := ih (ht.of_active (by simp) hfails.mem ha) ha
    have hchildren : ∀ d ∈ l' ++ c' :: r, d.Legal := by
      intro d hd
      rcases List.mem_append.mp hd with hd | hd
      · obtain ⟨d₀, hzip⟩ := exists_mem_zip_right length hd
        exact (entered d₀ d hzip).settled.legal
      · rcases List.mem_cons.mp hd with rfl | hd
        · exact hc'
        · have hd' : d ∈ l ++ c :: r := by simp [hd]
          have hactive := ht.parallel _ (self_mem_preorder _) ht.root shape d hd'
          exact ht.of_active hd' d.self_mem_preorder hactive
    exact legal_mk (Activity.active_enter _) (fun _ hs => nomatch shape.symm.trans hs)
      (fun _ d hd => (hchildren d hd).root) fun d hd => Or.inl (hchildren d hd)
  | @branch entry entry' n a rule l r c c' u shape _ hfails ih =>
    have hc' := ih (ht.of_active (by simp) hfails.mem ha) ha
    have hothers := dormant_of_mem_map_deactivate (l := l) (r := r)
    refine legal_mk (by simp) (fun _ _ => ?_) (fun hs => nomatch shape.symm.trans hs) fun d hd => ?_
    · exact ⟨c', filter_isActive_of_dormant hfails.isActive hothers⟩
    · rcases mem_append_cons_iff.mp hd with rfl | hd
      · exact Or.inl hc'
      · exact Or.inr (hothers d hd)

/-- A failure leaves a legal configuration legal just when the branch was active before. -/
theorem Fails.legal_iff {choose : Chooser} {before : Nat → Bool} {e : FunctionError}
    {entry : Approach} {t t' u : Tree} (h : Fails choose before e entry t t' u) (ht : t.Legal) :
    t'.Legal ↔ u.isActive = true := by
  refine ⟨fun ht' => ?_, h.legal ht⟩
  obtain ⟨hmem, rule, hshape⟩ := h.entered
  obtain ⟨c, hc⟩ := ht'.branch _ hmem (Activity.active_enter _) rule hshape
  rcases ht.legal_or_dormant h.mem with ⟨ha, -⟩ | ⟨-, hd⟩
  · exact ha
  · rw [children_mk, hd.filter_children] at hc
    cases hc

/-- An active branch with no active child. -/
def isStranded (t : Tree) : Bool :=
  match t.node.shape with
  | .branch _ => t.isActive && t.children.all fun c => !c.isActive
  | _ => false

theorem not_legal_of_isStranded {t : Tree} (h : t.preorder.any isStranded = true) : ¬ t.Legal := by
  intro ht
  obtain ⟨u, hu, h⟩ := List.any_eq_true.mp h
  unfold isStranded at h
  split at h
  · rename_i rule hshape
    obtain ⟨ha, hchildren⟩ := Bool.and_eq_true_iff.mp h
    obtain ⟨c, hc⟩ := ht.branch u hu ha rule hshape
    have hmem : c ∈ u.children.filter isActive := hc ▸ List.mem_singleton.mpr rfl
    obtain ⟨hin, hactive⟩ := List.mem_filter.mp hmem
    have hinactive := List.all_eq_true.mp hchildren c hin
    rw [hactive] at hinactive
    cases hinactive
  · cases h

end Tree

/-! ### Configurations of machines -/

namespace Machine

variable {D : Type} {m : Machine D} {design : Design D} {settings : Settings} {fresh : String}

/-- A transition fails at a branch that is not active, and leaves the tree `t`. -/
def Strands (m : Machine D) (target : Tree) (recalls : Recall) (payload : Json) (t : Tree) : Prop :=
  ∃ e u,
    m.tree.activate (m.chooser payload) m.tree.wasActive (.down target.node.trail recalls) =
      (t, some e) ∧
    Tree.Fails (m.chooser payload) m.tree.wasActive e (.down target.node.trail recalls) m.tree t u ∧
    u.isActive = false

theorem legal_activate_iff (hm : m.tree.WellFormed) (hlegal : m.tree.Legal) (target : Tree)
    (recalls : Recall) (payload : Json) :
    (m.tree.activate (m.chooser payload) m.tree.wasActive
      (.down target.node.trail recalls)).1.Legal ↔ ∀ t, ¬ m.Strands target recalls payload t := by
  cases h : m.tree.activate (m.chooser payload) m.tree.wasActive
      (.down target.node.trail recalls) with
  | mk t failure =>
    cases failure with
    | none =>
      refine iff_of_true (Tree.activates_of_activate hm h).settled.legal ?_
      rintro t' ⟨e, u, h', -⟩
      cases h.symm.trans h'
    | some e =>
      obtain ⟨u, hu⟩ := Tree.fails_of_activate hm h
      constructor
      · rintro ht t' ⟨e', u', h', hu', ha⟩
        cases h.symm.trans h'
        cases ha.symm.trans ((hu'.legal_iff hlegal).mp ht)
      · intro hstrands
        refine (hu.legal_iff hlegal).mpr ?_
        by_cases ha : u.isActive = true
        · exact ha
        · exact absurd ⟨e, u, h, hu, Bool.not_eq_true _ ▸ ha⟩ (hstrands t)

/-- A transition from a legal configuration ends in one, unless it fails at a branch that is
not active: then it never does. -/
theorem legal_move_iff (hm : m.tree.WellFormed) (hlegal : m.tree.Legal) {target : Tree}
    (mem : target ∈ m.tree.preorder) (recalls : Recall) (payload : Json) (event : String) :
    (m.move target recalls payload event).1.tree.Legal ↔
      ∀ t, ¬ m.Strands target recalls payload t := by
  rw [move_tree mem]
  exact legal_activate_iff hm hlegal target recalls payload

/-- A change of a legal configuration leaves a legal one, or is a transition that fails at a
branch that is not active. -/
theorem Change.legal_or_strands {m' : Machine D} (h : Change m m') (hm : m.tree.WellFormed)
    (hlegal : m.tree.Legal) :
    m'.tree.Legal ∨ ∃ target ∈ m.tree.preorder, ∃ recalls payload t,
      m.Strands target recalls payload t ∧ m' = { m with tree := t }.note (.reached t) := by
  cases h with
  | act h =>
    cases h with
    | chore h => exact Or.inl (h.tree_eq ▸ hlegal)
    | @fall payload target recalls t e mem h =>
      obtain ⟨u, hu⟩ := Tree.fails_of_activate hm h
      by_cases ha : u.isActive = true
      · exact Or.inl (hu.legal hlegal ha)
      · have hinactive : u.isActive = false := Bool.not_eq_true _ ▸ ha
        exact Or.inr ⟨target, mem, recalls, payload, t, ⟨e, u, h, hu, hinactive⟩, rfl⟩
    | move mem h => exact Or.inl (Tree.activates_of_activate hm h).settled.legal
  | unsubscribe s =>
    unfold Machine.unsubscribe
    dsimp only
    split <;> exact Or.inl hlegal
  | _ => exact Or.inl hlegal

/-- What a transition leads to is orderly, if the machine was before. -/
theorem Enters.orderly {t : Tree} (hm : m.tree.WellFormed) (h : m.Enters t)
    (horderly : m.tree.Orderly) : t.isActive = true ∧ t.Orderly := by
  obtain ⟨target, -, recalls, payload, rfl⟩ := h
  cases h : m.tree.activate (m.chooser payload) m.tree.wasActive
      (.down target.node.trail recalls) with
  | mk t failure =>
    cases failure with
    | none =>
      have hsettled := (Tree.activates_of_activate hm h).settled
      exact ⟨hsettled.isActive, hsettled.legal.orderly⟩
    | some e =>
      obtain ⟨u, hu⟩ := Tree.fails_of_activate hm h
      exact ⟨hu.isActive, hu.orderly horderly⟩

theorem legal_begin {id : String} {c : Compiled D} {tree : Tree}
    (hc : design.compile id = .ok c) (htree : Begins c design.data tree) : tree.Legal :=
  (Tree.activates_of_activate (Design.tree_of_compile hc).1 htree).settled.legal

namespace Arises

/-- The root of a machine is active, and its configuration orderly, at all times. -/
theorem orderly (h : Arises design settings fresh m) :
    m.tree.isActive = true ∧ m.tree.Orderly := by
  obtain ⟨c, tree, hc, htree, hchanges⟩ := h
  induction hchanges with
  | refl =>
    have hlegal := legal_begin hc htree
    exact ⟨hlegal.root, hlegal.orderly⟩
  | tail hbefore hstep ih =>
    have hm := (Changes.faithful hbefore (faithful_begin hc htree)).wellFormed
    rcases hstep.tree_cases with heq | henters
    · rw [heq]
      exact ih
    · exact henters.orderly hm ih.2

/-- A machine is in a legal configuration, or comes of one in which a transition failed at a
branch that was not active. -/
theorem legal_or_stranded (h : Arises design settings fresh m) :
    m.tree.Legal ∨ ∃ m₁, Arises design settings fresh m₁ ∧ m₁.tree.Legal ∧
      ∃ target ∈ m₁.tree.preorder, ∃ recalls payload t, m₁.Strands target recalls payload t ∧
        Changes ({ m₁ with tree := t }.note (.reached t)) m := by
  obtain ⟨c, tree, hc, htree, hchanges⟩ := h
  induction hchanges with
  | refl => exact Or.inl (legal_begin hc htree)
  | @tail m₁ m' hbefore hstep ih =>
    have harises : Arises design settings fresh m₁ := ⟨c, tree, hc, htree, hbefore⟩
    rcases ih with hlegal | ⟨m₀, hm₀, hlegal, target, mem, recalls, payload, t, hstrands, hchanges⟩
    · rcases hstep.legal_or_strands harises.faithful.wellFormed hlegal with
        hlegal' | ⟨target, mem, recalls, payload, t, hstrands, rfl⟩
      · exact Or.inl hlegal'
      · exact Or.inr ⟨m₁, harises, hlegal, target, mem, recalls, payload, t, hstrands, .refl⟩
    · exact Or.inr ⟨m₀, hm₀, hlegal, target, mem, recalls, payload, t, hstrands,
        hchanges.trans hstep.changes⟩

/-- Where no initial rule can fail, a machine is in a legal configuration at all times. -/
theorem legal_of_decides (h : Arises design settings fresh m) {c : Compiled D}
    (hc : design.compile (design.id.getD fresh) = .ok c)
    (decides : ∀ u ∈ c.tree.preorder, ∀ rule, u.node.shape = .branch rule →
      ∀ data payload e, (⟨c.table, payload⟩ : Context D).initialChild data rule ≠ .error e) :
    m.tree.Legal := by
  refine h.legal_or_stranded.resolve_right ?_
  rintro ⟨m₁, hm₁, -, target, -, recalls, payload, t, ⟨e, u, -, hfails, -⟩, -⟩
  obtain ⟨-, -, htable, hplain⟩ := hm₁.compiled hc
  obtain ⟨rule, hshape, hrule⟩ := hfails.exists_rule
  have hmem : u.plain ∈ c.tree.preorder := by
    rw [← hplain]
    exact Tree.mem_preorder_mapActivity.mpr ⟨u, hfails.mem, rfl⟩
  refine decides u.plain hmem rule (by rwa [Tree.node_mapActivity]) m₁.data payload e ?_
  rw [← htable]
  exact hrule

end Arises

/-- **Configurations.** After any operations the root of a machine is active, each branch has
at most one active child, and nothing is active below a node that is not. The configuration
is legal, or the machine comes of one in which a transition failed at a branch that was not
active; a transition from a legal configuration, within any operation, leaves one that is not
legal just when it fails so; and where no initial rule can fail the configuration is always
legal. -/
theorem Reached.legal_until_stranded (h : Reached design settings fresh m) :
    (m.tree.isActive = true ∧ m.tree.Orderly) ∧
    (m.tree.Legal ∨ ∃ m₁, Arises design settings fresh m₁ ∧ m₁.tree.Legal ∧
      ∃ target ∈ m₁.tree.preorder, ∃ recalls payload t, m₁.Strands target recalls payload t ∧
        Changes ({ m₁ with tree := t }.note (.reached t)) m) ∧
    (∀ m₁, Arises design settings fresh m₁ → m₁.tree.Legal → ∀ target ∈ m₁.tree.preorder,
      ∀ recalls payload event, (m₁.move target recalls payload event).1.tree.Legal ↔
        ∀ t, ¬ m₁.Strands target recalls payload t) ∧
    ∀ c, design.compile (design.id.getD fresh) = .ok c →
      (∀ u ∈ c.tree.preorder, ∀ rule, u.node.shape = .branch rule → ∀ data payload e,
        (⟨c.table, payload⟩ : Context D).initialChild data rule ≠ .error e) → m.tree.Legal := by
  refine ⟨h.arises.orderly, h.arises.legal_or_stranded, ?_, fun c hc decides => ?_⟩
  · intro m₁ hm₁ hlegal target mem recalls payload event
    exact legal_move_iff hm₁.faithful.wellFormed hlegal mem recalls payload event
  · exact h.arises.legal_of_decides hc decides

end Machine

/-- A door that is shut or open. How far it opens it asks of a sensor, which is broken. -/
def Design.door : Design Unit where
  id := none
  data := ()
  host := .empty
  root := .mk { initial := some (.child "shut") } [
    ("shut", .mk { on := [("OPEN", .one (.handler { targets := [.path "open"] } none none))] } []),
    ("open", .mk
      { initial := some (.decision [.inline fun _ _ _ => .error "no reading"] {} (some "ajar")
          none none) }
      [("ajar", .mk {} [])])]

namespace Machine

/-- The door rests open, but not ajar nor anything else. -/
theorem door_rests_stranded :
    ∃ m, create Design.door {} "m" = .ok m ∧ m.snapshot.active = ["m", "m.shut"] ∧
      (m.send ⟨"OPEN", .null⟩).2 =
        some (.eval "OPEN" ⟨.initial, "<inline result>", "no reading"⟩) ∧
      (m.send ⟨"OPEN", .null⟩).1.snapshot.active = ["m", "m.open"] ∧
      ¬ (m.send ⟨"OPEN", .null⟩).1.tree.Legal := by
  refine ⟨_, rfl, by decide +kernel, by decide +kernel, by decide +kernel, ?_⟩
  exact Tree.not_legal_of_isStranded (by decide +kernel)

/-- At the door a transition has failed at a branch that was not active. -/
theorem legal_until_stranded_door :
    ∃ m, Reached Design.door {} "m" m ∧ m.snapshot.active = ["m", "m.open"] ∧ m.tree.Orderly ∧
      ∃ m₁ : Machine Unit, m₁.tree.Legal ∧ ∃ target ∈ m₁.tree.preorder, ∃ recalls payload t,
        m₁.Strands target recalls payload t := by
  obtain ⟨m, hcreate, hactive, hstranded⟩ : ∃ m, create Design.door {} "m" = .ok m ∧
      (m.send ⟨"OPEN", .null⟩).1.snapshot.active = ["m", "m.open"] ∧
      (m.send ⟨"OPEN", .null⟩).1.tree.preorder.any Tree.isStranded = true :=
    ⟨_, rfl, by decide +kernel, by decide +kernel⟩
  have hreached : Reached Design.door {} "m" (m.send ⟨"OPEN", .null⟩).1 :=
    (Reached.of_create hcreate).steps (.single (.send m _))
  obtain ⟨⟨-, horderly⟩, hor, -⟩ := hreached.legal_until_stranded
  obtain ⟨m₁, -, hlegal, target, mem, recalls, payload, t, hstrands, -⟩ :=
    hor.resolve_left (Tree.not_legal_of_isStranded hstranded)
  exact ⟨_, hreached, hactive, horderly, m₁, hlegal, target, mem, recalls, payload, t, hstrands⟩

end Machine
end Statechart
