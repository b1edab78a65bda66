/-
# Entering what is active

A tree that an activation has left is settled, and a branch of a settled tree remembers last the
child that it has. To enter such a tree again below the target or beside the way changes nothing
(`Tree.Settled.stays`), whatever its initial rules are and whether it is to be restored or not:
each branch keeps its child, or goes back to it through its history, which is the same child. To
enter it again in the way in which it has just been entered changes nothing either
(`Tree.Activates.stays`): where the first time an initial rule was asked the second time it gives
the same child, or the branch has a child by now.

Key definitions: `Activity.Unmoved`, `Tree.knownIndex`, `Tree.Stays`.
Key theorems: `Tree.select_eq`, `Tree.Settled.stays`, `Tree.Activates.stays`,
`Tree.activate_again`.
-/
import Statechart.Proofs.Configurations
import Statechart.Proofs.History

namespace Statechart

/-- As it was, but for the generation of what is not active. -/
structure Activity.Unmoved (a b : Activity) : Prop where
  active : b.active = a.active
  history : b.history = a.history
  generation : a.active = true → b.generation = a.generation

theorem Activity.Unmoved.refl (a : Activity) : a.Unmoved a := ⟨rfl, rfl, fun _ => rfl⟩

/-- How a branch that is entered in this way enters its child, if it is known which child it is
without the initial rule, and if the rule was asked. -/
def Approach.below (known : Bool) : Approach → Approach
  | toward _ names recalls => if known then down names recalls else within false
  | target recalls => within (recalls = .restore)
  | within restore => within restore

namespace Tree

/-- The tree as it was, but for the generations of the nodes that are not active. -/
abbrev Unmoved : Tree → Tree → Prop := Rel Activity.Unmoved

theorem unmoved_refl (t : Tree) : t.Unmoved t := .refl Activity.Unmoved.refl t

theorem Unmoved.map_node_activeNodes {t u : Tree} (h : t.Unmoved u) :
    u.activeNodes.map Tree.node = t.activeNodes.map Tree.node := by
  induction h with
  | @node n a b cs ds hab length children ih =>
    rw [activeNodes, activeNodes, hab.active]
    by_cases ha : a.active = true
    · rw [if_pos ha, if_pos ha, activeNodesAll_eq, activeNodesAll_eq, List.map_cons, List.map_cons,
        List.map_flatMap, List.map_flatMap, List.flatMap_def, List.flatMap_def]
      have hchildren := map_eq_map_of_zip length fun c d hcd => (ih c d hcd).symm
      exact congrArg (n :: ·.flatten) hchildren.symm
    · rw [if_neg ha, if_neg ha]

/-- To leave what is not active anyway. -/
theorem Dormant.unmoved_deactivate {t : Tree} (h : t.Dormant) : t.Unmoved t.deactivate := by
  rw [deactivate_eq]
  refine rel_mapActivity_of_mem fun u hu => ?_
  have hinactive : u.activity.active = false := h u hu
  exact ⟨hinactive.symm, rfl, fun ha => nomatch hinactive.symm.trans ha⟩

/-! ### The child of a branch -/

/-- The child that a branch enters without asking its initial rule: the one on the way, or the
one that it is to recall, or the one that it has. -/
def knownIndex (activity : Activity) (wasActive : Bool) (children : List Tree) :
    Approach → Option Nat
  | .toward name _ _ => named children name
  | .target recalls => if recalls = .fresh then none else historyIndex activity children
  | .within restore =>
    (if restore then historyIndex activity children else none).or
      (if wasActive then children.findIdx? isActive else none)

/-- A branch asks its initial rule only if it is not known otherwise which child to enter. -/
theorem select_eq (choose : Chooser) (initial : InitialRule) (a : Activity) (wasActive : Bool)
    (cs : List Tree) (entry : Approach) :
    select choose initial a wasActive cs entry =
      match knownIndex a wasActive cs entry with
      | some i => .ok (i, entry.below true)
      | none => (initialIndex choose initial cs).map (·, entry.below false) := by
  cases entry with
  | toward name names recalls =>
    unfold select knownIndex
    cases named cs name <;> rfl
  | target recalls =>
    unfold select knownIndex
    dsimp only
    cases (if recalls = .fresh then none else historyIndex a cs) <;> rfl
  | within restore =>
    unfold select knownIndex
    dsimp only
    cases (if restore then historyIndex a cs else none) <;>
      cases (if wasActive then cs.findIdx? isActive else none) <;> rfl

theorem findIdx?_isActive {l r : List Tree} {c : Tree} (hc : c.isActive = true)
    (others : ∀ s ∈ l ++ r, s.Dormant) : (l ++ c :: r).findIdx? isActive = some l.length := by
  have hleft : l.findIdx? isActive = none := by
    rw [List.findIdx?_eq_none_iff]
    exact fun s hs => others s (List.mem_append_left r hs) s s.self_mem_preorder
  rw [List.findIdx?_append, hleft, List.findIdx?_cons, if_pos hc]
  simp

/-- A branch that remembers its active child last goes on with it. -/
theorem knownIndex_within {a : Activity} {l r : List Tree} {c : Tree} (restore : Bool)
    (latest : a.history.getLast? = some c.node.name)
    (names : ((l ++ c :: r).map (·.node.name)).Nodup) (hc : c.isActive = true)
    (others : ∀ s ∈ l ++ r, s.Dormant) :
    knownIndex a true (l ++ c :: r) (.within restore) = some l.length := by
  cases restore with
  | true =>
    have hhistory := historyIndex_of_latest latest rfl names
    simp only [knownIndex, if_true, hhistory, Option.some_or]
  | false =>
    have hactive := findIdx?_isActive hc others
    simp only [knownIndex, if_true, Bool.false_eq_true, if_false, hactive, Option.none_or]

/-! ### Nodes that stay as they are -/

variable {choose : Chooser} {before : Nat → Bool}

/-- Entering the tree succeeds, and leaves it unmoved. -/
def Stays (choose : Chooser) (before : Nat → Bool) (entry : Approach) (t : Tree) : Prop :=
  ∃ t', activate choose before entry t = (t', none) ∧ t.Unmoved t'

theorem Stays.failure_eq {entry : Approach} {t : Tree} (h : Stays choose before entry t) :
    (activate choose before entry t).2 = none := by
  obtain ⟨t', heq, -⟩ := h
  rw [heq]

theorem stays_leaf {entry : Approach} {n : Node} {a : Activity} {cs : List Tree}
    (shape : n.shape = .leaf) (active : a.active = true) :
    Stays choose before entry (mk n a cs) := by
  have henter : a.enter = a := if_pos active
  refine ⟨mk n a cs, ?_, unmoved_refl _⟩
  rw [activate, shape, henter]

theorem exists_activateAll_unmoved {entry : Approach} : ∀ {cs : List Tree},
    (∀ c ∈ cs, Stays choose before (entry.region c.node.name) c) →
      ∃ cs', activateAll choose before entry cs = (cs', none) ∧ List.Forall₂ Unmoved cs cs'
  | [], _ => ⟨[], rfl, .nil⟩
  | c :: cs, h => by
    obtain ⟨hc, hcs⟩ := List.forall_mem_cons.mp h
    obtain ⟨c', heq, hrel⟩ := hc
    obtain ⟨cs', heqs, hrels⟩ := exists_activateAll_unmoved hcs
    exact ⟨c' :: cs', by rw [activateAll, heq, heqs], .cons hrel hrels⟩

/-- A parallel node stays as it is if all its children do. -/
theorem stays_parallel {entry : Approach} {n : Node} {a : Activity} {cs : List Tree}
    (shape : n.shape = .parallel) (active : a.active = true)
    (children : ∀ c ∈ cs, Stays choose before (entry.region c.node.name) c) :
    Stays choose before entry (mk n a cs) := by
  have henter : a.enter = a := if_pos active
  obtain ⟨cs', heq, hrel⟩ := exists_activateAll_unmoved children
  refine ⟨mk n a cs', ?_, .of_forall₂ (.refl a) hrel⟩
  rw [activate, shape, henter, heq]

/-- A branch stays as it is if it goes on with its child, and the child does. -/
theorem stays_branch {entry entry' : Approach} {n : Node} {a : Activity} {rule : InitialRule}
    {l r : List Tree} {c : Tree} (shape : n.shape = .branch rule) (active : a.active = true)
    (latest : a.history.getLast? = some c.node.name) (others : ∀ s ∈ l ++ r, s.Dormant)
    (chosen : select choose rule a (before n.index) (l ++ c :: r) entry = .ok (l.length, entry'))
    (child : Stays choose before entry' c) : Stays choose before entry (mk n a (l ++ c :: r)) := by
  have henter : a.enter = a := if_pos active
  have hremember : a.remember c.node.name = a := if_pos latest
  have hget : (l ++ c :: r)[l.length]? = some c := by simp
  obtain ⟨c', heq, hrel⟩ := child
  refine ⟨mk n a (l.map deactivate ++ c' :: r.map deactivate), ?_, .of_forall₂ (.refl a) ?_⟩
  · rw [activate, shape, henter]
    simp only [chosen, hget, Option.map_some, Option.elim_some, hremember, activateOnly_append, heq]
  · have hleft : ∀ {ts : List Tree}, (∀ s ∈ ts, s.Dormant) →
        List.Forall₂ Unmoved ts (ts.map deactivate) := fun hts =>
      List.forall₂_map_right_iff.mpr (List.forall₂_same.mpr fun s hs => (hts s hs).unmoved_deactivate)
    exact List.rel_append (hleft fun s hs => others s (List.mem_append_left r hs))
      (.cons hrel (hleft fun s hs => others s (List.mem_append_right l hs)))

/-! ### Settled trees -/

/-- A settled tree stays as it is when it is entered below the target or beside the way. -/
theorem Settled.stays {t : Tree} (h : t.Settled) (restore : Bool) : t.WellFormed →
    (∀ u ∈ t.preorder, u.isActive = true → before u.node.index = true) →
      Stays choose before (.within restore) t := by
  induction h with
  | leaf shape active => exact fun _ _ => stays_leaf shape active
  | parallel shape active _ ih =>
    intro hwf hbefore
    refine stays_parallel shape active fun c hc => ih c hc (hwf.of_child hc) fun u hu => ?_
    exact hbefore u (mem_preorder_of_child hc hu)
  | @branch n a rule l r c shape active latest child others ih =>
    intro hwf hbefore
    have hnames := hwf.names _ (self_mem_preorder _)
    have hhere : before n.index = true := hbefore _ (self_mem_preorder _) active
    have hc : c ∈ (mk n a (l ++ c :: r)).children := by simp
    have hchild : Stays choose before (.within restore) c :=
      ih (hwf.of_child hc) fun u hu => hbefore u (mem_preorder_of_child hc hu)
    refine stays_branch shape active latest others ?_ hchild
    rw [select_eq, hhere, knownIndex_within restore latest hnames child.isActive others]
    rfl

/-- What was active in a settled tree before a transition from it. -/
theorem Settled.wasActive {t u : Tree} (h : t.Settled) (hu : u ∈ t.preorder)
    (ha : u.isActive = true) : t.wasActive u.node.index = true := by
  rw [Tree.wasActive, h.legal.orderly.activeNodes_eq, List.any_eq_true]
  exact ⟨u, List.mem_filter.mpr ⟨hu, ha⟩, beq_self_eq_true _⟩

/-! ### The same activation again -/

/-- A branch that has entered a child, and by now has it and remembers it last, enters it again
in the same way. -/
theorem select_again {rule : InitialRule} {a : Activity} {wasActive : Bool}
    {l r l' r' : List Tree} {c c' : Tree} {entry entry' : Approach}
    (chosen : select choose rule a wasActive (l ++ c :: r) entry = .ok (l.length, entry'))
    (length : l'.length = l.length)
    (same : (l' ++ c' :: r').map (·.node.name) = (l ++ c :: r).map (·.node.name))
    (names : ((l ++ c :: r).map (·.node.name)).Nodup) (hc : c'.isActive = true)
    (others : ∀ s ∈ l' ++ r', s.Dormant) :
    select choose rule (a.remember c'.node.name) true (l' ++ c' :: r') entry =
      .ok (l.length, entry') := by
  have hlatest := Activity.getLast?_history_remember a c'.node.name
  have hnames : ((l' ++ c' :: r').map (·.node.name)).Nodup := same ▸ names
  -- The child is found as before, or it is known by now and entered as if it had been known.
  have hknown : knownIndex (a.remember c'.node.name) true (l' ++ c' :: r') entry =
        knownIndex a wasActive (l ++ c :: r) entry ∨
      knownIndex (a.remember c'.node.name) true (l' ++ c' :: r') entry = some l.length ∧
        entry.below true = entry.below false := by
    cases entry with
    | toward name _ _ => exact Or.inl (named_congr same name)
    | target recalls =>
      by_cases hfresh : recalls = .fresh
      · exact Or.inl (by simp only [knownIndex, if_pos hfresh])
      · refine Or.inr ⟨?_, rfl⟩
        rw [← length, ← historyIndex_of_latest hlatest rfl hnames]
        exact if_neg hfresh
    | within restore =>
      refine Or.inr ⟨?_, rfl⟩
      rw [← length]
      exact knownIndex_within restore hlatest hnames hc others
  rw [select_eq] at chosen ⊢
  rw [initialIndex_congr choose rule same]
  rcases hknown with hknown | ⟨hknown, hbelow⟩
  · rw [hknown]
    exact chosen
  · rw [hknown]
    cases hfirst : knownIndex a wasActive (l ++ c :: r) entry with
    | some i =>
      rw [hfirst] at chosen
      cases chosen
      rfl
    | none =>
      rw [hfirst] at chosen
      cases hinitial : initialIndex choose rule (l ++ c :: r) with
      | error e =>
        rw [hinitial] at chosen
        cases chosen
      | ok i =>
        rw [hinitial] at chosen
        cases chosen
        rw [hbelow]

/-- What an activation has left stays as it is in the same activation. -/
theorem Activates.stays {before' : Nat → Bool} {entry : Approach} {t t' : Tree}
    (h : Activates choose before entry t t') : t.WellFormed →
      (∀ u ∈ t'.preorder, u.isActive = true → before' u.node.index = true) →
        Stays choose before' entry t' := by
  induction h with
  | leaf shape => exact fun _ _ => stays_leaf shape (Activity.active_enter _)
  | @parallel entry n a cs cs' shape length children ih =>
    intro hwf hbefore
    refine stays_parallel shape (Activity.active_enter _) fun c' hc' => ?_
    obtain ⟨c, hzip⟩ := exists_mem_zip_right length hc'
    rw [(children c c' hzip).node_eq]
    exact ih c c' hzip (hwf.of_child (List.of_mem_zip hzip).1) fun u hu =>
      hbefore u (mem_preorder_of_child hc' hu)
  | @branch entry entry' n a rule l r c c' shape chosen child ih =>
    intro hwf hbefore
    have hactive : (a.enter.remember c.node.name).active = true := by simp
    have hhere : before' n.index = true := hbefore _ (self_mem_preorder _) hactive
    have hothers := dormant_of_mem_map_deactivate (l := l) (r := r)
    have hleft : ∀ ts : List Tree, (ts.map deactivate).map (·.node.name) = ts.map (·.node.name) :=
      map_map_eq fun t => by rw [node_deactivate]
    have hsame : (l.map deactivate ++ c' :: r.map deactivate).map (·.node.name) =
        (l ++ c :: r).map (·.node.name) := by
      rw [List.map_append, List.map_cons, hleft, hleft, child.node_eq, List.map_append,
        List.map_cons]
    rw [← child.node_eq] at hactive ⊢
    have hc : c ∈ (mk n a (l ++ c :: r)).children := by simp
    have hchild : Stays choose before' entry' c' :=
      ih (hwf.of_child hc) fun u hu => hbefore u (mem_preorder_of_child (by simp) hu)
    refine stays_branch shape hactive (by simp) hothers ?_ hchild
    rw [hhere, List.length_map]
    exact select_again chosen (List.length_map ..) hsame (hwf.names _ (self_mem_preorder _))
      child.settled.isActive hothers

variable {D : Type} {d : Design D} {id : String} {c : Compiled D}

/-- **Repetition.** An activation of the tree of a compiled design that succeeds, in any state of
the tree, succeeds again at once, and then enters and leaves no node, adds to no history, and
leaves every active node in its generation. -/
theorem activate_again (hc : d.compile id = .ok c) {t t' : Tree} (ht : t.plain = c.tree)
    {entry : Approach} (h : t.activate choose before entry = (t', none)) :
    ∃ t'', t'.activate choose t'.wasActive entry = (t'', none) ∧
      t''.activeNodes.map Tree.node = t'.activeNodes.map Tree.node ∧ t'.Unmoved t'' := by
  have hwf := wellFormed_of_compile hc ht
  have hact := activates_of_activate hwf h
  obtain ⟨t'', heq, hunmoved⟩ := hact.stays hwf fun u hu ha => hact.settled.wasActive hu ha
  exact ⟨t'', heq, hunmoved.map_node_activeNodes, hunmoved⟩

/-- In a device of which all is active, and whose branches remember children that there are not,
the lamp is entered as its history has it. To do so again changes nothing. -/
theorem activate_again_device :
    let t := (Design.device.build "m").tree.mapActivity fun _ =>
      { active := true, history := ["x"] }
    let choose := (⟨(Design.device.build "m").table, .null⟩ : Context Unit).initialChild ()
    let once := (t.activate choose t.wasActive (.down ["on", "lamp"] .previous)).1
    once.activePaths = ["m", "m.on", "m.on.lamp", "m.on.lamp.dim", "m.on.fan"] ∧
      ∃ twice, once.activate choose once.wasActive (.down ["on", "lamp"] .previous) = (twice, none) ∧
        twice.activeNodes.map Tree.node = once.activeNodes.map Tree.node ∧
          once.Unmoved twice := by
  intro t choose once
  have ht : t.plain = (Design.device.build "m").tree := rfl
  have honce : t.activate choose t.wasActive (.down ["on", "lamp"] .previous) = (once, none) :=
    Prod.ext rfl (by decide)
  exact ⟨by decide, activate_again Design.compile_device ht honce⟩

end Tree
end Statechart
