/-
# Generations

An activation, whether it succeeds or not, does one of four things to each node: it keeps
the node as it is, enters it, enters it and remembers a child of it, or leaves it
(`Tree.activate_rel`). Each of these leaves the node in a later generation, or in the same
one and as active as it was. So a lease that was taken of a tree is current in a later one
only if it was current at all times between (`Tree.Later.isCurrent`).

Key definitions: `Activity.Turn`, `Activity.Later`, `Tree.Rel`, `Tree.Later`.
Key theorems: `Tree.activate_rel`, `Tree.Rel.plain_eq`, `Tree.Later.isCurrent`.
-/
import Mathlib.Data.List.Forall2
import Statechart.Proofs.Nodes

namespace Statechart

namespace Activity

/-- What an activation does to a node: nothing, or it enters it and may remember a child
of it, or it leaves it. -/
inductive Turn (a : Activity) : Activity → Prop
  | kept : Turn a a
  | entered : Turn a a.enter
  | chose (name : String) : Turn a (a.enter.remember name)
  | left : Turn a a.leave

/-- In a later generation, or in the same one and as active. -/
def Later (a b : Activity) : Prop :=
  a.generation < b.generation ∨ a.generation = b.generation ∧ a.active = b.active

theorem Later.refl (a : Activity) : a.Later a := Or.inr ⟨rfl, rfl⟩

theorem Later.trans {a b c : Activity} (h : a.Later b) (k : b.Later c) : a.Later c := by
  rcases h with h | ⟨hg, ha⟩ <;> rcases k with k | ⟨kg, ka⟩
  · exact Or.inl (Nat.lt_trans h k)
  · exact Or.inl (kg ▸ h)
  · exact Or.inl (hg ▸ k)
  · exact Or.inr ⟨hg.trans kg, ha.trans ka⟩

theorem Later.generation_le {a b : Activity} (h : a.Later b) : a.generation ≤ b.generation := by
  rcases h with h | ⟨h, -⟩ <;> omega

theorem Later.active_eq {a b : Activity} (h : a.Later b) (hg : b.generation ≤ a.generation) :
    a.active = b.active := by
  rcases h with h | ⟨-, h⟩
  · omega
  · exact h

theorem later_enter (a : Activity) : a.Later a.enter := by
  unfold enter
  split
  · exact .refl a
  · exact Or.inl (Nat.lt_succ_self _)

theorem later_remember (a : Activity) (name : String) : a.Later (a.remember name) := by
  unfold remember
  split
  · exact .refl a
  · exact Or.inr ⟨rfl, rfl⟩

theorem Turn.later {a b : Activity} (h : a.Turn b) : a.Later b := by
  cases h with
  | kept => exact .refl a
  | entered => exact later_enter a
  | chose name => exact (later_enter a).trans (later_remember _ name)
  | left => exact Or.inl (Nat.lt_succ_self _)

/-- A node that stays active stays in its generation. -/
theorem Turn.generation_eq {a b : Activity} (h : a.Turn b) (ha : a.active = true)
    (hb : b.active = true) : b.generation = a.generation := by
  have henter : a.enter = a := if_pos ha
  have hremember : ∀ name, (a.remember name).generation = a.generation := fun name => by
    unfold Activity.remember
    split <;> rfl
  cases h with
  | kept => rfl
  | entered => rw [henter]
  | chose name => rw [henter, hremember]
  | left => cases hb

end Activity

namespace Tree

/-! ### Trees with the same nodes -/

/-- The trees have the same nodes, and the two activities of each node are related. -/
inductive Rel (R : Activity → Activity → Prop) : Tree → Tree → Prop
  | node {n : Node} {a b : Activity} {cs ds : List Tree} (activity : R a b)
    (length : cs.length = ds.length) (children : ∀ c d, (c, d) ∈ cs.zip ds → Rel R c d) :
    Rel R (mk n a cs) (mk n b ds)

/-- A tree after another: each of its nodes is in a later generation than it was, or in
the same one and as active. -/
abbrev Later : Tree → Tree → Prop := Rel Activity.Later

namespace Rel

variable {R S : Activity → Activity → Prop}

theorem of_forall₂ {n : Node} {a b : Activity} {cs ds : List Tree} (activity : R a b)
    (children : List.Forall₂ (Rel R) cs ds) : Rel R (mk n a cs) (mk n b ds) :=
  .node activity children.length_eq fun _ _ h => (List.forall₂_iff_zip.mp children).2 h

theorem refl (hR : ∀ a, R a a) (t : Tree) : Rel R t t := by
  induction t using Tree.induction with
  | mk n a cs ih => exact .of_forall₂ (hR a) (List.forall₂_same.mpr ih)

theorem mono (hRS : ∀ {a b}, R a b → S a b) {t u : Tree} (h : Rel R t u) : Rel S t u := by
  induction h with
  | node activity length _ ih => exact .node (hRS activity) length ih

theorem trans (hR : ∀ a b c, R a b → R b c → R a c) {t u : Tree} (h : Rel R t u) :
    ∀ {v : Tree}, Rel R u v → Rel R t v := by
  induction h with
  | @node n a b cs ds activity length _ ih =>
    intro v hv
    cases hv with
    | @node _ _ c _ es activity' length' children' =>
      have first : List.Forall₂ (fun c d => ∀ {e}, Rel R d e → Rel R c e) cs ds :=
        List.forall₂_iff_zip.mpr ⟨length, fun h _ => ih _ _ h⟩
      have second : List.Forall₂ (Rel R) ds es :=
        List.forall₂_iff_zip.mpr ⟨length', fun h => children' _ _ h⟩
      exact .of_forall₂ (hR _ _ _ activity activity') (forall₂_comp (fun _ _ _ h k => h k) first second)

theorem node_eq {t u : Tree} (h : Rel R t u) : u.node = t.node := by
  cases h
  rfl

theorem activity {t u : Tree} (h : Rel R t u) : R t.activity u.activity := by
  cases h
  assumption

theorem plain_eq {t u : Tree} (h : Rel R t u) : u.plain = t.plain := by
  induction h with
  | node activity length _ ih =>
    rw [plain_mk, plain_mk]
    exact congrArg _ (map_eq_map_of_zip length fun c d hcd => (ih c d hcd).symm).symm

theorem forall₂_preorder {t u : Tree} (h : Rel R t u) :
    List.Forall₂ (Rel R) t.preorder u.preorder := by
  induction h with
  | @node n a b cs ds activity length children ih =>
    have hchildren : List.Forall₂ (fun c d => List.Forall₂ (Rel R) c.preorder d.preorder) cs ds :=
      List.forall₂_iff_zip.mpr ⟨length, fun h => ih _ _ h⟩
    rw [preorder_mk, preorder_mk]
    refine .cons (.node activity length children) ?_
    exact List.rel_flatMap hchildren fun _ _ h => h

/-- A place is that of no node in both trees, or that of the same one. -/
theorem find?_cases {t u : Tree} (h : Rel R t u) (index : Nat) :
    t.find? index = none ∧ u.find? index = none ∨
      ∃ v w, t.find? index = some v ∧ u.find? index = some w ∧ Rel R v w := by
  unfold find?
  have hall := h.forall₂_preorder
  generalize t.preorder = ts, u.preorder = us at hall
  induction hall with
  | nil => exact Or.inl ⟨rfl, rfl⟩
  | @cons v w _ _ hvw _ ih =>
    rw [List.find?_cons, List.find?_cons, hvw.node_eq]
    split
    · exact Or.inr ⟨v, w, rfl, rfl, hvw⟩
    · exact ih

end Rel

/-! ### What an activation does to each node -/

theorem rel_mapActivity_of_mem {R : Activity → Activity → Prop} {f : Activity → Activity}
    {t : Tree} : (∀ u ∈ t.preorder, R u.activity (f u.activity)) → Rel R t (t.mapActivity f) := by
  induction t using Tree.induction with
  | mk n a cs ih =>
    intro hf
    rw [mapActivity_mk]
    refine .of_forall₂ (hf _ (self_mem_preorder _)) (List.forall₂_map_right_iff.mpr ?_)
    refine List.forall₂_same.mpr fun c hc => ih c hc fun u hu => ?_
    exact hf u (mem_preorder_of_child hc hu)

theorem rel_deactivate (t : Tree) : Rel Activity.Turn t t.deactivate := by
  rw [deactivate_eq]
  exact rel_mapActivity_of_mem fun _ _ => .left

theorem rel_kept (t : Tree) : Rel Activity.Turn t t := .refl (fun _ => .kept) t

section

variable {choose : Chooser} {before : Nat → Bool}

theorem activateAll_rel (entry : Approach) : ∀ cs : List Tree,
    (∀ c ∈ cs, ∀ entry, Rel Activity.Turn c (activate choose before entry c).1) →
      List.Forall₂ (Rel Activity.Turn) cs (activateAll choose before entry cs).1
  | [], _ => .nil
  | t :: ts, h => by
    have ht := h t List.mem_cons_self (entry.region t.node.name)
    have hts := activateAll_rel entry ts fun c hc => h c (List.mem_cons_of_mem t hc)
    rw [activateAll]
    split
    · rename_i heq
      rw [heq] at ht
      exact .cons ht (List.forall₂_same.mpr fun c _ => rel_kept c)
    · rename_i heq
      rw [heq] at ht
      exact .cons ht hts

theorem activateOnly_rel (entry : Approach) : ∀ (i : Nat) (cs : List Tree),
    (∀ c ∈ cs, Rel Activity.Turn c (activate choose before entry c).1) →
      List.Forall₂ (Rel Activity.Turn) cs (activateOnly choose before entry i cs).1
  | _, [], _ => by
    rw [activateOnly]
    exact .nil
  | 0, t :: ts, h => by
    rw [activateOnly, deactivateAll_eq]
    refine .cons (h t List.mem_cons_self) (List.forall₂_map_right_iff.mpr ?_)
    exact List.forall₂_same.mpr fun c _ => rel_deactivate c
  | i + 1, t :: ts, h => by
    rw [activateOnly]
    refine .cons (rel_deactivate t) (activateOnly_rel entry i ts fun c hc => ?_)
    exact h c (List.mem_cons_of_mem t hc)

/-- An activation keeps, enters or leaves each node, also when it fails. -/
theorem activate_rel (t : Tree) : ∀ entry : Approach,
    Rel Activity.Turn t (activate choose before entry t).1 := by
  induction t using Tree.induction with
  | mk n a cs ih =>
    intro entry
    rw [activate]
    split
    · exact .of_forall₂ .entered (List.forall₂_same.mpr fun c _ => rel_kept c)
    · exact .of_forall₂ .entered (activateAll_rel entry cs ih)
    · split
      · exact .of_forall₂ .entered (List.forall₂_same.mpr fun c _ => rel_kept c)
      · rename_i i entry' _
        refine .of_forall₂ ?_ (activateOnly_rel entry' i cs fun c hc => ih c hc entry')
        cases cs[i]? with
        | none => exact .entered
        | some c => exact .chose c.node.name

theorem Later.rfl {t : Tree} : t.Later t := .refl Activity.Later.refl t

theorem Later.trans {t u v : Tree} (h : t.Later u) (k : u.Later v) : t.Later v :=
  Rel.trans (R := Activity.Later) (fun _ _ _ => Activity.Later.trans) h k

theorem later_activate (t : Tree) (entry : Approach) :
    t.Later (activate choose before entry t).1 := (activate_rel t entry).mono fun h => h.later

end

/-! ### Leases -/

/-- A lease that is current is the one that would be taken now. -/
theorem lease_eq_of_isCurrent {t : Tree} {l : Lease} (h : t.isCurrent l = true) :
    t.lease l.node = l := by
  unfold isCurrent at h
  cases hf : t.find? l.node with
  | none => simp [hf] at h
  | some u =>
    simp only [hf, Bool.and_eq_true, beq_iff_eq] at h
    obtain ⟨node, generation⟩ := l
    have hg : u.activity.generation = generation := h.2
    simp [lease, hf, hg]

/-- No lease of a node that is not active is current. -/
theorem isCurrent_of_activeAt {t : Tree} {l : Lease} (h : t.activeAt l.node = false) :
    t.isCurrent l = false := by
  unfold activeAt at h
  unfold isCurrent
  cases hf : t.find? l.node with
  | none => rfl
  | some u =>
    rw [hf] at h
    have hinactive : u.isActive = false := h
    simp [hinactive]

/-- A lease is current if its node is active and it is the one that would be taken now. -/
theorem isCurrent_iff {t : Tree} {l : Lease} :
    t.isCurrent l = true ↔ t.activeAt l.node = true ∧ t.lease l.node = l := by
  refine ⟨fun h => ⟨?_, lease_eq_of_isCurrent h⟩, fun ⟨hactive, hlease⟩ => ?_⟩
  · cases hactive : t.activeAt l.node with
    | true => rfl
    | false => exact (isCurrent_of_activeAt hactive).symm.trans h
  · unfold activeAt at hactive
    unfold isCurrent
    cases hfind : t.find? l.node with
    | none =>
      rw [hfind] at hactive
      cases hactive
    | some v =>
      rw [hfind] at hactive
      have hgeneration : v.activity.generation = l.generation := by
        rw [← hlease, lease, hfind]
        rfl
      have hv : v.isActive = true := hactive
      simp [hv, hgeneration]

/-- A node that is active before and after an activation keeps its lease. -/
theorem Rel.lease_eq {t u : Tree} {index : Nat} (h : Rel Activity.Turn t u)
    (ht : t.activeAt index = true) (hu : u.activeAt index = true) :
    u.lease index = t.lease index := by
  unfold activeAt at ht hu
  unfold lease
  rcases h.find?_cases index with ⟨hnone, -⟩ | ⟨v, w, hv, hw, hvw⟩
  · rw [hnone] at ht
    cases ht
  · rw [hv] at ht ⊢
    rw [hw] at hu ⊢
    exact congrArg (Lease.mk index) (hvw.activity.generation_eq ht hu)

theorem Later.generation_le {t u : Tree} (h : t.Later u) (index : Nat) :
    (t.lease index).generation ≤ (u.lease index).generation := by
  unfold lease
  rcases Rel.find?_cases h index with ⟨ht, hu⟩ | ⟨v, w, ht, hu, hvw⟩
  · exact Nat.le_of_eq (by rw [ht, hu])
  · rw [ht, hu]
    exact hvw.activity.generation_le

/-- A node that was active, and is in the same generation later, is active then. -/
theorem Later.activeAt {t u : Tree} {index : Nat} (h : t.Later u) (ht : t.activeAt index = true)
    (hle : (u.lease index).generation ≤ (t.lease index).generation) : u.activeAt index = true := by
  unfold lease at hle
  unfold Tree.activeAt at ht ⊢
  rcases Rel.find?_cases h index with ⟨hnone, -⟩ | ⟨v, w, hv, hw, hvw⟩
  · rw [hnone] at ht
    cases ht
  · rw [hv] at ht hle
    rw [hw] at hle ⊢
    have hactive : v.isActive = w.isActive := hvw.activity.active_eq hle
    exact hactive.symm.trans ht

/-- A lease that is current later, and was taken no later than now, is current now. -/
theorem Later.isCurrent {t u : Tree} (h : t.Later u) {l : Lease}
    (hl : l.generation ≤ (t.lease l.node).generation) (hu : u.isCurrent l = true) :
    t.isCurrent l = true := by
  unfold lease at hl
  unfold Tree.isCurrent at hu ⊢
  rcases Rel.find?_cases h l.node with ⟨ht, hu'⟩ | ⟨v, w, ht, hu', hvw⟩
  · rw [hu'] at hu
    cases hu
  · rw [ht] at hl ⊢
    simp only [hu', Bool.and_eq_true, beq_iff_eq] at hu
    simp only [Option.map_some, Option.getD_some] at hl
    have hle := hvw.activity.generation_le
    have hactive : v.isActive = w.isActive := hvw.activity.active_eq (by omega)
    simp only [Bool.and_eq_true, beq_iff_eq]
    exact ⟨hactive.trans hu.1, by omega⟩

end Tree
end Statechart
