/-
# How long a lease lasts

An operation on a tree enters a node in some way, or leaves it. Whether it succeeds or ends
halfway, it does at most one thing to each node (`Tree.Touch.rel`): none is left and entered
again. So a node that is active before and after an operation is in the same generation, and one
that has been left is in a later one for good. A lease is current for as long as its node has
been active since the lease was taken, and no longer (`Tree.isCurrent_after_iff`).

Key definitions: `Tree.Touch`, `Tree.after`.
Key theorems: `Tree.rel_change`, `Tree.Touch.rel`, `Tree.Rel.isCurrent_iff`,
`Tree.isCurrent_after_iff`.
-/
import Statechart.Proofs.Activation
import Statechart.Proofs.Generations

namespace Statechart
namespace Tree

/-! ### Operations on a tree -/

/-- The node at a place is entered, in some way, or left. -/
inductive Touch where
  | activate (choose : Chooser) (before : Nat → Bool) (index : Nat) (entry : Approach)
  | deactivate (index : Nat)

/-- The tree that an operation leaves, also when it fails. -/
def Touch.apply (t : Tree) : Touch → Tree
  | activate choose before index entry => (t.activateAt choose before index entry).1
  | deactivate index => t.deactivateAt index

/-- The tree after the first `k` of some operations. -/
def after (t : Tree) (ops : List Touch) (k : Nat) : Tree := (ops.take k).foldl Touch.apply t

/-! ### What one operation does -/

theorem changeAll_fst (index : Nat) (f : Tree → Tree × Option FunctionError) :
    ∀ ts : List Tree, (changeAll index f ts).1 = ts.map fun t => (change index f t).1
  | [] => rfl
  | t :: ts => by rw [changeAll, List.map_cons, ← changeAll_fst index f ts]

/-- To change the node at a place keeps all others. -/
theorem rel_change {R : Activity → Activity → Prop} (hR : ∀ a, R a a)
    {f : Tree → Tree × Option FunctionError} (hf : ∀ u, Rel R u (f u).1) (index : Nat) (t : Tree) :
    Rel R t (t.change index f).1 := by
  induction t using Tree.induction with
  | mk n a cs ih =>
    unfold change
    by_cases hindex : n.index = index
    · rw [if_pos hindex]
      exact hf _
    · rw [if_neg hindex]
      refine .of_forall₂ (hR a) ?_
      rw [changeAll_fst]
      exact List.forall₂_map_right_iff.mpr (List.forall₂_same.mpr ih)

/-- An operation keeps, enters or leaves each node, once. -/
theorem Touch.rel (t : Tree) (o : Touch) : Rel Activity.Turn t (o.apply t) := by
  have hkept : ∀ a : Activity, a.Turn a := fun _ => .kept
  cases o with
  | activate choose before index entry =>
    exact rel_change hkept (fun u => activate_rel u entry) index t
  | deactivate index => exact rel_change hkept rel_deactivate index t

/-- After an operation the leases that are current are those that were, of the nodes that are
still active. -/
theorem Rel.isCurrent_iff {t u : Tree} {l : Lease} (h : Rel Activity.Turn t u)
    (hl : l.generation ≤ (t.lease l.node).generation) :
    u.isCurrent l = true ↔ t.isCurrent l = true ∧ u.activeAt l.node = true := by
  have hlater : t.Later u := h.mono fun h => h.later
  constructor
  · intro hu
    exact ⟨hlater.isCurrent hl hu, (Tree.isCurrent_iff.mp hu).1⟩
  · rintro ⟨ht, hu⟩
    obtain ⟨hactive, hlease⟩ := Tree.isCurrent_iff.mp ht
    exact Tree.isCurrent_iff.mpr ⟨hu, (h.lease_eq hactive hu).trans hlease⟩

/-! ### Sequences of operations -/

/-- From one state to the next there is one operation, or none as all have been done. -/
theorem rel_after_succ (t : Tree) (ops : List Touch) (k : Nat) :
    Rel Activity.Turn (t.after ops k) (t.after ops (k + 1)) := by
  unfold after
  rw [List.take_add_one, List.foldl_append]
  cases ops[k]? with
  | none => exact rel_kept _
  | some o => exact o.rel _

theorem later_after (t : Tree) (ops : List Touch) {i j : Nat} (hij : i ≤ j) :
    (t.after ops i).Later (t.after ops j) := by
  induction hij with
  | refl => exact Later.rfl
  | @step j _ ih => exact ih.trans ((rel_after_succ t ops j).mono fun h => h.later)

/-- **Leases.** A lease that was taken in some state is current in a later one exactly if its
node was active when the lease was taken, and has been in every state since. -/
theorem isCurrent_after_iff (t : Tree) (ops : List Touch) {i j : Nat} (hij : i ≤ j) (index : Nat) :
    (t.after ops j).isCurrent ((t.after ops i).lease index) = true ↔
      ∀ k, i ≤ k → k ≤ j → (t.after ops k).activeAt index = true := by
  induction hij with
  | refl =>
    rw [isCurrent_iff]
    constructor
    · rintro ⟨hactive, -⟩ k hik hki
      obtain rfl : k = i := by omega
      exact hactive
    · intro h
      exact ⟨h i (Nat.le_refl i) (Nat.le_refl i), rfl⟩
  | @step j hij ih =>
    have hle := (later_after t ops hij).generation_le index
    rw [(rel_after_succ t ops j).isCurrent_iff hle, ih]
    constructor
    · rintro ⟨hsince, hnow⟩ k hik hkj
      by_cases hk : k ≤ j
      · exact hsince k hik hk
      · obtain rfl : k = j + 1 := by omega
        exact hnow
    · intro h
      have hsucc : i ≤ j + 1 := Nat.le_succ_of_le hij
      exact ⟨fun k hik hkj => h k hik (by omega), h (j + 1) hsucc (Nat.le_refl _)⟩

/-- A lease of the lamp of the device is taken when it is bright. It outlasts an activation of the
lamp that fails, and ends when the device is off. That the lamp is on again later does not bring
it back. -/
theorem isCurrent_after_device :
    let choose : Chooser :=
      (⟨(Design.device.build "m").table, .null⟩ : Context Unit).initialChild ()
    let fails : Chooser := fun _ => .error ⟨.initial, "reading", "no reading"⟩
    let ops : List Touch := [
      .activate choose (fun _ => false) 6 (.target .fresh),
      .activate choose (· == 6) 6 (.down ["on", "lamp", "bright"] .fresh),
      .activate fails (fun _ => true) 3 (.target .fresh), .deactivate 1,
      .activate choose (· == 6) 6 (.down ["off"] .fresh),
      .activate choose (· == 6) 6 (.down ["on"] .restore)]
    let state := (Design.device.build "m").tree.after ops
    let taken := (state 2).lease 3
    (state 4).isCurrent taken = true ∧ (state 6).activeAt 3 = true ∧
      (state 6).isCurrent taken = false := by
  intro choose fails ops state taken
  refine ⟨?_, by decide, ?_⟩
  · refine (isCurrent_after_iff _ ops (by decide : 2 ≤ 4) 3).mpr fun k hk hk' => ?_
    obtain rfl | rfl | rfl : k = 2 ∨ k = 3 ∨ k = 4 := by omega
    all_goals decide
  · rw [← Bool.not_eq_true, isCurrent_after_iff _ ops (by decide : 2 ≤ 6) 3]
    intro h
    have hoff : (state 5).activeAt 3 = false := by decide
    rw [h 5 (by decide) (by decide)] at hoff
    cases hoff

end Tree
end Statechart
