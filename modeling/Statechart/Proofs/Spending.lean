/-
# What a step spends

A step has a budget of transitions and one of events. The journal tells what was spent of them:
every transition begins with an activation, which leads to a tree whether or not it fails
(`Journal.activated`), and every event that is handled is written down. The tree of the machine
changes with the activations alone (`Machine.Spends`). Running chains spends nothing, and neither
does entering or leaving nodes; a transition spends one activation, however it ends
(`Machine.Passage.spends`), and an event is one event (`Machine.answer_spends`).

Key definitions: `Journal.activated`, `Machine.Spends`.
Key theorems: `Machine.Arranges.spends`, `Machine.Passage.spends`, `Machine.answer_spends`,
`Machine.flush_spends`.
-/
import Statechart.Proofs.EventOrder
import Statechart.Proofs.Failures

namespace Statechart

variable {D : Type}

namespace Happening

/-- An activation led to a tree. -/
def isReached : Happening D → Bool
  | reached _ => true
  | _ => false

theorem isReached_of_arranges {e : Happening D} (h : e.arranges = true) : e.isReached = false := by
  cases e <;> first | rfl | cases h

theorem handled?_of_arranges {e : Happening D} (h : e.arranges = true) : e.handled? = none := by
  cases e <;> first | rfl | cases h

end Happening

namespace Journal

/-- How many activations there were. -/
def activated (es : List (Happening D)) : Nat := es.countP (·.isReached)

@[simp] theorem activated_append (late early : List (Happening D)) :
    activated (late ++ early) = activated early + activated late := by
  rw [activated, List.countP_append, Nat.add_comm, activated, activated]

@[simp] theorem lastTree_append (late early : List (Happening D)) :
    lastTree (late ++ early) = (lastTree late).or (lastTree early) := by
  induction late with
  | nil => rfl
  | cons e late ih => cases e <;> first | rfl | exact ih

theorem lastTree_eq_none {es : List (Happening D)} (h : ∀ e ∈ es, e.isReached = false) :
    lastTree es = none := by
  induction es with
  | nil => rfl
  | cons e es ih =>
    have hfirst := h e List.mem_cons_self
    have hrest := ih fun e' he' => h e' (List.mem_cons_of_mem e he')
    cases e <;> first | exact hrest | cases hfirst

end Journal

namespace Machine

variable {m m' : Machine D}

/-- So many activations and events are written, the tree is the one that the last of these
activations led to, and the settings are the same. -/
def Spends (m m' : Machine D) (activations events : Nat) : Prop :=
  m'.settings = m.settings ∧ ∃ es, m'.journal = es ++ m.journal ∧
    m'.tree = (Journal.lastTree es).getD m.tree ∧
    Journal.activated es = activations ∧ (Journal.handled es).length = events

theorem Spends.refl (m : Machine D) : Spends m m 0 0 := ⟨rfl, [], rfl, rfl, rfl, rfl⟩

theorem Spends.trans {m₁ m₂ m₃ : Machine D} {a b h k : Nat} (first : Spends m₁ m₂ a h)
    (second : Spends m₂ m₃ b k) : Spends m₁ m₃ (a + b) (h + k) := by
  obtain ⟨hsettings, es, hjournal, htree, hactivated, hhandled⟩ := first
  obtain ⟨ksettings, fs, kjournal, ktree, kactivated, khandled⟩ := second
  refine ⟨ksettings.trans hsettings, fs ++ es, ?_, ?_, ?_, ?_⟩
  · rw [kjournal, hjournal, List.append_assoc]
  · rw [ktree, htree, Journal.lastTree_append]
    cases Journal.lastTree fs <;> rfl
  · rw [Journal.activated_append, hactivated, kactivated]
  · rw [Journal.handled_append, List.length_append, hhandled, khandled]

/-- One thing is written that is neither an activation nor an event. -/
theorem Spends.of_note {e : Happening D} (settings : m'.settings = m.settings)
    (tree : m'.tree = m.tree) (journal : m'.journal = e :: m.journal)
    (reached : e.isReached = false) (handled : e.handled? = none) : Spends m m' 0 0 := by
  refine ⟨settings, [e], journal, ?_, ?_, ?_⟩
  · rw [Journal.lastTree_eq_none (List.forall_mem_singleton.mpr reached)]
    exact tree
  · simp [Journal.activated, reached]
  · simp [Journal.handled, handled]

/-- What is only arranged spends nothing. -/
theorem Arranges.spends (h : Arranges m m') (settings : m'.settings = m.settings)
    (tree : m'.tree = m.tree) : Spends m m' 0 0 := by
  obtain ⟨late, hjournal, hlate⟩ := h
  have hreached : ∀ e ∈ late, e.isReached = false := fun e he =>
    Happening.isReached_of_arranges (hlate e he)
  refine ⟨settings, late, hjournal, ?_, ?_, ?_⟩
  · rw [Journal.lastTree_eq_none hreached]
    exact tree
  · refine List.countP_eq_zero.mpr fun e he => ?_
    rw [hreached e he]
    exact Bool.false_ne_true
  · refine List.length_eq_zero_iff.mpr (List.filterMap_eq_nil_iff.mpr fun e he => ?_)
    exact Happening.handled?_of_arranges (hlate e (List.mem_reverse.mp he))

theorem flush_spends (m : Machine D) : Spends m m.flush 0 0 := by
  obtain ⟨owed, journal, heq⟩ := flush_eq m
  exact (flush_arranges m).spends (by rw [heq]) (by rw [heq])

theorem commit_spends (m : Machine D) (payload : Json) (runs : List (Lease × Run D)) :
    Spends m (m.commit payload runs) 0 0 := by
  have hnote : Spends m (m.note (.committed (runs.flatMap fun r => r.2.passed))) 0 0 :=
    .of_note rfl rfl rfl rfl rfl
  obtain ⟨data, owed, queue, journal, heq⟩ := commit_eq m payload runs
  exact hnote.trans ((commit_arranges m payload runs).spends (by rw [heq]; rfl) (by rw [heq]; rfl))

theorem execute_spends (m : Machine D) (index : Nat) (role : Role) (payload : Json)
    (event : String) (run : Context D → WorkingCopy D → Run D) :
    Spends m (m.execute index role payload event run).1 0 0 := by
  have hran : Spends m (m.note (.ran (m.tree.lease index) role m.timeline.now)) 0 0 :=
    .of_note rfl rfl rfl rfl rfl
  rcases m.execute_cases index role payload event run with ⟨e, heq⟩ | ⟨r, heq⟩ <;> rw [heq]
  · exact hran
  · exact hran.trans (commit_spends _ payload _)

theorem spends_lasts : Lasts fun m m' : Machine D => Spends m m' 0 0 where
  refl := .refl
  trans h k := h.trans k
  run m index role payload event chain :=
    execute_spends m index role payload event fun ctx copy => ctx.run chain copy
  abandon _ _ _ := ⟨rfl, [], rfl, rfl, rfl, rfl⟩
  defer _ _ _ _ _ := .of_note rfl rfl rfl rfl rfl

/-- A transition is one activation, wherever it fails. -/
theorem Passage.spends {target : Tree} {recalls : Recall} {payload : Json} {event : String}
    {r : Machine D × Except MachineError (List Request)}
    (h : Passage m target recalls payload event r) : Spends m r.1 1 0 := by
  rcases spends_lasts.passage h with ⟨tree, heq⟩ | ⟨tree, hafter⟩
  · rw [heq]
    exact ⟨rfl, [.reached tree], rfl, rfl, rfl, rfl⟩
  · have harrive : Spends m (m.arrive target recalls tree) 1 0 :=
      ⟨rfl, [.moved (m.transition target recalls tree), .reached tree], rfl, rfl, rfl, rfl⟩
    exact harrive.trans hafter

/-- To answer an event is one event, whether or not a chain fails. -/
theorem answer_spends (m : Machine D) (e : Event) : Spends m (m.answer e).1 0 1 := by
  have hnote : Spends m (m.note (.handled e)) 0 1 := ⟨rfl, [.handled e], rfl, rfl, rfl, rfl⟩
  unfold answer
  split
  · exact hnote
  · exact hnote.trans (commit_spends _ e.payload _)

end Machine
end Statechart
