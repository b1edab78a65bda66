/-
# Guards

Four clauses over conditions decide whether a handler or an initial rule passes:
all of the first hold, at least one of the second, none of the third, and not all
of the fourth. An empty clause holds.

Key definitions: `Guards`, `Guards.check`.
Key theorems: `Guards.check_iff`.
-/

namespace Statechart

/-- Conditions by their place in the table, clause by clause. -/
structure Guards where
  all : List Nat := []
  any : List Nat := []
  noneOf : List Nat := []
  notAll : List Nat := []
deriving DecidableEq

namespace Guards

/-- No clause has a condition. -/
def isEmpty (g : Guards) : Bool :=
  g.all.isEmpty && g.any.isEmpty && g.noneOf.isEmpty && g.notAll.isEmpty

/-- The clauses hold when `holds` says which conditions do. -/
def check (g : Guards) (holds : Nat → Bool) : Bool :=
  g.all.all holds && (g.any.isEmpty || g.any.any holds) && !g.noneOf.any holds &&
    (g.notAll.isEmpty || !g.notAll.all holds)

theorem check_iff (g : Guards) (holds : Nat → Bool) :
    g.check holds = true ↔
      (∀ c ∈ g.all, holds c = true) ∧ (g.any ≠ [] → ∃ c ∈ g.any, holds c = true) ∧
        (∀ c ∈ g.noneOf, holds c = false) ∧ (g.notAll ≠ [] → ∃ c ∈ g.notAll, holds c = false) := by
  simp only [check, Bool.and_eq_true, Bool.or_eq_true, List.all_eq_true, List.any_eq_true,
    List.isEmpty_iff, Bool.not_eq_true', List.any_eq_false, List.all_eq_false, Bool.not_eq_true,
    and_assoc]
  refine and_congr_right' (and_congr ⟨fun h hne => h.resolve_left hne, fun h => ?_⟩
    (and_congr_right' ⟨fun h hne => h.resolve_left hne, fun h => ?_⟩))
  · exact Classical.byCases Or.inl fun hne => Or.inr (h hne)
  · exact Classical.byCases Or.inl fun hne => Or.inr (h hne)

theorem check_of_isEmpty {g : Guards} (h : g.isEmpty = true) (holds : Nat → Bool) :
    g.check holds = true := by
  simp only [isEmpty, Bool.and_eq_true, List.isEmpty_iff] at h
  obtain ⟨⟨⟨h1, h2⟩, h3⟩, h4⟩ := h
  simp [check, h1, h2, h3, h4]

end Guards
end Statechart
