/-
# Registries

A registry holds one entry per name, its names in increasing order. Entering a
name again replaces what it named.

Key definitions: `Registry`, `Registry.insert`, `Registry.find?`, `Registry.ofList`.
Key theorems: `Registry.find?_insert_self`, `Registry.find?_insert_of_ne`.
-/

namespace Statechart

/-- Entries by name. -/
abbrev Registry (α : Type u) := List (String × α)

namespace Registry

variable {α : Type u}

/-- Enter `value` under `name`, in place of what `name` named. -/
def insert (name : String) (value : α) : Registry α → Registry α
  | [] => [(name, value)]
  | entry :: rest =>
    if name = entry.1 then (name, value) :: rest
    else if name < entry.1 then (name, value) :: entry :: rest
    else entry :: insert name value rest

def find? (name : String) : Registry α → Option α
  | [] => none
  | entry :: rest => if name = entry.1 then some entry.2 else find? name rest

/-- Enter all, later ones over earlier ones. -/
def ofList (entries : List (String × α)) : Registry α :=
  entries.foldl (fun r e => insert e.1 e.2 r) []

@[simp] theorem find?_insert_self (name : String) (value : α) (r : Registry α) :
    find? name (insert name value r) = some value := by
  induction r with
  | nil => simp [insert, find?]
  | cons e r ih =>
    by_cases h : name = e.1
    · simp [insert, find?, h]
    · by_cases hl : name < e.1 <;> simp [insert, find?, h, hl, ih]

theorem find?_insert_of_ne {name other : String} (h : other ≠ name) (value : α) (r : Registry α) :
    find? other (insert name value r) = find? other r := by
  induction r with
  | nil => simp [insert, find?, h]
  | cons e r ih =>
    by_cases he : name = e.1
    · subst he; simp [insert, find?, h]
    · by_cases hl : name < e.1
      · simp [insert, find?, he, hl, h]
      · simp [insert, find?, he, hl, ih]

end Registry
end Statechart
