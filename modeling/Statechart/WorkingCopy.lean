/-
# Working copies

A chain works on a copy of a machine's data. Nothing is copied before the first
write; a copy that was written counts as changed whatever was written.

Key definitions: `WorkingCopy`, `WorkingCopy.value`, `WorkingCopy.write`,
`WorkingCopy.isWritten`.
Key theorems: `WorkingCopy.value_of_not_isWritten`.
-/

namespace Statechart

/-- The data that a copy is of, and the data written since, if any were. -/
structure WorkingCopy (D : Type) where
  base : D
  working : Option D := none

namespace WorkingCopy

variable {D : Type}

/-- The data as they are in the copy. -/
def value (d : WorkingCopy D) : D := d.working.getD d.base

def write (d : WorkingCopy D) (x : D) : WorkingCopy D := { d with working := some x }

/-- Something was written. -/
def isWritten (d : WorkingCopy D) : Bool := d.working.isSome

@[simp] theorem value_write (d : WorkingCopy D) (x : D) : (d.write x).value = x := rfl

@[simp] theorem isWritten_write (d : WorkingCopy D) (x : D) : (d.write x).isWritten = true := rfl

/-- A copy that nobody wrote holds what it is of. -/
theorem value_of_not_isWritten {d : WorkingCopy D} (h : d.isWritten = false) :
    d.value = d.base := by
  cases hw : d.working with
  | none => simp [value, hw]
  | some x => simp [isWritten, hw] at h

end WorkingCopy
end Statechart
