/-
# Designs

A design is what a machine is made from: its initial data, the definition of its
root state with the states in it, and the functions its host offers by name.

Key definitions: `Host`, `Design`.
-/
import Statechart.Definition

namespace Statechart

/-- The functions that a host offers by name. -/
structure Host (D : Type) where
  functions : (k : Kind) → Registry (k.Fn D)
  values : Registry (ValueFn D)

/-- A host that offers nothing. -/
def Host.empty {D : Type} : Host D := ⟨fun _ => [], []⟩

structure Design (D : Type) where
  id : Option String
  data : D
  root : Definition.State D
  host : Host D

end Statechart
