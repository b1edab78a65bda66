/-
# Asynchronous operations

An operation is asked now and then whether it has settled. What it says may hang
on how often it was asked before and on the gates, which are opened from outside.

Key definitions: `Settlement`, `Gates`, `Operation`.
-/
import Statechart.Json

namespace Statechart

/-- How an operation ends. -/
inductive Settlement where
  | resolved (value : Json)
  | rejected (reason : Json)

/-- The gates that are open, with what is behind each. -/
abbrev Gates := Registry Settlement

/-- An operation in progress: its settlement, by the open gates and the number of
times it was asked before; none while it is pending. -/
structure Operation where
  ask : Gates → Nat → Option Settlement

end Statechart
