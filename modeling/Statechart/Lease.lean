/-
# Leases

A node of the state tree counts its activations and deactivations. A lease names a
node and the count it had when the lease was taken; work that is put off holds the
lease of the node it is for.

Key definitions: `Lease`.
-/

namespace Statechart

structure Lease where
  node : Nat
  generation : Nat
deriving DecidableEq

end Statechart
