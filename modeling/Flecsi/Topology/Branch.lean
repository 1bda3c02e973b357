import Mathlib

/-!
# Branches of the tree

A branch is a leaf or has its `num_children = 2^dimension` children; either way it
keeps its own list of entities.
-/

namespace Flecsi.Topology

inductive Action where
  | none
  | refine
  | coarsen
  deriving DecidableEq, Repr

inductive Branch (dim : ℕ) (ε : Type) where
  | leaf (id : ℕ) (action : Action) (ents : List ε)
  | node (id : ℕ) (action : Action) (ents : List ε)
      (children : Fin (2 ^ dim) → Branch dim ε)

end Flecsi.Topology
