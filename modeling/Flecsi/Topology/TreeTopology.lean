import Flecsi.Topology.Branch
import Flecsi.Topology.BranchCoordinates

/-!
# Entities are inserted in a tree

The branches of a tree stand where their allocation put them: below the root, or in the array of
children of another branch. The map from ids to branches is separate from that. A leaf that comes
to hold two entities asks to be refined, and the refinement inserts its entities again one level
below.
-/

namespace Flecsi.Topology

/-- Where a branch stands: the child indices from the root to it. -/
abbrev Address := List ℕ

/-- A branch of the policy. Entities are given by their number. -/
structure BranchState where
  id : ℕ
  action : Action
  ents : List ℕ
  hasChildren : Bool

structure Entity (T : IdType) (K : Type) where
  coordinates : Fin T.dimension → K
  branch_id : ℕ

structure TreeTopology (T : IdType) (K : Type) [LT K] where
  range : Range K T.dimension
  entities : List (Entity T K)
  branches : Address → Option BranchState
  branch_map : ℕ → Option Address
  max_depth : ℕ

/-- `insert` of the policy's branch. -/
def BranchState.insert (b : BranchState) (ent : ℕ) : BranchState :=
  let ents := b.ents ++ [ent]
  { b with ents, action := if ents.length > 1 then .refine else b.action }

namespace TreeTopology

section
variable {T : IdType} {K : Type} [LT K]

/-- The tree of a range, a root without children. -/
def empty (range : Range K T.dimension) : TreeTopology T K where
  range
  entities := []
  branches a := if a = [] then some ⟨T.root, .none, [], false⟩ else none
  branch_map id := if id = T.root then some [] else none
  max_depth := 0

def makeEntity (t : TreeTopology T K) (p : Fin T.dimension → K) : TreeTopology T K :=
  { t with entities := t.entities ++ [⟨p, 0⟩] }

def modifyBranch (t : TreeTopology T K) (b : Address) (f : BranchState → BranchState) : TreeTopology T K :=
  { t with branches := Function.update t.branches b ((t.branches b).map f) }

def setBranchId (t : TreeTopology T K) (ent id : ℕ) : TreeTopology T K :=
  { t with entities := t.entities.modify ent fun e => { e with branch_id := id } }

/-- `find_parent_`; a popped root fails an assertion. -/
def findParentFrom (t : TreeTopology T K) (bid : ℕ) : Option Address :=
  match t.branch_map bid with
  | some b => some b
  | none =>
    if h : T.depth bid > 0 then
      have : bid >>> T.dimension < bid := by
        rw [Nat.shiftRight_eq_div_pow]
        refine Nat.div_lt_self (Nat.pos_of_ne_zero fun hzero => ?_) (Nat.one_lt_two_pow T.dimension_pos.ne')
        rw [hzero, IdType.depth, Nat.zero_shiftRight, if_pos rfl] at h
        exact lt_irrefl 0 h
      findParentFrom t (bid >>> T.dimension)
    else none
termination_by bid

def findParent (t : TreeTopology T K) (bid max_depth : ℕ) : Option Address :=
  t.findParentFrom (T.truncate bid max_depth)

/-- `into_branch_` of a branch without children. -/
def intoBranch (t : TreeTopology T K) (b : Address) (branch : BranchState) : Option (TreeTopology T K) := do
  let t ← (List.range T.numChildren).foldlM (fun t bi => do
    let id ← T.push branch.id bi
    some { t with branches := Function.update t.branches (b ++ [bi]) (some ⟨id, .none, [], false⟩) }) t
  some (t.modifyBranch b fun branch => { branch with hasChildren := true })

/-- `branch_map_.emplace(ci->id(), ci)`, which keeps what is there. -/
def emplace (t : TreeTopology T K) (ci : Address) : TreeTopology T K :=
  match t.branches ci with
  | some child =>
    if (t.branch_map child.id).isSome then t
    else { t with branch_map := Function.update t.branch_map child.id (some ci) }
  | none => t

end

section
variable {T : IdType} {K : Type} [Field K] [LinearOrder K] [FloorSemiring K]

/-- `insert(ent, max_depth)`, given what refines a branch. -/
def insertWith (refine : TreeTopology T K → Address → Option (TreeTopology T K)) (t : TreeTopology T K)
    (ent max_depth : ℕ) : Option (TreeTopology T K) := do
  let e ← t.entities[ent]?
  let bid := T.ofPoint t.range e.coordinates max_depth
  let b ← t.findParent bid max_depth
  let branch ← t.branches b
  let t := t.setBranchId ent branch.id
  let t := t.modifyBranch b fun branch => branch.insert ent
  match (branch.insert ent).action with
  | .none => some t
  | .refine => refine t b
  | .coarsen => none

/-- `refine_`, with a bound on how deep the calls nest. -/
def refine : ℕ → TreeTopology T K → Address → Option (TreeTopology T K)
  | 0, _, _ => none
  | fuel + 1, t, b => do
    let branch ← t.branches b
    let depth := T.depth branch.id + 1
    if branch.hasChildren then some t
    else
      let t ← t.intoBranch b branch
      let t := (List.range T.numChildren).foldl (fun t i => t.emplace (b ++ [i])) t
      let t := { t with max_depth := max t.max_depth depth }
      let t ← branch.ents.foldlM (fun t ent => t.insertWith (refine fuel) ent depth) t
      some (t.modifyBranch b fun branch => { branch with ents := [], action := .none })

/-- `insert(ent)`. -/
def insert (fuel : ℕ) (t : TreeTopology T K) (ent : ℕ) : Option (TreeTopology T K) :=
  t.insertWith (refine fuel) ent t.max_depth

end

/-- The calls that build a tree. -/
inductive Call (T : IdType) (K : Type) where
  | makeEntity (p : Fin T.dimension → K)
  | insert (ent : ℕ)

variable {T : IdType} {K : Type} [Field K] [LinearOrder K] [FloorSemiring K]

def call (fuel : ℕ) (t : TreeTopology T K) : Call T K → Option (TreeTopology T K)
  | .makeEntity p => some (t.makeEntity p)
  | .insert ent => t.insert fuel ent

def run (fuel : ℕ) (t : TreeTopology T K) (calls : List (Call T K)) : Option (TreeTopology T K) :=
  calls.foldlM (call fuel) t

end TreeTopology

end Flecsi.Topology
