import Flecsi.Topology.TreeTopology

/-!
# Entities are removed and moved

An entity is removed from the branch its id names. A branch that becomes empty asks to be
coarsened, and its parent, if the policy agrees, takes all entities below it. An entity that
moved out of its branch is removed and inserted again.
-/

namespace Flecsi.Topology

/-- `remove` of the policy's branch; an entity that is not there fails an assertion. -/
def BranchState.remove (b : BranchState) (ent : ℕ) : Option BranchState :=
  if ent ∈ b.ents then
    let ents := b.ents.erase ent
    some { b with ents, action := if ents.isEmpty then .coarsen else b.action }
  else none

def BranchState.reset (b : BranchState) : BranchState := { b with action := .none }

namespace TreeTopology

section
variable {T : IdType} {K : Type} [LT K]

/-- `p->insert(ent); ent->set_branch_id_(p->id());` -/
def absorb (t : TreeTopology T K) (p : Address) (ent : ℕ) : Option (TreeTopology T K) := do
  let parent ← t.branches p
  some ((t.modifyBranch p fun branch => branch.insert ent).setBranchId ent parent.id)

/-- `branch_map_.erase(id)`. -/
def eraseId (t : TreeTopology T K) (id : ℕ) : TreeTopology T K :=
  { t with branch_map := Function.update t.branch_map id none }

/-- `coarsen_(p, b)`, with a bound on how deep the calls nest. -/
def coarsenBelow : ℕ → TreeTopology T K → Address → Address → Option (TreeTopology T K)
  | 0, _, _, _ => none
  | fuel + 1, t, p, b => do
    let branch ← t.branches b
    if branch.hasChildren then
      (List.range T.numChildren).foldlM (fun t i => do
        let ci ← t.branches (b ++ [i])
        let t ← ci.ents.foldlM (fun (t : TreeTopology T K) ent => t.absorb p ent) t
        let t ← coarsenBelow fuel t p (b ++ [i])
        some (t.eraseId ci.id)) t
    else some t

/-- `into_leaf_`: nothing below the branch can be reached any more. -/
def intoLeaf (t : TreeTopology T K) (p : Address) : TreeTopology T K :=
  { t with branches := fun x =>
      if x = p then (t.branches p).map fun branch => { branch with hasChildren := false }
      else if p <+: x then none else t.branches x }

/-- `coarsen_(p)`. -/
def coarsen (fuel : ℕ) (t : TreeTopology T K) (p : Address) : Option (TreeTopology T K) := do
  let t ← coarsenBelow fuel t p p
  some ((t.intoLeaf p).modifyBranch p BranchState.reset)

/-- What `remove` does about the action that the branch requests, given what the policy says to
coarsening a branch. -/
def afterRemoval (should_coarsen : BranchState → Bool) (fuel : ℕ) (t : TreeTopology T K) (a : Address) :
    Action → Option (TreeTopology T K)
  | .none => some t
  | .coarsen =>
    if a = [] then some t
    else do
      let parent ← t.branches a.dropLast
      if should_coarsen parent then coarsen fuel t a.dropLast else some t
  | .refine => some (t.modifyBranch a BranchState.reset)

/-- `remove(ent)`. -/
def remove (should_coarsen : BranchState → Bool) (fuel : ℕ) (t : TreeTopology T K) (ent : ℕ) :
    Option (TreeTopology T K) := do
  let e ← t.entities[ent]?
  if e.branch_id = 0 then none
  else
    let a ← t.branch_map e.branch_id
    let branch ← t.branches a
    let removed ← branch.remove ent
    let t := (t.modifyBranch a fun _ => removed).setBranchId ent 0
    afterRemoval should_coarsen fuel t a removed.action

/-- The user moves an entity. -/
def move (t : TreeTopology T K) (ent : ℕ) (p : Fin T.dimension → K) : TreeTopology T K :=
  { t with entities := t.entities.modify ent fun e => { e with coordinates := p } }

/-- What `update_all` leaves of a tree before it inserts: the root, as it is but for its children. -/
def dealloc (t : TreeTopology T K) (range : Range K T.dimension) : TreeTopology T K :=
  { t with
    range
    branches := fun x => if x = [] then (t.branches []).map fun root => { root with hasChildren := false } else none
    branch_map := fun id => if some id = (t.branches []).map (·.id) then some [] else none
    max_depth := 0 }

end

variable {T : IdType} {K : Type} [Field K] [LinearOrder K] [FloorSemiring K]

/-- `update(ent)`. -/
def update (should_coarsen : BranchState → Bool) (fuel : ℕ) (t : TreeTopology T K) (ent : ℕ) :
    Option (TreeTopology T K) := do
  let e ← t.entities[ent]?
  if e.branch_id = T.ofPoint t.range e.coordinates (T.depth e.branch_id) then some t
  else
    let t ← t.remove should_coarsen fuel ent
    t.insert fuel ent

/-- `update_all(start, end)`. -/
def update_all (fuel : ℕ) (t : TreeTopology T K) (range : Range K T.dimension) : Option (TreeTopology T K) :=
  (List.range t.entities.length).foldlM (fun t ent => (t.setBranchId ent 0).insert fuel ent) (t.dealloc range)

end TreeTopology

end Flecsi.Topology
