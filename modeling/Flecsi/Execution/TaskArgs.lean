import Mathlib

/-!
# Arguments of a Legion task

`init_args_t` walks the arguments of a task before the launch and collects region
requirements and futures; `init_handles_t` walks them again inside the task and
takes physical regions and futures in the order of its two counters. A region is
named by its place in the list the launch hands over.
-/

namespace Flecsi.Execution

-- ---------------------------------------------------------------------------
-- Handles
-- ---------------------------------------------------------------------------

/-- `partition_privilege_t`. -/
inductive Privilege where
  | reserved
  | ro
  | wo
  | rw
  | na
  deriving DecidableEq, Repr

/-- The Legion privileges. -/
inductive PrivilegeMode where
  | noAccess
  | readOnly
  | writeDiscard
  | readWrite
  deriving DecidableEq, Repr

def privilegeMode : Privilege → PrivilegeMode
  | .reserved => .noAccess
  | .ro => .readOnly
  | .wo => .writeDiscard
  | .rw => .readWrite
  | .na => .writeDiscard

structure DenseHandle where
  fid : ℕ
  exclusive_lp : ℕ
  shared_lp : ℕ
  ghost_lp : ℕ
  entire_region : ℕ
  deriving DecidableEq, Repr

structure SparseHandle extends DenseHandle where
  metadata_lp : ℕ
  metadata_entire_region : ℕ
  deriving DecidableEq, Repr

structure GlobalHandle where
  fid : ℕ
  color_partition : ℕ
  entire_region : ℕ
  deriving DecidableEq, Repr

structure ClientEntity where
  index_space : ℕ
  fid : ℕ
  id_fid : ℕ
  color_partition : ℕ
  entire_region : ℕ
  deriving DecidableEq, Repr

structure ClientAdjacency where
  from_index_space : ℕ
  offset_fid : ℕ
  index_fid : ℕ
  adj_color_partition : ℕ
  adj_region : ℕ
  deriving DecidableEq, Repr

structure ClientIndexSubspace where
  index_fid : ℕ
  logical_partition : ℕ
  logical_region : ℕ
  deriving DecidableEq, Repr

/-- A client handle; the adjacencies of a mesh start at one of its entities. -/
structure ClientHandle where
  entities : List ClientEntity
  adjacencies : List ClientAdjacency
  index_subspaces : List ClientIndexSubspace
  from_entity : ∀ adj ∈ adjacencies, ∃ ent ∈ entities, ent.index_space = adj.from_index_space

/-- A data reference. -/
inductive Reference where
  | dense (h : DenseHandle) (exclusive shared ghost : Privilege)
  | ragged (h : SparseHandle) (exclusive shared ghost : Privilege)
  | sparse (h : SparseHandle) (exclusive shared ghost : Privilege)
  | raggedMutator (h : SparseHandle)
  | sparseMutator (h : SparseHandle)
  | global (h : GlobalHandle) (permissions : Privilege)
  | color (h : GlobalHandle) (permissions : Privilege)
  | mesh (h : ClientHandle) (permissions : Privilege)
  | set (h : ClientHandle) (permissions : Privilege)

/-- An argument. Containers and tuples are walked into when all their items are data
references, which futures are not; with other items they count as `value`. -/
inductive Argument (φ μ : Type) where
  | reference (r : Reference)
  | single (future : φ)
  | index (future_map : μ)
  | container (items : List Reference)
  | tuple (items : List Reference)
  | value

-- ---------------------------------------------------------------------------
-- `init_args_t`
-- ---------------------------------------------------------------------------

structure RegionRequirement where
  region : ℕ
  privilege : PrivilegeMode
  parent : ℕ
  tag_exclusive : Bool
  fields : List ℕ
  deriving DecidableEq, Repr

def RegionRequirement.add_field (rr : RegionRequirement) (fid : ℕ) : RegionRequirement :=
  { rr with fields := rr.fields ++ [fid] }

def denseRequirements (h : DenseHandle) (exclusive shared ghost : PrivilegeMode) :
    List RegionRequirement :=
  [⟨h.exclusive_lp, exclusive, h.entire_region, true, [h.fid]⟩,
    ⟨h.shared_lp, shared, h.entire_region, false, [h.fid]⟩,
    ⟨h.ghost_lp, ghost, h.entire_region, false, [h.fid]⟩]

def sparseRequirements (h : SparseHandle) (metadata exclusive shared ghost : PrivilegeMode) :
    List RegionRequirement :=
  ⟨h.metadata_lp, metadata, h.metadata_entire_region, false, [h.fid]⟩ ::
    denseRequirements h.toDenseHandle exclusive shared ghost

/-- Rows are read before they are written, so `wo` asks for read and write. -/
def raggedMode (p : Privilege) : PrivilegeMode :=
  if p = .wo then .readWrite else privilegeMode p

def entityRequirement (permissions : Privilege) (fields : List ℕ) (ent : ClientEntity) :
    RegionRequirement :=
  ⟨ent.color_partition, privilegeMode permissions, ent.entire_region, false, fields⟩

/-- One pass of the loop over the entities of a mesh; `region_map` reads a missing key
as 0. -/
def addEntity (permissions : Privilege) (s : (ℕ → ℕ) × List RegionRequirement)
    (ent : ClientEntity) : (ℕ → ℕ) × List RegionRequirement :=
  (Function.update s.1 ent.index_space s.2.length,
    s.2 ++ [entityRequirement permissions [ent.fid, ent.id_fid] ent])

def addAdjacency (permissions : Privilege) (region_map : ℕ → ℕ) (reqs : List RegionRequirement)
    (adj : ClientAdjacency) : List RegionRequirement :=
  reqs.modify (region_map adj.from_index_space) (·.add_field adj.offset_fid) ++
    [⟨adj.adj_color_partition, privilegeMode permissions, adj.adj_region, false, [adj.index_fid]⟩]

def addIndexSubspace (permissions : Privilege) (reqs : List RegionRequirement)
    (iss : ClientIndexSubspace) : List RegionRequirement :=
  reqs ++ [⟨iss.logical_partition, privilegeMode permissions, iss.logical_region, false,
    [iss.index_fid]⟩]

def addSetEntity (permissions : Privilege) (reqs : List RegionRequirement) (ent : ClientEntity) :
    List RegionRequirement :=
  reqs ++ [entityRequirement permissions [ent.fid] ent]

/-- The `handle` overloads of `init_args_t` for data references, on `region_reqs`. -/
def initArgsReference (reqs : List RegionRequirement) : Reference → List RegionRequirement
  | .dense h exclusive shared ghost =>
    reqs ++ denseRequirements h (privilegeMode exclusive) (privilegeMode shared)
      (privilegeMode ghost)
  | .ragged h exclusive shared ghost | .sparse h exclusive shared ghost =>
    reqs ++ sparseRequirements h .readOnly (raggedMode exclusive) (raggedMode shared)
      (privilegeMode ghost)
  | .raggedMutator h | .sparseMutator h =>
    reqs ++ sparseRequirements h .readWrite .readWrite .readWrite .readWrite
  | .global h permissions =>
    reqs ++ [⟨h.entire_region, privilegeMode permissions, h.entire_region, false, [h.fid]⟩]
  | .color h permissions =>
    reqs ++ [⟨h.color_partition, privilegeMode permissions, h.entire_region, false, [h.fid]⟩]
  | .mesh h permissions =>
    let (region_map, reqs) := h.entities.foldl (addEntity permissions) (fun _ => 0, reqs)
    let reqs := h.adjacencies.foldl (addAdjacency permissions region_map) reqs
    h.index_subspaces.foldl (addIndexSubspace permissions) reqs
  | .set h permissions => h.entities.foldl (addSetEntity permissions) reqs

structure InitArgs (φ μ : Type) where
  region_reqs : List RegionRequirement
  futures : List φ
  future_maps : List μ

def InitArgs.handle {φ μ : Type} (s : InitArgs φ μ) : Argument φ μ → InitArgs φ μ
  | .reference r => { s with region_reqs := initArgsReference s.region_reqs r }
  | .single future => { s with futures := s.futures ++ [future] }
  | .index future_map => { s with future_maps := s.future_maps ++ [future_map] }
  | .container items | .tuple items =>
    { s with region_reqs := items.foldl initArgsReference s.region_reqs }
  | .value => s

def initArgs {φ μ : Type} (args : List (Argument φ μ)) : InitArgs φ μ :=
  args.foldl InitArgs.handle ⟨[], [], []⟩

-- ---------------------------------------------------------------------------
-- `init_handles_t`
-- ---------------------------------------------------------------------------

/-- What an argument is bound to: the regions its counter passes over, the accessors
built on a region and a field, and the futures. -/
structure Binding where
  regions : List ℕ
  accesses : List (ℕ × ℕ)
  futures : List ℕ
  deriving DecidableEq, Repr

structure InitHandles where
  region : ℕ
  future_id : ℕ
  bound : Binding
  deriving DecidableEq, Repr

/-- Accessors are built and the counter moves on by `num_regions`. -/
def InitHandles.advance (s : InitHandles) (num_regions : ℕ) (accesses : List (ℕ × ℕ)) :
    InitHandles :=
  { s with
    region := s.region + num_regions
    bound := ⟨s.bound.regions ++ List.range' s.region num_regions,
      s.bound.accesses ++ accesses, s.bound.futures⟩ }

def InitHandles.handleFuture (s : InitHandles) : InitHandles :=
  { s with
    future_id := s.future_id + 1
    bound := { s.bound with futures := s.bound.futures ++ [s.future_id] } }

/-- The metadata region first, then the rows. -/
def InitHandles.handleSparse (s : InitHandles) (h : SparseHandle) : InitHandles :=
  let s := s.advance 1 [(s.region, h.fid)]
  s.advance 3 [(s.region, h.fid)]

/-- No accessor is built under the reserved privilege. -/
def InitHandles.handleGlobal (s : InitHandles) (h : GlobalHandle) (permissions : Privilege) :
    InitHandles :=
  s.advance 1 (if permissions = .reserved then [] else [(s.region, h.fid)])

def InitHandles.entity (s : (ℕ → ℕ) × InitHandles) (ent : ClientEntity) :
    (ℕ → ℕ) × InitHandles :=
  (Function.update s.1 ent.index_space s.2.region,
    s.2.advance 1 [(s.2.region, ent.fid), (s.2.region, ent.id_fid)])

def InitHandles.adjacency (region_map : ℕ → ℕ) (s : InitHandles) (adj : ClientAdjacency) :
    InitHandles :=
  s.advance 1 [(region_map adj.from_index_space, adj.offset_fid), (s.region, adj.index_fid)]

def InitHandles.indexSubspace (s : InitHandles) (iss : ClientIndexSubspace) : InitHandles :=
  s.advance 1 [(s.region, iss.index_fid)]

def InitHandles.setEntity (s : InitHandles) (ent : ClientEntity) : InitHandles :=
  s.advance 1 [(s.region, ent.fid)]

/-- The `handle` overloads of `init_handles_t` for data references. -/
def initHandlesReference (s : InitHandles) : Reference → InitHandles
  | .dense h _ _ _ => s.advance 3 [(s.region, h.fid)]
  | .ragged h _ _ _ | .sparse h _ _ _ | .raggedMutator h | .sparseMutator h => s.handleSparse h
  | .global h permissions | .color h permissions => s.handleGlobal h permissions
  | .mesh h _ =>
    let (region_map, s) := h.entities.foldl InitHandles.entity (fun _ => 0, s)
    let s := h.adjacencies.foldl (InitHandles.adjacency region_map) s
    h.index_subspaces.foldl InitHandles.indexSubspace s
  | .set h _ => h.entities.foldl InitHandles.setEntity s

def InitHandles.handle {φ μ : Type} (s : InitHandles) : Argument φ μ → InitHandles
  | .reference r => initHandlesReference s r
  | .single _ | .index _ => s.handleFuture
  | .container items | .tuple items => items.foldl initHandlesReference s
  | .value => s

/-- The bindings of the arguments, one for each. -/
def initHandlesFrom {φ μ : Type} : ℕ → ℕ → List (Argument φ μ) → List Binding
  | _, _, [] => []
  | region, future_id, arg :: args =>
    let s := InitHandles.handle ⟨region, future_id, ⟨[], [], []⟩⟩ arg
    s.bound :: initHandlesFrom s.region s.future_id args

def initHandles {φ μ : Type} (args : List (Argument φ μ)) : List Binding :=
  initHandlesFrom 0 0 args

/-- `task->futures`: `launcher.futures`, then the points of `launcher.point_futures`. -/
def InitArgs.taskFutures {φ μ : Type} (s : InitArgs φ μ) : List (φ ⊕ μ) :=
  s.futures.map .inl ++ s.future_maps.map .inr

end Flecsi.Execution
