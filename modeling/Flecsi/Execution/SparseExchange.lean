import Flecsi.Execution.DenseExchange

/-!
# Ghost exchange of ragged and sparse fields

The rows of a field have lengths of their own. When a mutator has run, the row sizes are
exchanged first, the ghost rows resized, then the rows themselves sent. Rows are handled
as bytes, `type_size` for each entry.
-/

namespace Flecsi.Execution.Sparse

open Coloring PackedBuffer SlotCopy

-- ---------------------------------------------------------------------------
-- Fields
-- ---------------------------------------------------------------------------

/-- `sizeof(T)` and `alignof(T)`. -/
structure ValueType where
  size : ℕ
  align : ℕ
  align_pos : 0 < align

inductive StorageClass where
  | ragged
  | sparse
  deriving DecidableEq, Repr

structure FieldInfo where
  index_space : ℕ
  storage_class : StorageClass
  type : ValueType

def roundUp (x a : ℕ) : ℕ := (x + (a - 1)) / a * a

/-- `fi.size` of `field_registration_wrapper_u`, the `type_size` of the field's data. -/
def FieldInfo.type_size (fi : FieldInfo) : ℕ :=
  match fi.storage_class with
  | .ragged => fi.type.size
  | .sparse => fi.type.size + 8

/-- `sizeof` of the entries of a row, `T` or `sparse_entry_value_u<T>`: an index of eight
bytes and the value, each at its alignment. -/
def FieldInfo.entry_size (fi : FieldInfo) : ℕ :=
  match fi.storage_class with
  | .ragged => fi.type.size
  | .sparse => roundUp (roundUp 8 fi.type.align + fi.type.size) (max 8 fi.type.align)

structure Registry (n : ℕ) where
  fields : ℕ → FieldInfo
  coloring : ℕ → Fin n → IndexColoring

namespace Registry

variable (r : Registry n)

def type_size (f : ℕ) : ℕ := (r.fields f).type_size
def entry_size (f : ℕ) : ℕ := (r.fields f).entry_size
def fieldColoring (f : ℕ) (p : Fin n) : IndexColoring := r.coloring (r.fields f).index_space p
def num_exclusive (f : ℕ) (p : Fin n) : ℕ := (r.fieldColoring f p).exclusive.length
def num_shared (f : ℕ) (p : Fin n) : ℕ := (r.fieldColoring f p).shared.length
/-- The first ghost row. -/
def ghostRow (f : ℕ) (p : Fin n) : ℕ := r.num_exclusive f p + r.num_shared f p

end Registry

-- ---------------------------------------------------------------------------
-- Rows
-- ---------------------------------------------------------------------------

/-- `row_vector_u`; `storage` is what `datap` points to, in bytes. -/
structure RowVector where
  count : ℕ
  capacity : ℕ
  storage : List UInt8

/-- `resize` on entries of `size` bytes; `fresh` is what new memory holds. -/
def RowVector.resize (size : ℕ) (fresh : ℕ → UInt8) (row : RowVector) (new_count : ℕ) : RowVector :=
  if new_count ≤ row.capacity then { row with count := new_count }
  else
    { count := new_count
      capacity := new_count
      storage := row.storage.take (row.count * size) ++
        (List.range' (row.count * size) ((new_count - row.count) * size)).map fresh }

structure RowVector.WellFormed (size : ℕ) (row : RowVector) : Prop where
  count_le : row.count ≤ row.capacity
  length : row.storage.length = row.capacity * size

/-- The entries of a row. -/
def RowVector.bytes (size : ℕ) (row : RowVector) : List UInt8 := row.storage.take (row.count * size)

-- ---------------------------------------------------------------------------
-- Contexts
-- ---------------------------------------------------------------------------

/-- The data of the fields on one rank. `rows` is indexed by the field and the row; the
maps of `sparse_field_metadata_t` by the field and the other rank, with their keys. -/
structure Context where
  rows : ℕ × ℕ → RowVector
  shared_indices : ℕ → ℕ → Option (List ℕ)
  ghost_indices : ℕ → ℕ → Option (List ℕ)
  ghost_row_sizes : ℕ → List ℕ
  ghost_is_readable : ℕ → Bool
  ghost_was_resized : ℕ → Bool

/-- `map[e.1].push_back(e.2)` for each entry. -/
def collectIndices (entries : List (ℕ × ℕ)) : ℕ → Option (List ℕ) :=
  entries.foldl (fun m e => Function.update m e.1 (some ((m e.1).getD [] ++ [e.2]))) fun _ => none

/-- The metadata of `register_sparse_field_metadata`, empty rows, and the flags set at
start-up. -/
def initialContext (r : Registry n) (p : Fin n) : Context where
  rows _ := ⟨0, 0, []⟩
  ghost_indices f := collectIndices
    ((r.fieldColoring f p).ghost.zipIdx.map fun x => (x.1.rank, x.2))
  shared_indices f := collectIndices
    ((r.fieldColoring f p).shared.flatMap fun shared =>
      (shared.shared.sort (· ≤ ·)).map fun s => (s, shared.offset))
  ghost_row_sizes f := List.replicate (r.fieldColoring f p).ghost.length 0
  ghost_is_readable _ := true
  ghost_was_resized _ := false

/-- `map[rank]`, which inserts an empty vector for a key that is not there. -/
def touch (m : ℕ → ℕ → Option (List ℕ)) (fields : List ℕ) (ranks : ℕ → Bool) :
    ℕ → ℕ → Option (List ℕ) :=
  fun f rank => if f ∈ fields ∧ ranks rank then some ((m f rank).getD []) else m f rank

-- ---------------------------------------------------------------------------
-- Prolog, epilog and finalization
-- ---------------------------------------------------------------------------

inductive Reference where
  | raggedAccessor (fid : ℕ) (exclusive shared ghost : Privilege)
  | sparseAccessor (fid : ℕ) (exclusive shared ghost : Privilege)
  | raggedMutator (fid : ℕ)
  | sparseMutator (fid : ℕ)
  deriving DecidableEq, Repr

def Reference.fid : Reference → ℕ
  | .raggedAccessor fid _ _ _ | .sparseAccessor fid _ _ _ => fid
  | .raggedMutator fid | .sparseMutator fid => fid

/-- The state of the walk: the flags and the fields to exchange. -/
structure Prolog where
  ghost_is_readable : ℕ → Bool
  ghost_was_resized : ℕ → Bool
  modified_sparse_fields : List ℕ
  resized_sparse_fields : List ℕ

def Prolog.modify (t : Prolog) (fid : ℕ) : Prolog :=
  { t with
    modified_sparse_fields := t.modified_sparse_fields ++ [fid]
    ghost_is_readable := Function.update t.ghost_is_readable fid true }

def Prolog.resize (t : Prolog) (fid : ℕ) : Prolog :=
  { t with resized_sparse_fields := t.resized_sparse_fields ++ [fid] }

def Prolog.accessor (t : Prolog) (fid : ℕ) (ghost : Privilege) : Prolog :=
  let t' := if !t.ghost_is_readable fid && t.ghost_was_resized fid then t.resize fid else t
  if t'.ghost_is_readable fid ∨ ghost = .na ∨ ghost = .wo then t' else t'.modify fid

def Prolog.mutator (t : Prolog) (fid : ℕ) : Prolog :=
  if t.ghost_is_readable fid then t
  else if !t.ghost_was_resized fid then t.modify fid
  else (t.modify fid).resize fid

/-- `task_prolog_t::handle`; the sparse handles forward to the ragged ones. -/
def Prolog.handle (t : Prolog) : Reference → Prolog
  | .raggedAccessor fid _ _ ghost | .sparseAccessor fid _ _ ghost => t.accessor fid ghost
  | .raggedMutator fid | .sparseMutator fid => t.mutator fid

def Prolog.walk (args : List Reference) (ghost_is_readable ghost_was_resized : ℕ → Bool) : Prolog :=
  args.foldl Prolog.handle ⟨ghost_is_readable, ghost_was_resized, [], []⟩

/-- `task_epilog_t::handle`. -/
def epilogSparse (ghost_is_readable : ℕ → Bool) : Reference → ℕ → Bool
  | .raggedAccessor fid _ shared ghost | .sparseAccessor fid _ shared ghost =>
    if ghost = .rw ∨ ghost = .wo then Function.update ghost_is_readable fid true
    else if shared = .rw ∨ shared = .wo then Function.update ghost_is_readable fid false
    else ghost_is_readable
  | .raggedMutator _ | .sparseMutator _ => ghost_is_readable

/-- `finalize_handles_t::handle`, on the two flags. -/
def finalizeSparse (flags : (ℕ → Bool) × (ℕ → Bool)) : Reference → (ℕ → Bool) × (ℕ → Bool)
  | .raggedMutator fid | .sparseMutator fid =>
    (Function.update flags.1 fid false, Function.update flags.2 fid true)
  | .raggedAccessor .. | .sparseAccessor .. => flags

-- ---------------------------------------------------------------------------
-- Row sizes
-- ---------------------------------------------------------------------------

/-- `sizes[rank]`, an `int`, after the additions; without one there is no entry. -/
def entrySize (sizes : List ℕ) : Option (Option ℕ) :=
  sizes.foldlM (fun size x => (toInt (size.getD 0 + x)).map some) none

section
variable (r : Registry n)

/-- The size of the message of row sizes, as computed from the index map of one side. -/
def rowCounts (m : ℕ → ℕ → Option (List ℕ)) (fields : List ℕ) (rank : ℕ) : Option (Option ℕ) :=
  entrySize (fields.filterMap fun f => (m f rank).map List.length)

def rowsizePlan (resized : Fin n → List ℕ) (s : Fin n → Context) (ghost_sizes shared_sizes : Fin n → Fin n → Option ℕ) :
    Plan n (ℕ × ℕ) ℕ where
  recvSize := ghost_sizes
  sendSize := shared_sizes
  recvSlots p q := (resized p).flatMap fun f =>
    (((s p).ghost_indices f q).getD []).map fun i => ⟨f, i, 1⟩
  sendSlots q p := (resized q).flatMap fun f =>
    (((s q).shared_indices f p).getD []).map fun i => ⟨(f, i + r.num_exclusive f q), 0, 1⟩

/-- Which ranks a size map has an entry for. -/
def hasEntry (sizes : Fin n → Option ℕ) (rank : ℕ) : Bool :=
  if h : rank < n then (sizes ⟨rank, h⟩).isSome else false

/-- `launch_rowsize_exchange` on all ranks. -/
def launchRowsizeExchange (resized : Fin n → List ℕ) (s : Fin n → Context) : Option (Fin n → Context) := do
  let ghost_sizes ← allRanks fun p => allRanks fun q : Fin n =>
    rowCounts (s p).ghost_indices (resized p) q
  let shared_sizes ← allRanks fun p => allRanks fun q : Fin n =>
    rowCounts (s p).shared_indices (resized p) q
  let sizes ← (rowsizePlan r resized s ghost_sizes shared_sizes).exchange
    (fun q k => [((s q).rows k).count]) fun p => (s p).ghost_row_sizes
  some fun p => { s p with
    ghost_row_sizes := sizes p
    ghost_indices := touch (s p).ghost_indices (resized p) (hasEntry (ghost_sizes p))
    shared_indices := touch (s p).shared_indices (resized p) (hasEntry (shared_sizes p)) }

/-- `update_ghost_row_sizes`: every ghost row gets the size received for it. -/
def updateGhostRowSizes (fresh : ℕ × ℕ → ℕ → UInt8) (p : Fin n) (f : ℕ) (c : Context) :
    ℕ × ℕ → RowVector :=
  (List.finRange n).foldl (fun rows (q : Fin n) => ((c.ghost_indices f q).getD []).foldl (fun rows i =>
    let k := (f, r.ghostRow f p + i)
    Function.update rows k
      ((rows k).resize (r.entry_size f) (fresh k) ((c.ghost_row_sizes f).getD i 0))) rows) c.rows

/-- `row_resize_t::handle`, the same for all handles. -/
def rowResize (fresh : ℕ × ℕ → ℕ → UInt8) (p : Fin n) (c : Context) (a : Reference) : Context :=
  if !c.ghost_was_resized a.fid then c
  else { c with
    rows := updateGhostRowSizes r fresh p a.fid c
    ghost_was_resized := Function.update c.ghost_was_resized a.fid false }

-- ---------------------------------------------------------------------------
-- Rows
-- ---------------------------------------------------------------------------

def recvBytes (modified : List ℕ) (c : Context) (rank : ℕ) : Option (Option ℕ) :=
  entrySize (modified.flatMap fun f =>
    ((c.ghost_indices f rank).getD []).map fun i => (c.ghost_row_sizes f).getD i 0 * r.type_size f)

def sendBytes (modified : List ℕ) (q : Fin n) (c : Context) (rank : ℕ) : Option (Option ℕ) :=
  entrySize (modified.flatMap fun f =>
    ((c.shared_indices f rank).getD []).map fun i =>
      (c.rows (f, r.num_exclusive f q + i)).count * r.type_size f)

def rowPlan (modified : Fin n → List ℕ) (s : Fin n → Context) (ghost_sizes shared_sizes : Fin n → Fin n → Option ℕ) :
    Plan n (ℕ × ℕ) (ℕ × ℕ) where
  recvSize := ghost_sizes
  sendSize := shared_sizes
  recvSlots p q := (modified p).flatMap fun f =>
    (((s p).ghost_indices f q).getD []).map fun i =>
      ⟨(f, r.ghostRow f p + i), 0, ((s p).ghost_row_sizes f).getD i 0 * r.type_size f⟩
  sendSlots q p := (modified q).flatMap fun f =>
    (((s q).shared_indices f p).getD []).map fun i =>
      ⟨(f, i + r.num_exclusive f q), 0,
        ((s q).rows (f, i + r.num_exclusive f q)).count * r.type_size f⟩

/-- `launch_sparse_exchange` on all ranks. -/
def launchSparseExchange (modified : Fin n → List ℕ) (s : Fin n → Context) : Option (Fin n → Context) := do
  let ghost_sizes ← allRanks fun p => allRanks fun q : Fin n => recvBytes r (modified p) (s p) q
  let shared_sizes ← allRanks fun p => allRanks fun q : Fin n => sendBytes r (modified p) p (s p) q
  let data ← (rowPlan r modified s ghost_sizes shared_sizes).exchange
    (fun q k => ((s q).rows k).storage) fun p k => ((s p).rows k).storage
  some fun p => { s p with
    rows := fun k => { (s p).rows k with storage := data p k }
    ghost_indices := touch (s p).ghost_indices (modified p) (hasEntry (ghost_sizes p))
    shared_indices := touch (s p).shared_indices (modified p) (hasEntry (shared_sizes p)) }

-- ---------------------------------------------------------------------------
-- Tasks
-- ---------------------------------------------------------------------------

def walked (args : List Reference) (s : Fin n → Context) (p : Fin n) : Prolog :=
  Prolog.walk args (s p).ghost_is_readable (s p).ghost_was_resized

/-- The prolog up to the resized rows. `args` are the handles in the order in which the
walks reach them. -/
def resizeRows (fresh : Fin n → ℕ × ℕ → ℕ → UInt8) (args : List Reference) (s : Fin n → Context) :
    Option (Fin n → Context) := do
  let s' ← launchRowsizeExchange r (fun p => (walked args s p).resized_sparse_fields)
    fun p => { s p with ghost_is_readable := (walked args s p).ghost_is_readable }
  some fun p => args.foldl (rowResize r (fresh p) p) (s' p)

/-- The part of `execute_task` before the task runs. -/
def startTask (fresh : Fin n → ℕ × ℕ → ℕ → UInt8) (args : List Reference) (s : Fin n → Context) :
    Option (Fin n → Context) := do
  let s' ← resizeRows r fresh args s
  launchSparseExchange r (fun p => (walked args s p).modified_sparse_fields) s'

def finishTask (args : List Reference) (s : Fin n → Context) (p : Fin n) : Context :=
  let flags := args.foldl finalizeSparse
    (args.foldl epilogSparse (s p).ghost_is_readable, (s p).ghost_was_resized)
  { s p with ghost_is_readable := flags.1, ghost_was_resized := flags.2 }

/-- A mutator among the handles may change the row in any way. -/
def Mutable (args : List Reference) (f : ℕ) (p : Fin n) (k : ℕ) : Prop :=
  k < r.ghostRow f p ∧ (.raggedMutator f ∈ args ∨ .sparseMutator f ∈ args)

/-- An accessor among the handles may change the entries of the row. -/
def Writable (args : List Reference) (f : ℕ) (p : Fin n) (k : ℕ) : Prop :=
  ∃ exclusive shared ghost, (.raggedAccessor f exclusive shared ghost ∈ args ∨
      .sparseAccessor f exclusive shared ghost ∈ args) ∧
    (k < r.num_exclusive f p ∧ exclusive.Writes ∨
      r.num_exclusive f p ≤ k ∧ k < r.ghostRow f p ∧ shared.Writes ∨
      r.ghostRow f p ≤ k ∧ ghost.Writes)

/-- The task itself: any change of the rows its handles allow. -/
structure Performs (args : List Reference) (s s' : Fin n → Context) : Prop where
  rest : ∀ p, s' p = { s p with rows := (s' p).rows }
  wellFormed : ∀ p f k, ((s' p).rows (f, k)).WellFormed (r.entry_size f)
  count : ∀ p f k, ¬Mutable r args f p k → ((s' p).rows (f, k)).count = ((s p).rows (f, k)).count
  frame : ∀ p f k, ¬Mutable r args f p k → ¬Writable r args f p k →
    (s' p).rows (f, k) = (s p).rows (f, k)

/-- One task on all ranks; new memory may hold anything. -/
def TaskStep (args : List Reference) (s s' : Fin n → Context) : Prop :=
  ∃ fresh b b', startTask r fresh args s = some b ∧ Performs r args b b' ∧ s' = finishTask args b'

/-- The ghost permission of an accessor is `na` or `ro`. -/
def Reference.GhostsKept : Reference → Prop
  | .raggedAccessor _ _ _ ghost | .sparseAccessor _ _ _ ghost => ghost = .na ∨ ghost = .ro
  | .raggedMutator _ | .sparseMutator _ => True

def Reachable (s : Fin n → Context) : Prop :=
  Relation.ReflTransGen (fun s s' => ∃ args, (∀ a ∈ args, a.GhostsKept) ∧ TaskStep r args s s')
    (initialContext r) s

/-- The handle reads ghost rows: an accessor with `ro`, or a mutator. -/
def Reference.ReadsGhosts : Reference → Prop
  | .raggedAccessor _ _ _ ghost | .sparseAccessor _ _ _ ghost => ghost = .ro
  | .raggedMutator _ | .sparseMutator _ => True

/-- Every ghost row of a field is its owner's row. -/
def Coherent (s : Fin n → Context) (f : ℕ) : Prop :=
  ∀ (p : Fin n) (i : ℕ) (ghost : EntityInfo), (r.fieldColoring f p).ghost[i]? = some ghost →
    ∀ q : Fin n, ghost.rank = q →
      let row := (s p).rows (f, r.ghostRow f p + i)
      let owner := (s q).rows (f, r.num_exclusive f q + ghost.offset)
      row.count = owner.count ∧ row.bytes (r.entry_size f) = owner.bytes (r.entry_size f)

/-- The entries of the field's rows have the registered size. -/
def Unpadded (f : ℕ) : Prop := r.type_size f = r.entry_size f

end

end Flecsi.Execution.Sparse
