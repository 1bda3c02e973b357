import Flecsi.Data.RowSerdez

/-!
# HDF5 checkpoints of the fields

The ranks are split into groups of `ranks_per_file` that write one file each. A file has a
data set of 32-bit words for every field, and every rank of the group a segment of it.
-/

namespace Flecsi.Io

open Coloring Segments
open Data (payload serialize deserialize serialized_size)
open Execution.Sparse (RowVector ValueType)

-- ---------------------------------------------------------------------------
-- Fields
-- ---------------------------------------------------------------------------

inductive StorageClass where
  | dense
  | ragged
  | sparse
  | other
  deriving DecidableEq, Repr

structure FieldInfo where
  fid : ℕ
  index_space : ℕ
  storage_class : StorageClass
  type : ValueType

def FieldInfo.size (info : FieldInfo) : ℕ :=
  match info.storage_class with
  | .sparse => info.type.size + 8
  | _ => info.type.size

/-- The size of the entries the field's serdez is instantiated with. -/
def FieldInfo.entry_size (info : FieldInfo) : ℕ :=
  match info.storage_class with
  | .sparse => Execution.Sparse.FieldInfo.entry_size ⟨info.index_space, .sparse, info.type⟩
  | _ => info.type.size

/-- The registered fields. Every registration has drawn a new `fid`. -/
structure Registrations where
  fields : List FieldInfo
  nodup : (fields.map (·.fid)).Nodup

/-- The fields of a rank that have been instantiated; `num_total` is the number of rows. -/
structure Context where
  field_data : ℕ → Option (List UInt8)
  sparse_field_data : ℕ → Option (List RowVector)
  coloring_info : ℕ → ColoringInfo

def Context.num_total (c : Context) (index_space : ℕ) : ℕ :=
  (c.coloring_info index_space).exclusive + (c.coloring_info index_space).shared +
    (c.coloring_info index_space).ghost

def Context.set_field (c : Context) (fid : ℕ) (data : List UInt8) : Context :=
  { c with field_data := Function.update c.field_data fid (some data) }

def Context.set_rows (c : Context) (fid : ℕ) (rows : List RowVector) : Context :=
  { c with sparse_field_data := Function.update c.sparse_field_data fid (some rows) }

-- ---------------------------------------------------------------------------
-- Integers
-- ---------------------------------------------------------------------------

/-- What `int i = n` makes of `n`. The language leaves open what becomes of a value that
`int` does not hold. -/
structure IntConversion where
  toInt : ℕ → ℤ
  exact : ∀ x < 2 ^ 31, toInt x = x

/-- `(double)x`: 53 digits, halves to the even neighbour. -/
def toDouble (x : ℕ) : ℕ :=
  let unit := 2 ^ (Nat.log2 x - 52)
  let q := x / unit
  let r := x % unit
  if unit < 2 * r ∨ 2 * r = unit ∧ q % 2 = 1 then (q + 1) * unit else q * unit

/-- `std::ceil(((double)size) / sizeof(std::uint32_t))` -/
def dense_nsize (size : ℕ) : ℕ := (toDouble size + 3) / 4

/-- `nsize` of `checkpoint_field_ragged`. -/
def ragged_nsize (size : ℕ) (rows : List RowVector) : ℕ := (rows.map (serialized_size size)).sum / 4

-- ---------------------------------------------------------------------------
-- Files
-- ---------------------------------------------------------------------------

/-- `words` are the bytes of the `dims` words, `offsets` the attribute of that name. -/
structure Dataset where
  dims : ℕ
  words : List UInt8
  offsets : Option (List ℕ)

abbrev File := String → Option Dataset

def create_hdf5_dataset (file : File) (name : String) (buffer_size : ℕ) : Option File :=
  if (file name).isSome then none
  else some (Function.update file name (some ⟨buffer_size, List.replicate (4 * buffer_size) 0, none⟩))

def field_name (fid : ℕ) : String := "fid_" ++ toString fid

section
variable {n : ℕ}

/-- The collective `write_data_to_hdf5`: every rank of the group writes `nsize` words. -/
def write_data_to_hdf5 (file : File) (name : String) (group : List (Fin n)) (nsize : Fin n → ℕ)
    (buffer : Fin n → Option (List UInt8)) (offset_buf : Option (List ℕ)) : Option File := do
  let d ← file name
  let words ← writeSegments 4 nsize buffer group d.words
  some (Function.update file name (some { d with words := words, offsets := offset_buf }))

-- ---------------------------------------------------------------------------
-- Checkpoints
-- ---------------------------------------------------------------------------

/-- `buffer` is the field's data on every rank, if it is there. -/
def checkpoint_field (group : List (Fin n)) (file : File) (name : String)
    (buffer : Fin n → Option (List UInt8)) : Option File := do
  let nsize := fun p => dense_nsize ((buffer p).getD []).length
  let file ← create_hdf5_dataset file name (total nsize group)
  write_data_to_hdf5 file name group nsize (fun p => do loadAt (← buffer p) 0 (4 * nsize p)) none

variable (conv : IntConversion)

def serialize_rows (size : ℕ) : List RowVector → List UInt8 → ℤ → Option (List UInt8)
  | [], buffer, _ => some buffer
  | row :: rows, buffer, buf_ptr => do
    let (buffer, item_size) ← serialize size row buffer buf_ptr
    serialize_rows size rows buffer (buf_ptr + conv.toInt item_size)

/-- The loops count the rows in an `int`. -/
def stage_rows (size : ℕ) (rows : List RowVector) : Option (List UInt8) :=
  if rows.length < 2 ^ 31 then
    serialize_rows conv size rows (List.replicate (4 * ragged_nsize size rows) 0) 0
  else none

def offset_buf (group : List (Fin n)) (nsize : Fin n → ℕ) : List ℕ :=
  group.map (displ nsize group) ++ [total nsize group]

def checkpoint_field_ragged (group : List (Fin n)) (file : File) (name : String) (size : ℕ)
    (rows : Fin n → Option (List RowVector)) : Option File := do
  let nsize := fun p => ragged_nsize size ((rows p).getD [])
  let file ← create_hdf5_dataset file name (total nsize group)
  write_data_to_hdf5 file name group nsize (fun p => do stage_rows conv size (← rows p))
    (some (offset_buf group nsize))

def checkpoint_info (ctxs : Fin n → Context) (group : List (Fin n)) (file : File)
    (info : FieldInfo) : Option File :=
  match info.storage_class with
  | .dense =>
    checkpoint_field group file (field_name info.fid) fun p => (ctxs p).field_data info.fid
  | .ragged | .sparse =>
    checkpoint_field_ragged conv group file (field_name info.fid) info.entry_size fun p =>
      (ctxs p).sparse_field_data info.fid
  | .other => some file

structure Policy where
  ranks_per_file : ℕ
  pos : 0 < ranks_per_file

/-- `new_color` of `create_hdf5_comm`. -/
def Policy.new_color (policy : Policy) (p : Fin n) : ℕ := p / policy.ranks_per_file

/-- The ranks of `mpi_hdf5_comm`, in their order there. -/
def Policy.group (policy : Policy) (color : ℕ) : List (Fin n) :=
  (List.finRange n).filter fun p => policy.new_color p = color

def Policy.colors (policy : Policy) (n : ℕ) : List ℕ :=
  ((List.finRange n).map policy.new_color).dedup

def checkpoint_all_fields (reg : Registrations) (policy : Policy) (file_name_in : String)
    (files : String → Option File) (ctxs : Fin n → Context) : Option (String → Option File) :=
  (policy.colors n).foldlM (fun files color => do
    let file ← reg.fields.foldlM (checkpoint_info conv ctxs (policy.group color)) fun _ => none
    some (Function.update files (file_name_in ++ toString color) (some file))) files

-- ---------------------------------------------------------------------------
-- Recovery
-- ---------------------------------------------------------------------------

/-- The buffer of rank `p` after its segment has been read into it. -/
def recover_field (group : List (Fin n)) (file : File) (name : String) (buffer : Fin n → List UInt8)
    (p : Fin n) : Option (List UInt8) := do
  let nsize := fun q => dense_nsize (buffer q).length
  let d ← file name
  let words ← loadAt d.words ((4 * displ nsize group p : ℕ) : ℤ) (4 * nsize p)
  storeAt (buffer p) 0 words

/-- `fresh` is what new memory holds, by the number of the row. -/
def deserialize_rows (size : ℕ) (fresh : ℕ → ℕ → UInt8) : ℕ → List RowVector → List UInt8 → ℤ →
    Option (List RowVector)
  | _, [], _, _ => some []
  | i, row :: rows, buffer, buf_ptr => do
    let (row, item_size) ← deserialize size (fresh i) row buffer buf_ptr
    let rows ← deserialize_rows size fresh (i + 1) rows buffer (buf_ptr + conv.toInt item_size)
    some (row :: rows)

def recover_field_ragged (group : List (Fin n)) (file : File) (name : String) (size : ℕ)
    (fresh : ℕ → ℕ → UInt8) (rows : List RowVector) (p : Fin n) : Option (List RowVector) := do
  let d ← file name
  let offset_buf ← d.offsets
  let new_rank := group.idxOf p
  if group.length + 1 < offset_buf.length then none
  else
    let nsize := offset_buf.getD (new_rank + 1) 0 - offset_buf.getD new_rank 0
    let buffer ← loadAt d.words ((4 * offset_buf.getD new_rank 0 : ℕ) : ℤ) (4 * nsize)
    if rows.length < 2 ^ 31 then deserialize_rows conv size fresh 0 rows buffer 0 else none

/-- A field that is not there is instantiated. -/
def Context.instantiated_field (c : Context) (info : FieldInfo) : List UInt8 :=
  (c.field_data info.fid).getD (List.replicate (info.size * c.num_total info.index_space) 0)

def Context.instantiated_rows (c : Context) (info : FieldInfo) : List RowVector :=
  (c.sparse_field_data info.fid).getD (List.replicate (c.num_total info.index_space) ⟨0, 0, []⟩)

/-- All ranks have come through. -/
def collect (f : Fin n → Option α) : Option (Fin n → α) :=
  if h : ∀ p, (f p).isSome then some fun p => (f p).get (h p) else none

variable (policy : Policy) (file_name_in : String) (files : String → Option File)

def recover_info (fresh : Fin n → ℕ × ℕ → ℕ → UInt8) (ctxs : Fin n → Context) (info : FieldInfo) :
    Option (Fin n → Context) :=
  match info.storage_class with
  | .dense => collect fun p => do
    let color := policy.new_color p
    let file ← files (file_name_in ++ toString color)
    let data ← recover_field (policy.group color) file (field_name info.fid)
      (fun q => (ctxs q).instantiated_field info) p
    some ((ctxs p).set_field info.fid data)
  | .ragged | .sparse => collect fun p => do
    let color := policy.new_color p
    let file ← files (file_name_in ++ toString color)
    let rows ← recover_field_ragged conv (policy.group color) file (field_name info.fid) info.entry_size
      (fun i => fresh p (info.fid, i)) ((ctxs p).instantiated_rows info) p
    some ((ctxs p).set_rows info.fid rows)
  | .other => some ctxs

def recover_all_fields (fresh : Fin n → ℕ × ℕ → ℕ → UInt8) (reg : Registrations)
    (ctxs : Fin n → Context) : Option (Fin n → Context) :=
  reg.fields.foldlM (recover_info conv policy file_name_in files fresh) ctxs

end

end Flecsi.Io
