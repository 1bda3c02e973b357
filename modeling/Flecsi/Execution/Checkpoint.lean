import Flecsi.Data.RowSerdez
import Flecsi.Lib.RecordStream

/-!
# Checkpoint and restart

`write_all_fields` and `read_fields`: every dense buffer and the rows of every ragged or
sparse field in one file, with their field ids and sizes.
-/

namespace Flecsi.Execution.Checkpoint

open ByteCast PackedBuffer Segments RecordStream Data
open Sparse (RowVector)
open Std (TreeMap)

-- ---------------------------------------------------------------------------
-- Rows in a stream
-- ---------------------------------------------------------------------------

/-- `serialize` to a stream: what it writes. -/
def serializeStream (size : ℕ) (row : RowVector) : Option (List UInt8) := do
  let s := payload size row.count
  if s = 0 then some (toBytes 4 row.count)
  else
    let data ← loadAt row.storage 0 s
    some (toBytes 4 row.count ++ data)

/-- `deserialize` from a stream: the row and the rest. -/
def deserializeStream (size : ℕ) (fresh : ℕ → UInt8) (row : RowVector) (stream : List UInt8) :
    Option (RowVector × List UInt8) := do
  let header ← readBytes 4 stream
  let row := row.resize size fresh (fromBytes header.1)
  let s := payload size row.count
  if s = 0 then some (row, header.2)
  else
    let data ← readBytes s header.2
    let storage ← storeAt row.storage 0 data.1
    some ({ row with storage := storage }, data.2)

-- ---------------------------------------------------------------------------
-- Fields
-- ---------------------------------------------------------------------------

structure SparseSizes where
  type_size : ℕ
  num_exclusive : ℕ
  num_shared : ℕ
  num_ghost : ℕ
  num_total : ℕ
  max_entries_per_index : ℕ
  deriving DecidableEq, Repr

/-- `sparse_field_data_t` -/
structure SparseFieldData where
  sizes : SparseSizes
  rows : List RowVector

/-- A field that was never registered; it has no rows. -/
def SparseFieldData.default : SparseFieldData := ⟨⟨0, 0, 0, 0, 0, 0⟩, []⟩

/-- The two maps of the context policy. -/
structure FieldStore where
  field_data : TreeMap ℕ (List UInt8)
  sparse_field_data : TreeMap ℕ SparseFieldData

def SparseSizes.words (s : SparseSizes) : List ℕ :=
  [s.type_size, s.num_exclusive, s.num_shared, s.num_ghost, s.num_total, s.max_entries_per_index]

section
variable (serdez : ℕ → Option ℕ)

/-- `sparse_field_data_t::write` -/
def writeSparse (size : ℕ) (data : SparseFieldData) : Option (List UInt8) := do
  let rows ← (List.range data.sizes.num_total).mapM fun i => do
    let row ← data.rows[i]?
    serializeStream size row
  some (castWords data.sizes.words ++ rows.flatten)

/-- `write_all_fields`: the file. `serdez` is the registry of entry sizes. -/
def write_all_fields (s : FieldStore) : Option (List UInt8) := do
  let sparse ← s.sparse_field_data.toList.mapM fun field => do
    let size ← serdez field.1
    let bytes ← writeSparse size field.2
    some (toBytes 8 field.1 ++ bytes)
  some (toBytes 8 s.field_data.size ++
    (s.field_data.toList.flatMap fun field => toBytes 8 field.1 ++ toBytes 8 field.2.length ++ field.2) ++
    toBytes 8 s.sparse_field_data.size ++ sparse.flatten)

def readSizes (stream : List UInt8) : Option (SparseSizes × List UInt8) := do
  let type_size ← readWord stream
  let num_exclusive ← readWord type_size.2
  let num_shared ← readWord num_exclusive.2
  let num_ghost ← readWord num_shared.2
  let num_total ← readWord num_ghost.2
  let max_entries_per_index ← readWord num_total.2
  some (⟨type_size.1, num_exclusive.1, num_shared.1, num_ghost.1, num_total.1, max_entries_per_index.1⟩,
    max_entries_per_index.2)

/-- One pass of the loop over the rows; there has to be storage for the row. -/
def readRow (size : ℕ) (fresh : ℕ → UInt8) (i : ℕ) (rows : List RowVector) (stream : List UInt8) :
    Option (List RowVector × List UInt8) := do
  let row ← rows[i]?
  let next ← deserializeStream size fresh row stream
  some (rows.set i next.1, next.2)

/-- `sparse_field_data_t::read` -/
def readSparse (size : ℕ) (fresh : ℕ → UInt8) (data : SparseFieldData) (stream : List UInt8) :
    Option (SparseFieldData × List UInt8) := do
  let sizes ← readSizes stream
  let rows ← readRecords (readRow size fresh) 0 sizes.1.num_total data.rows sizes.2
  some (⟨sizes.1, rows.1⟩, rows.2)

/-- One pass of the loop over the dense fields; a new field is registered first. -/
def readField (field_data : TreeMap ℕ (List UInt8)) (stream : List UInt8) :
    Option (TreeMap ℕ (List UInt8) × List UInt8) := do
  let fid ← readWord stream
  let len ← readWord fid.2
  let data ← readBytes len.1 len.2
  some (field_data.insert fid.1 data.1, data.2)

/-- One pass of the loop over the sparse fields; a new field has no storage for rows. -/
def readSparseField (fresh : ℕ → UInt8) (sparse_field_data : TreeMap ℕ SparseFieldData)
    (stream : List UInt8) : Option (TreeMap ℕ SparseFieldData × List UInt8) := do
  let fid ← readWord stream
  let data := (sparse_field_data[fid.1]?).getD .default
  let size ← serdez fid.1
  let next ← readSparse size fresh data fid.2
  some (sparse_field_data.insert fid.1 next.1, next.2)

/-- `read_fields` -/
def read_fields (fresh : ℕ → UInt8) (file : List UInt8) (s : FieldStore) : Option FieldStore := do
  let nfields ← readWord file
  let dense ← readRecords (fun _ => readField) 0 nfields.1 s.field_data nfields.2
  let nsparse ← readWord dense.2
  let sparse ← readRecords (fun _ => readSparseField serdez fresh) 0 nsparse.1 s.sparse_field_data nsparse.2
  some ⟨dense.1, sparse.1⟩

end

-- ---------------------------------------------------------------------------
-- Rows read back
-- ---------------------------------------------------------------------------

section
variable {size : ℕ} {row : RowVector}

theorem serializeStream_eq (h : Allocated size row) (hlt : row.count * size < 2 ^ 32) :
    serializeStream size row = some (encoded size row) := by
  unfold serializeStream
  simp only [payload_eq hlt]
  split
  · rename_i hs
    simp [encoded, RowVector.bytes, hs]
  · have hdata : loadAt row.storage 0 (row.count * size) = some (row.bytes size) := by
      refine loadAt_eq_some.mpr ⟨⟨le_rfl, ?_⟩, rfl⟩
      rw [h.length, zero_add]
      exact_mod_cast Nat.mul_le_mul_right _ h.count_le
    rw [hdata]
    rfl

/-- A stream read from its front is a buffer read from its start. -/
theorem deserializeStream_of_buffer {fresh : ℕ → UInt8} {row' : RowVector} {stream : List UInt8} {k : ℕ}
    (h : deserialize size fresh row stream 0 = some (row', k)) :
    deserializeStream size fresh row stream = some (row', stream.drop k) := by
  unfold deserialize at h
  obtain ⟨header, hheader, h⟩ := Option.bind_eq_some_iff.mp h
  obtain ⟨⟨-, hlen⟩, rfl⟩ := loadAt_eq_some.mp hheader
  have hread : readBytes 4 stream = some (stream.take 4, stream.drop 4) := if_pos (by omega)
  simp only [Int.toNat_zero, List.drop_zero] at h
  unfold deserializeStream
  simp only [hread, Option.bind_eq_bind, Option.bind_some]
  split at h
  · rename_i hs
    cases h
    rw [if_pos hs, hs]
  · rename_i hs
    obtain ⟨data, hdata, hstore⟩ := Option.bind_eq_some_iff.mp h
    obtain ⟨⟨-, hfit⟩, rfl⟩ := loadAt_eq_some.mp hdata
    obtain ⟨storage, hstorage, hresult⟩ := Option.bind_eq_some_iff.mp hstore
    cases hresult
    have hdrop : ((0 : ℤ) + 4).toNat = 4 := rfl
    have hmore : readBytes (payload size (row.resize size fresh (fromBytes (stream.take 4))).count) (stream.drop 4) =
        some ((stream.drop 4).take (payload size (row.resize size fresh (fromBytes (stream.take 4))).count),
          (stream.drop 4).drop (payload size (row.resize size fresh (fromBytes (stream.take 4))).count)) :=
      if_pos (by rw [List.length_drop]; omega)
    rw [hdrop] at hstorage
    rw [if_neg hs, hmore, Option.bind_some, hstorage, Option.bind_some, List.drop_drop, Nat.add_comm 4]

theorem deserializeStream_eq {other : RowVector} (h : Allocated size row) (hlt : row.count * size < 2 ^ 32)
    (hother : Allocated size other) (fresh : ℕ → UInt8) (rest : List UInt8) :
    ∃ row', deserializeStream size fresh other (encoded size row ++ rest) = some (row', rest) ∧
      Allocated size row' ∧ row'.count = row.count ∧ row'.bytes size = row.bytes size := by
  obtain ⟨row', hrow', hresult⟩ := deserialize_eq h hlt hother fresh [] rest
  refine ⟨row', ?_, hresult⟩
  rw [List.nil_append] at hrow'
  rw [deserializeStream_of_buffer hrow', List.drop_left' h.length_encoded]

/-- A row that holds what another one holds. -/
structure SameRow (size : ℕ) (row row' : RowVector) : Prop where
  allocated : Allocated size row'
  count : row'.count = row.count
  bytes : row'.bytes size = row.bytes size

/-- A row that fits the format. -/
structure StorableRow (size : ℕ) (row : RowVector) : Prop where
  allocated : Allocated size row
  payload_lt : row.count * size < 2 ^ 32

/-- The rows after those that were read. -/
structure RowsRead (size : ℕ) (target : List RowVector) (done : List (RowVector × ℕ)) (rows : List RowVector) :
    Prop where
  length : rows.length = target.length
  allocated : ∀ row ∈ rows, Allocated size row
  read : ∀ x ∈ done, ∃ row', rows[x.2]? = some row' ∧ SameRow size x.1 row'
  kept : ∀ i, done.length ≤ i → rows[i]? = target[i]?

theorem zipIdx_prefix {l : List α} {done : List (α × ℕ)} {x : α × ℕ} (h : done ++ [x] <+: l.zipIdx) :
    x.2 = done.length ∧ x.1 ∈ l ∧ ∀ y ∈ done, y.2 < done.length := by
  have hget (i : ℕ) (y : α × ℕ) (hy : (done ++ [x])[i]? = some y) : l[i]? = some y.1 ∧ y.2 = i := by
    obtain ⟨tail, htail⟩ := h
    have hi : i < (done ++ [x]).length := (List.getElem?_eq_some_iff.mp hy).1
    have hzip : l.zipIdx[i]? = some y := by rw [← htail, List.getElem?_append_left hi, hy]
    rw [List.getElem?_zipIdx] at hzip
    obtain ⟨a, ha, rfl⟩ := Option.map_eq_some_iff.mp hzip
    exact ⟨ha, Nat.zero_add i⟩
  refine ⟨(hget done.length x (by simp)).2, List.mem_of_getElem? (hget done.length x (by simp)).1, fun y hy => ?_⟩
  obtain ⟨i, hi⟩ := List.getElem?_of_mem hy
  have hlt : i < done.length := (List.getElem?_eq_some_iff.mp hi).1
  rw [(hget i y (by rw [List.getElem?_append_left hlt, hi])).2]
  exact hlt

theorem readRow_reads {fresh : ℕ → UInt8} {target rows : List RowVector}
    (hrows : ∀ row ∈ rows, StorableRow size row) :
    Reads (RowsRead size target) (fun x : RowVector × ℕ => x.2 < target.length) (fun x => encoded size x.1)
      (readRow size fresh) rows.zipIdx := by
  intro done item hprefix current rest hJ
  obtain ⟨hindex, hmem, hbefore⟩ := zipIdx_prefix hprefix
  have hstorable := hrows item.1 hmem
  simp only [hindex]
  constructor
  · intro hlt
    have hin : done.length < current.length := hJ.length ▸ hlt
    obtain ⟨row', hread, hallocated, hcount, hbytes⟩ := deserializeStream_eq hstorable.allocated hstorable.payload_lt
      (hJ.allocated _ (List.getElem_mem hin)) fresh rest
    refine ⟨current.set done.length row', ?_, by simp [hJ.length], fun row hrow => ?_, fun x hx => ?_, fun i hi => ?_⟩
    · rw [readRow, List.getElem?_eq_getElem hin, Option.bind_eq_bind, Option.bind_some, hread]
      rfl
    · obtain hrow | rfl := List.mem_or_eq_of_mem_set hrow
      · exact hJ.allocated row hrow
      · exact hallocated
    · obtain hx | hx := List.mem_append.mp hx
      · obtain ⟨row, hrow, hsame⟩ := hJ.read x hx
        have hne : done.length ≠ x.2 := Nat.ne_of_gt (hbefore x hx)
        exact ⟨row, by rw [List.getElem?_set_ne hne, hrow], hsame⟩
      · rw [List.mem_singleton.mp hx, hindex, List.getElem?_set_self hin]
        exact ⟨row', rfl, hallocated, hcount, hbytes⟩
    · rw [List.length_append, List.length_singleton] at hi
      rw [List.getElem?_set_ne (by omega), hJ.kept i (by omega)]
  · intro hge
    have hnone : current[done.length]? = none := List.getElem?_eq_none (hJ.length ▸ Nat.le_of_not_lt hge)
    rw [readRow, hnone]
    rfl

end

-- ---------------------------------------------------------------------------
-- Fields read back
-- ---------------------------------------------------------------------------

/-- The sizes are of type `size_t`, and the rows are as many as they say. -/
structure StorableField (size : ℕ) (data : SparseFieldData) : Prop where
  words : ∀ x ∈ data.sizes.words, x < 2 ^ 64
  total : data.rows.length = data.sizes.num_total
  rows : ∀ row ∈ data.rows, StorableRow size row

/-- A field as it was saved, over the rows that were there. -/
structure RestoredField (size : ℕ) (saved before data : SparseFieldData) : Prop where
  sizes : data.sizes = saved.sizes
  rows : ∀ (i : ℕ) (row : RowVector), saved.rows[i]? = some row →
    ∃ row', data.rows[i]? = some row' ∧ SameRow size row row'
  rest : ∀ i, saved.rows.length ≤ i → data.rows[i]? = before.rows[i]?

theorem writeSparse_eq {size : ℕ} {data : SparseFieldData} (h : StorableField size data) :
    writeSparse size data = some (castWords data.sizes.words ++ data.rows.zipIdx.flatMap fun x => encoded size x.1) := by
  have hrows : ((List.range data.sizes.num_total).mapM fun i => do
      let row ← data.rows[i]?
      serializeStream size row) = some ((List.range data.sizes.num_total).map fun i =>
        encoded size ((data.rows[i]?).getD ⟨0, 0, []⟩)) := by
    refine Coloring.mapM_some fun i hi => ?_
    have hin : i < data.rows.length := h.total ▸ List.mem_range.mp hi
    have hrow := h.rows _ (List.getElem_mem hin)
    rw [List.getElem?_eq_getElem hin, Option.bind_eq_bind, Option.bind_some, Option.getD_some,
      serializeStream_eq hrow.allocated hrow.payload_lt]
  have hsame : ((List.range data.sizes.num_total).map fun i => encoded size ((data.rows[i]?).getD ⟨0, 0, []⟩)) =
      data.rows.zipIdx.map fun x => encoded size x.1 := by
    refine List.ext_getElem (by simp [h.total]) fun i hi hi' => ?_
    have hin : i < data.rows.length := by simpa using hi'
    simp [List.getElem?_eq_getElem hin]
  rw [writeSparse, hrows, hsame, List.flatMap_def]
  rfl

theorem readSizes_append {sizes : SparseSizes} (h : ∀ x ∈ sizes.words, x < 2 ^ 64) (rest : List UInt8) :
    readSizes (castWords sizes.words ++ rest) = some (sizes, rest) := by
  have hword (x : ℕ) (hx : x ∈ sizes.words) (rest : List UInt8) : readWord (toBytes 8 x ++ rest) = some (x, rest) :=
    readWord_append (h x hx) rest
  simp only [SparseSizes.words, castWords, List.flatMap_cons, List.flatMap_nil, List.append_nil, List.append_assoc]
  simp only [readSizes, hword _ (by simp [SparseSizes.words] : sizes.type_size ∈ _),
    hword _ (by simp [SparseSizes.words] : sizes.num_exclusive ∈ _),
    hword _ (by simp [SparseSizes.words] : sizes.num_shared ∈ _),
    hword _ (by simp [SparseSizes.words] : sizes.num_ghost ∈ _),
    hword _ (by simp [SparseSizes.words] : sizes.num_total ∈ _),
    hword _ (by simp [SparseSizes.words] : sizes.max_entries_per_index ∈ _), Option.bind_eq_bind, Option.bind_some]

/-- A field is read back exactly if there is storage for its rows. -/
theorem readSparse_append {size : ℕ} {fresh : ℕ → UInt8} {saved before : SparseFieldData} (h : StorableField size saved)
    (hbefore : ∀ row ∈ before.rows, Allocated size row) (rest : List UInt8) :
    (saved.sizes.num_total ≤ before.rows.length → ∃ data,
      readSparse size fresh before (castWords saved.sizes.words ++
        (saved.rows.zipIdx.flatMap fun x => encoded size x.1) ++ rest) = some (data, rest) ∧
        RestoredField size saved before data) ∧
    (¬saved.sizes.num_total ≤ before.rows.length →
      readSparse size fresh before (castWords saved.sizes.words ++
        (saved.rows.zipIdx.flatMap fun x => encoded size x.1) ++ rest) = none) := by
  have hstart : RowsRead size before.rows [] before.rows :=
    ⟨rfl, hbefore, fun _ hx => absurd hx List.not_mem_nil, fun _ _ => rfl⟩
  obtain ⟨hread, hstop⟩ := (readRow_reads h.rows).all hstart rest
  rw [List.length_zipIdx, h.total] at hread hstop
  constructor
  · intro hle
    obtain ⟨rows, hrun, hrows⟩ := hread fun x hx => by
      have hget := List.mem_zipIdx_iff_getElem?.mp hx
      exact (List.getElem?_eq_some_iff.mp hget).1.trans_le (h.total ▸ hle)
    refine ⟨⟨saved.sizes, rows⟩, ?_, rfl, fun i row hrow => ?_, fun i hi => ?_⟩
    · rw [readSparse, List.append_assoc, readSizes_append h.words, Option.bind_eq_bind, Option.bind_some, hrun]
      rfl
    · exact hrows.read (row, i) (List.mem_zipIdx_iff_getElem?.mpr hrow)
    · exact hrows.kept i (by rwa [List.length_zipIdx])
  · intro hgt
    have hlt : before.rows.length < saved.rows.length := h.total ▸ Nat.lt_of_not_le hgt
    have hnone := hstop ⟨(saved.rows[before.rows.length], before.rows.length),
      List.mem_zipIdx_iff_getElem?.mpr (List.getElem?_eq_getElem hlt), Nat.lt_irrefl _⟩
    rw [readSparse, List.append_assoc, readSizes_append h.words, Option.bind_eq_bind, Option.bind_some, hnone]
    rfl

-- ---------------------------------------------------------------------------
-- The whole file
-- ---------------------------------------------------------------------------

/-- A map after some of its keys were read; `P` says what was read for a key. -/
structure Updated {α β : Type} (P : ℕ × α → β → Prop) (before : TreeMap ℕ β) (done : List (ℕ × α)) (m : TreeMap ℕ β) :
    Prop where
  read : ∀ x ∈ done, ∃ b, m[x.1]? = some b ∧ P x b
  kept : ∀ fid, (∀ x ∈ done, x.1 ≠ fid) → m[fid]? = before[fid]?

theorem Updated.nil {α β : Type} (P : ℕ × α → β → Prop) (before : TreeMap ℕ β) : Updated P before [] before :=
  ⟨fun _ hx => absurd hx List.not_mem_nil, fun _ _ => rfl⟩

theorem Updated.insert {α β : Type} {P : ℕ × α → β → Prop} {before m : TreeMap ℕ β} {done : List (ℕ × α)}
    (h : Updated P before done m) {x : ℕ × α} (hnew : ∀ y ∈ done, y.1 ≠ x.1) {b : β} (hb : P x b) :
    Updated P before (done ++ [x]) (m.insert x.1 b) where
  read y hy := by
    obtain hy | hy := List.mem_append.mp hy
    · obtain ⟨c, hc, hP⟩ := h.read y hy
      refine ⟨c, ?_, hP⟩
      rw [TreeMap.getElem?_insert, if_neg (by simpa using (hnew y hy).symm), hc]
    · rw [List.mem_singleton.mp hy]
      exact ⟨b, TreeMap.getElem?_insert_self, hb⟩
  kept fid hfid := by
    have hne : x.1 ≠ fid := hfid x (by simp)
    rw [TreeMap.getElem?_insert, if_neg (by simpa using hne)]
    exact h.kept fid fun y hy => hfid y (by simp [hy])

theorem not_read_before {α : Type} {m : TreeMap ℕ α} {done : List (ℕ × α)} {x : ℕ × α}
    (h : done ++ [x] <+: m.toList) : ∀ y ∈ done, y.1 ≠ x.1 := by
  intro y hy
  have hpair := TreeMap.distinct_keys_toList (t := m)
  have hpair' := (List.pairwise_append.mp (hpair.sublist h.sublist)).2.2 y hy x (by simp)
  simpa using hpair'

theorem mem_toList_of_done {α : Type} {m : TreeMap ℕ α} {done : List (ℕ × α)} {x : ℕ × α}
    (h : done ++ [x] <+: m.toList) : m[x.1]? = some x.2 :=
  TreeMap.mem_toList_iff_getElem?_eq_some.mp (h.subset (by simp))

/-- A context whose sizes fit the format. -/
structure Storable (serdez : ℕ → Option ℕ) (s : FieldStore) : Prop where
  dense_size : s.field_data.size < 2 ^ 64
  dense : ∀ (fid : ℕ) (data : List UInt8), s.field_data[fid]? = some data → fid < 2 ^ 64 ∧ data.length < 2 ^ 64
  sparse_size : s.sparse_field_data.size < 2 ^ 64
  sparse : ∀ (fid : ℕ) (data : SparseFieldData), s.sparse_field_data[fid]? = some data →
    fid < 2 ^ 64 ∧ ∃ size, serdez fid = some size ∧ StorableField size data

/-- The rows of a context are in memory of their own. -/
def AllocatedRows (serdez : ℕ → Option ℕ) (s : FieldStore) : Prop :=
  ∀ (fid : ℕ) (data : SparseFieldData), s.sparse_field_data[fid]? = some data → ∀ size, serdez fid = some size →
    ∀ row ∈ data.rows, Allocated size row

/-- The rows a context has for a field. -/
def rowsOf (s : FieldStore) (fid : ℕ) : SparseFieldData := (s.sparse_field_data[fid]?).getD .default

/-- The context `t'` is `t` with the fields of `s`. -/
structure Restored (serdez : ℕ → Option ℕ) (s t t' : FieldStore) : Prop where
  dense : ∀ (fid : ℕ) (data : List UInt8), s.field_data[fid]? = some data → t'.field_data[fid]? = some data
  dense_kept : ∀ fid : ℕ, s.field_data[fid]? = none → t'.field_data[fid]? = t.field_data[fid]?
  sparse : ∀ (fid : ℕ) (data : SparseFieldData), s.sparse_field_data[fid]? = some data → ∀ size, serdez fid = some size →
    ∃ data', t'.sparse_field_data[fid]? = some data' ∧ RestoredField size data (rowsOf t fid) data'
  sparse_kept : ∀ fid : ℕ, s.sparse_field_data[fid]? = none → t'.sparse_field_data[fid]? = t.sparse_field_data[fid]?

/-- What is written for a dense field. -/
def denseBytes (field : ℕ × List UInt8) : List UInt8 :=
  toBytes 8 field.1 ++ toBytes 8 field.2.length ++ field.2

/-- What is written for a sparse field. -/
def sparseBytes (serdez : ℕ → Option ℕ) (field : ℕ × SparseFieldData) : List UInt8 :=
  toBytes 8 field.1 ++ (castWords field.2.sizes.words ++
    field.2.rows.zipIdx.flatMap fun x => encoded ((serdez field.1).getD 0) x.1)

section
variable {serdez : ℕ → Option ℕ} {fresh : ℕ → UInt8} {s t : FieldStore}

theorem write_all_fields_eq (h : Storable serdez s) : write_all_fields serdez s =
    some (toBytes 8 s.field_data.size ++ s.field_data.toList.flatMap denseBytes ++
      toBytes 8 s.sparse_field_data.size ++ s.sparse_field_data.toList.flatMap (sparseBytes serdez)) := by
  have hsparse : (s.sparse_field_data.toList.mapM fun field => do
      let size ← serdez field.1
      let bytes ← writeSparse size field.2
      some (toBytes 8 field.1 ++ bytes)) = some (s.sparse_field_data.toList.map (sparseBytes serdez)) := by
    refine Coloring.mapM_some fun field hfield => ?_
    obtain ⟨-, size, hsize, hstorable⟩ := h.sparse field.1 field.2
      (TreeMap.mem_toList_iff_getElem?_eq_some.mp hfield)
    simp only [hsize, writeSparse_eq hstorable, sparseBytes, Option.bind_eq_bind, Option.bind_some, Option.getD_some]
  rw [write_all_fields, hsparse, Option.bind_eq_bind, Option.bind_some]
  simp only [List.flatMap_def]
  rfl

theorem readField_reads (h : Storable serdez s) :
    Reads (Updated (fun x data => data = x.2) t.field_data) (fun _ => True) denseBytes (fun _ => readField)
      s.field_data.toList := by
  intro done field hprefix m rest hJ
  obtain ⟨hfid, hlen⟩ := h.dense field.1 field.2 (mem_toList_of_done hprefix)
  refine ⟨fun _ => ⟨m.insert field.1 field.2, ?_, hJ.insert (not_read_before hprefix) rfl⟩, fun hnot => absurd trivial hnot⟩
  simp only [denseBytes, List.append_assoc, readField, readWord_append hfid, readWord_append hlen,
    readBytes_append rfl, Option.bind_eq_bind, Option.bind_some]

/-- What a sparse field is read back as. -/
def RestoredAs (serdez : ℕ → Option ℕ) (t : FieldStore) (x : ℕ × SparseFieldData) (data : SparseFieldData) : Prop :=
  ∀ size, serdez x.1 = some size → RestoredField size x.2 (rowsOf t x.1) data

theorem readSparseField_reads (h : Storable serdez s) (ht : AllocatedRows serdez t) :
    Reads (Updated (RestoredAs serdez t) t.sparse_field_data)
      (fun x => x.2.sizes.num_total ≤ (rowsOf t x.1).rows.length) (sparseBytes serdez)
      (fun _ => readSparseField serdez fresh) s.sparse_field_data.toList := by
  intro done field hprefix m rest hJ
  have hnew := not_read_before hprefix
  obtain ⟨hfid, size, hsize, hstorable⟩ := h.sparse field.1 field.2 (mem_toList_of_done hprefix)
  have hbefore : (m[field.1]?).getD .default = rowsOf t field.1 := by
    rw [hJ.kept field.1 hnew, rowsOf]
  have hrows : ∀ row ∈ (rowsOf t field.1).rows, Allocated size row := by
    intro row hrow
    unfold rowsOf at hrow
    cases hdata : t.sparse_field_data[field.1]? with
    | none =>
      rw [hdata] at hrow
      exact absurd hrow List.not_mem_nil
    | some data =>
      rw [hdata] at hrow
      exact ht field.1 data hdata size hsize row hrow
  obtain ⟨hread, hstop⟩ := readSparse_append hstorable hrows rest
  simp only [sparseBytes, hsize, Option.getD_some, List.append_assoc, readSparseField, readWord_append hfid, hbefore,
    Option.bind_eq_bind, Option.bind_some]
  rw [List.append_assoc] at hread hstop
  constructor
  · intro hle
    obtain ⟨data, hrun, hrestored⟩ := hread hle
    refine ⟨m.insert field.1 data, ?_, hJ.insert hnew fun size' hsize' => ?_⟩
    · rw [hrun]
      rfl
    · rw [hsize] at hsize'
      rw [← Option.some.inj hsize']
      exact hrestored
  · intro hgt
    rw [hstop hgt]
    rfl

end

/-- Reading a checkpoint completes exactly if there is storage for the rows of every sparse field
in it, and then gives every field of the checkpoint its saved contents and leaves the others. -/
theorem checkpoint_restart (serdez : ℕ → Option ℕ) (fresh : ℕ → UInt8) (s t : FieldStore) (hs : Storable serdez s)
    (ht : AllocatedRows serdez t) : ∃ file, write_all_fields serdez s = some file ∧
      ((read_fields serdez fresh file t).isSome ↔
        ∀ (fid : ℕ) (data : SparseFieldData), s.sparse_field_data[fid]? = some data →
          data.sizes.num_total ≤ (rowsOf t fid).rows.length) ∧
      ∀ t', read_fields serdez fresh file t = some t' → Restored serdez s t t' := by
  refine ⟨_, write_all_fields_eq hs, ?_⟩
  obtain ⟨dense, hdense, hupdated⟩ := ((readField_reads (t := t) hs).all (Updated.nil _ _)
    (toBytes 8 s.sparse_field_data.size ++ s.sparse_field_data.toList.flatMap (sparseBytes serdez))).1 fun _ _ => trivial
  obtain ⟨hread, hstop⟩ := (readSparseField_reads hs ht).all (Updated.nil _ _) []
  rw [TreeMap.length_toList] at hdense
  rw [TreeMap.length_toList, List.append_nil] at hread hstop
  have hfile : read_fields serdez fresh (toBytes 8 s.field_data.size ++ s.field_data.toList.flatMap denseBytes ++
      toBytes 8 s.sparse_field_data.size ++ s.sparse_field_data.toList.flatMap (sparseBytes serdez)) t =
      (readRecords (fun _ => readSparseField serdez fresh) 0 s.sparse_field_data.size t.sparse_field_data
        (s.sparse_field_data.toList.flatMap (sparseBytes serdez))).bind fun sparse => some ⟨dense, sparse.1⟩ := by
    simp only [read_fields, List.append_assoc, readWord_append hs.dense_size, hdense, readWord_append hs.sparse_size,
      Option.bind_eq_bind, Option.bind_some]
  have hall : (∀ (fid : ℕ) (data : SparseFieldData), s.sparse_field_data[fid]? = some data →
      data.sizes.num_total ≤ (rowsOf t fid).rows.length) ↔
        ∀ x ∈ s.sparse_field_data.toList, x.2.sizes.num_total ≤ (rowsOf t x.1).rows.length := by
    constructor
    · exact fun h x hx => h x.1 x.2 (TreeMap.mem_toList_iff_getElem?_eq_some.mp hx)
    · exact fun h fid data hdata => h (fid, data) (TreeMap.mem_toList_iff_getElem?_eq_some.mpr hdata)
  rw [hfile, hall]
  by_cases hroom : ∀ x ∈ s.sparse_field_data.toList, x.2.sizes.num_total ≤ (rowsOf t x.1).rows.length
  · obtain ⟨sparse, hsparse, hupdated'⟩ := hread hroom
    rw [hsparse]
    refine ⟨iff_of_true rfl hroom, fun t' ht' => ?_⟩
    obtain rfl := Option.some.inj ht'
    refine ⟨fun fid data hdata => ?_, fun fid hnone => hupdated.kept fid ?_, fun fid data hdata size hsize => ?_,
      fun fid hnone => hupdated'.kept fid ?_⟩
    · obtain ⟨data', hdata', rfl⟩ := hupdated.read (fid, data) (TreeMap.mem_toList_iff_getElem?_eq_some.mpr hdata)
      exact hdata'
    · rintro x hx rfl
      rw [TreeMap.mem_toList_iff_getElem?_eq_some.mp hx] at hnone
      cases hnone
    · obtain ⟨data', hdata', hrestored⟩ :=
        hupdated'.read (fid, data) (TreeMap.mem_toList_iff_getElem?_eq_some.mpr hdata)
      exact ⟨data', hdata', hrestored size hsize⟩
    · rintro x hx rfl
      rw [TreeMap.mem_toList_iff_getElem?_eq_some.mp hx] at hnone
      cases hnone
  · have hnot : ∃ x ∈ s.sparse_field_data.toList, ¬x.2.sizes.num_total ≤ (rowsOf t x.1).rows.length := by
      simpa only [not_forall, exists_prop] using hroom
    rw [hstop hnot]
    exact ⟨iff_of_false (by simp) hroom, fun t' ht' => by cases ht'⟩

def pairSerdez (fid : ℕ) : Option ℕ := if fid = 2 then some 4 else none

/-- A dense field of one byte and a ragged field with one row. -/
def savedStore : FieldStore :=
  ⟨(∅ : TreeMap ℕ (List UInt8)).insert 1 [7],
    (∅ : TreeMap ℕ SparseFieldData).insert 2 ⟨⟨4, 1, 0, 0, 1, 10⟩, [⟨1, 1, [1, 2, 3, 4]⟩]⟩⟩

/-- The ragged field is registered, its row is empty. -/
def emptyStore : FieldStore :=
  ⟨∅, (∅ : TreeMap ℕ SparseFieldData).insert 2 ⟨⟨4, 1, 0, 0, 1, 10⟩, [⟨0, 0, []⟩]⟩⟩

theorem savedStore_sparse {fid : ℕ} {data : SparseFieldData} (h : savedStore.sparse_field_data[fid]? = some data) :
    fid = 2 ∧ data = ⟨⟨4, 1, 0, 0, 1, 10⟩, [⟨1, 1, [1, 2, 3, 4]⟩]⟩ := by
  simp only [savedStore, TreeMap.getElem?_insert, TreeMap.getElem?_emptyc] at h
  split at h
  · rename_i heq
    exact ⟨(compare_eq_iff_eq.mp heq).symm, (Option.some.inj h).symm⟩
  · cases h

theorem emptyStore_sparse {fid : ℕ} {data : SparseFieldData} (h : emptyStore.sparse_field_data[fid]? = some data) :
    fid = 2 ∧ data = ⟨⟨4, 1, 0, 0, 1, 10⟩, [⟨0, 0, []⟩]⟩ := by
  simp only [emptyStore, TreeMap.getElem?_insert, TreeMap.getElem?_emptyc] at h
  split at h
  · rename_i heq
    exact ⟨(compare_eq_iff_eq.mp heq).symm, (Option.some.inj h).symm⟩
  · cases h

theorem savedStore_storable : Storable pairSerdez savedStore where
  dense_size := by simp [savedStore, TreeMap.size_insert]
  dense fid data h := by
    simp only [savedStore, TreeMap.getElem?_insert, TreeMap.getElem?_emptyc] at h
    split at h
    · rename_i heq
      obtain rfl := compare_eq_iff_eq.mp heq
      obtain rfl := Option.some.inj h
      exact ⟨by decide, by decide⟩
    · cases h
  sparse_size := by simp [savedStore, TreeMap.size_insert]
  sparse fid data h := by
    obtain ⟨rfl, rfl⟩ := savedStore_sparse h
    refine ⟨by decide, 4, rfl, ⟨by decide, rfl, fun row hrow => ?_⟩⟩
    rw [List.mem_singleton.mp hrow]
    exact ⟨⟨⟨le_rfl, rfl⟩, by decide⟩, by decide⟩

theorem emptyStore_allocated : AllocatedRows pairSerdez emptyStore := by
  intro fid data h size _ row hrow
  obtain ⟨rfl, rfl⟩ := emptyStore_sparse h
  rw [List.mem_singleton.mp hrow]
  exact ⟨⟨le_rfl, (Nat.zero_mul size).symm⟩, by decide⟩

theorem checkpoint_restart_pair : ∃ file t', write_all_fields pairSerdez savedStore = some file ∧
    read_fields pairSerdez (fun _ => 0) file emptyStore = some t' ∧ Restored pairSerdez savedStore emptyStore t' := by
  obtain ⟨file, hfile, hsome, hrestored⟩ := checkpoint_restart pairSerdez (fun _ => 0) savedStore emptyStore
    savedStore_storable emptyStore_allocated
  obtain ⟨t', ht'⟩ := Option.isSome_iff_exists.mp (hsome.mpr fun fid data h => by
    obtain ⟨rfl, rfl⟩ := savedStore_sparse h
    have hrows : (rowsOf emptyStore 2).rows.length = 1 := by
      simp [rowsOf, emptyStore]
    exact hrows.ge)
  exact ⟨file, t', hfile, ht', hrestored t' ht'⟩

end Flecsi.Execution.Checkpoint
