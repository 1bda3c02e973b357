import Flecsi.Execution.SparseExchange
import Flecsi.Lib.ByteCast
import Flecsi.Lib.Segments

/-!
# Serialised rows

A row is written as its number of entries, a `uint32_t`, and the bytes of the entries.
-/

namespace Flecsi.Data

open ByteCast PackedBuffer Segments
open Execution.Sparse (RowVector)

/-- A row in memory of its own; `count` and `capacity` are of type `uint32_t`. -/
structure Allocated (size : ℕ) (row : RowVector) : Prop extends row.WellFormed size where
  capacity_lt : row.capacity < 2 ^ 32

/-- `int_t s = count * sizeof(T)`. -/
def payload (size count : ℕ) : ℕ := count * size % 2 ^ 32

def serialized_size (size : ℕ) (row : RowVector) : ℕ := 4 + row.count * size

/-- `serialize` into a buffer, with what it returns. -/
def serialize (size : ℕ) (row : RowVector) (buffer : List UInt8) (pos : ℤ) :
    Option (List UInt8 × ℕ) := do
  let buffer ← storeAt buffer pos (toBytes 4 row.count)
  let s := payload size row.count
  if s = 0 then
    return (buffer, s + 4)
  else
    let data ← loadAt row.storage 0 s
    let buffer ← storeAt buffer (pos + 4) data
    return (buffer, s + 4)

/-- `deserialize` out of a buffer; `fresh` is what new memory holds. -/
def deserialize (size : ℕ) (fresh : ℕ → UInt8) (row : RowVector) (buffer : List UInt8) (pos : ℤ) :
    Option (RowVector × ℕ) := do
  let header ← loadAt buffer pos 4
  let row := row.resize size fresh (fromBytes header)
  let s := payload size row.count
  if s = 0 then
    return (row, s + 4)
  else
    let data ← loadAt buffer (pos + 4) s
    let storage ← storeAt row.storage 0 data
    return ({ row with storage := storage }, s + 4)

/-- The bytes of a row that is not too long. -/
def encoded (size : ℕ) (row : RowVector) : List UInt8 := toBytes 4 row.count ++ row.bytes size

-- ---------------------------------------------------------------------------
-- Rows
-- ---------------------------------------------------------------------------

section
variable {size : ℕ} {row : RowVector}

theorem RowVector.resize_count (size : ℕ) (fresh : ℕ → UInt8) (row : RowVector) (count : ℕ) :
    (row.resize size fresh count).count = count := by
  unfold RowVector.resize
  split <;> rfl

theorem RowVector.resize_storage {fresh : ℕ → UInt8} {count : ℕ} (h : count ≤ row.capacity) :
    (row.resize size fresh count).storage = row.storage := by
  rw [RowVector.resize, if_pos h]

theorem Allocated.count_lt (h : Allocated size row) : row.count < 256 ^ 4 :=
  (h.count_le.trans_lt h.capacity_lt).trans_eq (by norm_num)

theorem Allocated.length_bytes (h : Allocated size row) : (row.bytes size).length = row.count * size := by
  rw [RowVector.bytes, List.length_take, h.length]
  exact Nat.min_eq_left (Nat.mul_le_mul_right _ h.count_le)

theorem Allocated.length_encoded (h : Allocated size row) :
    (encoded size row).length = row.count * size + 4 := by
  rw [encoded, List.length_append, length_toBytes, h.length_bytes, Nat.add_comm]

theorem Allocated.resize (h : Allocated size row) (fresh : ℕ → UInt8) {count : ℕ} (hc : count < 2 ^ 32) :
    Allocated size (row.resize size fresh count) := by
  unfold RowVector.resize
  split
  · rename_i hle
    exact ⟨⟨hle, h.length⟩, h.capacity_lt⟩
  · rename_i hgt
    refine ⟨⟨le_rfl, ?_⟩, hc⟩
    have hcount := Nat.mul_le_mul_right size h.count_le
    have hle : row.count ≤ count := h.count_le.trans (Nat.le_of_lt (Nat.lt_of_not_le hgt))
    have hsum : row.count * size + (count - row.count) * size = count * size := by
      rw [← Nat.add_mul, Nat.add_sub_cancel' hle]
    simp only [List.length_append, List.length_take, h.length, List.length_map, List.length_range']
    omega

theorem payload_eq {count : ℕ} (h : count * size < 2 ^ 32) : payload size count = count * size :=
  Nat.mod_eq_of_lt h

theorem payload_le (size count : ℕ) : payload size count ≤ count * size := Nat.mod_le _ _

-- ---------------------------------------------------------------------------
-- Writing
-- ---------------------------------------------------------------------------

/-- A row that was written lies in the buffer. -/
theorem serialize_spec {buffer buffer' : List UInt8} {pos : ℤ} {item : ℕ}
    (h : serialize size row buffer pos = some (buffer', item)) :
    item = payload size row.count + 4 ∧ buffer'.length = buffer.length ∧ 0 ≤ pos ∧
      pos + item ≤ buffer.length := by
  unfold serialize at h
  obtain ⟨first, hfirst, h⟩ := Option.bind_eq_some_iff.mp h
  obtain ⟨⟨hpos, hle⟩, _⟩ := storeAt_eq_some.mp hfirst
  have hlen := length_storeAt hfirst
  rw [length_toBytes] at hle
  simp only at h
  split at h
  · rename_i hs
    cases h
    exact ⟨rfl, hlen, hpos, by rw [hs]; exact hle⟩
  · obtain ⟨data, hdata, h⟩ := Option.bind_eq_some_iff.mp h
    obtain ⟨second, hsecond, h⟩ := Option.bind_eq_some_iff.mp h
    obtain ⟨⟨_, hle'⟩, _⟩ := storeAt_eq_some.mp hsecond
    rw [length_loadAt hdata, hlen] at hle'
    cases h
    refine ⟨rfl, (length_storeAt hsecond).trans hlen, hpos, ?_⟩
    push_cast
    omega

theorem serialize_eq (h : Allocated size row) (hlt : row.count * size < 2 ^ 32) (old : List UInt8)
    (hold : old.length = row.count * size + 4) (pre post : List UInt8) :
    serialize size row (pre ++ old ++ post) pre.length =
      some (pre ++ encoded size row ++ post, row.count * size + 4) := by
  have hheader := storeAt_append pre _ (old.drop 4 ++ post)
    (show (old.take 4).length = (toBytes 4 row.count).length by
      rw [length_toBytes, List.length_take]
      omega)
  have hsplit : pre ++ old.take 4 ++ (old.drop 4 ++ post) = pre ++ old ++ post := by
    rw [List.append_assoc, ← List.append_assoc (old.take 4), List.take_append_drop, List.append_assoc]
  rw [hsplit] at hheader
  unfold serialize
  rw [hheader, payload_eq hlt]
  simp only [Option.bind_eq_bind, Option.bind_some]
  split
  · rename_i hs
    have hnil : old.drop 4 = [] := List.drop_eq_nil_of_le (by omega)
    have hbytes : row.bytes size = [] := by simp [RowVector.bytes, hs]
    simp [hnil, encoded, hbytes]
  · have hdata : loadAt row.storage 0 (row.count * size) = some (row.bytes size) := by
      refine loadAt_eq_some.mpr ⟨⟨le_rfl, ?_⟩, rfl⟩
      rw [h.length, zero_add]
      exact_mod_cast Nat.mul_le_mul_right _ h.count_le
    have hstore := storeAt_append (pre ++ toBytes 4 row.count) _ post
      (show (old.drop 4).length = (row.bytes size).length by
        rw [h.length_bytes, List.length_drop]
        omega)
    have hpos : ((pre ++ toBytes 4 row.count).length : ℤ) = (pre.length : ℤ) + 4 := by
      rw [List.length_append, length_toBytes]
      rfl
    rw [hpos, List.append_assoc _ (old.drop 4)] at hstore
    rw [hdata, Option.bind_some, hstore, Option.bind_some]
    simp [encoded]

-- ---------------------------------------------------------------------------
-- Reading
-- ---------------------------------------------------------------------------

/-- A row that was read keeps the bytes past its payload. -/
theorem deserialize_spec {fresh : ℕ → UInt8} {row' : RowVector} {buffer : List UInt8} {pos : ℤ}
    {item : ℕ} (h : deserialize size fresh row buffer pos = some (row', item))
    (hle : row'.count ≤ row.capacity) {i : ℕ} (hi : payload size row'.count ≤ i) :
    row'.storage[i]? = row.storage[i]? := by
  unfold deserialize at h
  obtain ⟨header, _, h⟩ := Option.bind_eq_some_iff.mp h
  simp only [RowVector.resize_count] at h
  split at h
  · cases h
    rw [RowVector.resize_count] at hle
    rw [RowVector.resize_storage hle]
  · obtain ⟨data, hdata, h⟩ := Option.bind_eq_some_iff.mp h
    obtain ⟨storage, hstorage, h⟩ := Option.bind_eq_some_iff.mp h
    cases h
    simp only at hle hi ⊢
    obtain ⟨⟨_, hfit⟩, rfl⟩ := storeAt_eq_some.mp hstorage
    rw [RowVector.resize_storage hle] at hfit ⊢
    have hlen := length_loadAt hdata
    rw [SlotCopy.getElem?_writeAt (by rw [Int.toNat_zero]; omega), if_neg (by rw [hlen]; omega)]

theorem deserialize_eq {other : RowVector} (h : Allocated size row) (hlt : row.count * size < 2 ^ 32)
    (hother : Allocated size other) (fresh : ℕ → UInt8) (pre post : List UInt8) :
    ∃ row', deserialize size fresh other (pre ++ encoded size row ++ post) pre.length =
        some (row', row.count * size + 4) ∧
      Allocated size row' ∧ row'.count = row.count ∧ row'.bytes size = row.bytes size := by
  have hcount : fromBytes (toBytes 4 row.count) = row.count := by
    rw [fromBytes_toBytes, Nat.mod_eq_of_lt h.count_lt]
  have hheader := loadAt_append pre (toBytes 4 row.count) (row.bytes size ++ post)
  rw [length_toBytes, ← List.append_assoc, List.append_assoc pre, ← encoded] at hheader
  have hresized := hother.resize fresh (h.count_le.trans_lt h.capacity_lt)
  have hcap : row.count ≤ (other.resize size fresh row.count).capacity := by
    simpa only [RowVector.resize_count] using hresized.count_le
  unfold deserialize
  rw [hheader]
  simp only [Option.bind_eq_bind, Option.bind_some, hcount, RowVector.resize_count, payload_eq hlt]
  split
  · rename_i hs
    refine ⟨_, rfl, hresized, RowVector.resize_count _ _ _ _, ?_⟩
    simp [RowVector.bytes, RowVector.resize_count, hs]
  · have hdata := loadAt_append (pre ++ toBytes 4 row.count) (row.bytes size) post
    have hpos : ((pre ++ toBytes 4 row.count).length : ℤ) = (pre.length : ℤ) + 4 := by
      rw [List.length_append, length_toBytes]
      rfl
    rw [hpos, h.length_bytes, List.append_assoc pre, ← encoded] at hdata
    have hfit : row.count * size ≤ (other.resize size fresh row.count).storage.length := by
      rw [hresized.length]
      exact Nat.mul_le_mul_right _ hcap
    have hstore := storeAt_append [] ((other.resize size fresh row.count).storage.take (row.count * size))
      ((other.resize size fresh row.count).storage.drop (row.count * size))
      (show _ = (row.bytes size).length by
        rw [h.length_bytes, List.length_take]
        exact Nat.min_eq_left hfit)
    simp only [List.nil_append, List.take_append_drop, List.length_nil, Nat.cast_zero] at hstore
    rw [hdata, Option.bind_some, hstore, Option.bind_some]
    refine ⟨_, rfl, ⟨⟨hcap, ?_⟩, hresized.capacity_lt⟩, rfl, ?_⟩
    · exact (length_storeAt hstore).trans hresized.length
    · exact List.take_left' h.length_bytes

end

end Flecsi.Data
