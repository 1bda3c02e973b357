import Flecsi.Data.RowSerdez

/-!
# Rows written one after another

The rows of a field go to a buffer or a stream in sequence and are read back in
the same order.
-/

namespace Flecsi.Data

open ByteCast PackedBuffer Segments
open Execution.Sparse (RowVector)

/-- `serialize` into a stream, with what it returns. -/
def serializeTo (size : ℕ) (row : RowVector) (os : List UInt8) : Option (List UInt8 × ℕ) := do
  let os := os ++ toBytes 4 row.count
  let s := payload size row.count
  if s = 0 then
    return (os, s + 4)
  else
    let data ← loadAt row.storage 0 s
    return (os ++ data, s + 4)

/-- `n` bytes of a stream, and those that follow. -/
def readBytes (is : List UInt8) (n : ℕ) : Option (List UInt8 × List UInt8) :=
  if n ≤ is.length then some (is.take n, is.drop n) else none

/-- `deserialize` out of a stream. -/
def deserializeFrom (size : ℕ) (fresh : ℕ → UInt8) (row : RowVector) (is : List UInt8) :
    Option (RowVector × List UInt8 × ℕ) := do
  let (header, is) ← readBytes is 4
  let row := row.resize size fresh (fromBytes header)
  let s := payload size row.count
  if s = 0 then
    return (row, is, s + 4)
  else
    let (data, is) ← readBytes is s
    let storage ← storeAt row.storage 0 data
    return ({ row with storage := storage }, is, s + 4)

-- ---------------------------------------------------------------------------
-- Sequences
-- ---------------------------------------------------------------------------

def serializeRows (size : ℕ) : List RowVector → List UInt8 → ℤ → Option (List UInt8 × ℕ)
  | [], buffer, _ => some (buffer, 0)
  | row :: rows, buffer, pos => do
    let (buffer, n) ← serialize size row buffer pos
    let (buffer, m) ← serializeRows size rows buffer (pos + n)
    return (buffer, n + m)

def serializeRowsTo (size : ℕ) : List RowVector → List UInt8 → Option (List UInt8 × ℕ)
  | [], os => some (os, 0)
  | row :: rows, os => do
    let (os, n) ← serializeTo size row os
    let (os, m) ← serializeRowsTo size rows os
    return (os, n + m)

/-- The rows are read into `others`. -/
def deserializeRows (size : ℕ) (fresh : ℕ → UInt8) :
    List RowVector → List UInt8 → ℤ → Option (List RowVector × ℕ)
  | [], _, _ => some ([], 0)
  | other :: others, buffer, pos => do
    let (row, n) ← deserialize size fresh other buffer pos
    let (rows, m) ← deserializeRows size fresh others buffer (pos + n)
    return (row :: rows, n + m)

def deserializeRowsFrom (size : ℕ) (fresh : ℕ → UInt8) :
    List RowVector → List UInt8 → Option (List RowVector × List UInt8 × ℕ)
  | [], is => some ([], is, 0)
  | other :: others, is => do
    let (row, is, n) ← deserializeFrom size fresh other is
    let (rows, is, m) ← deserializeRowsFrom size fresh others is
    return (row :: rows, is, n + m)

/-- What the size function says of the rows. -/
def serializedSizes (size : ℕ) (rows : List RowVector) : ℕ := (rows.map (serialized_size size)).sum

/-- The entries have come back, in a row that has its memory. -/
structure Restored (size : ℕ) (row row' : RowVector) : Prop extends Allocated size row' where
  count_eq : row'.count = row.count
  bytes_eq : row'.bytes size = row.bytes size

/-- The rows are written to exactly as many bytes as the size function says, the
same for a buffer and a stream, and from these they are read back. -/
def Lossless (size : ℕ) (rows : List RowVector) : Prop :=
  ∃ out : List UInt8, out.length = serializedSizes size rows ∧
    (∀ pre old post : List UInt8, old.length = out.length →
      serializeRows size rows (pre ++ old ++ post) pre.length = some (pre ++ out ++ post, out.length)) ∧
    (∀ os, serializeRowsTo size rows os = some (os ++ out, out.length)) ∧
    ∀ (fresh : ℕ → UInt8) (others : List RowVector), others.length = rows.length →
      (∀ other ∈ others, Allocated size other) →
      (∀ pre post : List UInt8, ∃ rows',
        deserializeRows size fresh others (pre ++ out ++ post) pre.length = some (rows', out.length) ∧
          List.Forall₂ (Restored size) rows rows') ∧
      ∀ is, ∃ rows', deserializeRowsFrom size fresh others (out ++ is) = some (rows', is, out.length) ∧
        List.Forall₂ (Restored size) rows rows'

-- ---------------------------------------------------------------------------
-- One row
-- ---------------------------------------------------------------------------

section
variable {size : ℕ} {row other : RowVector}

theorem serializeTo_eq (h : Allocated size row) (hlt : row.count * size < 2 ^ 32) (os : List UInt8) :
    serializeTo size row os = some (os ++ encoded size row, row.count * size + 4) := by
  unfold serializeTo
  rw [payload_eq hlt]
  dsimp only
  split
  · rename_i hs
    have hbytes : row.bytes size = [] := by simp [RowVector.bytes, hs]
    simp [encoded, hbytes]
  · have hdata : loadAt row.storage 0 (row.count * size) = some (row.bytes size) := by
      refine loadAt_eq_some.mpr ⟨⟨le_rfl, ?_⟩, rfl⟩
      rw [h.length, zero_add]
      exact_mod_cast Nat.mul_le_mul_right _ h.count_le
    rw [hdata]
    simp [encoded]

/-- What is returned is the payload in 32 bits. -/
theorem serializeTo_returns {os os' : List UInt8} {n : ℕ} (h : serializeTo size row os = some (os', n)) :
    n = payload size row.count + 4 := by
  unfold serializeTo at h
  simp only at h
  split at h
  · cases h
    rfl
  · obtain ⟨data, _, h⟩ := Option.bind_eq_some_iff.mp h
    cases h
    rfl

/-- A load behind what was read from the stream. -/
theorem readBytes_drop (is : List UInt8) (n m : ℕ) (h : n ≤ is.length) :
    readBytes (is.drop n) m = (loadAt is n m).map fun data => (data, is.drop (n + m)) := by
  unfold readBytes loadAt
  have hiff : m ≤ (is.drop n).length ↔ (0 : ℤ) ≤ n ∧ (n : ℤ) + m ≤ is.length := by
    rw [List.length_drop]
    omega
  simp only [hiff, Int.toNat_natCast, List.drop_drop]
  split <;> rfl

/-- Reading from a stream is reading from a buffer at its beginning. -/
theorem deserializeFrom_eq (fresh : ℕ → UInt8) (row : RowVector) (is : List UInt8) :
    deserializeFrom size fresh row is =
      (deserialize size fresh row is 0).map fun (row, n) => (row, is.drop n, n) := by
  have hfirst : readBytes is 4 = (loadAt is 0 4).map fun header => (header, is.drop 4) := by
    have hread := readBytes_drop is 0 4 (Nat.zero_le _)
    rwa [List.drop_zero, Nat.zero_add] at hread
  unfold deserializeFrom deserialize
  rw [hfirst]
  cases hheader : loadAt is 0 4 with
  | none => rfl
  | some header =>
    have hlen : 4 ≤ is.length := by
      have hbound := (loadAt_eq_some.mp hheader).1.2
      omega
    simp only [Option.map_some, Option.bind_eq_bind, Option.bind_some, readBytes_drop is 4 _ hlen, zero_add]
    split
    · rename_i hs
      simp [hs]
    · cases hdata : loadAt is 4 (payload size (row.resize size fresh (fromBytes header)).count) with
      | none => rfl
      | some data => simp [Nat.add_comm 4, Option.map_bind]

theorem deserialize_restores (h : Allocated size row) (hlt : row.count * size < 2 ^ 32) (hother : Allocated size other)
    (fresh : ℕ → UInt8) (pre post : List UInt8) :
    ∃ row', deserialize size fresh other (pre ++ encoded size row ++ post) pre.length =
        some (row', row.count * size + 4) ∧ Restored size row row' := by
  obtain ⟨row', hread, hrow', hcount, hbytes⟩ := deserialize_eq h hlt hother fresh pre post
  exact ⟨row', hread, ⟨hrow', hcount, hbytes⟩⟩

theorem deserializeFrom_restores (h : Allocated size row) (hlt : row.count * size < 2 ^ 32)
    (hother : Allocated size other) (fresh : ℕ → UInt8) (is : List UInt8) :
    ∃ row', deserializeFrom size fresh other (encoded size row ++ is) = some (row', is, row.count * size + 4) ∧
      Restored size row row' := by
  obtain ⟨row', hread, hrow'⟩ := deserialize_restores h hlt hother fresh [] is
  refine ⟨row', ?_, hrow'⟩
  rw [List.nil_append, List.length_nil, Nat.cast_zero] at hread
  rw [deserializeFrom_eq, hread]
  simp [List.drop_left' h.length_encoded]

end

-- ---------------------------------------------------------------------------
-- All rows
-- ---------------------------------------------------------------------------

/-- The row is not too long for its size in 32 bits. -/
def Short (size : ℕ) (row : RowVector) : Prop := row.count * size < 2 ^ 32

section
variable {size : ℕ} {rows : List RowVector}

theorem serializedSizes_cons (row : RowVector) :
    serializedSizes size (row :: rows) = row.count * size + 4 + serializedSizes size rows := by
  rw [serializedSizes, List.map_cons, List.sum_cons, ← serializedSizes, serialized_size, Nat.add_comm 4]

theorem length_encodedRows (h : ∀ row ∈ rows, Allocated size row) :
    (rows.flatMap (encoded size)).length = serializedSizes size rows := by
  induction rows with
  | nil => rfl
  | cons row rows ih =>
    obtain ⟨hrow, hrows⟩ := List.forall_mem_cons.mp h
    rw [List.flatMap_cons, List.length_append, hrow.length_encoded, ih hrows, serializedSizes_cons]

theorem serializeRows_eq (h : ∀ row ∈ rows, Allocated size row) (hs : ∀ row ∈ rows, Short size row)
    (pre old post : List UInt8) (hold : old.length = serializedSizes size rows) :
    serializeRows size rows (pre ++ old ++ post) pre.length =
      some (pre ++ rows.flatMap (encoded size) ++ post, serializedSizes size rows) := by
  induction rows generalizing pre old with
  | nil =>
    obtain rfl := List.eq_nil_of_length_eq_zero hold
    rfl
  | cons row rows ih =>
    obtain ⟨hrow, hrows⟩ := List.forall_mem_cons.mp h
    obtain ⟨hshort, hshorts⟩ := List.forall_mem_cons.mp hs
    rw [serializedSizes_cons] at hold
    have hfirst := serialize_eq hrow hshort (old.take (row.count * size + 4)) (by rw [List.length_take]; omega) pre
      (old.drop (row.count * size + 4) ++ post)
    have hnext := ih hrows hshorts (pre ++ encoded size row) (old.drop (row.count * size + 4))
      (by rw [List.length_drop]; omega)
    have hpos : ((pre ++ encoded size row).length : ℤ) = (pre.length : ℤ) + (row.count * size + 4 : ℕ) := by
      rw [List.length_append, hrow.length_encoded, Nat.cast_add]
    have hsplit : pre ++ old.take (row.count * size + 4) ++ (old.drop (row.count * size + 4) ++ post) = pre ++ old ++ post := by
      rw [List.append_assoc, ← List.append_assoc (old.take _), List.take_append_drop, List.append_assoc]
    rw [hsplit] at hfirst
    rw [hpos, List.append_assoc _ (old.drop _)] at hnext
    rw [serializeRows, hfirst, serializedSizes_cons, List.flatMap_cons]
    simp only [Option.bind_eq_bind, Option.bind_some, hnext]
    simp

theorem serializeRowsTo_eq (h : ∀ row ∈ rows, Allocated size row) (hs : ∀ row ∈ rows, Short size row)
    (os : List UInt8) :
    serializeRowsTo size rows os = some (os ++ rows.flatMap (encoded size), serializedSizes size rows) := by
  induction rows generalizing os with
  | nil => simp [serializeRowsTo, serializedSizes]
  | cons row rows ih =>
    obtain ⟨hrow, hrows⟩ := List.forall_mem_cons.mp h
    obtain ⟨hshort, hshorts⟩ := List.forall_mem_cons.mp hs
    rw [serializeRowsTo, serializeTo_eq hrow hshort, serializedSizes_cons, List.flatMap_cons]
    simp only [Option.bind_eq_bind, Option.bind_some, ih hrows hshorts]
    simp

theorem deserializeRows_eq (h : ∀ row ∈ rows, Allocated size row) (hs : ∀ row ∈ rows, Short size row)
    (fresh : ℕ → UInt8) {others : List RowVector} (hlen : others.length = rows.length)
    (hothers : ∀ other ∈ others, Allocated size other) (pre post : List UInt8) :
    ∃ rows', deserializeRows size fresh others (pre ++ rows.flatMap (encoded size) ++ post) pre.length =
        some (rows', serializedSizes size rows) ∧ List.Forall₂ (Restored size) rows rows' := by
  induction rows generalizing others pre with
  | nil =>
    obtain rfl := List.eq_nil_of_length_eq_zero hlen
    exact ⟨[], rfl, .nil⟩
  | cons row rows ih =>
    obtain ⟨hrow, hrows⟩ := List.forall_mem_cons.mp h
    obtain ⟨hshort, hshorts⟩ := List.forall_mem_cons.mp hs
    obtain ⟨other, others, rfl⟩ := List.exists_cons_of_length_eq_add_one hlen
    obtain ⟨hother, hothers⟩ := List.forall_mem_cons.mp hothers
    obtain ⟨row', hread, hrow'⟩ := deserialize_restores hrow hshort hother fresh pre (rows.flatMap (encoded size) ++ post)
    obtain ⟨rows', hreads, hrows'⟩ := ih hrows hshorts (Nat.succ.inj hlen) hothers (pre ++ encoded size row)
    have hpos : ((pre ++ encoded size row).length : ℤ) = (pre.length : ℤ) + (row.count * size + 4 : ℕ) := by
      rw [List.length_append, hrow.length_encoded, Nat.cast_add]
    have hsplit : pre ++ (row :: rows).flatMap (encoded size) ++ post =
        pre ++ encoded size row ++ (rows.flatMap (encoded size) ++ post) := by
      rw [List.flatMap_cons]
      simp only [List.append_assoc]
    rw [hpos, List.append_assoc (pre ++ _)] at hreads
    refine ⟨row' :: rows', ?_, .cons hrow' hrows'⟩
    rw [hsplit, deserializeRows, hread]
    simp only [Option.bind_eq_bind, Option.bind_some, hreads, serializedSizes_cons]
    rfl

theorem deserializeRowsFrom_eq (h : ∀ row ∈ rows, Allocated size row) (hs : ∀ row ∈ rows, Short size row)
    (fresh : ℕ → UInt8) {others : List RowVector} (hlen : others.length = rows.length)
    (hothers : ∀ other ∈ others, Allocated size other) (is : List UInt8) :
    ∃ rows', deserializeRowsFrom size fresh others (rows.flatMap (encoded size) ++ is) =
        some (rows', is, serializedSizes size rows) ∧ List.Forall₂ (Restored size) rows rows' := by
  induction rows generalizing others with
  | nil =>
    obtain rfl := List.eq_nil_of_length_eq_zero hlen
    exact ⟨[], rfl, .nil⟩
  | cons row rows ih =>
    obtain ⟨hrow, hrows⟩ := List.forall_mem_cons.mp h
    obtain ⟨hshort, hshorts⟩ := List.forall_mem_cons.mp hs
    obtain ⟨other, others, rfl⟩ := List.exists_cons_of_length_eq_add_one hlen
    obtain ⟨hother, hothers⟩ := List.forall_mem_cons.mp hothers
    obtain ⟨row', hread, hrow'⟩ := deserializeFrom_restores hrow hshort hother fresh (rows.flatMap (encoded size) ++ is)
    obtain ⟨rows', hreads, hrows'⟩ := ih hrows hshorts (Nat.succ.inj hlen) hothers
    refine ⟨row' :: rows', ?_, .cons hrow' hrows'⟩
    rw [List.flatMap_cons, List.append_assoc, deserializeRowsFrom, hread]
    simp only [Option.bind_eq_bind, Option.bind_some, hreads, serializedSizes_cons]
    rfl

/-- What all writes return is the sum of the payloads in 32 bits. -/
theorem serializeRowsTo_returns {os os' : List UInt8} {n : ℕ} (h : serializeRowsTo size rows os = some (os', n)) :
    n = (rows.map fun row => payload size row.count + 4).sum := by
  induction rows generalizing os n with
  | nil =>
    cases h
    rfl
  | cons row rows ih =>
    obtain ⟨⟨os1, n1⟩, hfirst, h⟩ := Option.bind_eq_some_iff.mp h
    obtain ⟨⟨os2, n2⟩, hnext, h⟩ := Option.bind_eq_some_iff.mp h
    cases h
    rw [serializeTo_returns hfirst, ih hnext, List.map_cons, List.sum_cons]

/-- Rows are written and read back without loss just when none of them is too
long. -/
theorem lossless_iff (h : ∀ row ∈ rows, Allocated size row) : Lossless size rows ↔ ∀ row ∈ rows, Short size row := by
  constructor
  · rintro ⟨out, hlen, -, hstream, -⟩ row hrow
    have hsum := serializeRowsTo_returns (hstream [])
    rw [hlen, serializedSizes] at hsum
    have hle (row : RowVector) (_ : row ∈ rows) : payload size row.count + 4 ≤ serialized_size size row := by
      have hpayload := payload_le size row.count
      rw [serialized_size]
      omega
    by_contra hlong
    have hlt : payload size row.count + 4 < serialized_size size row := by
      have hmod := Nat.mod_lt (row.count * size) (Nat.two_pow_pos 32)
      rw [Short] at hlong
      rw [payload, serialized_size]
      omega
    exact absurd hsum.symm (List.sum_lt_sum _ _ hle ⟨row, hrow, hlt⟩).ne
  · intro hs
    refine ⟨rows.flatMap (encoded size), length_encodedRows h, fun pre old post hold => ?_, fun os => ?_,
      fun fresh others hlen hothers => ⟨fun pre post => ?_, fun is => ?_⟩⟩
    · rw [length_encodedRows h] at hold ⊢
      exact serializeRows_eq h hs pre old post hold
    · rw [length_encodedRows h]
      exact serializeRowsTo_eq h hs os
    · rw [length_encodedRows h]
      exact deserializeRows_eq h hs fresh hlen hothers pre post
    · rw [length_encodedRows h]
      exact deserializeRowsFrom_eq h hs fresh hlen hothers is

end

end Flecsi.Data
