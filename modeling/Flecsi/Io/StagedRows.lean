import Flecsi.Io.Hdf5

/-!
# Rows in the staging buffer

When the rows of a rank come through the staging buffer unchanged. The buffer has the number
of bytes of the rows rounded down to words, and the position advances by an `int`.
-/

namespace Flecsi.Io

open Segments ByteCast
open Data
open Execution.Sparse (RowVector)

/-- The rows fill their words, and no length leaves its type. The length of the last row is
not added to the position again. -/
structure RowsFit (size : ℕ) (rows : List RowVector) : Prop where
  rows_lt : rows.length < 2 ^ 31
  row_lt : ∀ row ∈ rows, row.count * size < 2 ^ 32
  item_lt : ∀ row ∈ rows.dropLast, row.count * size + 4 < 2 ^ 31
  words : 4 ∣ (rows.map fun row => row.count * size).sum

/-- What a row holds. -/
def content (size : ℕ) (row : RowVector) : ℕ × List UInt8 := (row.count, row.bytes size)

section
variable {size : ℕ} {rows : List RowVector}

theorem sum_serialized_size (size : ℕ) (rows : List RowVector) :
    (rows.map (serialized_size size)).sum =
      (rows.map fun row => row.count * size).sum + 4 * rows.length := by
  induction rows with
  | nil => rfl
  | cons row rows ih =>
    simp only [List.map_cons, List.sum_cons, List.length_cons, ih, serialized_size]
    omega

theorem length_encoded (h : ∀ row ∈ rows, Allocated size row) :
    (rows.flatMap (encoded size)).length = (rows.map (serialized_size size)).sum := by
  induction rows with
  | nil => rfl
  | cons row rows ih =>
    rw [List.flatMap_cons, List.length_append, (h row List.mem_cons_self).length_encoded,
      ih fun r hr => h r (List.mem_cons_of_mem _ hr), List.map_cons, List.sum_cons,
      serialized_size, Nat.add_comm (row.count * size)]

-- ---------------------------------------------------------------------------
-- Rows that fit
-- ---------------------------------------------------------------------------

theorem serialize_rows_eq (conv : IntConversion) (h : ∀ row ∈ rows, Allocated size row)
    (hrow : ∀ row ∈ rows, row.count * size < 2 ^ 32)
    (hitem : ∀ row ∈ rows.dropLast, row.count * size + 4 < 2 ^ 31) (pre : List UInt8) {old : List UInt8}
    (hold : old.length = (rows.map (serialized_size size)).sum) :
    serialize_rows conv size rows (pre ++ old) pre.length = some (pre ++ rows.flatMap (encoded size)) := by
  induction rows generalizing pre old with
  | nil =>
    have hnil : old = [] := List.length_eq_zero_iff.mp hold
    simp [serialize_rows, hnil]
  | cons row rows ih =>
    have hrow' := h row List.mem_cons_self
    rw [List.map_cons, List.sum_cons, serialized_size] at hold
    have hfirst := serialize_eq hrow' (hrow row List.mem_cons_self)
      (old.take (row.count * size + 4)) (by rw [List.length_take]; omega) pre
      (old.drop (row.count * size + 4))
    rw [List.append_assoc, List.take_append_drop] at hfirst
    rw [serialize_rows, hfirst]
    simp only [Option.bind_eq_bind, Option.bind_some]
    cases rows with
    | nil =>
      have hnil : old.drop (row.count * size + 4) = [] := by
        rw [List.drop_eq_nil_iff]
        simp only [List.map_nil, List.sum_nil] at hold
        omega
      simp [serialize_rows, hnil]
    | cons next rows =>
      have hlt := hitem row (by simp)
      have hpos : (pre.length : ℤ) + conv.toInt (row.count * size + 4) =
          ((pre ++ encoded size row).length : ℤ) := by
        rw [conv.exact _ hlt, List.length_append, hrow'.length_encoded]
        push_cast
        rfl
      rw [hpos, ih (fun r hr => h r (List.mem_cons_of_mem _ hr))
        (fun r hr => hrow r (List.mem_cons_of_mem _ hr))
        (fun r hr => hitem r (by simpa using List.mem_cons_of_mem _ hr)) (pre ++ encoded size row)
        (by rw [List.length_drop]; omega)]
      simp

theorem RowsFit.stage (hfit : RowsFit size rows) (conv : IntConversion)
    (h : ∀ row ∈ rows, Allocated size row) :
    stage_rows conv size rows = some (rows.flatMap (encoded size)) ∧
      (rows.flatMap (encoded size)).length = 4 * ragged_nsize size rows := by
  have hsum : 4 * ragged_nsize size rows = (rows.map (serialized_size size)).sum := by
    obtain ⟨k, hk⟩ := hfit.words
    rw [ragged_nsize, sum_serialized_size]
    omega
  refine ⟨?_, by rw [length_encoded h, hsum]⟩
  rw [stage_rows, if_pos hfit.rows_lt]
  exact serialize_rows_eq conv h hfit.row_lt hfit.item_lt [] (by rw [List.length_replicate, hsum])

/-- The rows are read back over rows of any lengths. -/
theorem deserialize_rows_eq (conv : IntConversion) (fresh : ℕ → ℕ → UInt8)
    (h : ∀ row ∈ rows, Allocated size row)
    (hrow : ∀ row ∈ rows, row.count * size < 2 ^ 32)
    (hitem : ∀ row ∈ rows.dropLast, row.count * size + 4 < 2 ^ 31) (others : List RowVector)
    (hothers : ∀ row ∈ others, Allocated size row) (hlen : others.length = rows.length) (i : ℕ)
    (pre : List UInt8) :
    ∃ rows', deserialize_rows conv size fresh i others (pre ++ rows.flatMap (encoded size)) pre.length =
        some rows' ∧
      rows'.map (content size) = rows.map (content size) := by
  induction rows generalizing others i pre with
  | nil =>
    have hnil : others = [] := List.length_eq_zero_iff.mp hlen
    subst hnil
    exact ⟨[], rfl, rfl⟩
  | cons row rows ih =>
    cases others with
    | nil => simp at hlen
    | cons other others =>
      have hrow' := h row List.mem_cons_self
      obtain ⟨first, hfirst, _, hcount, hbytes⟩ := deserialize_eq hrow' (hrow row List.mem_cons_self)
        (hothers other List.mem_cons_self) (fresh i) pre (rows.flatMap (encoded size))
      have hcontent : content size first = content size row := by rw [content, content, hcount, hbytes]
      rw [List.append_assoc, ← List.flatMap_cons] at hfirst
      rw [deserialize_rows, hfirst]
      simp only [Option.bind_eq_bind, Option.bind_some]
      cases rows with
      | nil =>
        have hnil : others = [] := List.length_eq_zero_iff.mp (by simpa using hlen)
        subst hnil
        exact ⟨[first], rfl, by simp [hcontent]⟩
      | cons next rows =>
        have hlt := hitem row (by simp)
        have hpos : (pre.length : ℤ) + conv.toInt (row.count * size + 4) =
            ((pre ++ encoded size row).length : ℤ) := by
          rw [conv.exact _ hlt, List.length_append, hrow'.length_encoded]
          push_cast
          rfl
        obtain ⟨rest, hrest, hmap⟩ := ih (fun r hr => h r (List.mem_cons_of_mem _ hr))
          (fun r hr => hrow r (List.mem_cons_of_mem _ hr))
          (fun r hr => hitem r (by simpa using List.mem_cons_of_mem _ hr)) others
          (fun r hr => hothers r (List.mem_cons_of_mem _ hr)) (by simpa using hlen) (i + 1)
          (pre ++ encoded size row)
        rw [List.append_assoc, ← List.flatMap_cons] at hrest
        rw [hpos, hrest]
        refine ⟨first :: rest, rfl, ?_⟩
        rw [List.map_cons, hcontent, hmap]
        rfl

-- ---------------------------------------------------------------------------
-- Rows that came through
-- ---------------------------------------------------------------------------

/-- A conversion that sends what `int` does not hold far before the buffer. -/
def farBack (len : ℕ) : IntConversion where
  toInt x := if x < 2 ^ 31 then x else -(len + 1)
  exact _ hx := if_pos hx

theorem serialize_rows_spec {len : ℕ} {buffer buffer' : List UInt8} {pos : ℤ}
    (h : serialize_rows (farBack len) size rows buffer pos = some buffer') (hlen : buffer.length = len)
    (hpos : 0 ≤ pos) (hle : pos ≤ len) :
    (∀ row ∈ rows.dropLast, payload size row.count + 4 < 2 ^ 31) ∧
      pos + ((rows.map fun row => payload size row.count + 4).sum : ℕ) ≤ len := by
  induction rows generalizing buffer pos with
  | nil => exact ⟨fun _ hr => absurd hr List.not_mem_nil, by simpa using hle⟩
  | cons row rows ih =>
    rw [serialize_rows] at h
    obtain ⟨⟨next, item⟩, hrow, hrest⟩ := Option.bind_eq_some_iff.mp h
    obtain ⟨rfl, hnext, _, hend⟩ := serialize_spec hrow
    rw [hlen] at hend
    simp only at hrest
    cases rows with
    | nil => exact ⟨fun _ hr => absurd hr List.not_mem_nil, by simpa using hend⟩
    | cons other rows =>
      have hlt : payload size row.count + 4 < 2 ^ 31 := by
        by_contra hge
        -- the next row would start before the buffer
        rw [serialize_rows] at hrest
        obtain ⟨⟨_, _⟩, hother, _⟩ := Option.bind_eq_some_iff.mp hrest
        obtain ⟨_, _, hstart, _⟩ := serialize_spec hother
        have hback : (farBack len).toInt (payload size row.count + 4) = -(len + 1) := if_neg hge
        rw [hback] at hstart
        omega
      rw [(farBack len).exact _ hlt] at hrest
      obtain ⟨hrows, hsum⟩ := ih hrest (hnext.trans hlen) (by omega) (by push_cast at hend ⊢; omega)
      refine ⟨fun r hr => ?_, ?_⟩
      · rw [List.dropLast_cons_cons] at hr
        obtain rfl | hr := List.mem_cons.mp hr
        · exact hlt
        · exact hrows r hr
      · rw [List.map_cons, List.sum_cons]
        push_cast at hsum ⊢
        omega

/-- A row past its payload is what it was before. -/
theorem deserialize_rows_spec {conv : IntConversion} {fresh : ℕ → ℕ → UInt8} {rows' : List RowVector}
    {i : ℕ} {buffer : List UInt8} {pos : ℤ}
    (h : deserialize_rows conv size fresh i rows buffer pos = some rows') {k : ℕ} {row' : RowVector}
    (hrow' : rows'[k]? = some row') :
    ∃ row, rows[k]? = some row ∧ ∀ j, row'.count ≤ row.capacity → payload size row'.count ≤ j →
      row'.storage[j]? = row.storage[j]? := by
  induction rows generalizing i pos rows' k with
  | nil =>
    cases h
    simp at hrow'
  | cons row rows ih =>
    rw [deserialize_rows] at h
    obtain ⟨⟨first, item⟩, hfirst, h⟩ := Option.bind_eq_some_iff.mp h
    obtain ⟨rest, hrest, h⟩ := Option.bind_eq_some_iff.mp h
    cases h
    cases k with
    | zero =>
      rw [List.getElem?_cons_zero, Option.some.injEq] at hrow'
      subst hrow'
      exact ⟨row, rfl, fun j hle hj => deserialize_spec hfirst hle hj⟩
    | succ k => exact ih hrest hrow'

theorem rowsFit_of_stage (h : ∀ row ∈ rows, row.count * size < 2 ^ 32)
    (hstage : ∀ conv, (stage_rows conv size rows).isSome) : RowsFit size rows := by
  obtain ⟨buffer, hbuffer⟩ := Option.isSome_iff_exists.mp (hstage (farBack (4 * ragged_nsize size rows)))
  rw [stage_rows] at hbuffer
  split at hbuffer
  · rename_i hlt
    obtain ⟨hitem, hsum⟩ := serialize_rows_spec hbuffer List.length_replicate le_rfl
      (Int.natCast_nonneg _)
    have hmap : rows.map (fun row => payload size row.count + 4) = rows.map (serialized_size size) :=
      List.map_congr_left fun row hr => by
        rw [payload_eq (h row hr), serialized_size, Nat.add_comm]
    refine ⟨hlt, h, fun row hr => ?_, ?_⟩
    · rw [← payload_eq (h row (List.mem_of_mem_dropLast hr))]
      exact hitem row hr
    · rw [hmap, ragged_nsize, sum_serialized_size, zero_add, Nat.cast_le] at hsum
      omega
  · cases hbuffer

-- ---------------------------------------------------------------------------
-- Changed contents
-- ---------------------------------------------------------------------------

/-- One byte changed. -/
def spoil (data : List UInt8) (i : ℕ) : List UInt8 := data.modify i (· + 1)

@[simp] theorem length_spoil (data : List UInt8) (i : ℕ) : (spoil data i).length = data.length :=
  List.length_modify _ _ _

theorem spoil_ne {data : List UInt8} {i : ℕ} (h : i < data.length) : (spoil data i)[i]? ≠ data[i]? := by
  rw [spoil, List.getElem?_modify_eq, List.getElem?_eq_getElem h]
  simp

theorem allocated_spoil {row : RowVector} (h : Allocated size row) (i : ℕ) :
    Allocated size { row with storage := spoil row.storage i } :=
  ⟨⟨h.count_le, (length_spoil _ _).trans h.length⟩, h.capacity_lt⟩

/-- A row that is read back over changed contents has all its bytes in its payload. -/
theorem row_lt_of_restored {row row' : RowVector} (h : Allocated size row)
    (hcontent : content size row' = content size row)
    (hkept : ∀ j, row'.count ≤ row.capacity → payload size row'.count ≤ j →
      row'.storage[j]? = (spoil row.storage (row.count * size - 1))[j]?) :
    row.count * size < 2 ^ 32 := by
  obtain ⟨hcount, hbytes⟩ := Prod.ext_iff.mp hcontent
  simp only [content] at hcount hbytes
  by_contra hge
  have hpayload : payload size row.count < 2 ^ 32 := Nat.mod_lt _ (by norm_num)
  have hj : row.count * size - 1 < row.storage.length := by
    have := Nat.mul_le_mul_right size h.count_le
    rw [h.length]
    omega
  have hin : row.count * size - 1 < row.count * size := by omega
  have hbyte := congrArg (·[row.count * size - 1]?) hbytes
  simp only [RowVector.bytes, hcount, List.getElem?_take_of_lt hin] at hbyte
  rw [hcount] at hkept
  rw [hkept _ h.count_le (by omega)] at hbyte
  exact spoil_ne hj hbyte

end

end Flecsi.Io
