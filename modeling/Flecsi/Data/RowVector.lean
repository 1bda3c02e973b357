import Flecsi.Lib.ArrayShift
import Flecsi.Lib.Operations
import Flecsi.Lib.PackedBuffer

/-!
# Rows

`row_vector_u` keeps a list at the front of an array that grows by five elements
at a time, with its length and the length of the array in 32 bits. A ragged
handle has a row for each index, and `ragged_mutator` works on these. Positions
stand for iterators.
-/

namespace Flecsi.Data

open ArrayShift PackedBuffer
open Operations (guard_bind)

variable {α : Type}

structure RowVectorU (α : Type) where
  count : ℕ
  capacity : ℕ
  datap : List α

namespace RowVectorU

section
variable (memory : ℕ → α) (row : RowVectorU α)

/-- The default constructor. -/
def empty : RowVectorU α := ⟨0, 0, []⟩

/-- `new T[n]`, where `memory` is what its elements are. -/
def newArray (n : ℕ) : List α := (List.range n).map memory

/-- The constructor of a count. -/
def construct (init_count : ℕ) : RowVectorU α := ⟨init_count, init_count, newArray memory init_count⟩

def clear : RowVectorU α := empty

/-- What is between `begin()` and `end()`. -/
def values : List α := row.datap.take row.count

def reserve (new_cap : ℕ) : Option (RowVectorU α) :=
  if new_cap ≤ row.capacity then some row
  else do
    let old ← span row.datap 0 row.count
    let new_data ← write old 0 (newArray memory new_cap)
    return { row with capacity := new_cap, datap := new_data }

def resize (new_count : ℕ) : Option (RowVectorU α) := do
  let row ← row.reserve memory new_count
  return { row with count := new_count }

/-- `assign` from an array elsewhere. -/
def assign (source : List α) : Option (RowVectorU α) := do
  let row ← row.resize memory (source.length % 2 ^ 32)
  let datap ← write source 0 row.datap
  return { row with datap }

/-- `assign` from a range of the row itself, which must not be allocated anew. -/
def assignOwn (first last : ℕ) : Option (RowVectorU α) := do
  let resized ← row.resize memory ((last - first) % 2 ^ 32)
  guard (resized.capacity = row.capacity)
  let datap ← moveUp id (last - first) first 0 resized.datap
  return { resized with datap }

/-- The capacity grows in steps of five, in 32 bits. -/
def grow : Option (RowVectorU α) :=
  if row.count = row.capacity then row.reserve memory ((row.count + 5) % 2 ^ 32) else some row

/-- What the reference to a value reads. A reference into the row is dangling
once the array has been allocated anew. -/
def argument (grown : RowVectorU α) (data : List α) : Arg α → Option α
  | .value a => some a
  | .element i => if grown.capacity = row.capacity then data[i]? else none

def push_back (value : Arg α) : Option (RowVectorU α) := do
  let grown ← row.grow memory
  let a ← row.argument grown grown.datap value
  let datap ← put grown.datap grown.count a
  return { grown with count := (grown.count + 1) % 2 ^ 32, datap }

def erase (idx : ℕ) : Option (RowVectorU α) := do
  guard (idx < row.count)
  let datap ← moveUp id (row.count - (idx + 1)) (idx + 1) idx row.datap
  return { row with count := row.count - 1, datap }

def insert (idx : ℕ) (value : Arg α) : Option (RowVectorU α × ℕ) := do
  guard (idx ≤ row.count)
  let grown ← row.grow memory
  let datap ← moveDown id (grown.count - idx) idx (idx + 1) grown.datap
  let a ← row.argument grown datap value
  let datap ← put datap idx a
  return ({ grown with count := (grown.count + 1) % 2 ^ 32, datap }, idx)

/-- A write through `operator[]`. -/
def set (index : ℕ) (a : α) : Option (RowVectorU α) := do
  guard (index < row.count)
  let datap ← put row.datap index a
  return { row with datap }

end

/-- The array is as long as the capacity says, and the list fits into it. -/
structure Valid (row : RowVectorU α) : Prop where
  length_eq : row.datap.length = row.capacity
  capacity_lt : row.capacity < 2 ^ 32
  count_le : row.count ≤ row.capacity

/-- One more element can be made room for: a full row has a capacity that leaves
room for five more in 32 bits. -/
def Growable (row : RowVectorU α) : Prop := row.count = row.capacity → row.count + 5 < 2 ^ 32

/-- The capacity that makes room for one more element. -/
def nextCapacity (row : RowVectorU α) : ℕ := if row.count = row.capacity then row.count + 5 else row.capacity

end RowVectorU

-- ---------------------------------------------------------------------------
-- One operation on a row
-- ---------------------------------------------------------------------------

namespace RowVectorU

variable {memory : ℕ → α} {row : RowVectorU α}

@[simp] theorem length_newArray (memory : ℕ → α) (n : ℕ) : (newArray memory n).length = n := by
  simp [newArray]

theorem Valid.empty : (empty : RowVectorU α).Valid := ⟨rfl, Nat.two_pow_pos 32, le_rfl⟩

theorem Valid.construct (memory : ℕ → α) {n : ℕ} (h : n < 2 ^ 32) : (construct memory n).Valid :=
  ⟨length_newArray memory n, h, le_rfl⟩

theorem Valid.length_values (h : row.Valid) : row.values.length = row.count := by
  rw [values, List.length_take, h.length_eq]
  exact Nat.min_eq_left h.count_le

theorem Valid.count_le_length (h : row.Valid) : row.count ≤ row.datap.length := h.length_eq ▸ h.count_le

theorem Valid.count_lt (h : row.Valid) : row.count < 2 ^ 32 := h.count_le.trans_lt h.capacity_lt

theorem getElem?_datap {i : ℕ} (hi : i < row.count) : row.datap[i]? = row.values[i]? := by
  rw [values, List.getElem?_take_of_lt hi]

/-- The elements are kept, in an array of the larger capacity. -/
theorem Valid.reserve (h : row.Valid) (memory : ℕ → α) {n : ℕ} (hn : n < 2 ^ 32) :
    ∃ row', row.reserve memory n = some row' ∧ row'.Valid ∧ row'.count = row.count ∧ row'.values = row.values ∧
      row'.capacity = max row.capacity n := by
  cases Nat.lt_or_ge row.capacity n with
  | inr hle =>
    exact ⟨row, if_pos hle, h, rfl, rfl, (Nat.max_eq_left hle).symm⟩
  | inl hlt =>
    have hle : row.count ≤ n := h.count_le.trans hlt.le
    have hspan : span row.datap 0 row.count = some row.values := by
      have hprefix : row.values <+: row.datap.drop 0 := List.take_prefix _ _
      have hread := span_eq hprefix
      rwa [h.length_values] at hread
    have hwrite : write row.values 0 (newArray memory n) = some (row.values ++ (newArray memory n).drop row.count) := by
      have hfits : 0 + row.values.length ≤ (newArray memory n).length := by
        rw [h.length_values, length_newArray]
        omega
      have hwritten := write_eq hfits
      rwa [List.take_zero, List.nil_append, Nat.zero_add, h.length_values] at hwritten
    refine ⟨⟨row.count, n, row.values ++ (newArray memory n).drop row.count⟩, ?_, ⟨?_, hn, hle⟩, rfl, ?_, ?_⟩
    · rw [RowVectorU.reserve, if_neg (Nat.not_le_of_gt hlt), hspan]
      simp [hwrite]
    · rw [List.length_append, h.length_values, List.length_drop, length_newArray]
      exact Nat.add_sub_cancel' hle
    · exact List.take_left' h.length_values
    · exact (Nat.max_eq_right hlt.le).symm

/-- The common prefix is kept. -/
theorem Valid.resize (h : row.Valid) (memory : ℕ → α) {n : ℕ} (hn : n < 2 ^ 32) :
    ∃ row' more, row.resize memory n = some row' ∧ row'.Valid ∧ row'.count = n ∧
      row'.capacity = max row.capacity n ∧ row'.values = row.values.take n ++ more ∧ more.length = n - row.count := by
  obtain ⟨row1, hreserve, h1, hcount, hvalues, hcap⟩ := h.reserve memory hn
  have hle : n ≤ row1.capacity := by omega
  have htake : (row1.datap.take n).take row.count = row.values.take n := by
    rw [← hvalues, values, hcount, List.take_take, List.take_take, Nat.min_comm]
  refine ⟨{ row1 with count := n }, (row1.datap.take n).drop row.count, ?_, ⟨h1.length_eq, h1.capacity_lt, hle⟩, rfl, hcap, ?_, ?_⟩
  · rw [RowVectorU.resize, hreserve]
    rfl
  · rw [← htake, List.take_append_drop]
    rfl
  · rw [List.length_drop, List.length_take, h1.length_eq, Nat.min_eq_left hle]

theorem Valid.assign (h : row.Valid) (memory : ℕ → α) {source : List α} (hn : source.length < 2 ^ 32) :
    ∃ row', row.assign memory source = some row' ∧ row'.Valid ∧ row'.values = source := by
  obtain ⟨row1, _, hresize, h1, hcount, _⟩ := h.resize memory hn
  have hlen := h1.count_le_length
  rw [hcount] at hlen
  have hfits : 0 + source.length ≤ row1.datap.length := by omega
  have hwritten := write_eq hfits
  rw [List.take_zero, List.nil_append, Nat.zero_add] at hwritten
  refine ⟨{ row1 with datap := source ++ row1.datap.drop source.length }, ?_, ⟨?_, h1.capacity_lt, h1.count_le⟩, ?_⟩
  · rw [RowVectorU.assign, Nat.mod_eq_of_lt hn, hresize]
    simp [hwritten]
  · rw [List.length_append, List.length_drop, ← h1.length_eq]
    omega
  · exact List.take_left' hcount.symm

theorem Valid.assignOwn (h : row.Valid) (memory : ℕ → α) {first last : ℕ} (hle : first ≤ last) (hlast : last ≤ row.count) :
    ∃ row', row.assignOwn memory first last = some row' ∧ row'.Valid ∧
      row'.values = (row.values.take last).drop first := by
  have hcount := h.count_lt
  have hn : last - first < 2 ^ 32 := by omega
  have hcap := h.count_le
  have hfits : last - first ≤ row.capacity := by omega
  have hresize : row.resize memory (last - first) = some { row with count := last - first } := by
    rw [RowVectorU.resize, RowVectorU.reserve, if_pos hfits]
    rfl
  have hlen := h.count_le_length
  obtain ⟨datap, hmove, hmoved⟩ := @moveUp_copy α (last - first) first 0 row.datap (by omega) (Nat.zero_le _)
  refine ⟨⟨last - first, row.capacity, datap⟩, ?_, ⟨hmoved.length_eq.trans h.length_eq, h.capacity_lt, hfits⟩, ?_⟩
  · rw [RowVectorU.assignOwn, Nat.mod_eq_of_lt hn, hresize]
    simp [hmove]
  · apply List.ext_getElem?
    intro i
    change (datap.take (last - first))[i]? = _
    rw [List.getElem?_take, List.getElem?_drop, List.getElem?_take]
    split_ifs with hi hi' hi'
    · rw [← getElem?_datap (by omega), ← hmoved.arrived i hi, Nat.zero_add]
    · omega
    · omega
    · rfl

theorem Valid.set (h : row.Valid) {i : ℕ} (hi : i < row.count) (a : α) :
    ∃ row', row.set i a = some row' ∧ row'.Valid ∧ row'.values = row.values.set i a ∧ row'.capacity = row.capacity := by
  have hlen := h.count_le_length
  have hput : put row.datap i a = some (row.datap.set i a) := put_eq (by omega) a
  refine ⟨{ row with datap := row.datap.set i a }, ?_, ⟨?_, h.capacity_lt, h.count_le⟩, List.take_set, rfl⟩
  · simp [RowVectorU.set, hi, hput]
  · rw [List.length_set, h.length_eq]

theorem Valid.erase (h : row.Valid) {i : ℕ} (hi : i < row.count) :
    ∃ row', row.erase i = some row' ∧ row'.Valid ∧ row'.values = eraseAt row.values i 1 := by
  have hlen := h.count_le_length
  have hle := h.count_le
  obtain ⟨datap, hmove, hmoved⟩ := @moveUp_eq α id (row.count - (i + 1)) (i + 1) i row.datap (by omega) (by omega) (by omega)
  refine ⟨⟨row.count - 1, row.capacity, datap⟩, ?_, ⟨hmoved.length_eq.trans h.length_eq, h.capacity_lt, ?_⟩, ?_⟩
  · simp [RowVectorU.erase, hi, hmove]
  · exact (Nat.sub_le _ _).trans hle
  · exact hmoved.erase hi hlen Nat.one_pos

/-- A growable row grows into one with room, and stays as it is when it has
room. -/
theorem Valid.grow (h : row.Valid) (memory : ℕ → α) (hg : row.Growable) :
    ∃ grown, row.grow memory = some grown ∧ grown.Valid ∧ grown.count = row.count ∧ grown.values = row.values ∧
      grown.capacity = row.nextCapacity ∧ (row.count < row.capacity → grown = row) := by
  cases Nat.eq_or_lt_of_le h.count_le with
  | inl hfull =>
    have hlt := hg hfull
    obtain ⟨grown, hreserve, hgrown, hcount, hvalues, hcap⟩ := h.reserve memory hlt
    refine ⟨grown, ?_, hgrown, hcount, hvalues, ?_, fun hroom => absurd hfull hroom.ne⟩
    · rw [RowVectorU.grow, if_pos hfull, Nat.mod_eq_of_lt hlt, hreserve]
    · rw [nextCapacity, if_pos hfull, hcap]
      omega
  | inr hroom => exact ⟨row, if_neg hroom.ne, h, rfl, rfl, (if_neg hroom.ne).symm, fun _ => rfl⟩

theorem Valid.count_lt_nextCapacity (h : row.Valid) : row.count < row.nextCapacity := by
  have hle := h.count_le
  rw [nextCapacity]
  split_ifs
  · omega
  · omega

/-- A reference into a row with room reads what the row has. -/
theorem argument_eq {grown : RowVectorU α} {data : List α} {value : Arg α} {a : α} (ha : value.read row.values = some a)
    (hsame : ∀ i, value = .element i → grown = row ∧ data[i]? = row.values[i]?) : row.argument grown data value = some a := by
  cases value with
  | value b => exact ha
  | element i =>
    obtain ⟨rfl, hdata⟩ := hsame i rfl
    exact (if_pos rfl).trans (hdata.trans ha)

theorem Valid.push_back (h : row.Valid) (memory : ℕ → α) (hg : row.Growable) {value : Arg α} {a : α}
    (ha : value.read row.values = some a) (hroom : ∀ i, value = .element i → row.count < row.capacity) :
    ∃ row', row.push_back memory value = some row' ∧ row'.Valid ∧ row'.values = row.values ++ [a] := by
  obtain ⟨grown, hgrow, hgrown, hcount, hvalues, hcap, hsame⟩ := h.grow memory hg
  have hlt : row.count < grown.capacity := hcap.symm ▸ h.count_lt_nextCapacity
  have hvalue : row.argument grown grown.datap value = some a := by
    refine argument_eq ha fun i hi => ?_
    obtain rfl := hsame (hroom i hi)
    subst hi
    obtain ⟨hi, _⟩ := List.getElem?_eq_some_iff.mp ha
    exact ⟨rfl, getElem?_datap (hi.trans_eq h.length_values)⟩
  have hlt' : grown.count < grown.datap.length := by rw [hcount, hgrown.length_eq]; exact hlt
  have hnext : (grown.count + 1) % 2 ^ 32 = grown.count + 1 := by
    have hbound := hgrown.capacity_lt
    exact Nat.mod_eq_of_lt (by omega)
  refine ⟨⟨grown.count + 1, grown.capacity, grown.datap.set grown.count a⟩, ?_, ⟨?_, hgrown.capacity_lt, ?_⟩, ?_⟩
  · rw [RowVectorU.push_back, hgrow]
    simp only [Option.bind_eq_bind, Option.bind_some, hvalue, put_eq hlt', hnext]
    rfl
  · rw [List.length_set, hgrown.length_eq]
  · exact hcount.symm ▸ hlt
  · rw [values, take_set_self hlt', ← hvalues, values]

theorem Valid.insert (h : row.Valid) (memory : ℕ → α) (hg : row.Growable) {idx : ℕ} (hidx : idx ≤ row.count)
    {value : Arg α} {a : α} (ha : value.read row.values = some a)
    (hroom : ∀ i, value = .element i → row.count < row.capacity ∧ i ≤ idx) :
    ∃ row', row.insert memory idx value = some (row', idx) ∧ row'.Valid ∧ row'.values = insertAt row.values idx [a] ∧
      row'.capacity = row.nextCapacity := by
  obtain ⟨grown, hgrow, hgrown, hcount, hvalues, hcap, hsame⟩ := h.grow memory hg
  have hlt : row.count < grown.capacity := hcap.symm ▸ h.count_lt_nextCapacity
  have hlen := hgrown.length_eq
  obtain ⟨datap, hmove, hmoved⟩ := @moveDown_eq α id (grown.count - idx) idx (idx + 1) grown.datap (by omega) (by omega)
    (by omega)
  have hvalue : row.argument grown datap value = some a := by
    refine argument_eq ha fun i hi => ?_
    obtain ⟨hfree, hle⟩ := hroom i hi
    obtain rfl := hsame hfree
    subst hi
    obtain ⟨hi, _⟩ := List.getElem?_eq_some_iff.mp ha
    have hkept := hmoved.outside i (.inl (Nat.lt_succ_of_le hle))
    simp only [Option.map_id, id, ite_self] at hkept
    exact ⟨rfl, hkept.trans (getElem?_datap (hi.trans_eq h.length_values))⟩
  have hnext : (grown.count + 1) % 2 ^ 32 = grown.count + 1 := by
    have hbound := hgrown.capacity_lt
    exact Nat.mod_eq_of_lt (by omega)
  have hmoved' : Moved id (grown.count - idx) idx (idx + [a].length) grown.datap datap := hmoved
  have hfits : grown.count + 1 ≤ grown.datap.length := by omega
  obtain ⟨datap', hwrite, hlen', htake⟩ := hmoved'.insert (hcount.symm ▸ hidx) hfits
  rw [write_singleton] at hwrite
  refine ⟨⟨grown.count + 1, grown.capacity, datap'⟩, ?_, ⟨hlen'.trans hlen, hgrown.capacity_lt, ?_⟩, ?_, hcap⟩
  · rw [RowVectorU.insert, guard_bind hidx, hgrow]
    simp only [Option.bind_eq_bind, Option.bind_some, hmove, hvalue, hwrite, hnext]
    rfl
  · exact hcount.symm ▸ hlt
  · rw [← hvalues]
    exact htake

/-- A full row that cannot grow by five in 32 bits stays as it is. -/
theorem Valid.grow_full (h : row.Valid) (memory : ℕ → α) (hfull : row.count = row.capacity)
    (hwrap : 2 ^ 32 ≤ row.count + 5) : row.grow memory = some row := by
  have hlt := h.count_lt
  have hcap : (row.count + 5) % 2 ^ 32 ≤ row.capacity := by omega
  rw [RowVectorU.grow, if_pos hfull, RowVectorU.reserve, if_pos hcap]

theorem Valid.put_full (h : row.Valid) (hfull : row.count = row.capacity) {data : List α}
    (hlen : data.length = row.datap.length) (a : α) : put data row.count a = none :=
  if_neg (by rw [hlen, h.length_eq, hfull]; exact Nat.lt_irrefl _)

/-- There is no place for another element then. -/
theorem Valid.push_back_full (h : row.Valid) (memory : ℕ → α) (hfull : row.count = row.capacity)
    (hwrap : 2 ^ 32 ≤ row.count + 5) (a : α) : row.push_back memory (.value a) = none := by
  rw [RowVectorU.push_back, h.grow_full memory hfull hwrap]
  simp [argument, h.put_full hfull rfl]

theorem Valid.insert_full (h : row.Valid) (memory : ℕ → α) (hfull : row.count = row.capacity)
    (hwrap : 2 ^ 32 ≤ row.count + 5) {idx : ℕ} (hidx : idx ≤ row.count) (a : α) : row.insert memory idx (.value a) = none := by
  rw [RowVectorU.insert, guard_bind hidx, h.grow_full memory hfull hwrap]
  cases hn : row.count - idx with
  | zero =>
    obtain rfl : idx = row.count := by omega
    simp [moveDown, argument, h.put_full hfull rfl]
  | succ n =>
    have hdst : idx + 1 + n = row.count := by omega
    have hmove : moveOne id (idx + n) (idx + 1 + n) row.datap = none := by
      rw [moveOne, hdst]
      cases row.datap[idx + n]? with
      | none => rfl
      | some b => exact h.put_full hfull (List.length_set ..) b
    simp [hn, moveDown, hmove]

end RowVectorU

-- ---------------------------------------------------------------------------
-- The rows of a handle
-- ---------------------------------------------------------------------------

/-- `ragged_data_handle_base_u`: the rows and their number. -/
structure RaggedHandle (α : Type) where
  num_total : ℕ
  rows : ℕ → RowVectorU α

namespace RaggedHandle

/-- `operator[]`. -/
def row (handle : RaggedHandle α) (i : ℕ) : Option (RowVectorU α) :=
  if i < handle.num_total then some (handle.rows i) else none

def setRow (handle : RaggedHandle α) (i : ℕ) (row : RowVectorU α) : RaggedHandle α :=
  { handle with rows := Function.update handle.rows i row }

section
variable (handle : RaggedHandle α) (i : ℕ) (row row' : RowVectorU α)

@[simp] theorem setRow_rows_self : (handle.setRow i row).rows i = row := by
  simp [setRow]

theorem setRow_rows_of_ne {j : ℕ} (hj : j ≠ i) : (handle.setRow i row).rows j = handle.rows j := by
  simp [setRow, hj]

@[simp] theorem setRow_setRow : (handle.setRow i row).setRow i row' = handle.setRow i row' := by
  rw [RaggedHandle.setRow, RaggedHandle.setRow, RaggedHandle.setRow, Function.update_idem]

@[simp] theorem setRow_rows : handle.setRow i (handle.rows i) = handle := by
  rw [RaggedHandle.setRow, Function.update_eq_self]

end

end RaggedHandle

/-- What can be done to a row: the operations of `row_vector_u`, which
`ragged_mutator` passes on to the row of an index. -/
inductive Op (α : Type)
  | construct (init_count : ℕ)
  | resize (new_count : ℕ)
  | reserve (new_cap : ℕ)
  | push_back (value : Arg α)
  | erase (idx : ℕ)
  | insert (idx : ℕ) (value : Arg α)
  | set (index : ℕ) (a : α)
  | assign (source : List α)
  /-- `assign` from a range of the row of an index. -/
  | assignRow (rhs first last : ℕ)
  | copyConstruct (rhs : ℕ)
  /-- `operator=`. -/
  | copyAssign (rhs : ℕ)
  | clear

/-- An operation on the row of an index; `memory` is what is in the memory that
it is given. -/
structure Call (α : Type) where
  index : ℕ
  memory : ℕ → α
  op : Op α

/-- The range between two iterators of a row. -/
def RowVectorU.range (row : RowVectorU α) (first last : ℕ) : Option (List α) := span row.datap first (last - first)

def Op.apply (op : Op α) (handle : RaggedHandle α) (index : ℕ) (memory : ℕ → α) (row : RowVectorU α) :
    Option (RowVectorU α) :=
  match op with
  | .construct init_count => some (RowVectorU.construct memory (init_count % 2 ^ 32))
  | .resize new_count => row.resize memory (new_count % 2 ^ 32)
  | .reserve new_cap => row.reserve memory (new_cap % 2 ^ 32)
  | .push_back value => row.push_back memory value
  | .erase idx => row.erase idx
  | .insert idx value => (row.insert memory idx value).map Prod.fst
  | .set index a => row.set index a
  | .assign source => row.assign memory source
  | .assignRow rhs first last => do
    let source ← handle.row rhs
    if rhs = index then row.assignOwn memory first last
    else
      let values ← source.range first last
      row.assign memory values
  | .copyConstruct rhs => do
    let source ← handle.row rhs
    let values ← source.range 0 source.count
    RowVectorU.empty.assign memory values
  | .copyAssign rhs => do
    let source ← handle.row rhs
    if rhs = index then some row
    else
      let values ← source.range 0 source.count
      row.assign memory values
  | .clear => some RowVectorU.clear

def step (handle : RaggedHandle α) (call : Call α) : Option (RaggedHandle α) := do
  let row ← handle.row call.index
  let row ← call.op.apply handle call.index call.memory row
  return handle.setRow call.index row

-- ---------------------------------------------------------------------------
-- The same on lists
-- ---------------------------------------------------------------------------

/-- What a list says of the value of an argument. -/
def known (l : List (Option α)) : Arg α → Option α
  | .value a => some a
  | .element i => l[i]?.join

/-- What an operation does to the list of an index, where `none` stands for an
element that is not specified. -/
def Op.onList (lists : ℕ → List (Option α)) (l : List (Option α)) : Op α → List (Option α)
  | .construct init_count => List.replicate init_count none
  | .resize new_count => l.take new_count ++ List.replicate (new_count - l.length) none
  | .reserve _ => l
  | .push_back value => l ++ [known l value]
  | .erase idx => eraseAt l idx 1
  | .insert idx value => insertAt l idx [known l value]
  | .set index a => l.set index (some a)
  | .assign source => source.map some
  | .assignRow rhs first last => ((lists rhs).take last).drop first
  | .copyConstruct rhs | .copyAssign rhs => lists rhs
  | .clear => []

def Call.onLists (lists : ℕ → List (Option α)) (call : Call α) : ℕ → List (Option α) :=
  Function.update lists call.index (call.op.onList lists (lists call.index))

/-- The argument is an element of the row, if it is not a value from
elsewhere. -/
def Within (row : RowVectorU α) (value : Arg α) : Prop := ∀ i, value = .element i → i < row.count

/-- The operation stays within the asserted ranges, with counts of 32 bits. -/
def Op.InRange (handle : RaggedHandle α) (index : ℕ) (row : RowVectorU α) : Op α → Prop
  | .construct n | .resize n | .reserve n => n < 2 ^ 32
  | .push_back value => row.count + 1 < 2 ^ 32 ∧ Within row value
  | .erase idx => idx < row.count
  | .insert idx value => row.count + 1 < 2 ^ 32 ∧ idx ≤ row.count ∧ Within row value
  | .set i _ => i < row.count
  | .assign source => source.length < 2 ^ 32
  | .assignRow rhs first last => rhs < handle.num_total ∧ first ≤ last ∧ last ≤ (handle.rows rhs).count
  | .copyConstruct rhs => rhs < handle.num_total ∧ rhs ≠ index
  | .copyAssign rhs => rhs < handle.num_total
  | .clear => True

/-- The operation keeps away from what goes wrong: a full row whose capacity
cannot grow by five more, and a reference into the row that its array is
reallocated or shifted under. -/
def Op.Safe (row : RowVectorU α) : Op α → Prop
  | .push_back value => row.Growable ∧ ∀ i, value = .element i → row.count < row.capacity
  | .insert idx value => row.Growable ∧ ∀ i, value = .element i → row.count < row.capacity ∧ i ≤ idx
  | _ => True

def Call.Ok (handle : RaggedHandle α) (call : Call α) : Prop :=
  call.index < handle.num_total ∧ call.op.InRange handle call.index (handle.rows call.index) ∧
    call.op.Safe (handle.rows call.index)

/-- The element is as specified. -/
abbrev Meets (a : α) (spec : Option α) : Prop := ∀ b ∈ spec, a = b

/-- The row has the elements that the list specifies. -/
structure RowVectorU.Holds (row : RowVectorU α) (l : List (Option α)) : Prop extends row.Valid where
  contents : List.Forall₂ Meets row.values l

/-- The rows of the handle hold the lists. -/
structure RaggedHandle.Holds (handle : RaggedHandle α) (lists : ℕ → List (Option α)) : Prop where
  rows : ∀ i < handle.num_total, (handle.rows i).Holds (lists i)

-- ---------------------------------------------------------------------------
-- One operation on a handle
-- ---------------------------------------------------------------------------

theorem meets_replicate {more : List α} {n : ℕ} (h : more.length = n) :
    List.Forall₂ Meets more (List.replicate n none) := by
  subst h
  induction more with
  | nil => exact .nil
  | cons a more ih => exact .cons (fun b hb => by cases hb) ih

theorem meets_map_some (values : List α) : List.Forall₂ Meets values (values.map some) := by
  rw [List.forall₂_map_right_iff, List.forall₂_same]
  intro a _ b hb
  exact Option.mem_some_iff.mp hb

theorem meets_single {a : α} {spec : Option α} (h : Meets a spec) : List.Forall₂ Meets [a] [spec] := .cons h .nil

section
variable {values : List α} {l : List (Option α)}

theorem meets_insertAt (h : List.Forall₂ Meets values l) (p : ℕ) {new : List α} {specs : List (Option α)}
    (hnew : List.Forall₂ Meets new specs) : List.Forall₂ Meets (insertAt values p new) (insertAt l p specs) :=
  List.rel_append (List.rel_append (List.forall₂_take p h) hnew) (List.forall₂_drop p h)

theorem meets_eraseAt (h : List.Forall₂ Meets values l) (p c : ℕ) :
    List.Forall₂ Meets (eraseAt values p c) (eraseAt l p c) :=
  List.rel_append (List.forall₂_take p h) (List.forall₂_drop (p + c) h)

theorem meets_set (h : List.Forall₂ Meets values l) (i : ℕ) (a : α) :
    List.Forall₂ Meets (values.set i a) (l.set i (some a)) := by
  induction h generalizing i with
  | nil => exact .nil
  | cons hhead htail ih =>
    cases i with
    | zero => exact .cons (fun b hb => Option.mem_some_iff.mp hb) htail
    | succ i => exact .cons hhead (ih i)

end

section
variable {handle : RaggedHandle α} {lists : ℕ → List (Option α)} {row : RowVectorU α} {l : List (Option α)}

theorem RowVectorU.Holds.length_list (h : row.Holds l) : l.length = row.count := by
  rw [← h.contents.length_eq, h.toValid.length_values]

theorem RowVectorU.Holds.read (h : row.Holds l) {value : Arg α} (hv : Within row value) :
    ∃ a, value.read row.values = some a ∧ Meets a (known l value) := by
  cases value with
  | value a => exact ⟨a, rfl, fun b hb => Option.mem_some_iff.mp hb⟩
  | element i =>
    have hi : i < row.values.length := h.toValid.length_values.symm ▸ hv i rfl
    have hi' : i < l.length := h.contents.length_eq ▸ hi
    refine ⟨row.values[i], List.getElem?_eq_getElem hi, ?_⟩
    rw [known, List.getElem?_eq_getElem hi']
    exact h.contents.get hi hi'

theorem RowVectorU.Valid.range (h : row.Valid) (first : ℕ) {last : ℕ} (hlast : last ≤ row.count) :
    row.range first last = some ((row.values.take last).drop first) := by
  have hlen := h.count_le_length
  have hprefix : (row.values.take last).drop first <+: row.datap.drop first := by
    rw [values, List.take_take, Nat.min_eq_left hlast]
    exact (List.take_prefix last row.datap).drop first
  have hcount : ((row.values.take last).drop first).length = last - first := by
    rw [List.length_drop, List.length_take, h.length_values, Nat.min_eq_left hlast]
  have hread := span_eq hprefix
  rwa [hcount] at hread

theorem RaggedHandle.row_eq {i : ℕ} (hi : i < handle.num_total) : handle.row i = some (handle.rows i) := if_pos hi

theorem RowVectorU.Holds.whole {row : RowVectorU α} (h : row.Holds l) : row.range 0 row.count = some row.values := by
  rw [h.toValid.range 0 le_rfl, List.drop_zero, ← h.toValid.length_values, List.take_length]

theorem RowVectorU.Holds.of_values {row' : RowVectorU α} {values : List α} (h : row'.Valid) (hvalues : row'.values = values)
    (hmeets : List.Forall₂ Meets values l) : row'.Holds l := ⟨h, hvalues ▸ hmeets⟩

theorem Op.apply_eq (h : handle.Holds lists) {index : ℕ} (hindex : index < handle.num_total) {op : Op α}
    (memory : ℕ → α) (hin : op.InRange handle index (handle.rows index)) (hsafe : op.Safe (handle.rows index)) :
    ∃ row', op.apply handle index memory (handle.rows index) = some row' ∧ row'.Holds (op.onList lists (lists index)) := by
  have hrow := h.rows index hindex
  have hvalid := hrow.toValid
  cases op with
  | construct n =>
    refine ⟨_, rfl, .of_values (.construct memory (Nat.mod_lt _ (Nat.two_pow_pos 32))) rfl (meets_replicate ?_)⟩
    rw [(RowVectorU.Valid.construct memory (Nat.mod_lt _ (Nat.two_pow_pos 32))).length_values]
    exact Nat.mod_eq_of_lt hin
  | resize n =>
    obtain ⟨row', more, hresize, hvalid', _, _, hvalues, hmore⟩ := hvalid.resize memory hin
    have hmeets := List.rel_append (List.forall₂_take n hrow.contents) (meets_replicate hmore)
    rw [← hrow.length_list] at hmeets
    refine ⟨row', ?_, .of_values hvalid' hvalues hmeets⟩
    rw [Op.apply, Nat.mod_eq_of_lt hin, hresize]
  | reserve n =>
    obtain ⟨row', hreserve, hvalid', _, hvalues, _⟩ := hvalid.reserve memory hin
    refine ⟨row', ?_, .of_values hvalid' hvalues hrow.contents⟩
    rw [Op.apply, Nat.mod_eq_of_lt hin, hreserve]
  | push_back value =>
    obtain ⟨a, ha, hmeets⟩ := hrow.read hin.2
    obtain ⟨row', hpush, hvalid', hvalues⟩ := hvalid.push_back memory hsafe.1 ha hsafe.2
    exact ⟨row', hpush, .of_values hvalid' hvalues (List.rel_append hrow.contents (meets_single hmeets))⟩
  | erase idx =>
    obtain ⟨row', herase, hvalid', hvalues⟩ := hvalid.erase hin
    exact ⟨row', herase, .of_values hvalid' hvalues (meets_eraseAt hrow.contents idx 1)⟩
  | insert idx value =>
    obtain ⟨_, hidx, hwithin⟩ := hin
    obtain ⟨a, ha, hmeets⟩ := hrow.read hwithin
    obtain ⟨row', hinsert, hvalid', hvalues, _⟩ := hvalid.insert memory hsafe.1 hidx ha hsafe.2
    refine ⟨row', ?_, .of_values hvalid' hvalues (meets_insertAt hrow.contents idx (meets_single hmeets))⟩
    rw [Op.apply, hinsert]
    rfl
  | set i a =>
    obtain ⟨row', hset, hvalid', hvalues, _⟩ := hvalid.set hin a
    exact ⟨row', hset, .of_values hvalid' hvalues (meets_set hrow.contents i a)⟩
  | assign source =>
    obtain ⟨row', hassign, hvalid', hvalues⟩ := hvalid.assign memory hin
    exact ⟨row', hassign, .of_values hvalid' hvalues (meets_map_some source)⟩
  | assignRow rhs first last =>
    obtain ⟨hrhs, hle, hlast⟩ := hin
    have hother := h.rows rhs hrhs
    have hmeets := List.forall₂_drop first (List.forall₂_take last hother.contents)
    cases eq_or_ne rhs index with
    | inl heq =>
      subst heq
      obtain ⟨row', hassign, hvalid', hvalues⟩ := hvalid.assignOwn memory hle hlast
      refine ⟨row', ?_, .of_values hvalid' hvalues hmeets⟩
      simp [Op.apply, RaggedHandle.row_eq hrhs, hassign]
    | inr hne =>
      have hcount := hother.toValid.count_lt
      have hlt : (((handle.rows rhs).values.take last).drop first).length < 2 ^ 32 := by
        rw [List.length_drop, List.length_take, hother.toValid.length_values]
        omega
      obtain ⟨row', hassign, hvalid', hvalues⟩ := hvalid.assign memory hlt
      refine ⟨row', ?_, .of_values hvalid' hvalues hmeets⟩
      simp [Op.apply, RaggedHandle.row_eq hrhs, hne, hother.toValid.range first hlast, hassign]
  | copyConstruct rhs =>
    have hother := h.rows rhs hin.1
    have hlt := hother.toValid.count_lt
    rw [← hother.toValid.length_values] at hlt
    obtain ⟨row', hassign, hvalid', hvalues⟩ := RowVectorU.Valid.empty.assign memory hlt
    refine ⟨row', ?_, .of_values hvalid' hvalues hother.contents⟩
    simp [Op.apply, RaggedHandle.row_eq hin.1, hother.whole, hassign]
  | copyAssign rhs =>
    have hother := h.rows rhs hin
    have hlt := hother.toValid.count_lt
    rw [← hother.toValid.length_values] at hlt
    cases eq_or_ne rhs index with
    | inl heq =>
      subst heq
      refine ⟨handle.rows rhs, ?_, hrow⟩
      simp [Op.apply, RaggedHandle.row_eq hin]
    | inr hne =>
      obtain ⟨row', hassign, hvalid', hvalues⟩ := hvalid.assign memory hlt
      refine ⟨row', ?_, .of_values hvalid' hvalues hother.contents⟩
      simp [Op.apply, RaggedHandle.row_eq hin, hne, hother.whole, hassign]
  | clear => exact ⟨RowVectorU.empty, rfl, .empty, .nil⟩

/-- A call changes the row of its index only. -/
theorem step_eq (h : handle.Holds lists) {call : Call α} (hcall : call.Ok handle) :
    ∃ row', step handle call = some (handle.setRow call.index row') ∧
      (handle.setRow call.index row').Holds (call.onLists lists) := by
  obtain ⟨hindex, hin, hsafe⟩ := hcall
  obtain ⟨row', happly, hrow'⟩ := Op.apply_eq h hindex call.memory hin hsafe
  refine ⟨row', ?_, ⟨fun i hi => ?_⟩⟩
  · rw [step, RaggedHandle.row_eq hindex]
    simp [happly]
  · cases eq_or_ne i call.index with
    | inl heq =>
      subst heq
      simpa only [RaggedHandle.setRow_rows_self, Call.onLists, Function.update_self] using hrow'
    | inr hne =>
      simpa only [RaggedHandle.setRow_rows_of_ne _ _ _ hne, Call.onLists, Function.update_of_ne hne] using h.rows i hi

end

end Flecsi.Data
