import Flecsi.Lib.PackedBuffer

/-!
# Connectivities

A connectivity stores, for the entities of one dimension, the entities of another they are
connected to: one list of ids, cut into rows by offsets.
-/

namespace Flecsi.Topology

open PackedBuffer

/-- `add_count` of the offset storage, which starts with a zero. -/
def addCount (s : List ℕ) (count : ℕ) : List ℕ :=
  let s := if s.isEmpty then s ++ [0] else s
  s ++ [s.getLastD 0 + count]

/-- `connectivity_t`. -/
structure Connectivity where
  offsets : List ℕ
  ids : List ℕ
  deriving DecidableEq, Repr

namespace Connectivity

def clear (_ : Connectivity) : Connectivity := ⟨[], []⟩

/-- `init`, on a connectivity that it clears. -/
def init (cv : List (List ℕ)) : Connectivity :=
  cv.foldl (fun c iv => ⟨addCount c.offsets iv.length, c.ids ++ iv⟩) ⟨[], []⟩

def resize (c : Connectivity) (num_conns : List ℕ) : Connectivity :=
  let (offsets, size) := num_conns.foldl (fun (s : List ℕ × ℕ) count => (addCount s.1 count, s.2 + count))
    (c.clear.offsets, 0)
  ⟨offsets, List.replicate size 0⟩

def empty (c : Connectivity) : Bool := c.ids.isEmpty

def set (c : Connectivity) (from_local_id to_id pos : ℕ) : Connectivity :=
  { c with ids := c.ids.set (c.offsets.getD from_local_id 0 + pos) to_id }

def from_size (c : Connectivity) : ℕ := c.offsets.length - 1

/-- The ids between two offsets. -/
def row (c : Connectivity) (i : ℕ) : List ℕ :=
  (c.ids.drop (c.offsets.getD i 0)).take (c.offsets.getD (i + 1) 0 - c.offsets.getD i 0)

/-- `get_entities(i)`, with its assertion. -/
def getEntities (c : Connectivity) (i : ℕ) : Option (List ℕ) :=
  if i + 1 < c.offsets.length then some (c.row i) else none

/-- A row is overwritten. -/
def putRow (c : Connectivity) (i : ℕ) (xs : List ℕ) : Connectivity :=
  { c with ids := writeAt c.ids (c.offsets.getD i 0) xs }

-- ---------------------------------------------------------------------------
-- Rows
-- ---------------------------------------------------------------------------

theorem foldl_addCount {counts : List ℕ} (h : counts ≠ []) : counts.foldl addCount [] = displs counts := by
  induction counts using List.reverseRecOn with
  | nil => exact absurd rfl h
  | append_singleton counts count ih =>
    rw [List.foldl_append, List.foldl_cons, List.foldl_nil, displs_concat]
    cases counts with
    | nil => rfl
    | cons c counts =>
      rw [ih (by simp)]
      have hne : displs (c :: counts) ≠ [] := by simp [displs]
      have hlast : (displs (c :: counts)).getLastD 0 = (displs (c :: counts)).getD (c :: counts).length 0 := by
        rw [List.getLastD_eq_getLast?, List.getLast?_eq_getElem?, List.getD_eq_getElem?_getD, length_displs,
          Nat.add_sub_cancel]
      unfold addCount
      simp only [List.isEmpty_eq_false_iff.mpr hne, Bool.false_eq_true, if_false]
      rw [hlast]

theorem init_eq (rows : List (List ℕ)) : init rows = ⟨(rows.map List.length).foldl addCount [], rows.flatten⟩ := by
  unfold init
  induction rows using List.reverseRecOn with
  | nil => rfl
  | append_singleton rows row ih => simp [ih]

theorem resize_eq (c : Connectivity) (counts : List ℕ) :
    c.resize counts = ⟨counts.foldl addCount [], List.replicate counts.sum 0⟩ := by
  have hboth (s : List ℕ) (size : ℕ) : counts.foldl (fun (s : List ℕ × ℕ) count => (addCount s.1 count, s.2 + count))
      (s, size) = (counts.foldl addCount s, size + counts.sum) := by
    induction counts generalizing s size with
    | nil => rfl
    | cons count counts ih =>
      rw [List.foldl_cons, ih, List.foldl_cons, List.sum_cons, Nat.add_assoc]
  unfold resize
  rw [hboth, Nat.zero_add]
  rfl

theorem getD_foldl_addCount {counts : List ℕ} (h : k ≤ counts.length) :
    (counts.foldl addCount []).getD k 0 = (counts.take k).sum := by
  cases counts with
  | nil =>
    rw [List.take_nil]
    rfl
  | cons count counts => rw [foldl_addCount (by simp), displs_getD h]

theorem offsets_init {rows : List (List ℕ)} (h : k ≤ rows.length) :
    (init rows).offsets.getD k 0 = ((rows.take k).flatten).length := by
  rw [init_eq]
  dsimp only
  rw [getD_foldl_addCount (by simpa using h), List.length_flatten, List.map_take]

theorem row_init {rows : List (List ℕ)} (h : k < rows.length) : (init rows).row k = rows[k] := by
  have hids : (init rows).ids = rows.flatten := by rw [init_eq]
  have hlen : ((rows.take (k + 1)).flatten).length = ((rows.take k).flatten).length + rows[k].length := by
    rw [← List.take_append_getElem h, List.flatten_append, List.length_append, List.flatten_singleton]
  rw [row, offsets_init h.le, offsets_init h, hlen, Nat.add_sub_cancel_left, hids, flatten_split rows h,
    List.append_assoc, List.drop_left, List.take_left]

theorem from_size_init (rows : List (List ℕ)) : (init rows).from_size = rows.length := by
  rw [init_eq, from_size]
  cases rows with
  | nil => rfl
  | cons row rows =>
    dsimp only
    rw [foldl_addCount (by simp), length_displs, List.length_map, Nat.add_sub_cancel]

theorem getEntities_init {rows : List (List ℕ)} (h : k < rows.length) : (init rows).getEntities k = some rows[k] := by
  have hlt : k + 1 < (init rows).offsets.length := by
    have hsize := from_size_init rows
    unfold from_size at hsize
    omega
  rw [getEntities, if_pos hlt, row_init h]

theorem putRow_init (xs ys : List (List ℕ)) {row row' : List ℕ} (h : row'.length = row.length) :
    (init (xs ++ row :: ys)).putRow xs.length row' = init (xs ++ row' :: ys) := by
  have hoffset : (init (xs ++ row :: ys)).offsets.getD xs.length 0 = xs.flatten.length := by
    rw [offsets_init (by simp), List.take_left]
  rw [putRow, hoffset, init_eq, init_eq]
  congr 1
  · simp [h]
  · have hwrite := writeAt_append xs.flatten row ys.flatten row' 0 (by omega)
    have hfill := writeAt_fill [] row row' h.le
    rw [Nat.add_zero] at hwrite
    rw [List.flatten_append, List.flatten_cons, ← List.append_assoc, hwrite]
    simp only [List.nil_append, List.length_nil, h, List.drop_length, List.append_nil] at hfill
    rw [hfill, List.flatten_append, List.flatten_cons, List.append_assoc]

end Connectivity

end Flecsi.Topology
