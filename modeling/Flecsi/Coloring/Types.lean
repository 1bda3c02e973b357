import Flecsi.Coloring.Comm
import Flecsi.Lib.SortUnique

/-!
# Coloring data types and distributions

`crs_t`, `dcrs_t`, `entity_info_t` and the other records of the coloring
headers, and the two functions on distributions every coloring function calls:
`subdivide` and `rank_owner`. Ids are `size_t` and modelled as naturals; ranks,
offsets and shared ranks of an `entity_info_t` are `uint32_t` and wrap.
-/

namespace Flecsi.Coloring

open PackedBuffer

-- ---------------------------------------------------------------------------
-- Compressed row storage
-- ---------------------------------------------------------------------------

structure Crs where
  offsets : List ℕ
  indices : List ℕ
  deriving DecidableEq, Repr

namespace Crs

def size (c : Crs) : ℕ := c.offsets.length - 1

/-- The indices read by `for(i = offsets[k]; i < offsets[k + 1]; ++i)`. -/
def row (c : Crs) (k : ℕ) : List ℕ :=
  (c.indices.drop (c.offsets.getD k 0)).take (c.offsets.getD (k + 1) 0 - c.offsets.getD k 0)

def rows (c : Crs) : List (List ℕ) := (List.range c.size).map c.row

/-- The storage of given rows: offsets are the running sums of the lengths. -/
def ofRows (rows : List (List ℕ)) : Crs := ⟨displs (rows.map List.length), rows.flatten⟩

/-- Offsets and indices fit together. -/
def WellFormed (c : Crs) : Prop := c = ofRows c.rows

instance (c : Crs) : Decidable c.WellFormed := by unfold WellFormed; infer_instance

@[simp] theorem size_ofRows (rows : List (List ℕ)) : (ofRows rows).size = rows.length := by
  simp [size, ofRows]

@[simp] theorem length_rows (c : Crs) : c.rows.length = c.size := by simp [rows]

theorem getElem_rows (c : Crs) (h : k < c.rows.length) : c.rows[k] = c.row k := by
  simp [rows]

theorem row_ofRows {rows : List (List ℕ)} (h : k < rows.length) : (ofRows rows).row k = rows[k] := by
  have hk : (displs (rows.map List.length)).getD k 0 = ((rows.take k).flatten).length := by
    rw [displs_getD (by simpa using h.le), List.length_flatten, List.map_take]
  have hk' : (displs (rows.map List.length)).getD (k + 1) 0 =
      ((rows.take k).flatten).length + rows[k].length := by
    rw [displs_getD (by simpa using h), ← List.map_take, ← List.length_flatten,
      ← List.take_append_getElem h, List.flatten_append, List.length_append]
    simp
  simp only [row, ofRows]
  rw [hk, hk', Nat.add_sub_cancel_left, flatten_split rows h, List.append_assoc, List.drop_left,
    List.take_left]

theorem length_row_ofRows {rows : List (List ℕ)} (h : k < rows.length) :
    (ofRows rows).offsets.getD (k + 1) 0 - (ofRows rows).offsets.getD k 0 =
      ((ofRows rows).row k).length := by
  have hk : k < (rows.map List.length).length := by simpa using h
  rw [row_ofRows h, ofRows, displs_getD hk, displs_getD hk.le, List.sum_take_succ _ _ hk,
    Nat.add_sub_cancel_left, List.getElem_map]

@[simp] theorem rows_ofRows (rows : List (List ℕ)) : (ofRows rows).rows = rows := by
  apply List.ext_getElem
  · simp
  · intro k h1 h2
    rw [getElem_rows _ h1, row_ofRows h2]

theorem WellFormed.length_row {c : Crs} (hc : c.WellFormed) (h : k < c.size) :
    c.offsets.getD (k + 1) 0 - c.offsets.getD k 0 = (c.row k).length := by
  have := length_row_ofRows (k := k) (show k < c.rows.length by simpa using h)
  rwa [← hc] at this

theorem wellFormed_ofRows (rows : List (List ℕ)) : (ofRows rows).WellFormed := by
  rw [WellFormed, rows_ofRows]

/-- One more row, whose offset starts at `base`. -/
def appendRow (c : Crs) (base : ℕ) (row : List ℕ) : Crs :=
  ⟨c.offsets ++ [base + row.length], c.indices ++ row⟩

theorem appendRow_ofRows (rows : List (List ℕ)) (row : List ℕ) :
    (ofRows rows).appendRow ((ofRows rows).offsets.getD rows.length 0) row =
      ofRows (rows ++ [row]) := by
  simp only [appendRow, ofRows, List.map_append, List.map_cons, List.map_nil, List.flatten_append,
    List.flatten_singleton, displs_concat, List.length_map]

theorem getLastD_ofRows (rows : List (List ℕ)) :
    (ofRows rows).offsets.getLastD 0 = (ofRows rows).offsets.getD rows.length 0 := by
  rw [List.getLastD_eq_getLast?, List.getLast?_eq_getElem?, List.getD_eq_getElem?_getD, ofRows]
  simp

/-- Rows appended one by one, each at the end of the offsets so far. -/
theorem foldl_appendRow (f : ℕ → List ℕ) (k : ℕ) :
    (List.range k).foldl (fun c i => c.appendRow (c.offsets.getD i 0) (f i)) ⟨[0], []⟩ =
      ofRows ((List.range k).map f) := by
  induction k with
  | zero => rfl
  | succ k ih =>
    have happ := appendRow_ofRows ((List.range k).map f) (f k)
    rw [List.length_map, List.length_range] at happ
    rw [List.range_succ, List.foldl_append, ih, List.map_append]
    exact happ

end Crs

/-- `dcrs_t`: the rows of this rank and the index ranges of all ranks. -/
structure Dcrs extends Crs where
  distribution : List ℕ
  deriving DecidableEq, Repr

-- ---------------------------------------------------------------------------
-- Entities and colorings
-- ---------------------------------------------------------------------------

/-- Conversion to `utils::indices_t`, a `uint32_t`. -/
def toIndices (x : ℕ) : ℕ := x % 2 ^ 32

theorem toIndices_of_lt (h : x < 2 ^ 32) : toIndices x = x := Nat.mod_eq_of_lt h

/-- `entity_info_t`; `shared` is a `std::set`. -/
structure EntityInfo where
  id : ℕ
  rank : ℕ
  offset : ℕ
  shared : Finset ℕ
  deriving DecidableEq

/-- The constructors of `entity_info_t`, which take `id_t` ranks and offsets. -/
def entityInfo (id rank offset : ℕ) (shared : Finset ℕ) : EntityInfo :=
  ⟨id, toIndices rank, toIndices offset, shared.image toIndices⟩

/-- `index_coloring_t`, with the members these functions fill. -/
structure IndexColoring where
  exclusive : List EntityInfo
  shared : List EntityInfo
  ghost : List EntityInfo

/-- `coloring_info_t`. -/
structure ColoringInfo where
  exclusive : ℕ
  shared : ℕ
  ghost : ℕ
  sharedUsers : Finset ℕ
  ghostOwners : Finset ℕ

def noColoring : IndexColoring := ⟨[], [], []⟩
def noColoringInfo : ColoringInfo := ⟨0, 0, 0, ∅, ∅⟩

/-- `remove_unique` on entities: sorted by `operator<`, which compares ids;
duplicates are equal by `operator==`, which compares all members. -/
def removeUniqueEntities (l : List EntityInfo) : List EntityInfo :=
  SortUnique.sortUnique EntityInfo.id l

/-- `remove_unique` on ids. -/
def removeUnique (l : List ℕ) : List ℕ := SortUnique.sortUnique id l

-- ---------------------------------------------------------------------------
-- Distributions
-- ---------------------------------------------------------------------------

/-- `rank_owner`: `std::upper_bound` finds the first boundary above `i`, which
must exist. A distribution starts with 0, so the boundary is not the first. -/
def rankOwner (distribution : List ℕ) (i : ℕ) : Option ℕ :=
  let it := distribution.findIdx (i < ·)
  if it < distribution.length then some (it - 1) else none

/-- `subdivide`: the average number each, the last ranks one more. -/
def subdivide (nelem npart : ℕ) : List ℕ :=
  let quot := nelem / npart
  let rem := nelem % npart
  (List.range npart).foldl (fun dist r =>
    dist ++ [dist.getD r 0 + (quot + if r ≥ npart - rem then 1 else 0)]) [0]

/-- Boundaries of contiguous index ranges: they start at 0 and do not fall. -/
structure Distribution (d : List ℕ) (n total : ℕ) : Prop where
  length : d.length = n + 1
  head : d.getD 0 0 = 0
  mono : ∀ i < n, d.getD i 0 ≤ d.getD (i + 1) 0
  last : d.getD n 0 = total

theorem Distribution.mono' (h : Distribution d n total) (hij : i ≤ j) (hj : j ≤ n) :
    d.getD i 0 ≤ d.getD j 0 := by
  induction j, hij using Nat.le_induction with
  | base => exact le_rfl
  | succ j hij ih => exact (ih (by omega)).trans (h.mono j (by omega))

/-- The owner is the only range that holds the id. -/
theorem rankOwner_eq_some (h : Distribution d n total) :
    rankOwner d i = some r ↔ r < n ∧ d.getD r 0 ≤ i ∧ i < d.getD (r + 1) 0 := by
  have hget : ∀ k (hk : k < d.length), d[k] = d.getD k 0 := fun k hk => by
    rw [List.getD_eq_getElem _ _ hk]
  unfold rankOwner
  constructor
  · intro ho
    simp only [Option.ite_none_right_eq_some, Option.some.injEq] at ho
    obtain ⟨hlt, rfl⟩ := ho
    have hat : i < d[d.findIdx (i < ·)] := by simpa using List.findIdx_getElem (w := hlt)
    rw [hget] at hat
    have hlen := h.length
    cases hk : d.findIdx (i < ·) with
    | zero =>
      rw [hk, h.head] at hat
      exact absurd hat (Nat.not_lt_zero i)
    | succ k =>
      rw [hk] at hat hlt
      have hbelow : decide (i < d[k]) = false :=
        List.not_of_lt_findIdx (p := (i < ·)) (show k < d.findIdx (i < ·) by omega)
      rw [hget] at hbelow
      exact ⟨by omega, by simpa using hbelow, hat⟩
  · rintro ⟨hr, hle, hlt⟩
    have hlen := h.length
    have hidx : d.findIdx (i < ·) = r + 1 := by
      rw [List.findIdx_eq (by omega)]
      refine ⟨by simpa [hget] using hlt, fun j hj => ?_⟩
      have := h.mono' (i := j) (j := r) (by omega) (by omega)
      simp only [hget, decide_eq_false_iff_not, not_lt]
      omega
    simp [hidx]
    omega

/-- Every id below the total has an owner. -/
theorem exists_rankOwner (h : Distribution d n total) (hi : i < total) :
    ∃ r < n, rankOwner d i = some r := by
  have key : ∀ k ≤ n, i < d.getD k 0 → ∃ r < n, rankOwner d i = some r := by
    intro k
    induction k with
    | zero => intro _ hk; rw [h.head] at hk; omega
    | succ k ih =>
      intro hk hik
      by_cases hlt : i < d.getD k 0
      · exact ih (by omega) hlt
      · exact ⟨k, by omega, (rankOwner_eq_some h).mpr ⟨by omega, by omega, hik⟩⟩
  exact key n le_rfl (h.last ▸ hi)

/-- The owner of an id, where there is one. -/
def ownerOf (d : List ℕ) (x : ℕ) : ℕ := (rankOwner d x).getD 0

theorem rankOwner_ownerOf (h : Distribution d n total) (hx : x < total) :
    rankOwner d x = some (ownerOf d x) := by
  obtain ⟨r, -, hr⟩ := exists_rankOwner h hx
  simp [ownerOf, hr]

theorem ownerOf_spec (h : Distribution d n total) (hx : x < total) :
    ownerOf d x < n ∧ d.getD (ownerOf d x) 0 ≤ x ∧ x < d.getD (ownerOf d x + 1) 0 :=
  (rankOwner_eq_some h).mp (rankOwner_ownerOf h hx)

theorem ownerOf_eq (h : Distribution d n total) (hr : r < n) (hl : d.getD r 0 ≤ x)
    (hu : x < d.getD (r + 1) 0) : ownerOf d x = r := by
  rw [ownerOf, (rankOwner_eq_some h).mpr ⟨hr, hl, hu⟩]
  rfl

/-- The ranges of all ranks, one after another, run through all ids. -/
theorem Distribution.flatten_ranges (h : Distribution d n total) (f : ℕ → α) :
    (List.ofFn fun p : Fin n => (List.range (d.getD (p + 1) 0 - d.getD p 0)).map fun i =>
      f (d.getD p 0 + i)).flatten = (List.range total).map f := by
  have run : ∀ k ≤ n, ((List.range k).map fun p => (List.range (d.getD (p + 1) 0 -
      d.getD p 0)).map fun i => f (d.getD p 0 + i)).flatten = (List.range (d.getD k 0)).map f := by
    intro k hk
    induction k with
    | zero => rw [h.head]; rfl
    | succ k ih =>
      have hle := h.mono k (by omega)
      rw [List.range_succ, List.map_append, List.flatten_append, ih (by omega),
        ← Nat.add_sub_cancel' hle, List.range_add, List.map_append, List.map_map]
      simp [Function.comp_def]
  rw [← h.last, ← run n le_rfl]
  congr 1
  apply List.ext_getElem
  · simp
  · intro k h1 h2
    simp

theorem displs_ofFn_succ (counts : Fin n → ℕ) (p : Fin n) :
    (displs (List.ofFn counts)).getD (p + 1) 0 = (displs (List.ofFn counts)).getD p 0 + counts p := by
  have hp : (p : ℕ) < (List.ofFn counts).length := by simp
  rw [displs_getD hp.le, displs_getD hp, List.sum_take_succ _ _ hp, List.getElem_ofFn]

/-- Displacements distribute what is counted. -/
theorem displs_distribution (counts : Fin n → ℕ) :
    Distribution (displs (List.ofFn counts)) n ((displs (List.ofFn counts)).getD n 0) where
  length := by simp
  head := displs_getD (Nat.zero_le _)
  mono i hi := by
    rw [displs_ofFn_succ counts ⟨i, hi⟩]
    exact Nat.le_add_right _ _
  last := rfl

theorem pack_distribution (seg : Fin n → List α) :
    Distribution (pack seg).displs n (pack seg).buf.length :=
  pack_displs_last seg ▸ displs_distribution fun r => (seg r).length

/-- The boundaries `subdivide` computes. -/
theorem subdivide_eq (nelem npart : ℕ) : subdivide nelem npart =
    (List.range (npart + 1)).map fun r =>
      r * (nelem / npart) + (r - (npart - nelem % npart)) := by
  have run : ∀ k ≤ npart, (List.range k).foldl (fun dist r =>
      dist ++ [dist.getD r 0 + (nelem / npart + if r ≥ npart - nelem % npart then 1 else 0)]) [0] =
      (List.range (k + 1)).map fun r =>
        r * (nelem / npart) + (r - (npart - nelem % npart)) := by
    intro k hk
    induction k with
    | zero => simp
    | succ k ih =>
      rw [List.range_succ, List.foldl_append, ih (by omega), List.range_succ (n := k + 1),
        List.map_append]
      simp only [List.foldl_cons, List.foldl_nil, List.map_cons, List.map_nil]
      congr 2
      rw [List.getD_eq_getElem _ _ (by simp)]
      simp only [List.getElem_map, List.getElem_range, Nat.succ_mul]
      split <;> omega
  exact run npart le_rfl

theorem subdivide_distribution (nelem : ℕ) (h : 0 < npart) :
    Distribution (subdivide nelem npart) npart nelem := by
  have hget : ∀ r ≤ npart, (subdivide nelem npart).getD r 0 =
      r * (nelem / npart) + (r - (npart - nelem % npart)) := fun r hr => by
    rw [subdivide_eq, List.getD_eq_getElem _ _ (by simp; omega)]
    simp
  refine ⟨by simp [subdivide_eq], by rw [hget 0 (by omega)]; simp, fun i hi => ?_, ?_⟩
  · rw [hget i (by omega), hget (i + 1) (by omega), Nat.succ_mul]
    generalize nelem / npart = quot
    omega
  · rw [hget npart le_rfl]
    have := Nat.div_add_mod nelem npart
    have := Nat.mod_lt nelem h
    omega

end Flecsi.Coloring
