import Flecsi.Execution.SparseExchange
import Flecsi.Execution.DenseCoherence

/-!
# Ghost rows are coherent when a task reads them

Two facts are kept for each field: unless its rows were resized, the ghost rows have the
lengths of their owners and so have the lengths stored for them; when its flag is set,
their contents are those of the owners, as far as the registered entry size reaches.
-/

namespace Flecsi.Execution.Sparse

open Coloring PackedBuffer SlotCopy

-- ---------------------------------------------------------------------------
-- Sizes
-- ---------------------------------------------------------------------------

theorem le_roundUp (x : ℕ) (h : 0 < a) : x ≤ roundUp x a := by
  have := Nat.div_add_mod (x + (a - 1)) a
  have := Nat.mod_lt (x + (a - 1)) h
  rw [roundUp, Nat.mul_comm]
  omega

theorem FieldInfo.type_size_le (fi : FieldInfo) : fi.type_size ≤ fi.entry_size := by
  unfold FieldInfo.type_size FieldInfo.entry_size
  cases fi.storage_class with
  | ragged => exact le_rfl
  | sparse =>
    have hindex := le_roundUp 8 fi.type.align_pos
    have hentry := le_roundUp (roundUp 8 fi.type.align + fi.type.size)
      (lt_max_of_lt_left (b := 8) (c := fi.type.align) (by decide : 0 < 8))
    simp only
    omega

theorem entrySize_from {sizes : List ℕ} (acc : Option ℕ)
    (h : sizes.foldlM (fun size x => (toInt (size.getD 0 + x)).map some) acc = some o) :
    o = if sizes = [] then acc else some (acc.getD 0 + sizes.sum) := by
  induction sizes generalizing acc with
  | nil => simpa using h.symm
  | cons x sizes ih =>
    obtain ⟨size, hsize, hfold⟩ := Option.bind_eq_some_iff.mp h
    obtain ⟨y, hy, rfl⟩ := Option.map_eq_some_iff.mp hsize
    obtain ⟨-, rfl⟩ := toInt_eq_some.mp hy
    rw [ih _ hfold]
    by_cases hs : sizes = []
    · simp [hs]
    · simp [hs, Nat.add_assoc]

theorem entrySize_eq {sizes : List ℕ} (h : entrySize sizes = some o) :
    o = if sizes = [] then none else some sizes.sum := by
  rw [entrySize_from none h]
  simp

-- ---------------------------------------------------------------------------
-- Index maps
-- ---------------------------------------------------------------------------

theorem collectIndices_from (entries : List (ℕ × ℕ)) (m : ℕ → Option (List ℕ)) (rank : ℕ) :
    entries.foldl (fun (m : ℕ → Option (List ℕ)) e =>
        Function.update m e.1 (some ((m e.1).getD [] ++ [e.2]))) m rank =
      if itemsFor rank entries = [] then m rank
      else some ((m rank).getD [] ++ itemsFor rank entries) := by
  induction entries generalizing m with
  | nil => simp [itemsFor]
  | cons e entries ih =>
    rw [List.foldl_cons, ih]
    by_cases he : e.1 = rank
    · subst he
      by_cases hnil : itemsFor e.1 entries = []
      · have hcons : itemsFor e.1 (e :: entries) = [e.2] := by
          simpa [itemsFor] using hnil
        simp [hcons, hnil]
      · have hcons : itemsFor e.1 (e :: entries) = e.2 :: itemsFor e.1 entries := by
          simp [itemsFor]
        simp [hcons, hnil]
    · have hcons : itemsFor rank (e :: entries) = itemsFor rank entries := by
        simp [itemsFor, he]
      rw [hcons, Function.update_of_ne (Ne.symm he)]

theorem collectIndices_eq (entries : List (ℕ × ℕ)) (rank : ℕ) :
    collectIndices entries rank =
      if itemsFor rank entries = [] then none else some (itemsFor rank entries) := by
  rw [collectIndices, collectIndices_from]
  simp

section
variable {r : Registry n}

/-- The index maps hold the ghosts of each owner and the entries of each user, and two
ranks have an entry for each other or none. -/
structure Maps (r : Registry n) (s : Fin n → Context) : Prop where
  ghost : ∀ (p q : Fin n) f,
    ((s p).ghost_indices f q).getD [] = (ghostEntries (r.fieldColoring f p) q).map Prod.snd
  shared : ∀ (p q : Fin n) f,
    ((s q).shared_indices f p).getD [] = (userEntries (r.fieldColoring f q) p).map EntityInfo.offset
  keys : ∀ (p q : Fin n) f,
    ((s p).ghost_indices f q).isSome = ((s q).shared_indices f p).isSome

section
variable (hr : ∀ i, ExchangeColoring (r.coloring i))

include hr in
theorem initial_maps : Maps r (initialContext r) := by
  have hghost (p q : Fin n) (f : ℕ) : itemsFor q
      ((r.fieldColoring f p).ghost.zipIdx.map fun x => (x.1.rank, x.2)) =
        (ghostEntries (r.fieldColoring f p) q).map Prod.snd := by
    simp [itemsFor, ghostEntries, List.filter_map, Function.comp_def]
  have hshared (p q : Fin n) (f : ℕ) : itemsFor p
      ((r.fieldColoring f q).shared.flatMap fun shared =>
        (shared.shared.sort (· ≤ ·)).map fun s => (s, shared.offset)) =
        (userEntries (r.fieldColoring f q) p).map EntityInfo.offset := by
    rw [itemsFor_flatMap fun e _ => e.shared.sort_nodup (· ≤ ·)]
    simp [userEntries]
  have hgetD (l : List ℕ) : (if l = [] then none else some l).getD [] = l := by
    split <;> simp_all
  refine ⟨fun p q f => ?_, fun p q f => ?_, fun p q f => ?_⟩
  · simp only [initialContext, collectIndices_eq, hghost, hgetD]
  · simp only [initialContext, collectIndices_eq, hshared, hgetD]
  · have hlen : (ghostEntries (r.fieldColoring f p) q).length =
        (userEntries (r.fieldColoring f q) p).length :=
      (hr (r.fields f).index_space).length_ghostEntries p q
    have hsome (l l' : List ℕ) (hl : l.length = l'.length) :
        (if l = [] then none else some l).isSome = (if l' = [] then none else some l').isSome := by
      cases l <;> cases l' <;> simp_all
    simp only [initialContext, collectIndices_eq, hghost, hshared]
    exact hsome _ _ (by simpa using hlen)

omit hr in
/-- Entries made by `map[rank]` for the messages of one exchange. -/
theorem Maps.touch {s s' : Fin n → Context} (h : Maps r s) (fs : List ℕ)
    {ghost_sizes shared_sizes : Fin n → Fin n → Option ℕ}
    (hsizes : ∀ p q, ghost_sizes p q = shared_sizes q p)
    (hghost : ∀ p, (s' p).ghost_indices =
      Sparse.touch (s p).ghost_indices fs (hasEntry (ghost_sizes p)))
    (hshared : ∀ p, (s' p).shared_indices =
      Sparse.touch (s p).shared_indices fs (hasEntry (shared_sizes p))) : Maps r s' := by
  have hgetD (m : ℕ → ℕ → Option (List ℕ)) (ranks : ℕ → Bool) (f rank : ℕ) :
      (Sparse.touch m fs ranks f rank).getD [] = (m f rank).getD [] := by
    unfold Sparse.touch
    split <;> rfl
  refine ⟨fun p q f => ?_, fun p q f => ?_, fun p q f => ?_⟩
  · rw [hghost, hgetD, h.ghost]
  · rw [hshared, hgetD, h.shared]
  · have hentry : hasEntry (ghost_sizes p) q = hasEntry (shared_sizes q) p := by
      simp [hasEntry, hsizes]
    simp only [hghost, hshared, Sparse.touch, hentry]
    split
    · rfl
    · exact h.keys p q f

-- ---------------------------------------------------------------------------
-- The exchange of row sizes
-- ---------------------------------------------------------------------------

theorem Maps.rowCounts_eq {s : Fin n → Context} (h : Maps r s) (fs : List ℕ) (p q : Fin n)
    (hr : ∀ i, ExchangeColoring (r.coloring i)) :
    rowCounts (s p).ghost_indices fs q = rowCounts (s q).shared_indices fs p := by
  unfold rowCounts
  congr 1
  refine List.filterMap_congr fun f _ => ?_
  have hlen : (ghostEntries (r.fieldColoring f p) q).length =
      (userEntries (r.fieldColoring f q) p).length :=
    (hr (r.fields f).index_space).length_ghostEntries p q
  have hkeys := h.keys p q f
  have hghost := congrArg List.length (h.ghost p q f)
  have hshared := congrArg List.length (h.shared p q f)
  cases hg : (s p).ghost_indices f q <;> cases hs : (s q).shared_indices f p <;> simp_all

/-- The row of the owner that a ghost stands for. -/
def ownerRow (r : Registry n) (s : Fin n → Context) (p : Fin n) (f i : ℕ) : Option RowVector := do
  let ghost ← (r.fieldColoring f p).ghost[i]?
  if h : ghost.rank < n then
    some ((s ⟨ghost.rank, h⟩).rows (f, ghost.offset + r.num_exclusive f ⟨ghost.rank, h⟩))
  else none

theorem ownerRow_eq {s : Fin n → Context} {p q : Fin n} {ghost : EntityInfo}
    (hghost : (r.fieldColoring f p).ghost[i]? = some ghost) (hq : ghost.rank = q) :
    ownerRow r s p f i = some ((s q).rows (f, ghost.offset + r.num_exclusive f q)) := by
  have hlt : ghost.rank < n := hq ▸ q.isLt
  have hqq : (⟨ghost.rank, hlt⟩ : Fin n) = q := Fin.ext hq
  simp only [ownerRow, hghost, Option.bind_eq_bind, Option.bind_some, dif_pos hlt, hqq]

theorem mem_ownerRow {s : Fin n → Context} {p : Fin n} {row : RowVector} :
    row ∈ ownerRow r s p f i ↔ ∃ (ghost : EntityInfo) (q : Fin n),
      (r.fieldColoring f p).ghost[i]? = some ghost ∧ ghost.rank = q ∧
        row = (s q).rows (f, ghost.offset + r.num_exclusive f q) := by
  constructor
  · intro h
    obtain ⟨ghost, hghost, h⟩ := Option.bind_eq_some_iff.mp h
    split at h
    · rename_i hlt
      exact ⟨ghost, ⟨ghost.rank, hlt⟩, hghost, rfl, (Option.some.inj h).symm⟩
    · cases h
  · rintro ⟨ghost, q, hghost, hq, rfl⟩
    exact ownerRow_eq hghost hq

theorem cells_single {κ : Type} (l : List ι) (k : ι → κ) (i : ι → ℕ) :
    cells (l.map fun x => ⟨k x, i x, 1⟩) = l.map fun x => (k x, i x) := by
  induction l with
  | nil => rfl
  | cons x l ih =>
    rw [List.map_cons, cells_cons, ih]
    rfl

theorem rowsize_recv {s : Fin n → Context} (h : Maps r s) {resized : Fin n → List ℕ}
    (gs ss : Fin n → Fin n → Option ℕ) (p q : Fin n) :
    cells ((rowsizePlan r resized s gs ss).recvSlots p q) =
      (exchanged r.fieldColoring (resized p) p q).map fun x => (x.1, x.2.2) := by
  simp only [rowsizePlan, cells_flatMap, exchanged, List.map_flatMap]
  refine List.flatMap_congr fun f _ => ?_
  rw [cells_single, h.ghost, List.map_map, List.map_map]
  rfl

theorem rowsize_send {s : Fin n → Context} (h : Maps r s)
    (hr : ∀ i, ExchangeColoring (r.coloring i)) {resized : Fin n → List ℕ}
    (gs ss : Fin n → Fin n → Option ℕ) (p q : Fin n) (hR : resized q = resized p) :
    cells ((rowsizePlan r resized s gs ss).sendSlots q p) =
      (exchanged r.fieldColoring (resized p) p q).map
        fun x => ((x.1, x.2.1.offset + r.num_exclusive x.1 q), 0) := by
  have hcol (f : ℕ) : ExchangeColoring (r.fieldColoring f) := hr (r.fields f).index_space
  rw [← map_userEntries hcol (resized p) p q fun f offset => ((f, offset + r.num_exclusive f q), 0)]
  simp only [rowsizePlan, cells_flatMap, hR]
  refine List.flatMap_congr fun f _ => ?_
  rw [cells_single, h.shared, List.map_map]
  rfl

/-- The lengths of two ranks' rows agree, and the ghost side has the length stored. -/
def SizesAgree (r : Registry n) (s : Fin n → Context) (f : ℕ) : Prop :=
  ∀ (p : Fin n) i, ∀ row ∈ ownerRow r s p f i,
    ((s p).rows (f, r.ghostRow f p + i)).count = row.count ∧
      ((s p).ghost_row_sizes f)[i]? = some row.count

/-- What the exchange of row sizes of the fields `fs` does. -/
structure SizesExchanged (r : Registry n) (fs : List ℕ) (s s' : Fin n → Context) : Prop where
  maps : Maps r s'
  rows : ∀ p, (s' p).rows = (s p).rows
  readable : ∀ p, (s' p).ghost_is_readable = (s p).ghost_is_readable
  resized : ∀ p, (s' p).ghost_was_resized = (s p).ghost_was_resized
  length : ∀ p f, ((s' p).ghost_row_sizes f).length = ((s p).ghost_row_sizes f).length
  frame : ∀ p, ∀ f ∉ fs, (s' p).ghost_row_sizes f = (s p).ghost_row_sizes f
  sizes : ∀ (p : Fin n), ∀ f ∈ fs, ∀ i, ∀ row ∈ ownerRow r s p f i,
    ((s' p).ghost_row_sizes f)[i]? = some row.count

include hr in
theorem rowsizePlan_matched {s : Fin n → Context} (h : Maps r s)
    (hlen : ∀ p f, ((s p).ghost_row_sizes f).length = (r.fieldColoring f p).ghost.length)
    {fs : List ℕ} {gs ss : Fin n → Fin n → Option ℕ}
    (hgs : ∀ p q : Fin n, rowCounts (s p).ghost_indices fs q = some (gs p q))
    (hss : ∀ p q : Fin n, rowCounts (s p).shared_indices fs q = some (ss p q)) :
    (rowsizePlan r (fun _ => fs) s gs ss).Matched (fun q k => [((s q).rows k).count])
      (fun p => (s p).ghost_row_sizes)
      fun p c => (ownerRow r s p c.1 c.2).map RowVector.count := by
  have hcount (p q : Fin n) (f : ℕ) (l : List ℕ) (hl : (s p).ghost_indices f q = some l) :
      l = (ghostEntries (r.fieldColoring f p) q).map Prod.snd := by
    rw [← h.ghost, hl]
    rfl
  have hcells (p q : Fin n) :
      (cells ((rowsizePlan r (fun _ => fs) s gs ss).recvSlots p q)).length =
        (fs.filterMap fun f => ((s p).ghost_indices f q).map List.length).sum := by
    rw [rowsize_recv h, List.length_map, exchanged, List.length_flatMap]
    clear hgs hss
    induction fs with
    | nil => rfl
    | cons f fs ih =>
      have hg := h.ghost p q f
      cases hl : (s p).ghost_indices f q with
      | none =>
        rw [hl] at hg
        have hnil : ghostEntries (r.fieldColoring f p) q = [] := by simpa using hg.symm
        simpa [hl, hnil] using ih
      | some l =>
        rw [hcount p q f l hl] at hl
        simpa [hl] using ih
  have hsize (p q : Fin n) := entrySize_eq (hgs p q)
  refine ⟨fun p q => ?_, fun p q hnone => ?_, fun p q k hk => ?_, fun p q t ht => ?_,
    fun p q t ht => ?_, fun p q => ?_⟩
  · exact Option.some.inj ((hgs p q).symm.trans ((h.rowCounts_eq fs p q hr).trans (hss q p)))
  · simp only [rowsizePlan] at hnone
    rw [hsize p q] at hnone
    split at hnone
    · rename_i hnil
      refine List.length_eq_zero_iff.mp ((hcells p q).trans ?_)
      rw [hnil]
      rfl
    · cases hnone
  · simp only [rowsizePlan] at hk
    rw [hsize p q] at hk
    split at hk
    · cases hk
    · rw [hcells]
      exact Option.some.inj hk
  · obtain ⟨f, -, ht⟩ := List.mem_flatMap.mp ht
    obtain ⟨i, -, rfl⟩ := List.mem_map.mp ht
    exact le_rfl
  · obtain ⟨f, -, ht⟩ := List.mem_flatMap.mp ht
    obtain ⟨i, hi, rfl⟩ := List.mem_map.mp ht
    rw [h.ghost] at hi
    obtain ⟨x, hx, rfl⟩ := List.mem_map.mp hi
    simp only [hlen]
    exact (List.getElem?_eq_some_iff.mp (mem_ghostEntries.mp hx).1).1
  · rw [rowsize_recv h, rowsize_send h hr gs ss p q rfl, List.map_map, List.map_map]
    refine List.map_congr_left fun x hx => ?_
    obtain ⟨-, hghost, hq⟩ := mem_exchanged.mp hx
    simp [ownerRow_eq hghost hq, readCell]

include hr in
theorem launchRowsize_spec {s s' : Fin n → Context} (h : Maps r s)
    (hlen : ∀ p f, ((s p).ghost_row_sizes f).length = (r.fieldColoring f p).ghost.length)
    {fs : List ℕ} (hs : launchRowsizeExchange r (fun _ => fs) s = some s') :
    SizesExchanged r fs s s' := by
  obtain ⟨gs, hgs, hs⟩ := Option.bind_eq_some_iff.mp hs
  obtain ⟨ss, hss, hs⟩ := Option.bind_eq_some_iff.mp hs
  obtain ⟨sizes, hsizes, hs⟩ := Option.bind_eq_some_iff.mp hs
  obtain rfl := Option.some.inj hs
  have hgs' (p q : Fin n) := allRanks_eq_some.mp (allRanks_eq_some.mp hgs p) q
  have hss' (p q : Fin n) := allRanks_eq_some.mp (allRanks_eq_some.mp hss p) q
  have hm := rowsizePlan_matched hr h hlen hgs' hss'
  obtain ⟨sizes', hex, hspec⟩ := hm.exchange_eq
  obtain rfl : sizes = sizes' := Option.some.inj (hsizes.symm.trans hex)
  refine ⟨h.touch fs hm.size (fun _ => rfl) fun _ => rfl, fun _ => rfl, fun _ => rfl, fun _ => rfl,
    fun p f => (hspec p).1.length f, fun p f hf => ?_, fun p f hf i row hrow => ?_⟩
  · refine List.ext_getElem? fun i => (hspec p).1.frame (f, i) fun hmem => hf ?_
    obtain ⟨q, -, hmem⟩ := List.mem_flatMap.mp hmem
    rw [rowsize_recv h] at hmem
    obtain ⟨x, hx, heq⟩ := List.mem_map.mp hmem
    obtain ⟨rfl, -⟩ := Prod.ext_iff.mp heq
    exact (mem_exchanged.mp hx).1
  · obtain ⟨ghost, q, hghost, hq, rfl⟩ := mem_ownerRow.mp hrow
    have hmem : (f, i) ∈ cells ((rowsizePlan r (fun _ => fs) s gs ss).recvSlots p q) := by
      rw [rowsize_recv h]
      exact List.mem_map.mpr ⟨(f, ghost, i), mem_exchanged.mpr ⟨hf, hghost, hq⟩, rfl⟩
    refine ((hspec p).2 q (f, i) hmem).trans ?_
    simp [ownerRow_eq hghost hq]

include hr in
theorem launchRowsize_some {s : Fin n → Context} (h : Maps r s)
    (hlen : ∀ p f, ((s p).ghost_row_sizes f).length = (r.fieldColoring f p).ghost.length)
    {fs : List ℕ} (hfit : ∀ p q : Fin n, (rowCounts (s p).ghost_indices fs q).isSome) :
    ∃ s', launchRowsizeExchange r (fun _ => fs) s = some s' := by
  choose gs hgs using fun p q => Option.isSome_iff_exists.mp (hfit p q)
  have hss (p q : Fin n) : rowCounts (s p).shared_indices fs q = some (gs q p) := by
    rw [← h.rowCounts_eq fs q p hr, hgs]
  obtain ⟨sizes, hex, -⟩ := (rowsizePlan_matched hr h hlen hgs hss).exchange_eq
  simp only [launchRowsizeExchange, hgs, hss, allRanks_some, Option.bind_eq_bind, Option.bind_some,
    hex]
  exact ⟨_, rfl⟩

-- ---------------------------------------------------------------------------
-- Resizing
-- ---------------------------------------------------------------------------

omit hr in
theorem RowVector.WellFormed.resize {row : RowVector} (h : row.WellFormed size) (fresh : ℕ → UInt8)
    (new_count : ℕ) : (row.resize size fresh new_count).WellFormed size := by
  unfold RowVector.resize
  split
  · exact ⟨‹_›, h.length⟩
  · rename_i hlt
    have hcount := h.count_le
    refine ⟨le_rfl, ?_⟩
    have hle : row.count * size ≤ row.capacity * size := Nat.mul_le_mul_right _ h.count_le
    simp only [List.length_append, List.length_take, List.length_map, List.length_range', h.length,
      Nat.min_eq_left hle, ← Nat.add_mul]
    congr 1
    omega

omit hr in
@[simp] theorem RowVector.count_resize (row : RowVector) (fresh : ℕ → UInt8) (new_count : ℕ) :
    (row.resize size fresh new_count).count = new_count := by
  unfold RowVector.resize
  split <;> rfl

omit hr in
theorem RowVector.resize_resize (row : RowVector) (fresh : ℕ → UInt8) (new_count : ℕ) :
    (row.resize size fresh new_count).resize size fresh new_count = row.resize size fresh new_count := by
  have hcap : new_count ≤ (row.resize size fresh new_count).capacity := by
    unfold RowVector.resize
    split
    · exact ‹_›
    · exact le_rfl
  have hcount : (row.resize size fresh new_count).count = new_count := row.count_resize fresh new_count
  rw [RowVector.resize, if_pos hcap]
  cases hrow : row.resize size fresh new_count with
  | mk count capacity storage =>
    rw [hrow] at hcount
    simp only at hcount
    rw [hcount]

/-- The row after `update_ghost_row_sizes`. -/
def resizedRow (r : Registry n) (fresh : ℕ × ℕ → ℕ → UInt8) (p : Fin n) (c : Context) (k : ℕ × ℕ) :
    RowVector :=
  if r.ghostRow k.1 p ≤ k.2 ∧ k.2 - r.ghostRow k.1 p < (r.fieldColoring k.1 p).ghost.length then
    (c.rows k).resize (r.entry_size k.1) (fresh k)
      ((c.ghost_row_sizes k.1).getD (k.2 - r.ghostRow k.1 p) 0)
  else c.rows k

omit hr in
theorem foldl_resize (fresh : ℕ × ℕ → ℕ → UInt8) (base size : ℕ) (f : ℕ) (sizes : List ℕ) (l : List ℕ)
    (rows : ℕ × ℕ → RowVector) (k : ℕ × ℕ) :
    l.foldl (fun rows i => Function.update rows (f, base + i)
      ((rows (f, base + i)).resize size (fresh (f, base + i)) (sizes.getD i 0))) rows k =
      if k.1 = f ∧ base ≤ k.2 ∧ k.2 - base ∈ l then
        (rows k).resize size (fresh k) (sizes.getD (k.2 - base) 0)
      else rows k := by
  induction l generalizing rows with
  | nil => simp
  | cons i l ih =>
    rw [List.foldl_cons, ih]
    by_cases hk : k = (f, base + i)
    · subst hk
      simp [RowVector.resize_resize]
    · have hne : ¬(k.1 = f ∧ base ≤ k.2 ∧ k.2 - base = i) := by
        rintro ⟨hf, hle, hi⟩
        exact hk (Prod.ext hf (by simp only; omega))
      rw [Function.update_of_ne hk]
      congr 1
      simp only [List.mem_cons, eq_iff_iff]
      tauto

include hr in
theorem updateGhostRowSizes_eq (fresh : ℕ × ℕ → ℕ → UInt8) (p : Fin n) (f : ℕ) (c : Context)
    (hmaps : ∀ q : Fin n, (c.ghost_indices f q).getD [] =
      (ghostEntries (r.fieldColoring f p) q).map Prod.snd) (k : ℕ × ℕ) :
    updateGhostRowSizes r fresh p f c k = if k.1 = f then resizedRow r fresh p c k else c.rows k := by
  have hmem (i : ℕ) : (i ∈ (List.finRange n).flatMap fun q : Fin n =>
      (ghostEntries (r.fieldColoring f p) q).map Prod.snd) ↔ i < (r.fieldColoring f p).ghost.length := by
    simp only [List.mem_flatMap, List.mem_finRange, true_and, List.mem_map]
    constructor
    · rintro ⟨q, x, hx, rfl⟩
      exact (List.getElem?_eq_some_iff.mp (mem_ghostEntries.mp hx).1).1
    · intro hi
      obtain ⟨q, hq, -⟩ := (hr (r.fields f).index_space).ghost p _ (List.getElem_mem hi)
      exact ⟨q, (_, i), mem_ghostEntries.mpr ⟨List.getElem?_eq_getElem hi, hq⟩, rfl⟩
  have hfold : updateGhostRowSizes r fresh p f c =
      ((List.finRange n).flatMap fun q : Fin n => (c.ghost_indices f q).getD []).foldl (fun rows i =>
        Function.update rows (f, r.ghostRow f p + i) ((rows (f, r.ghostRow f p + i)).resize
          (r.entry_size f) (fresh (f, r.ghostRow f p + i)) ((c.ghost_row_sizes f).getD i 0))) c.rows := by
    rw [List.foldl_flatMap]
    rfl
  rw [hfold, foldl_resize]
  simp only [hmaps, hmem]
  by_cases hk : k.1 = f
  · subst hk
    simp [resizedRow]
  · simp [hk]

/-- The rows and flags after the resizer has walked over the handles. -/
structure RowsResized (r : Registry n) (fresh : ℕ × ℕ → ℕ → UInt8) (p : Fin n) (args : List Reference)
    (c c' : Context) : Prop where
  shared : c'.shared_indices = c.shared_indices
  ghost : c'.ghost_indices = c.ghost_indices
  sizes : c'.ghost_row_sizes = c.ghost_row_sizes
  readable : c'.ghost_is_readable = c.ghost_is_readable
  resized : ∀ f, c'.ghost_was_resized f = (c.ghost_was_resized f && !args.any (·.fid = f))
  rows : ∀ k, c'.rows k =
    if c.ghost_was_resized k.1 ∧ args.any (·.fid = k.1) then resizedRow r fresh p c k else c.rows k

include hr in
theorem foldl_rowResize (fresh : ℕ × ℕ → ℕ → UInt8) (p : Fin n) (args : List Reference) (c : Context)
    (hmaps : ∀ (f : ℕ) (q : Fin n), (c.ghost_indices f q).getD [] =
      (ghostEntries (r.fieldColoring f p) q).map Prod.snd) :
    RowsResized r fresh p args c (args.foldl (rowResize r fresh p) c) := by
  induction args generalizing c with
  | nil => exact ⟨rfl, rfl, rfl, rfl, by simp, by simp⟩
  | cons a args ih =>
    rw [List.foldl_cons]
    by_cases hres : c.ghost_was_resized a.fid = true
    · have hstep : rowResize r fresh p c a = { c with
          rows := updateGhostRowSizes r fresh p a.fid c
          ghost_was_resized := Function.update c.ghost_was_resized a.fid false } := by
        simp [rowResize, hres]
      obtain ⟨hs, hg, hsz, hrd, hrs, hrows⟩ := ih (rowResize r fresh p c a) (by rw [hstep]; exact hmaps)
      rw [hstep] at hs hg hsz hrd hrs hrows ⊢
      refine ⟨hs, hg, hsz, hrd, fun f => ?_, fun k => ?_⟩
      · rw [hrs]
        by_cases hf : f = a.fid
        · simp [hf]
        · simp [hf, Ne.symm hf]
      · rw [hrows]
        simp only [resizedRow, updateGhostRowSizes_eq hr fresh p a.fid c (hmaps a.fid)]
        by_cases hf : k.1 = a.fid
        · simp [hf, hres]
        · simp [hf, Ne.symm hf]
    · have hstep : rowResize r fresh p c a = c := by
        simp [rowResize, hres]
      rw [hstep]
      obtain ⟨hs, hg, hsz, hrd, hrs, hrows⟩ := ih c hmaps
      refine ⟨hs, hg, hsz, hrd, fun f => ?_, fun k => ?_⟩
      · rw [hrs]
        by_cases hf : f = a.fid
        · simp [hf, hres]
        · simp [Ne.symm hf]
      · rw [hrows]
        by_cases hf : k.1 = a.fid
        · simp [hf, hres]
        · simp [Ne.symm hf]

-- ---------------------------------------------------------------------------
-- The exchange of rows
-- ---------------------------------------------------------------------------

/-- The bytes sent for the owners' rows have arrived. -/
def PrefixAgree (r : Registry n) (s : Fin n → Context) (f : ℕ) : Prop :=
  ∀ (p : Fin n) i, ∀ row ∈ ownerRow r s p f i, ∀ b < row.count * r.type_size f,
    ((s p).rows (f, r.ghostRow f p + i)).storage[b]? = row.storage[b]?

theorem cells_heads {κ : Type} (l : List ι) (k : ι → κ) (len : ι → ℕ) :
    cells (l.map fun x => ⟨k x, 0, len x⟩) =
      l.flatMap fun x => (List.range' 0 (len x)).map (k x, ·) := by
  simp [cells, List.flatMap_map]

theorem row_recv {s : Fin n → Context} (h : Maps r s) {modified : Fin n → List ℕ}
    (gs ss : Fin n → Fin n → Option ℕ) (p q : Fin n) :
    cells ((rowPlan r modified s gs ss).recvSlots p q) =
      (exchanged r.fieldColoring (modified p) p q).flatMap fun x =>
        (List.range' 0 (((s p).ghost_row_sizes x.1).getD x.2.2 0 * r.type_size x.1)).map
          fun b => ((x.1, r.ghostRow x.1 p + x.2.2), b) := by
  simp only [rowPlan, cells_flatMap, exchanged, List.flatMap_assoc]
  refine List.flatMap_congr fun f _ => ?_
  rw [cells_heads, h.ghost, List.flatMap_map, List.flatMap_map]

include hr in
theorem row_send {s : Fin n → Context} (h : Maps r s) {modified : Fin n → List ℕ}
    (gs ss : Fin n → Fin n → Option ℕ) (p q : Fin n) (hM : modified q = modified p) :
    cells ((rowPlan r modified s gs ss).sendSlots q p) =
      (exchanged r.fieldColoring (modified p) p q).flatMap fun x =>
        (List.range' 0 (((s q).rows (x.1, x.2.1.offset + r.num_exclusive x.1 q)).count *
          r.type_size x.1)).map fun b => ((x.1, x.2.1.offset + r.num_exclusive x.1 q), b) := by
  have hcol (f : ℕ) : ExchangeColoring (r.fieldColoring f) := hr (r.fields f).index_space
  rw [← flatMap_userEntries hcol (modified p) p q fun f offset =>
    (List.range' 0 (((s q).rows (f, offset + r.num_exclusive f q)).count * r.type_size f)).map
      fun b => ((f, offset + r.num_exclusive f q), b)]
  simp only [rowPlan, cells_flatMap, hM]
  refine List.flatMap_congr fun f _ => ?_
  rw [cells_heads, h.shared, List.flatMap_map]

theorem SizesAgree.size {s : Fin n → Context} (h : SizesAgree r s f) {p q : Fin n}
    (hghost : (r.fieldColoring f p).ghost[i]? = some ghost) (hq : ghost.rank = (q : ℕ)) :
    ((s p).ghost_row_sizes f).getD i 0 =
      ((s q).rows (f, ghost.offset + r.num_exclusive f q)).count := by
  have hrow := (h p i _ (mem_ownerRow.mpr ⟨ghost, q, hghost, hq, rfl⟩)).2
  rw [List.getD_eq_getElem?_getD, hrow]
  rfl

include hr in
theorem Maps.bytes_eq {s : Fin n → Context} (h : Maps r s) {fs : List ℕ}
    (hsizes : ∀ f ∈ fs, SizesAgree r s f) (p q : Fin n) :
    recvBytes r fs (s p) q = sendBytes r fs q (s q) p := by
  have hcol (f : ℕ) : ExchangeColoring (r.fieldColoring f) := hr (r.fields f).index_space
  have hsend := map_userEntries hcol fs p q fun f offset =>
    ((s q).rows (f, r.num_exclusive f q + offset)).count * r.type_size f
  unfold recvBytes sendBytes
  congr 1
  simp only [h.ghost, h.shared, List.map_map, Function.comp_def, hsend, exchanged, List.map_flatMap]
  refine List.flatMap_congr fun f hf => List.map_congr_left fun x hx => ?_
  obtain ⟨hghost, hq⟩ := mem_ghostEntries.mp hx
  rw [(hsizes f hf).size hghost hq, Nat.add_comm]

include hr in
theorem rowPlan_matched {s : Fin n → Context} (h : Maps r s)
    (hwf : ∀ p f k, ((s p).rows (f, k)).WellFormed (r.entry_size f))
    {fs : List ℕ} (hsizes : ∀ f ∈ fs, SizesAgree r s f) {gs ss : Fin n → Fin n → Option ℕ}
    (hgs : ∀ p q : Fin n, recvBytes r fs (s p) q = some (gs p q))
    (hss : ∀ p q : Fin n, sendBytes r fs p (s p) q = some (ss p q)) :
    (rowPlan r (fun _ => fs) s gs ss).Matched (fun q k => ((s q).rows k).storage)
      (fun p k => ((s p).rows k).storage)
      fun p c => (ownerRow r s p c.1.1 (c.1.2 - r.ghostRow c.1.1 p)).bind (·.storage[c.2]?) := by
  have hle (p : Fin n) (f k : ℕ) :
      ((s p).rows (f, k)).count * r.type_size f ≤ ((s p).rows (f, k)).storage.length := by
    rw [(hwf p f k).length]
    exact Nat.mul_le_mul (hwf p f k).count_le (r.fields f).type_size_le
  have hcells (p q : Fin n) : (cells ((rowPlan r (fun _ => fs) s gs ss).recvSlots p q)).length =
      (fs.flatMap fun f => (((s p).ghost_indices f q).getD []).map
        fun i => ((s p).ghost_row_sizes f).getD i 0 * r.type_size f).sum := by
    rw [row_recv h]
    simp only [h.ghost, List.map_map, exchanged, List.flatMap_assoc, List.flatMap_map,
      List.length_flatMap, List.length_map, List.length_range']
    rw [List.flatMap_def, List.sum_flatten, List.map_map]
    rfl
  have hsize (p q : Fin n) := entrySize_eq (hgs p q)
  refine ⟨fun p q => ?_, fun p q hnone => ?_, fun p q k hk => ?_, fun p q t ht => ?_,
    fun p q t ht => ?_, fun p q => ?_⟩
  · exact Option.some.inj ((hgs p q).symm.trans ((h.bytes_eq hr hsizes p q).trans (hss q p)))
  · simp only [rowPlan] at hnone
    rw [hsize p q] at hnone
    split at hnone
    · rename_i hnil
      refine List.length_eq_zero_iff.mp ((hcells p q).trans ?_)
      rw [hnil]
      rfl
    · cases hnone
  · simp only [rowPlan] at hk
    rw [hsize p q] at hk
    split at hk
    · cases hk
    · rw [hcells]
      exact Option.some.inj hk
  · obtain ⟨f, -, ht⟩ := List.mem_flatMap.mp ht
    obtain ⟨i, -, rfl⟩ := List.mem_map.mp ht
    simpa using hle q f (i + r.num_exclusive f q)
  · obtain ⟨f, hf, ht⟩ := List.mem_flatMap.mp ht
    obtain ⟨i, hi, rfl⟩ := List.mem_map.mp ht
    rw [h.ghost] at hi
    obtain ⟨x, hx, rfl⟩ := List.mem_map.mp hi
    obtain ⟨hghost, hq⟩ := mem_ghostEntries.mp hx
    have hcount := (hsizes f hf p x.2 _ (mem_ownerRow.mpr ⟨x.1, q, hghost, hq, rfl⟩)).1
    simp only [(hsizes f hf).size hghost hq, Nat.zero_add]
    rw [← hcount]
    exact hle p f _
  · rw [row_recv h, row_send hr h gs ss p q rfl, List.map_flatMap, List.map_flatMap]
    refine List.flatMap_congr fun x hx => ?_
    obtain ⟨hf, hghost, hq⟩ := mem_exchanged.mp hx
    rw [(hsizes x.1 hf).size hghost hq, List.map_map, List.map_map]
    refine List.map_congr_left fun b _ => ?_
    simp [ownerRow_eq hghost hq, readCell]

/-- What the exchange of the rows of the fields `fs` does. -/
structure RowsExchanged (r : Registry n) (fs : List ℕ) (s s' : Fin n → Context) : Prop where
  maps : Maps r s'
  sizes : ∀ p, (s' p).ghost_row_sizes = (s p).ghost_row_sizes
  readable : ∀ p, (s' p).ghost_is_readable = (s p).ghost_is_readable
  resized : ∀ p, (s' p).ghost_was_resized = (s p).ghost_was_resized
  count : ∀ p k, ((s' p).rows k).count = ((s p).rows k).count
  capacity : ∀ p k, ((s' p).rows k).capacity = ((s p).rows k).capacity
  length : ∀ p k, ((s' p).rows k).storage.length = ((s p).rows k).storage.length
  frame : ∀ p f k b, (f ∉ fs ∨ k < r.ghostRow f p ∨
      ((s p).ghost_row_sizes f).getD (k - r.ghostRow f p) 0 * r.type_size f ≤ b) →
    ((s' p).rows (f, k)).storage[b]? = ((s p).rows (f, k)).storage[b]?
  arrived : ∀ f ∈ fs, ∀ p i, ∀ row ∈ ownerRow r s p f i, ∀ b < row.count * r.type_size f,
    ((s' p).rows (f, r.ghostRow f p + i)).storage[b]? = row.storage[b]?

omit hr in
theorem RowsExchanged.rows_eq {fs : List ℕ} {s s' : Fin n → Context} (h : RowsExchanged r fs s s')
    {p : Fin n} (hout : f ∉ fs ∨ k < r.ghostRow f p) : (s' p).rows (f, k) = (s p).rows (f, k) := by
  have hstorage : ((s' p).rows (f, k)).storage = ((s p).rows (f, k)).storage :=
    List.ext_getElem? fun i => h.frame p f k i (hout.imp_right .inl)
  have hcount := h.count p (f, k)
  have hcapacity := h.capacity p (f, k)
  cases hrow : (s' p).rows (f, k)
  cases hrow' : (s p).rows (f, k)
  simp only [hrow, hrow'] at hstorage hcount hcapacity
  rw [hstorage, hcount, hcapacity]

include hr in
theorem launchSparse_spec {s s' : Fin n → Context} (h : Maps r s)
    (hwf : ∀ p f k, ((s p).rows (f, k)).WellFormed (r.entry_size f))
    {fs : List ℕ} (hsizes : ∀ f ∈ fs, SizesAgree r s f)
    (hs : launchSparseExchange r (fun _ => fs) s = some s') : RowsExchanged r fs s s' := by
  obtain ⟨gs, hgs, hs⟩ := Option.bind_eq_some_iff.mp hs
  obtain ⟨ss, hss, hs⟩ := Option.bind_eq_some_iff.mp hs
  obtain ⟨data, hdata, hs⟩ := Option.bind_eq_some_iff.mp hs
  obtain rfl := Option.some.inj hs
  have hgs' (p q : Fin n) := allRanks_eq_some.mp (allRanks_eq_some.mp hgs p) q
  have hss' (p q : Fin n) := allRanks_eq_some.mp (allRanks_eq_some.mp hss p) q
  have hm := rowPlan_matched hr h hwf hsizes hgs' hss'
  obtain ⟨data', hex, hspec⟩ := hm.exchange_eq
  obtain rfl : data = data' := Option.some.inj (hdata.symm.trans hex)
  refine ⟨h.touch fs hm.size (fun _ => rfl) fun _ => rfl, fun _ => rfl, fun _ => rfl, fun _ => rfl,
    fun _ _ => rfl, fun _ _ => rfl, fun p k => (hspec p).1.length k, fun p f k b hout => ?_,
    fun f hf p i row hrow b hb => ?_⟩
  · refine (hspec p).1.frame ((f, k), b) fun hmem => ?_
    obtain ⟨q, -, hmem⟩ := List.mem_flatMap.mp hmem
    rw [row_recv h] at hmem
    obtain ⟨x, hx, hmem⟩ := List.mem_flatMap.mp hmem
    obtain ⟨b', hb', heq⟩ := List.mem_map.mp hmem
    obtain ⟨hk, rfl⟩ := Prod.ext_iff.mp heq
    obtain ⟨rfl, rfl⟩ := Prod.ext_iff.mp hk
    simp only at hout
    rw [List.mem_range'_1] at hb'
    rcases hout with hout | hout | hout
    · exact hout (mem_exchanged.mp hx).1
    · omega
    · rw [Nat.add_sub_cancel_left] at hout
      omega
  · obtain ⟨ghost, q, hghost, hq, rfl⟩ := mem_ownerRow.mp hrow
    have hmem : ((f, r.ghostRow f p + i), b) ∈
        cells ((rowPlan r (fun _ => fs) s gs ss).recvSlots p q) := by
      rw [row_recv h]
      refine List.mem_flatMap.mpr ⟨(f, ghost, i), mem_exchanged.mpr ⟨hf, hghost, hq⟩,
        List.mem_map.mpr ⟨b, List.mem_range'_1.mpr ⟨Nat.zero_le _, ?_⟩, rfl⟩⟩
      rw [(hsizes f hf).size hghost hq, Nat.zero_add]
      exact hb
    refine ((hspec p).2 q _ hmem).trans ?_
    simp [ownerRow_eq hghost hq]

include hr in
theorem launchSparse_some {s : Fin n → Context} (h : Maps r s)
    (hwf : ∀ p f k, ((s p).rows (f, k)).WellFormed (r.entry_size f))
    {fs : List ℕ} (hsizes : ∀ f ∈ fs, SizesAgree r s f)
    (hfit : ∀ p q : Fin n, (recvBytes r fs (s p) q).isSome) :
    ∃ s', launchSparseExchange r (fun _ => fs) s = some s' := by
  choose gs hgs using fun p q => Option.isSome_iff_exists.mp (hfit p q)
  have hss (p q : Fin n) : sendBytes r fs p (s p) q = some (gs q p) := by
    rw [← h.bytes_eq hr hsizes q p, hgs]
  obtain ⟨data, hex, -⟩ := (rowPlan_matched hr h hwf hsizes hgs hss).exchange_eq
  simp only [launchSparseExchange, hgs, hss, allRanks_some, Option.bind_eq_bind, Option.bind_some,
    hex]
  exact ⟨_, rfl⟩

end

end

end Flecsi.Execution.Sparse
