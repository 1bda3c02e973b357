import Flecsi.Coloring.MakeDcrs

/-!
# Both constructions give the adjacency relation of the mesh

`neighbors` says what the cell graph is, from the list of all cells alone. The
distributed construction gives every rank its rows of it: the manager of a
vertex hears of every cell around it in the first round (`gather`), and every
rank that touches the vertex hears of the manager's list in the second.
-/

namespace Flecsi.Coloring

open PackedBuffer MultiMap Tally SortUnique
open Std (TreeMap)

-- ---------------------------------------------------------------------------
-- The relation
-- ---------------------------------------------------------------------------

/-- The vertices of a cell of the mesh; no cell, no vertices. -/
def cellAt (cells : List (List ℕ)) (c : ℕ) : List ℕ := cells.getD c []

/-- How many vertices two cells share. -/
def connections (cells : List (List ℕ)) (c j : ℕ) : ℕ :=
  ((cellAt cells c).filter (· ∈ cellAt cells j)).length

def neighbors (minConnections : ℕ) (cells : List (List ℕ)) (c : ℕ) : List ℕ :=
  (List.range cells.length).filter fun j => j ≠ c ∧ minConnections ≤ connections cells c j

theorem cellAt_of_lt (h : c < cells.length) : cellAt cells c = cells[c] :=
  List.getD_eq_getElem _ _ h

theorem lt_of_mem_cellAt (h : v ∈ cellAt cells c) : c < cells.length := by
  by_contra hc
  rw [cellAt, List.getD_eq_default _ _ (by omega)] at h
  cases h

theorem mem_neighbors : j ∈ neighbors minConnections cells c ↔
    j < cells.length ∧ j ≠ c ∧ minConnections ≤ connections cells c j := by
  simp [neighbors]

theorem neighbors_pairwise : (neighbors minConnections cells c).Pairwise (· < ·) :=
  List.pairwise_lt_range.filter _

/-- A shared vertex belongs to a cell. -/
theorem lt_of_connections_pos (h : 0 < connections cells c j) : j < cells.length := by
  obtain ⟨v, hv⟩ := List.exists_mem_of_length_pos h
  exact lt_of_mem_cellAt (of_decide_eq_true (List.mem_filter.mp hv).2)

theorem connections_comm (hnodup : ∀ cell ∈ cells, cell.Nodup) (c j : ℕ) :
    connections cells c j = connections cells j c := by
  have hat : ∀ c, (cellAt cells c).Nodup := fun c => by
    by_cases hc : c < cells.length
    · rw [cellAt_of_lt hc]
      exact hnodup _ (List.getElem_mem hc)
    · rw [cellAt, List.getD_eq_default _ _ (by omega)]
      exact List.nodup_nil
  refine List.Perm.length_eq ((List.perm_ext_iff_of_nodup ((hat c).filter _) ((hat j).filter _)).mpr
    fun v => ?_)
  simp [and_comm]

/-- A row read off counters that count the shared vertices. -/
theorem atLeast_eq_neighbors {t : Counts} (hmin : 0 < minConnections)
    (ht : ∀ j, t.getD j 0 = if j = c then 0 else connections cells c j) :
    atLeast minConnections t = neighbors minConnections cells c := by
  refine eq_of_pairwise_lt id (atLeast_pairwise _ _) neighbors_pairwise fun j => ?_
  rw [mem_atLeast hmin, mem_neighbors, ht]
  constructor
  · intro h
    split at h
    · omega
    · exact ⟨lt_of_connections_pos (hmin.trans_le h), ‹_›, h⟩
  · rintro ⟨-, hne, h⟩
    rwa [if_neg hne]

-- ---------------------------------------------------------------------------
-- The mesh as a whole
-- ---------------------------------------------------------------------------

/-- All cells of a rank, by their global vertices. -/
def MeshPart.cells (md : MeshPart) : List (List ℕ) :=
  (List.range md.cells2vertex.size).map md.cellVertices

/-- All cells of the mesh, in the order of the ranks. -/
def globalCells (md : Fin n → MeshPart) : List (List ℕ) :=
  (List.ofFn fun p => (md p).cells).flatten

/-- The number of the first cell of each rank. -/
def cellDist (md : Fin n → MeshPart) : List ℕ := (pack fun p => (md p).cells).displs

/-- Vertex numbers are in range, and no cell has a vertex twice. -/
structure ValidMesh (md : Fin n → MeshPart) : Prop where
  inRange : ∀ p, ∀ ic < (md p).cells2vertex.size, ∀ iv ∈ (md p).cells2vertex.row ic,
    iv < (md p).vertexLocalToGlobal.length
  distinct : ∀ p, ∀ ic < (md p).cells2vertex.size, ((md p).cellVertices ic).Nodup

@[simp] theorem MeshPart.length_cells (md : MeshPart) : md.cells.length = md.cells2vertex.size := by
  simp [MeshPart.cells]

theorem cellDist_distribution (md : Fin n → MeshPart) :
    Distribution (cellDist md) n (globalCells md).length :=
  pack_distribution _

theorem cellDist_succ (md : Fin n → MeshPart) (p : Fin n) :
    (cellDist md).getD (p + 1) 0 = (cellDist md).getD p 0 + (md p).cells2vertex.size := by
  rw [cellDist, pack_displs_succ, MeshPart.length_cells]

theorem cellAt_globalCells (md : Fin n → MeshPart) (p : Fin n) (h : ic < (md p).cells2vertex.size) :
    cellAt (globalCells md) ((cellDist md).getD p 0 + ic) = (md p).cellVertices ic := by
  have hget := pack_getElem? (fun p => (md p).cells) p (by simpa using h)
  rw [cellAt, List.getD_eq_getElem?_getD]
  refine (congrArg (Option.getD · []) hget).trans ?_
  simp [MeshPart.cells]

/-- Every cell of the mesh is a cell of some rank. -/
theorem exists_cell (md : Fin n → MeshPart) (h : c < (globalCells md).length) :
    ∃ p : Fin n, ∃ ic < (md p).cells2vertex.size, c = (cellDist md).getD p 0 + ic := by
  obtain ⟨r, hr, ho⟩ := exists_rankOwner (cellDist_distribution md) h
  obtain ⟨-, hl, hu⟩ := (rankOwner_eq_some (cellDist_distribution md)).mp ho
  have hs : (cellDist md).getD (r + 1) 0 = (cellDist md).getD r 0 + (md ⟨r, hr⟩).cells2vertex.size :=
    cellDist_succ md ⟨r, hr⟩
  exact ⟨⟨r, hr⟩, c - (cellDist md).getD r 0, by omega, by simp only; omega⟩

theorem globalCells_nodup {md : Fin n → MeshPart} (hv : ValidMesh md) :
    ∀ cell ∈ globalCells md, cell.Nodup := by
  intro cell hc
  simp only [globalCells, List.mem_flatten, List.mem_ofFn, MeshPart.cells] at hc
  obtain ⟨_, ⟨p, rfl⟩, hc⟩ := hc
  obtain ⟨ic, hic, rfl⟩ := List.mem_map.mp hc
  exact hv.distinct p ic (List.mem_range.mp hic)

-- ---------------------------------------------------------------------------
-- The vertex-to-cell maps
-- ---------------------------------------------------------------------------

/-- Cell `c` of a rank has vertex `v`. -/
def Touches (md : MeshPart) (start v c : ℕ) : Prop :=
  ∃ ic < md.cells2vertex.size, c = start + ic ∧ v ∈ md.cellVertices ic

/-- Some rank has a cell `c` with vertex `v`. -/
theorem exists_touches (md : Fin n → MeshPart) :
    (∃ p : Fin n, Touches (md p) ((cellDist md).getD p 0) v c) ↔ v ∈ cellAt (globalCells md) c := by
  constructor
  · rintro ⟨p, ic, hic, rfl, hv⟩
    rwa [cellAt_globalCells md p hic]
  · intro hv
    obtain ⟨p, ic, hic, rfl⟩ := exists_cell md (lt_of_mem_cellAt hv)
    rw [cellAt_globalCells md p hic] at hv
    exact ⟨p, ic, hic, rfl, hv⟩

theorem vertex2cell_eq (md : MeshPart) (start : ℕ) : vertex2cell md start =
    emplaceAll ∅ ((List.range md.cells2vertex.size).flatMap fun ic =>
      (md.cellVertices ic).map (·, start + ic)) := by
  rw [vertex2cell, emplaceAll, List.foldl_flatMap]
  simp only [List.foldl_map]

theorem mem_find_vertex2cell : c ∈ find (vertex2cell md start) v ↔ Touches md start v c := by
  rw [vertex2cell_eq, mem_find_emplaceAll, find_empty]
  simp only [List.not_mem_nil, false_or, List.mem_flatMap, List.mem_range, List.mem_map,
    Prod.mk.injEq, Touches]
  constructor
  · rintro ⟨ic, hic, w, hw, rfl, rfl⟩
    exact ⟨ic, hic, rfl, hw⟩
  · rintro ⟨ic, hic, rfl, hv⟩
    exact ⟨ic, hic, v, hv, rfl, rfl⟩

theorem exists_of_mem_vertex2cell (h : v ∈ vertex2cell md start) : ∃ c, Touches md start v c := by
  rw [vertex2cell_eq, mem_emplaceAll] at h
  rcases h with h | ⟨c, h⟩
  · simp at h
  · exact ⟨c, mem_find_vertex2cell.mp (by rw [vertex2cell_eq, mem_find_emplaceAll]; exact .inr h)⟩

theorem find_removeDuplicates (m : VertexCells) (v : ℕ) :
    find (removeDuplicates m) v = removeUnique (find m v) :=
  find_map rfl v

theorem mem_find_removeDuplicates {m : VertexCells} :
    c ∈ find (removeDuplicates m) v ↔ c ∈ find m v := by
  rw [find_removeDuplicates, removeUnique, mem_sortUnique]

theorem mem_removeDuplicates {m : VertexCells} : v ∈ removeDuplicates m ↔ v ∈ m :=
  TreeMap.mem_map

-- ---------------------------------------------------------------------------
-- One round
-- ---------------------------------------------------------------------------

/-- What one vertex record from rank `r` changes. -/
def addRecord (r : ℕ) (s : VertexCells × VertexCells) (vs : ℕ × List ℕ) :
    VertexCells × VertexCells :=
  (emplaceAll s.1 (vs.2.map (vs.1, ·)), emplaceBack s.2 vs.1 r)

theorem readCells_eq {buf cells : List ℕ} {i stop : ℕ} (hbuf : cells <+: buf.drop i)
    (hstop : i + cells.length ≤ stop) (m : VertexCells) :
    readCells buf stop v cells.length i m =
      some (i + cells.length, emplaceAll m (cells.map (v, ·))) := by
  induction cells generalizing i m with
  | nil => rfl
  | cons c cells ih =>
    simp only [List.length_cons] at hstop
    obtain ⟨hc, hrest⟩ := drop_prefix_cons hbuf
    have hi : i < stop := by omega
    rw [List.length_cons, readCells, hc]
    simp only [guard, hi, ↓reduceIte, Option.pure_def, Option.bind_eq_bind, Option.bind_some]
    rw [ih hrest (by omega), Nat.add_right_comm, Nat.add_assoc]
    rfl

theorem readVertex_reads (buf : List ℕ) (r stop : ℕ) (vs : ℕ × List ℕ) :
    Reads buf stop vertexRecord (addRecord r) (readVertex buf r stop) vs := by
  intro i s hbuf hstop
  obtain ⟨v, cells⟩ := vs
  simp only [vertexRecord, List.length_cons] at hbuf hstop ⊢
  obtain ⟨hv, hbuf⟩ := drop_prefix_cons hbuf
  obtain ⟨hn, hbuf⟩ := drop_prefix_cons hbuf
  have hi : i + 1 < stop := by omega
  rw [readVertex, hv, hn]
  simp only [guard, hi, ↓reduceIte, Option.pure_def, Option.bind_eq_bind, Option.bind_some]
  rw [readCells_eq hbuf (by omega)]
  simp only [Option.bind_some, addRecord, Option.some.injEq, Prod.mk.injEq, and_true]
  omega

/-- The records of all ranks merged in. -/
theorem foldl_addRecord (recs : List (ℕ × ℕ × List ℕ)) (s : VertexCells × VertexCells) :
    recs.foldl (fun s x => addRecord x.1 s x.2) s =
      (emplaceAll s.1 (recs.flatMap fun x => x.2.2.map (x.2.1, ·)),
        emplaceAll s.2 (recs.map fun x => (x.2.1, x.1))) := by
  induction recs generalizing s with
  | nil => rfl
  | cons x recs ih =>
    rw [List.foldl_cons, ih]
    simp [addRecord, emplaceAll]

/-- A round of vertex records: what every rank has after it read those sent
to it. -/
theorem vertexRound (items : Fin n → List (ℕ × ℕ × List ℕ)) (hd : ∀ r, ∀ it ∈ items r, it.1 < n)
    (s : Fin n → VertexCells × VertexCells) :
    ∃ recv read, exchange (fun p => packVertices n (items p)) = some recv ∧
      allRanks (fun p => readSegments n (readVertex (recv p).buf) (recv p).displs (s p)) =
        some read ∧
      ∀ p : Fin n,
        (∀ v c, c ∈ find (read p).1 v ↔ c ∈ find (s p).1 v ∨
          ∃ r, ∃ cells, ((p : ℕ), v, cells) ∈ items r ∧ c ∈ cells) ∧
        (∀ v k, k ∈ find (read p).2 v ↔ k ∈ find (s p).2 v ∨
          ∃ r : Fin n, k = r ∧ ∃ cells, ((p : ℕ), v, cells) ∈ items r) := by
  refine ⟨_, _, exchange_items vertexRecord (fun vs => 2 + vs.2.length)
    (fun vs => by simp [vertexRecord]; omega) hd,
    allRanks_eq_some.mpr fun p => readSegments_eq _ (fun r vs _ stop => readVertex_reads _ _ _ _)
      (fun _ _ _ => by simp [vertexRecord]), fun p => ⟨fun v c => ?_, fun v k => ?_⟩⟩
  · rw [foldl_addRecord, mem_find_emplaceAll]
    refine or_congr_right ?_
    simp only [List.mem_flatMap, mem_allRecords, mem_itemsFor, List.mem_map, Prod.mk.injEq]
    constructor
    · rintro ⟨⟨_, w, cells⟩, ⟨r, -, h⟩, _, hc, rfl, rfl⟩
      exact ⟨r, cells, h, hc⟩
    · rintro ⟨r, cells, h, hc⟩
      exact ⟨(r, v, cells), ⟨r, rfl, h⟩, c, hc, rfl, rfl⟩
  · rw [foldl_addRecord, mem_find_emplaceAll]
    refine or_congr_right ?_
    simp only [List.mem_map, mem_allRecords, mem_itemsFor, Prod.mk.injEq]
    constructor
    · rintro ⟨⟨_, w, cells⟩, ⟨r, rfl, h⟩, rfl, rfl⟩
      exact ⟨r, rfl, cells, h⟩
    · rintro ⟨r, rfl, cells, h⟩
      exact ⟨(r, v, cells), ⟨r, rfl, h⟩, rfl, rfl⟩

-- ---------------------------------------------------------------------------
-- Both rounds
-- ---------------------------------------------------------------------------

theorem managedElsewhere_eq {m : VertexCells} (h : ∀ v ∈ m, ∃ q, rankOwner d v = some q) :
    ∃ items, managedElsewhere p d m = some items ∧ ∀ q v cells,
      (q, v, cells) ∈ items ↔ rankOwner d v = some q ∧ q ≠ p ∧ v ∈ m ∧ cells = find m v := by
  refine ⟨(m.toList.map fun vs => ((rankOwner d vs.1).getD 0, vs)).filter (·.1 ≠ p), ?_,
    fun q v cells => ?_⟩
  · rw [managedElsewhere, mapM_some (g := fun vs => ((rankOwner d vs.1).getD 0, vs))]
    · rfl
    · intro vs hvs
      obtain ⟨q, hq⟩ := h vs.1 (mem_toList.mp hvs).1
      rw [hq]
      rfl
  simp only [List.mem_filter, List.mem_map, Prod.mk.injEq, decide_eq_true_eq, mem_toList]
  constructor
  · rintro ⟨⟨_, ⟨hw, hx⟩, hq, rfl⟩, hne⟩
    obtain ⟨q', hq'⟩ := h v hw
    rw [hq'] at hq ⊢
    exact ⟨congrArg some hq, hne, hw, hx⟩
  · rintro ⟨hq, hne, hw, hx⟩
    exact ⟨⟨(v, cells), ⟨hw, hx⟩, by rw [hq]; rfl, rfl⟩, hne⟩

theorem sharedVertices_eq (m ranks : VertexCells) (h : ∀ v q, q ∈ find ranks v → v ∈ m) :
    ∃ items, sharedVertices p m ranks = some items ∧ ∀ q v cells,
      (q, v, cells) ∈ items ↔ q ∈ find ranks v ∧ q ≠ p ∧ cells = find m v := by
  have hmem : ∀ q v, (q, v) ∈ (ranks.toList.flatMap fun vs =>
      (vs.2.filter (· ≠ p)).map fun r => (r, vs.1)) ↔ q ∈ find ranks v ∧ q ≠ p := by
    intro q v
    simp only [List.mem_flatMap, List.mem_map, List.mem_filter, decide_eq_true_eq, Prod.mk.injEq,
      mem_toList]
    constructor
    · rintro ⟨⟨w, xs⟩, ⟨-, hx⟩, r, ⟨hr, hne⟩, rfl, rfl⟩
      exact ⟨hx ▸ hr, hne⟩
    · rintro ⟨hq, hne⟩
      exact ⟨(v, find ranks v), ⟨mem_of_mem_find hq, rfl⟩, q, ⟨hq, hne⟩, rfl, rfl⟩
  refine ⟨_, mapM_some (g := fun rv => (rv.1, rv.2, find m rv.2)) fun rv hrv => ?_,
    fun q v cells => ?_⟩
  · rw [getElem?_of_mem (h rv.2 rv.1 ((hmem _ _).mp hrv).1)]
    rfl
  · rw [List.mem_map]
    constructor
    · rintro ⟨⟨q', w⟩, hqw, hx⟩
      obtain ⟨rfl, rfl, rfl⟩ : q' = q ∧ w = v ∧ find m w = cells := by simpa using hx
      obtain ⟨hq, hne⟩ := (hmem _ _).mp hqw
      exact ⟨hq, hne, rfl⟩
    · rintro ⟨hq, hne, rfl⟩
      exact ⟨(q, v), (hmem q v).mpr ⟨hq, hne⟩, rfl⟩

/-- After both rounds a rank has every cell around the vertices it started
with. `around` is the relation the ranks' maps make up together. -/
theorem completeVertices_eq {m : Fin n → VertexCells} (around : ℕ → ℕ → Prop)
    (hd : Distribution d n total) (hlt : ∀ p, ∀ v ∈ m p, v < total)
    (hkey : ∀ p, ∀ v ∈ m p, ∃ c, c ∈ find (m p) v)
    (haround : ∀ v c, around v c ↔ ∃ p, c ∈ find (m p) v) :
    ∃ out, completeVertices d m = some out ∧
      ∀ p, ∀ v ∈ m p, (find (out p) v).Nodup ∧ ∀ c, c ∈ find (out p) v ↔ around v c := by
  choose items₁ hitems₁ hmem₁ using fun p : Fin n => managedElsewhere_eq (p := p) (d := d) (m := m p)
    fun v hv => (exists_rankOwner hd (hlt p v hv)).imp fun _ h => h.2
  obtain ⟨recv₁, read₁, hrecv₁, hread₁, hspec₁⟩ := vertexRound items₁
    (fun r it hit => ((rankOwner_eq_some hd).mp ((hmem₁ r _ _ _).mp hit).1).1) fun p => (m p, ∅)
  -- nothing but cells around a vertex is ever sent
  have hsound : ∀ p v c, c ∈ find (read₁ p).1 v → around v c := by
    intro p v c hc
    rcases ((hspec₁ p).1 v c).mp hc with hc | ⟨r, cells, hit, hc⟩
    · exact (haround v c).mpr ⟨p, hc⟩
    · obtain ⟨-, -, -, rfl⟩ := (hmem₁ r _ _ _).mp hit
      exact (haround v c).mpr ⟨r, hc⟩
  -- the manager of a vertex has heard of all of them
  have hmanager : ∀ (p : Fin n) v c, rankOwner d v = some ↑p → around v c →
      c ∈ find (read₁ p).1 v := by
    intro p v c ho hc
    obtain ⟨r, hr⟩ := (haround v c).mp hc
    by_cases hrp : r = p
    · exact ((hspec₁ p).1 v c).mpr (.inl (hrp ▸ hr))
    · exact ((hspec₁ p).1 v c).mpr (.inr ⟨r, _, (hmem₁ r _ _ _).mpr
        ⟨ho, fun h => hrp (Fin.ext h.symm), mem_of_mem_find hr, rfl⟩, hr⟩)
  have hranks : ∀ (p : Fin n) v k, k ∈ find (read₁ p).2 v ↔
      ∃ r : Fin n, k = r ∧ rankOwner d v = some ↑p ∧ p ≠ r ∧ v ∈ m r := by
    intro p v k
    rw [(hspec₁ p).2 v k, find_empty]
    simp only [List.not_mem_nil, false_or, hmem₁, ne_eq, Fin.val_inj]
    constructor
    · rintro ⟨r, rfl, _, ho, hne, hv, -⟩
      exact ⟨r, rfl, ho, hne, hv⟩
    · rintro ⟨r, rfl, ho, hne, hv⟩
      exact ⟨r, rfl, _, ho, hne, hv, rfl⟩
  choose items₂ hitems₂ hmem₂ using fun p : Fin n => sharedVertices_eq (p := p)
    (removeDuplicates (read₁ p).1) (read₁ p).2 fun v k hk => by
      obtain ⟨r, -, ho, -, hv⟩ := (hranks p v k).mp hk
      obtain ⟨c, hc⟩ := hkey r v hv
      exact mem_removeDuplicates.mpr (mem_of_mem_find
        (hmanager p v c ho ((haround v c).mpr ⟨r, hc⟩)))
  obtain ⟨recv₂, read₂, hrecv₂, hread₂, hspec₂⟩ := vertexRound items₂
    (fun r it hit => by
      obtain ⟨r', hr', -⟩ := (hranks r _ _).mp ((hmem₂ r _ _ _).mp hit).1
      exact hr' ▸ r'.isLt) fun p => (removeDuplicates (read₁ p).1, (read₁ p).2)
  refine ⟨fun p => removeDuplicates (read₂ p).1, ?_, fun p v hv => ⟨?_, fun c => ?_⟩⟩
  · rw [completeVertices, allRanks_eq_some.mpr hitems₁]
    simp only [Option.bind_eq_bind, Option.bind_some, hrecv₁, hread₁,
      allRanks_eq_some.mpr hitems₂, hrecv₂, hread₂]
  · rw [find_removeDuplicates]
    exact sortUnique_id_nodup
  · rw [mem_find_removeDuplicates, (hspec₂ p).1 v c, mem_find_removeDuplicates]
    constructor
    · rintro (hc | ⟨r, cells, hit, hc⟩)
      · exact hsound p v c hc
      · obtain ⟨-, -, rfl⟩ := (hmem₂ r _ _ _).mp hit
        exact hsound r v c (mem_find_removeDuplicates.mp hc)
    · intro hc
      obtain ⟨k, hk, ho⟩ := exists_rankOwner hd (hlt p v hv)
      by_cases hkp : (⟨k, hk⟩ : Fin n) = p
      · exact .inl (hmanager p v c (by rw [← hkp]; exact ho) hc)
      · exact .inr ⟨⟨k, hk⟩, _, (hmem₂ _ _ _ _).mpr
          ⟨(hranks _ v p).mpr ⟨p, rfl, ho, hkp, hv⟩, fun h => hkp (Fin.ext h.symm), rfl⟩,
          mem_find_removeDuplicates.mpr (hmanager _ v c ho hc)⟩

-- ---------------------------------------------------------------------------
-- The inversion
-- ---------------------------------------------------------------------------

theorem countOthers_eq (cell : ℕ) (t : Counts) (others : List ℕ) (j : ℕ) :
    (countOthers cell t others).getD j 0 = t.getD j 0 + if j = cell then 0 else others.count j := by
  have hfold : countOthers cell t others = tally t (others.filter (· ≠ cell)) := by
    rw [countOthers, tally, List.foldl_filter]
    simp only [decide_eq_true_eq]
  rw [hfold, getD_tally]
  by_cases hj : j = cell
  · rw [if_pos hj, List.count_eq_zero_of_not_mem]
    simp [hj]
  · rw [if_neg hj, List.count_filter (by simpa using hj)]

/-- One of the terms a connection count is the sum of. -/
theorem connections_eq (cells : List (List ℕ)) (c j : ℕ) : connections cells c j =
    ((cellAt cells c).map fun v => if v ∈ cellAt cells j then 1 else 0).sum := by
  rw [connections]
  induction cellAt cells c with
  | nil => rfl
  | cons v vs ih =>
    rw [List.map_cons, List.sum_cons, ← ih]
    by_cases hv : v ∈ cellAt cells j
    · simp [hv, Nat.add_comm]
    · simp [hv]

theorem cellCounts_eq {m : VertexCells} {vertices : List ℕ} (hm : ∀ v ∈ vertices, v ∈ m)
    (cell : ℕ) : ∃ t, cellCounts m cell vertices = some t ∧ ∀ j, t.getD j 0 =
      if j = cell then 0 else (vertices.map fun v => (find m v).count j).sum := by
  have run : ∀ t : Counts, ∃ t', vertices.foldlM (fun counts vertex => do
      let others ← m[vertex]?
      some (countOthers cell counts others)) t = some t' ∧ ∀ j, t'.getD j 0 =
        t.getD j 0 + if j = cell then 0 else (vertices.map fun v => (find m v).count j).sum := by
    induction vertices with
    | nil => exact fun t => ⟨t, rfl, by simp⟩
    | cons v vs ih =>
      intro t
      obtain ⟨t', ht', hsum⟩ := ih (fun w hw => hm w (by simp [hw])) (countOthers cell t (find m v))
      refine ⟨t', ?_, fun j => ?_⟩
      · rw [List.foldlM_cons, getElem?_of_mem (hm v (by simp))]
        exact ht'
      · rw [hsum, countOthers_eq, List.map_cons, List.sum_cons]
        split <;> omega
  obtain ⟨t, ht, hsum⟩ := run ∅
  exact ⟨t, ht, fun j => by simpa using hsum j⟩

/-- The rows of a rank whose map is complete around its own vertices. -/
theorem invertGraph_eq {md : MeshPart} {m : VertexCells} {cells : List (List ℕ)}
    (hmin : 0 < minConnections)
    (hcell : ∀ ic < md.cells2vertex.size, cellAt cells (start + ic) = md.cellVertices ic)
    (hm : ∀ ic < md.cells2vertex.size, ∀ v ∈ md.cellVertices ic,
      (find m v).Nodup ∧ ∀ c, c ∈ find m v ↔ v ∈ cellAt cells c) :
    invertGraph minConnections md start m = some (Crs.ofRows
      ((List.range md.cells2vertex.size).map fun ic => neighbors minConnections cells (start + ic))) := by
  have hrow : ∀ ic < md.cells2vertex.size, ∃ t,
      cellCounts m (start + ic) (md.cellVertices ic) = some t ∧
        atLeast minConnections t = neighbors minConnections cells (start + ic) := by
    intro ic hic
    have hmem : ∀ v ∈ md.cellVertices ic, v ∈ m := fun v hv => mem_of_mem_find
      (((hm ic hic v hv).2 (start + ic)).mpr (by rwa [hcell ic hic]))
    obtain ⟨t, ht, hsum⟩ := cellCounts_eq hmem (start + ic)
    refine ⟨t, ht, atLeast_eq_neighbors hmin fun j => ?_⟩
    rw [hsum, connections_eq, hcell ic hic]
    congr 2
    refine List.map_congr_left fun v hv => ?_
    rw [(hm ic hic v hv).1.count]
    simp only [(hm ic hic v hv).2]
  have run : ∀ k ≤ md.cells2vertex.size, (List.range k).foldlM (fun c ic => do
      let counts ← cellCounts m (start + ic) (md.cellVertices ic)
      some (c.appendRow (c.offsets.getLastD 0) (atLeast minConnections counts))) ⟨[0], []⟩ =
      some (Crs.ofRows ((List.range k).map fun ic => neighbors minConnections cells (start + ic))) := by
    intro k hk
    induction k with
    | zero => rfl
    | succ k ih =>
      obtain ⟨t, ht, hat⟩ := hrow k (by omega)
      rw [List.range_succ, List.foldlM_append, ih (by omega), List.map_append]
      simp only [Option.bind_eq_bind, Option.bind_some, List.foldlM_cons, List.foldlM_nil, ht, hat,
        Option.pure_def, Crs.getLastD_ofRows, Crs.appendRow_ofRows, List.map_cons, List.map_nil]
  exact run _ le_rfl

-- ---------------------------------------------------------------------------
-- The distributed construction
-- ---------------------------------------------------------------------------

theorem vertex_lt {md : Fin n → MeshPart} (hv : ValidMesh md) {p : Fin n}
    (hic : ic < (md p).cells2vertex.size) (h : v ∈ (md p).cellVertices ic) :
    v < mpiAllreduceMax (fun p => (md p).vertexLocalToGlobal.foldl max 0) + 1 := by
  obtain ⟨iv, hiv, rfl⟩ := List.mem_map.mp h
  have hlt := hv.inRange p ic hic iv hiv
  rw [List.getD_eq_getElem _ _ hlt]
  refine Nat.lt_succ_of_le ((le_foldl_max (a := 0) (.inr (List.getElem_mem hlt))).trans ?_)
  exact le_mpiAllreduceMax (fun p => (md p).vertexLocalToGlobal.foldl max 0) p

/-- Every rank gets its rows of the adjacency relation. -/
theorem makeDcrsDistributed_eq {md : Fin n → MeshPart} (hv : ValidMesh md)
    (hmin : 0 < minConnections) : makeDcrsDistributed minConnections md = some fun p =>
      ⟨Crs.ofRows ((List.range (md p).cells2vertex.size).map fun ic =>
        neighbors minConnections (globalCells md) ((cellDist md).getD p 0 + ic)), cellDist md⟩ := by
  have hdist : displs (mpiAllgather fun p => (md p).cells2vertex.size) = cellDist md := by
    simp [mpiAllgather, cellDist, pack]
  let m₀ : Fin n → VertexCells := fun p =>
    removeDuplicates (vertex2cell (md p) ((cellDist md).getD p 0))
  have htouch : ∀ p v c, c ∈ find (m₀ p) v ↔ Touches (md p) ((cellDist md).getD p 0) v c :=
    fun p v c => by rw [mem_find_removeDuplicates, mem_find_vertex2cell]
  obtain ⟨total, hd, hlt⟩ : ∃ total, Distribution (subdivide (mpiAllreduceMax
      (fun p => (md p).vertexLocalToGlobal.foldl max 0) + 1) n) n total ∧
      ∀ p, ∀ v ∈ m₀ p, v < total := by
    obtain rfl | hn := Nat.eq_zero_or_pos n
    · exact ⟨0, ⟨rfl, rfl, by simp, rfl⟩, fun p => p.elim0⟩
    · refine ⟨_, subdivide_distribution _ hn, fun p v hm => ?_⟩
      obtain ⟨c, ic, hic, -, h⟩ := exists_of_mem_vertex2cell (mem_removeDuplicates.mp hm)
      exact vertex_lt hv hic h
  obtain ⟨out, hout, hspec⟩ := completeVertices_eq (m := m₀)
    (fun v c => v ∈ cellAt (globalCells md) c) hd hlt
    (fun p v hm => (exists_of_mem_vertex2cell (mem_removeDuplicates.mp hm)).imp fun c =>
      (htouch p v c).mpr)
    (fun v c => by simp only [htouch, exists_touches])
  rw [makeDcrsDistributed]
  simp only [hdist, m₀] at hout ⊢
  rw [hout]
  have hrows : ∀ p, invertGraph minConnections (md p) ((cellDist md).getD p 0) (out p) = _ :=
    fun p => invertGraph_eq hmin (fun ic hic => cellAt_globalCells md p hic) fun ic hic v h =>
      hspec p v (mem_of_mem_find ((htouch p v _).mpr ⟨ic, hic, rfl, h⟩))
  simp only [Option.bind_eq_bind, Option.bind_some, allRanks_eq_some.mpr hrows]

end Flecsi.Coloring
