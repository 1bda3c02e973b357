import Flecsi.Coloring.Adjacency

/-!
# The serial construction, and the agreement of both

`make_dcrs` visits the cells of the whole mesh in order and connects each to
the earlier ones only, in both directions. The invariant of the loop is
`Connected`: after `k` cells the maps are those of the mesh cut off there.
-/

namespace Flecsi.Coloring

open PackedBuffer MultiMap Tally SortUnique
open Std (TreeMap)

-- ---------------------------------------------------------------------------
-- One cell
-- ---------------------------------------------------------------------------

/-- The vertices of one cell: the cell is added to each, and the cells before
it are counted. -/
theorem serialVertices_eq (k : ℕ) (vertices : List ℕ) (m : VertexCells) (t : Counts) :
    (∀ v j, (find (vertices.foldl (serialVertex k) (m, t)).1 v).count j =
      (find m v).count j + if j = k then vertices.count v else 0) ∧
    ∀ j, (vertices.foldl (serialVertex k) (m, t)).2.getD j 0 =
      t.getD j 0 + if j = k then 0 else (vertices.map fun v => (find m v).count j).sum := by
  induction vertices generalizing m t with
  | nil => simp
  | cons w vs ih =>
    have hw : ∀ v j, (find (emplaceBack m w k) v).count j =
        (find m v).count j + if j = k then if w = v then 1 else 0 else 0 := by
      intro v j
      rw [find_emplaceBack]
      by_cases hv : w = v
      · rw [if_pos hv, List.count_append, List.count_singleton]
        by_cases hj : j = k
        · subst hj
          simp [hv]
        · simp [hj, Ne.symm hj]
      · simp [hv]
    obtain ⟨hm, ht⟩ := ih (emplaceBack m w k) (countOthers k t (find (emplaceBack m w k) w))
    rw [List.foldl_cons, serialVertex]
    constructor
    · intro v j
      rw [hm, hw, List.count_cons]
      split
      · by_cases hv : w = v
        · simp [hv]; omega
        · simp [hv]
      · rfl
    · intro j
      rw [ht, countOthers_eq, List.map_cons, List.sum_cons]
      by_cases hj : j = k
      · simp [hj]
      · simp only [hj, ↓reduceIte, hw, Nat.add_zero, Nat.add_assoc]

/-- Both directions of the connections of one cell. -/
theorem find_connections {sel : List ℕ} (hn : sel.Nodup) (hk : k ∉ sel) (rows : VertexCells) (c : ℕ) :
    find (sel.foldl (fun rows j => emplaceBack (emplaceBack rows k j) j k) rows) c =
      find rows c ++ if c = k then sel else if c ∈ sel then [k] else [] := by
  induction sel generalizing rows with
  | nil => simp
  | cons j sel ih =>
    obtain ⟨hj, hn⟩ := List.nodup_cons.mp hn
    obtain ⟨hjk, hk⟩ := not_or.mp (mt List.mem_cons.mpr hk)
    rw [List.foldl_cons, ih hn hk, find_emplaceBack, find_emplaceBack]
    by_cases hck : c = k
    · subst hck
      simp [Ne.symm hjk]
    · by_cases hcj : c = j
      · subst hcj
        simp [hck, Ne.symm hck, hj]
      · simp [hck, hcj, Ne.symm hck, Ne.symm hcj]

theorem foldl_connect (thru k : ℕ) (counts : List (ℕ × ℕ)) (rows : VertexCells) :
    counts.foldl (connect thru k) rows =
      ((counts.filter fun count => thru + 1 ≤ count.2).map (·.1)).foldl
        (fun rows j => emplaceBack (emplaceBack rows k j) j k) rows := by
  rw [List.foldl_map, List.foldl_filter]
  congr 1
  funext rows count
  simp only [connect, decide_eq_true_eq]
  rfl

-- ---------------------------------------------------------------------------
-- All cells
-- ---------------------------------------------------------------------------

/-- The neighbours among the first `k` cells. -/
def neighborsBelow (minConnections : ℕ) (cells : List (List ℕ)) (k c : ℕ) : List ℕ :=
  (List.range k).filter fun j => j ≠ c ∧ minConnections ≤ connections cells c j

theorem mem_neighborsBelow : j ∈ neighborsBelow minConnections cells k c ↔
    j < k ∧ j ≠ c ∧ minConnections ≤ connections cells c j := by
  simp [neighborsBelow]

theorem neighborsBelow_pairwise : (neighborsBelow minConnections cells k c).Pairwise (· < ·) :=
  List.pairwise_lt_range.filter _

theorem neighborsBelow_succ : neighborsBelow minConnections cells (k + 1) c =
    neighborsBelow minConnections cells k c ++
      if k ≠ c ∧ minConnections ≤ connections cells c k then [k] else [] := by
  rw [neighborsBelow, List.range_succ, List.filter_append, ← neighborsBelow]
  rw [List.filter_singleton]
  by_cases h : k ≠ c ∧ minConnections ≤ connections cells c k
  · rw [if_pos h, decide_eq_true h]
    rfl
  · rw [if_neg h, decide_eq_false h]
    rfl

/-- The maps after the first `k` cells. -/
structure Connected (minConnections : ℕ) (cells : List (List ℕ)) (k : ℕ)
    (s : VertexCells × VertexCells) : Prop where
  around : ∀ v j, (find s.1 v).count j = if j < k ∧ v ∈ cellAt cells j then 1 else 0
  rows : ∀ c, find s.2 c = if c < k then neighborsBelow minConnections cells k c else []

theorem serialCell_connected {cells : List (List ℕ)} (hnodup : ∀ cell ∈ cells, cell.Nodup)
    (hk : k < cells.length) (h : Connected (thru + 1) cells k s) :
    Connected (thru + 1) cells (k + 1) (serialCell thru s (k, cells[k])) := by
  have hat : cellAt cells k = cells[k] := cellAt_of_lt hk
  obtain ⟨hm, ht⟩ := serialVertices_eq k cells[k] s.1 ∅
  -- the counters hold the connections to the earlier cells
  have hcount : ∀ j, (cells[k].foldl (serialVertex k) (s.1, ∅)).2.getD j 0 =
      if j < k then connections cells k j else 0 := by
    intro j
    rw [ht, connections_eq, hat]
    simp only [h.around]
    by_cases hj : j < k
    · simp [hj, hj.ne]
    · simp [hj]
  have hsel : atLeast (thru + 1) (cells[k].foldl (serialVertex k) (s.1, ∅)).2 =
      neighborsBelow (thru + 1) cells k k := by
    refine eq_of_pairwise_lt id (atLeast_pairwise _ _) neighborsBelow_pairwise fun j => ?_
    rw [mem_atLeast (Nat.succ_pos _), hcount, mem_neighborsBelow]
    constructor
    · intro hle
      split at hle
      · exact ⟨‹_›, (‹j < k›).ne, hle⟩
      · omega
    · rintro ⟨hj, -, hle⟩
      rwa [if_pos hj]
  have hnot : ∀ c, k ≤ c → c ∉ neighborsBelow (thru + 1) cells k k := fun c hc hmem =>
    absurd (mem_neighborsBelow.mp hmem).1 (by omega)
  constructor
  · intro v j
    refine (hm v j).trans ?_
    rw [h.around]
    by_cases hj : j = k
    · subst hj
      rw [hat, (hnodup _ (List.getElem_mem hk)).count]
      simp
    · have hlt : j < k + 1 ↔ j < k := by omega
      simp [hj, hlt]
  · intro c
    have hrows : find (serialCell thru s (k, cells[k])).2 c = find s.2 c ++
        if c = k then neighborsBelow (thru + 1) cells k k
        else if c ∈ neighborsBelow (thru + 1) cells k k then [k] else [] := by
      rw [← find_connections (neighborsBelow_pairwise.imp ne_of_lt) (hnot k le_rfl), ← hsel, atLeast,
        ← foldl_connect]
      rfl
    rw [hrows, h.rows, neighborsBelow_succ]
    rcases lt_trichotomy c k with hc | rfl | hc
    · have hmem : c ∈ neighborsBelow (thru + 1) cells k k ↔
          k ≠ c ∧ thru + 1 ≤ connections cells c k := by
        rw [mem_neighborsBelow, connections_comm hnodup k c]
        exact ⟨fun h => ⟨hc.ne', h.2.2⟩, fun h => ⟨hc, hc.ne, h.2⟩⟩
      rw [if_pos hc, if_pos (hc.trans (Nat.lt_succ_self k)), if_neg hc.ne]
      simp only [hmem]
    · simp
    · rw [if_neg hc.le.not_gt, if_neg (show ¬c < k + 1 by omega), if_neg hc.ne',
        if_neg (hnot c hc.le), List.nil_append]

theorem serialCells_connected {cells : List (List ℕ)} (hnodup : ∀ cell ∈ cells, cell.Nodup)
    (thru : ℕ) : Connected (thru + 1) cells cells.length
      (cells.zipIdx.foldl (fun s c => serialCell thru s (c.2, c.1)) (∅, ∅)) := by
  have run : ∀ k ≤ cells.length, Connected (thru + 1) cells k
      ((cells.zipIdx.take k).foldl (fun s c => serialCell thru s (c.2, c.1)) (∅, ∅)) := by
    intro k hk
    induction k with
    | zero => exact ⟨fun v j => by simp [find_empty], fun c => by simp [find_empty]⟩
    | succ k ih =>
      rw [List.take_succ_eq_append_getElem (by simpa using hk), List.foldl_append]
      simp only [List.getElem_zipIdx, Nat.zero_add, List.foldl_cons, List.foldl_nil]
      exact serialCell_connected hnodup hk (ih (by omega))
  have := run cells.length le_rfl
  rwa [List.take_of_length_le (by simp)] at this

/-- The rows of every rank of the serial construction. -/
theorem makeDcrs_eq {cells : List (List ℕ)} (hnodup : ∀ cell ∈ cells, cell.Nodup) (size thru : ℕ)
    (rank : Fin size) : makeDcrs size rank thru cells =
      ⟨Crs.ofRows ((List.range ((subdivide cells.length size).getD (rank + 1) 0 -
        (subdivide cells.length size).getD rank 0)).map fun i =>
          neighbors (thru + 1) cells ((subdivide cells.length size).getD rank 0 + i)),
        subdivide cells.length size⟩ := by
  have hr := rank.isLt
  have hd := subdivide_distribution cells.length (show 0 < size by omega)
  have hget : ∀ r ≤ size, (subdivide cells.length size).getD r 0 =
      r * (cells.length / size) + (r - (size - cells.length % size)) := fun r hr => by
    rw [subdivide_eq, List.getD_eq_getElem _ _ (by simp; omega)]
    simp
  have hinit : (cells.length / size + if (rank : ℕ) ≥ size - cells.length % size then 1 else 0) =
      (subdivide cells.length size).getD (rank + 1) 0 -
        (subdivide cells.length size).getD rank 0 := by
    rw [hget _ hr.le, hget _ hr, Nat.succ_mul]
    generalize cells.length / size = quot
    split <;> omega
  have hrow : ∀ i < (subdivide cells.length size).getD (rank + 1) 0 -
      (subdivide cells.length size).getD rank 0,
      find (cells.zipIdx.foldl (fun s c => serialCell thru s (c.2, c.1)) (∅, ∅)).2
        ((subdivide cells.length size).getD rank 0 + i) =
      neighbors (thru + 1) cells ((subdivide cells.length size).getD rank 0 + i) := by
    intro i hi
    have htot := hd.mono' (i := rank + 1) (j := size) hr le_rfl
    rw [hd.last] at htot
    rw [(serialCells_connected hnodup thru).rows, if_pos (by omega)]
    rfl
  simp only [makeDcrs]
  rw [Crs.foldl_appendRow, hinit]
  have hmap := List.map_congr_left fun i hi => hrow i (List.mem_range.mp hi)
  exact congrArg₂ Dcrs.mk (congrArg Crs.ofRows hmap) rfl

-- ---------------------------------------------------------------------------
-- The agreement
-- ---------------------------------------------------------------------------

/-- The rows of all ranks, one after another. -/
def allRows (out : Fin n → Dcrs) : List (List ℕ) := (List.ofFn fun p => (out p).rows).flatten

/-- Rows of the adjacency relation on every rank's range make up the whole
relation. -/
theorem allRows_eq {cells : List (List ℕ)} (hd : Distribution d n cells.length)
    {out : Fin n → Dcrs} (hout : ∀ p : Fin n, (out p).rows =
      (List.range (d.getD (p + 1) 0 - d.getD p 0)).map fun i =>
        neighbors minConnections cells (d.getD p 0 + i)) :
    allRows out = (List.range cells.length).map (neighbors minConnections cells) := by
  rw [allRows, ← hd.flatten_ranges]
  simp only [hout]

theorem allRows_distributed {md : Fin n → MeshPart} (hv : ValidMesh md) (hmin : 0 < minConnections) :
    ∃ out, makeDcrsDistributed minConnections md = some out ∧
      allRows out = (List.range (globalCells md).length).map
        (neighbors minConnections (globalCells md)) := by
  refine ⟨_, makeDcrsDistributed_eq hv hmin, allRows_eq (cellDist_distribution md) fun p => ?_⟩
  rw [Crs.rows_ofRows, cellDist_succ, Nat.add_sub_cancel_left]

theorem allRows_serial {cells : List (List ℕ)} (hnodup : ∀ cell ∈ cells, cell.Nodup) (hn : 0 < n)
    (thru : ℕ) : allRows (fun rank : Fin n => makeDcrs n rank thru cells) =
      (List.range cells.length).map (neighbors (thru + 1) cells) := by
  refine allRows_eq (subdivide_distribution _ hn) fun rank => ?_
  rw [makeDcrs_eq hnodup, Crs.rows_ofRows]

theorem mem_neighbors_comm {cells : List (List ℕ)} (hnodup : ∀ cell ∈ cells, cell.Nodup)
    (hc : c < cells.length) (hj : j < cells.length) :
    j ∈ neighbors minConnections cells c ↔ c ∈ neighbors minConnections cells j := by
  rw [mem_neighbors, mem_neighbors, connections_comm hnodup c j, ne_comm]
  exact ⟨fun h => ⟨hc, h.2⟩, fun h => ⟨hj, h.2⟩⟩

/-- The distributed graph is the adjacency relation of the mesh: row by row, as
a whole whatever the distribution, in both directions, and as the serial
construction has it. -/
theorem makeDcrsDistributed_adjacency {md : Fin n → MeshPart} (hv : ValidMesh md)
    (hmin : 1 ≤ minConnections) :
    ∃ out, makeDcrsDistributed minConnections md = some out ∧
      (∀ p, (out p).distribution = displs (List.ofFn fun q => (md q).cells2vertex.size) ∧
        (out p).WellFormed ∧ (out p).size = (md p).cells2vertex.size) ∧
      (∀ p : Fin n, ∀ i < (md p).cells2vertex.size,
        ((out p).row i).Pairwise (· < ·) ∧
          ∀ j, j ∈ (out p).row i ↔ j < (globalCells md).length ∧
            j ≠ (out p).distribution.getD p 0 + i ∧
            minConnections ≤
              connections (globalCells md) ((out p).distribution.getD p 0 + i) j) ∧
      (∀ (m : ℕ) (md' : Fin m → MeshPart), ValidMesh md' → globalCells md' = globalCells md →
        ∃ out', makeDcrsDistributed minConnections md' = some out' ∧ allRows out' = allRows out) ∧
      (∀ c < (globalCells md).length, ∀ j < (globalCells md).length,
        (j ∈ (allRows out).getD c [] ↔ c ∈ (allRows out).getD j [])) ∧
      (∀ size thru, 0 < size → minConnections = thru + 1 →
        allRows (fun rank : Fin size => makeDcrs size rank thru (globalCells md)) =
          allRows out) := by
  have hnodup := globalCells_nodup hv
  obtain ⟨out, hout, hall⟩ := allRows_distributed hv hmin
  obtain rfl := Option.some.inj (hout.symm.trans (makeDcrsDistributed_eq hv hmin))
  have hrow : ∀ c < (globalCells md).length, (allRows _).getD c [] = _ := fun c hc => by
    rw [hall, List.getD_eq_getElem _ _ (by simpa using hc), List.getElem_map, List.getElem_range]
  refine ⟨_, hout, fun p => ⟨?_, Crs.wellFormed_ofRows _, ?_⟩, fun p i hi => ?_,
    fun m md' hv' hcells => ?_, fun c hc j hj => ?_, fun size thru hsize hthru => ?_⟩
  · simp [cellDist, pack]
  · rw [Crs.size_ofRows, List.length_map, List.length_range]
  · have hi' : i < ((List.range (md p).cells2vertex.size).map fun ic =>
        neighbors minConnections (globalCells md) ((cellDist md).getD p 0 + ic)).length := by
      simpa using hi
    rw [Crs.row_ofRows hi', List.getElem_map, List.getElem_range]
    exact ⟨neighbors_pairwise, fun j => mem_neighbors⟩
  · obtain ⟨out', hout', hall'⟩ := allRows_distributed hv' hmin
    exact ⟨out', hout', by rw [hall', hcells, hall]⟩
  · rw [hrow c hc, hrow j hj]
    exact mem_neighbors_comm hnodup hc hj
  · rw [hall, allRows_serial hnodup hsize, hthru]

/-- A strip of three triangles, the last one on a rank of its own. -/
def triangles : Fin 2 → MeshPart
  | 0 => ⟨Crs.ofRows [[0, 1, 2], [1, 2, 3]], [0, 1, 2, 3]⟩
  | 1 => ⟨Crs.ofRows [[2, 1, 0]], [4, 3, 2]⟩

/-- The middle triangle and the one on the other rank share an edge. -/
theorem makeDcrsDistributed_triangles :
    ∃ out, makeDcrsDistributed 2 triangles = some out ∧ 2 ∈ (out 0).row 1 ∧ 1 ∈ (out 1).row 0 := by
  have hv : ValidMesh triangles := ⟨by decide, by decide⟩
  obtain ⟨out, hout, hdist, hrows, -⟩ := makeDcrsDistributed_adjacency hv (Nat.le_succ 1)
  refine ⟨out, hout, ((hrows 0 1 (by decide)).2 2).mpr ?_, ((hrows 1 0 (by decide)).2 1).mpr ?_⟩
  · rw [(hdist 0).1]
    decide
  · rw [(hdist 1).1]
    decide

end Flecsi.Coloring
