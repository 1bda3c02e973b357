import Flecsi.Coloring.MpiCommunicator
import Flecsi.Supplemental.Holdings
import Flecsi.Topology.ClosureUtils

/-!
# The coloring of the cells

The cell part of `add_colorings`. A rank has its primary cells, the nearest neighbors of these and
the next nearest ones. It asks the other ranks for its neighbors; they tell it where these are and
learn by it which of their own cells are shared.
-/

namespace Flecsi.Supplemental

open Coloring Coloring.MpiCommunicator Execution SetPositions Flecsi.Topology

-- ---------------------------------------------------------------------------
-- Neighbors
-- ---------------------------------------------------------------------------

theorem isSome_entityNeighborsSet (dim thru_dim : ℕ) (md : MeshDefinition) (indices : List ℕ) :
    (entityNeighborsSet dim dim thru_dim md indices).isSome := by
  simp [entityNeighborsSet, guard]

section
variable (md : MeshDefinition) (dimension : ℕ)

/-- `entity_neighbors` through a vertex. -/
def neighborhood (indices : Finset ℕ) : Finset ℕ :=
  (entityNeighborsSet dimension dimension 0 md indices.sort).get (isSome_entityNeighborsSet ..)

def nearest_neighbors (primary : Finset ℕ) : Finset ℕ := neighborhood md dimension primary \ primary

def next_nearest_neighbors (primary : Finset ℕ) : Finset ℕ :=
  neighborhood md dimension (nearest_neighbors md dimension primary) \ neighborhood md dimension primary

def all_neighbors (primary : Finset ℕ) : Finset ℕ :=
  nearest_neighbors md dimension primary ∪ next_nearest_neighbors md dimension primary

end

-- ---------------------------------------------------------------------------
-- Exclusive, shared and ghost cells
-- ---------------------------------------------------------------------------

/-- One pass of the loop over the primary cells, with the ranks that access the cell. -/
def colorCell (rank : ℕ) (primary_indices : List ℕ) (s : (IndexColoring × ColoringInfo) × ℕ) (i : Finset ℕ) :
    (IndexColoring × ColoringInfo) × ℕ :=
  let ((cells, cell_color_info), offset) := s
  let entity := entityInfo (primary_indices.getD offset 0) rank offset i
  if i.card ≠ 0 then
    (({ cells with shared := cells.shared ++ [entity] },
      { cell_color_info with sharedUsers := cell_color_info.sharedUsers ∪ i }), offset + 1)
  else (({ cells with exclusive := cells.exclusive ++ [entity] }, cell_color_info), offset + 1)

/-- The end of both colorings: the lists without duplicates, and their lengths. -/
def finishColoring (c : IndexColoring) (shared_users ghost_owners : Finset ℕ) : IndexColoring × ColoringInfo :=
  let exclusive := removeUniqueEntities c.exclusive
  let shared := removeUniqueEntities c.shared
  let ghost := removeUniqueEntities c.ghost
  (⟨exclusive, shared, ghost⟩, ⟨exclusive.length, shared.length, ghost.length, shared_users, ghost_owners⟩)

section
variable (md : MeshDefinition) (dimension : ℕ) (primary : Fin n → Finset ℕ) (rank : Fin n)

def cell_nn_info : List (Finset ℕ) × EntitySet :=
  get_primary_info primary (fun p => nearest_neighbors md dimension (primary p)) rank

/-- The loop over the primary cells. -/
def colorPrimary : IndexColoring × ColoringInfo :=
  ((cell_nn_info md dimension primary rank).1.foldl (colorCell rank (primary rank).sort)
    ((noColoring, noColoringInfo), 0)).1

/-- `cells` and `cell_color_info`, of all ranks. -/
def colorCells : IndexColoring × ColoringInfo :=
  let s := colorPrimary md dimension primary rank
  let remote := (cell_nn_info md dimension primary rank).2.elems
  finishColoring { s.1 with ghost := remote } s.2.sharedUsers
    (remote.foldl (fun ghost_owners i => insert i.rank ghost_owners) ∅)

end

/-- Cells with distinct vertices, each of which one rank has for its own. Offsets are stored as
`uint32_t` and ranks as `int`. -/
structure CellPartition (md : MeshDefinition) (dimension : ℕ) (primary : Fin n → Finset ℕ) : Prop where
  nodup : ∀ c < md.num_entities dimension, (md.entities dimension 0 c).Nodup
  valid : ∀ p, ∀ c ∈ primary p, c < md.num_entities dimension
  disjoint : ∀ p q c, c ∈ primary p → c ∈ primary q → p = q
  covered : ∀ c < md.num_entities dimension, ∃ p, c ∈ primary p
  cells : md.num_entities dimension ≤ 2 ^ 32
  ranks : n < 2 ^ 31

-- ---------------------------------------------------------------------------
-- The neighbors of a partition
-- ---------------------------------------------------------------------------

/-- Two cells with a common vertex. -/
def Adjacent (md : MeshDefinition) (dimension c c' : ℕ) : Prop :=
  ∃ v ∈ md.entities dimension 0 c, v ∈ md.entities dimension 0 c'

theorem Adjacent.symm (h : Adjacent md dimension c c') : Adjacent md dimension c' c := by
  obtain ⟨v, hv, hv'⟩ := h
  exact ⟨v, hv', hv⟩

section
variable {md : MeshDefinition} {dimension : ℕ}
  (hnodup : ∀ c < md.num_entities dimension, (md.entities dimension 0 c).Nodup)
include hnodup

theorem mem_neighborhood {indices : Finset ℕ} (hindices : ∀ i ∈ indices, i < md.num_entities dimension) :
    c ∈ neighborhood md dimension indices ↔
      c ∈ indices ∨ c < md.num_entities dimension ∧ ∃ i ∈ indices, Adjacent md dimension i c := by
  have hsort : ∀ i ∈ indices.sort, i < md.num_entities dimension := fun i hi =>
    hindices i ((indices.mem_sort _).mp hi)
  have hget := entityNeighborsSet_eq hnodup 0 hsort
  rw [neighborhood, Option.get_of_eq_some _ hget]
  simp only [Finset.sort_toFinset, Finset.mem_union, Finset.mem_biUnion, mem_entityNeighbors, Finset.card_pos]
  constructor
  · rintro (hc | ⟨i, hi, hc, -, v, hv⟩)
    · exact .inl hc
    · refine .inr ⟨hc, i, hi, v, ?_⟩
      simpa [MeshDefinition.entities_set] using hv
  · rintro (hc | ⟨hc, i, hi, v, hv, hv'⟩)
    · exact .inl hc
    · by_cases hci : c = i
      · exact .inl (hci ▸ hi)
      · refine .inr ⟨i, hi, hc, fun h => hci h.2, v, ?_⟩
        simp [MeshDefinition.entities_set, hv, hv']

end

section
variable {md : MeshDefinition} {dimension : ℕ} {primary : Fin n → Finset ℕ} (h : CellPartition md dimension primary)
include h

theorem CellPartition.mem_closure : c ∈ neighborhood md dimension (primary p) ↔
    c < md.num_entities dimension ∧ (c ∈ primary p ∨ ∃ i ∈ primary p, Adjacent md dimension i c) := by
  rw [mem_neighborhood h.nodup (h.valid p)]
  constructor
  · rintro (hc | ⟨hc, hadj⟩)
    · exact ⟨h.valid p c hc, .inl hc⟩
    · exact ⟨hc, .inr hadj⟩
  · rintro ⟨hc, hp | hadj⟩
    · exact .inl hp
    · exact .inr ⟨hc, hadj⟩

theorem CellPartition.nearest_valid (p : Fin n) (hc : c ∈ nearest_neighbors md dimension (primary p)) :
    c < md.num_entities dimension := (h.mem_closure.mp (Finset.mem_sdiff.mp hc).1).1

theorem CellPartition.max_notMem {s : Finset ℕ} (hs : ∀ c ∈ s, c < md.num_entities dimension) : sizeMax ∉ s := by
  intro hmem
  have hlt := (hs _ hmem).trans_le h.cells
  unfold sizeMax at hlt
  omega

theorem CellPartition.card_le (p : Fin n) : (primary p).card ≤ 2 ^ 32 := by
  have hsubset : primary p ⊆ Finset.range (md.num_entities dimension) := fun c hc =>
    Finset.mem_range.mpr (h.valid p c hc)
  exact (Finset.card_le_card hsubset).trans ((Finset.card_range _).trans_le h.cells)

theorem CellPartition.answered (request : Fin n → Finset ℕ) :
    Answered primary request (get_primary_info primary request) :=
  get_primary_info_answered h.ranks (fun p => h.max_notMem (h.valid p)) h.card_le h.disjoint

/-- The cells, held with their nearest neighbors. -/
def cellHoldings : Holdings n where
  owned := primary
  held p := neighborhood md dimension (primary p)
  owned_subset p c hc := h.mem_closure.mpr ⟨h.valid p c hc, .inl hc⟩
  disjoint := h.disjoint
  covered _ c hc := h.covered c (h.mem_closure.mp hc).1

end

-- ---------------------------------------------------------------------------
-- The loops
-- ---------------------------------------------------------------------------

section
variable (rank : ℕ) (ids : List ℕ)

/-- What the loop over the primary cells adds, from the offset it starts with. -/
theorem foldl_colorCell (l : List (Finset ℕ)) (s : IndexColoring × ColoringInfo) (offset : ℕ) :
    (∀ e, e ∈ (l.foldl (colorCell rank ids) (s, offset)).1.1.exclusive ↔ e ∈ s.1.exclusive ∨
      ∃ k, l[k]? = some ∅ ∧ e = entityInfo (ids.getD (offset + k) 0) rank (offset + k) ∅) ∧
    (∀ e, e ∈ (l.foldl (colorCell rank ids) (s, offset)).1.1.shared ↔ e ∈ s.1.shared ∨
      ∃ k i, l[k]? = some i ∧ i ≠ ∅ ∧ e = entityInfo (ids.getD (offset + k) 0) rank (offset + k) i) ∧
    (∀ r, r ∈ (l.foldl (colorCell rank ids) (s, offset)).1.2.sharedUsers ↔
      r ∈ s.2.sharedUsers ∨ ∃ i ∈ l, r ∈ i) := by
  induction l generalizing s offset with
  | nil => simp
  | cons i l ih =>
    have hsplit : ∀ q : ℕ → Finset ℕ → Prop, (∃ k j, (i :: l)[k]? = some j ∧ q k j) ↔
        q 0 i ∨ ∃ k j, l[k]? = some j ∧ q (k + 1) j := by
      intro q
      constructor
      · rintro ⟨k, j, hj, hq⟩
        cases k with
        | zero => exact .inl (Option.some.inj hj ▸ hq)
        | succ k => exact .inr ⟨k, j, hj, hq⟩
      · rintro (hq | ⟨k, j, hj, hq⟩)
        · exact ⟨0, i, rfl, hq⟩
        · exact ⟨k + 1, j, hj, hq⟩
    have hsplit' : ∀ q : ℕ → Prop, (∃ k, (i :: l)[k]? = some ∅ ∧ q k) ↔
        i = ∅ ∧ q 0 ∨ ∃ k, l[k]? = some ∅ ∧ q (k + 1) := by
      intro q
      constructor
      · rintro ⟨k, hj, hq⟩
        cases k with
        | zero => exact .inl ⟨Option.some.inj hj, hq⟩
        | succ k => exact .inr ⟨k, hj, hq⟩
      · rintro (⟨rfl, hq⟩ | ⟨k, hj, hq⟩)
        · exact ⟨0, rfl, hq⟩
        · exact ⟨k + 1, hj, hq⟩
    obtain ⟨hexclusive, hshared, husers⟩ := ih (colorCell rank ids (s, offset) i).1 (offset + 1)
    have hnext : colorCell rank ids (s, offset) i = ((colorCell rank ids (s, offset) i).1, offset + 1) := by
      unfold colorCell
      dsimp only
      split_ifs <;> rfl
    rw [List.foldl_cons, hnext]
    refine ⟨fun e => ?_, fun e => ?_, fun r => ?_⟩
    · rw [hexclusive, hsplit']
      by_cases hi : i = ∅
      · simp [colorCell, hi, or_assoc, Nat.add_assoc, Nat.add_comm 1]
      · simp [colorCell, hi, Nat.add_assoc, Nat.add_comm 1]
    · rw [hshared, hsplit]
      by_cases hi : i = ∅
      · simp [colorCell, hi, Nat.add_assoc, Nat.add_comm 1]
      · simp [colorCell, hi, or_assoc, Nat.add_assoc, Nat.add_comm 1]
    · rw [husers]
      by_cases hi : i = ∅
      · simp [colorCell, hi]
      · simp [colorCell, hi, or_assoc]

end

/-- The counts of a coloring and the ranks it depends on. -/
structure Summarizes (c : IndexColoring) (info : ColoringInfo) : Prop where
  exclusive : info.exclusive = c.exclusive.length
  shared : info.shared = c.shared.length
  ghost : info.ghost = c.ghost.length
  sharedUsers : ∀ r, r ∈ info.sharedUsers ↔ ∃ e ∈ c.shared, r ∈ e.shared
  ghostOwners : ∀ r, r ∈ info.ghostOwners ↔ ∃ e ∈ c.ghost, e.rank = r

-- ---------------------------------------------------------------------------
-- The coloring
-- ---------------------------------------------------------------------------

section
variable {md : MeshDefinition} {dimension : ℕ} {primary : Fin n → Finset ℕ} (h : CellPartition md dimension primary)

/-- What is stored of an entry fits. -/
theorem Holdings.entityInfo_entry {k : Holdings n} (hn : n < 2 ^ 31) (hcard : (k.owned p).card ≤ 2 ^ 32)
    (hx : x ∈ k.owned p) : entityInfo x p (position (k.owned p) x) (k.users p x) = k.entry p x := by
  have hlt := (position_lt hx).trans_le hcard
  have husers : (k.users p x).image toIndices = (k.users p x).image fun r => r := by
    refine Finset.image_congr fun r hr => ?_
    obtain ⟨q, -, -, rfl⟩ := mem_users.mp (Finset.mem_coe.mp hr)
    exact toIndices_of_lt (by omega)
  rw [entityInfo, toIndices_of_lt (by omega), toIndices_of_lt hlt, husers, Finset.image_id', Holdings.entry]

/-- The ranks that ask for a cell are those that hold it. -/
theorem CellPartition.asked_eq (p : Fin n) :
    (cell_nn_info md dimension primary p).1 =
      (primary p).sort.map ((cellHoldings h).users p) := by
  have hanswered : Answered primary (fun p => nearest_neighbors md dimension (primary p))
    (cell_nn_info md dimension primary) := h.answered _
  refine List.ext_getElem (by simp [hanswered.length]) fun k hk hk' => ?_
  rw [List.length_map] at hk'
  have hx : (primary p).sort[k] ∈ primary p := ((primary p).mem_sort _).mp (List.getElem_mem hk')
  have hpos : position (primary p) (primary p).sort[k] = k := position_of_getElem? (List.getElem?_eq_getElem hk')
  ext r
  have hasked := hanswered.asked p _ hx r
  rw [hpos, List.getD_eq_getElem _ _ hk] at hasked
  rw [hasked, List.getElem_map, Holdings.mem_users]
  refine exists_congr fun q => and_congr_right fun hq => and_congr_left fun _ => ?_
  refine Finset.mem_sdiff.trans (and_iff_left ?_)
  exact fun hmem => hq (h.disjoint q p _ hmem hx)

/-- The cells of a rank and their places in the answers. -/
theorem CellPartition.exists_asked (p : Fin n) (q : ℕ → Finset ℕ → Prop) :
    (∃ k i, ((primary p).sort.map ((cellHoldings h).users p))[k]? = some i ∧ q k i) ↔
      ∃ x ∈ primary p, q (position (primary p) x) ((cellHoldings h).users p x) := by
  constructor
  · rintro ⟨k, i, hi, hq⟩
    obtain ⟨x, hx, rfl⟩ := Option.map_eq_some_iff.mp (List.getElem?_map ▸ hi)
    refine ⟨x, ((primary p).mem_sort _).mp (List.mem_of_getElem? hx), ?_⟩
    rwa [position_of_getElem? hx]
  · rintro ⟨x, hx, hq⟩
    refine ⟨position (primary p) x, _, ?_, hq⟩
    rw [List.getElem?_map, getElem?_position hx]
    rfl

theorem CellPartition.entity_eq (hx : x ∈ primary p) :
    entityInfo ((primary p).sort.getD (0 + position (primary p) x) 0) p (0 + position (primary p) x)
      ((cellHoldings h).users p x) = (cellHoldings h).entry p x := by
  rw [Nat.zero_add, List.getD_eq_getElem?_getD, getElem?_position hx]
  exact Holdings.entityInfo_entry (k := cellHoldings h) h.ranks (h.card_le p) hx

/-- The cell coloring on all ranks is that of the cells with their nearest neighbors. -/
theorem CellPartition.colors : (cellHoldings h).Colors {0} fun p => (colorCells md dimension primary p).1 := by
  refine @Holdings.colors_removeUnique _ (cellHoldings h) {0} (fun p => ⟨(colorPrimary md dimension primary p).1.exclusive,
    (colorPrimary md dimension primary p).1.shared, (cell_nn_info md dimension primary p).2.elems⟩)
    (fun p e => ?_) (fun p e => ?_) fun p e => ?_
  · refine ((foldl_colorCell ..).1 e).trans ?_
    rw [h.asked_eq p, or_iff_right (by simp [noColoring])]
    have hsplit := h.exists_asked p fun k i => i = ∅ ∧ e = entityInfo ((primary p).sort.getD (0 + k) 0) p (0 + k) i
    constructor
    · rintro ⟨k, hk, rfl⟩
      obtain ⟨x, hx, hnone, he⟩ := hsplit.mp ⟨k, ∅, hk, rfl, rfl⟩
      exact ⟨x, hx, hnone, he.trans (h.entity_eq hx)⟩
    · rintro ⟨x, hx, hnone, rfl⟩
      obtain ⟨k, i, hk, rfl, he⟩ := hsplit.mpr ⟨x, hx, hnone, (h.entity_eq hx).symm⟩
      exact ⟨k, hk, he⟩
  · refine ((foldl_colorCell ..).2.1 e).trans ?_
    rw [h.asked_eq p, or_iff_right (by simp [noColoring])]
    refine (h.exists_asked p fun k i => i ≠ ∅ ∧
      e = entityInfo ((primary p).sort.getD (0 + k) 0) p (0 + k) i).trans ?_
    refine exists_congr fun x => and_congr_right fun hx => and_congr_right fun _ => ?_
    rw [h.entity_eq hx]
  · refine ((h.answered _).remote p e).trans ?_
    refine exists_congr fun q => and_congr_right fun hq => exists_congr fun x => ?_
    rw [nearest_neighbors, Finset.mem_sdiff, and_assoc]
    refine and_congr_right fun _ => and_iff_right_of_imp fun hx hp => ?_
    exact hq (h.disjoint q p x hx.1 hp)

include h

theorem CellPartition.summarizes (p : Fin n) :
    Summarizes (colorCells md dimension primary p).1 (colorCells md dimension primary p).2 := by
  refine ⟨rfl, rfl, rfl, fun r => ?_, fun r => ?_⟩
  · refine ((foldl_colorCell ..).2.2 r).trans ?_
    rw [h.asked_eq p, or_iff_right (by simp [noColoringInfo])]
    constructor
    · rintro ⟨i, hi, hr⟩
      obtain ⟨x, hx, rfl⟩ := List.mem_map.mp hi
      have hx' := ((primary p).mem_sort _).mp hx
      exact ⟨_, (h.colors.shared p _).mpr ⟨x, hx', Finset.ne_empty_of_mem hr, rfl⟩, hr⟩
    · rintro ⟨e, he, hr⟩
      obtain ⟨x, hx, -, rfl⟩ := (h.colors.shared p e).mp he
      exact ⟨_, List.mem_map.mpr ⟨x, ((primary p).mem_sort _).mpr hx, rfl⟩, hr⟩
  · refine (SetLoops.mem_foldl_insert EntityInfo.rank _ _ r).trans ?_
    simp only [Finset.notMem_empty, false_or]
    refine exists_congr fun e => and_congr Holdings.mem_removeUniqueEntities.symm eq_comm

theorem CellPartition.dual : DualColoring fun p => (colorCells md dimension primary p).1 :=
  h.colors.dual (by have := h.ranks; omega) h.card_le (by simp)

end

/-- The cell colorings of all ranks are dual: they list what the ranks own and hold, the runtime can
be given them, and two ranks agree on who sends to whom. -/
theorem color_cells {md : MeshDefinition} {dimension : ℕ} {primary : Fin n → Finset ℕ}
    (h : CellPartition md dimension primary) :
    (cellHoldings h).Colors {0} (fun p => (colorCells md dimension primary p).1) ∧
      DualColoring (fun p => (colorCells md dimension primary p).1) ∧
      (∀ p, Summarizes (colorCells md dimension primary p).1 (colorCells md dimension primary p).2) ∧
      ∀ p q : Fin n, (q : ℕ) ∈ (colorCells md dimension primary p).2.sharedUsers ↔
        (p : ℕ) ∈ (colorCells md dimension primary q).2.ghostOwners := by
  refine ⟨h.colors, h.dual, h.summarizes, fun p q => ?_⟩
  rw [(h.summarizes p).sharedUsers, (h.summarizes q).ghostOwners]
  exact h.dual.user_iff_owner p q

/-- A triangle for each of two ranks. -/
def oneEach (p : Fin 2) : Finset ℕ := {p.val}

theorem twoTriangles_partition : CellPartition twoTriangles 2 oneEach where
  nodup := by decide
  valid := by decide
  disjoint p q c hp hq := by
    rw [oneEach, Finset.mem_singleton] at hp hq
    exact Fin.ext (hp.symm.trans hq)
  covered c hc := ⟨⟨c, hc⟩, Finset.mem_singleton_self c⟩
  cells := by decide
  ranks := by decide

theorem color_cells_triangles :
    (cellHoldings twoTriangles_partition).Colors {0} (fun p => (colorCells twoTriangles 2 oneEach p).1) ∧
      DualColoring (fun p => (colorCells twoTriangles 2 oneEach p).1) ∧
      (∀ p, Summarizes (colorCells twoTriangles 2 oneEach p).1 (colorCells twoTriangles 2 oneEach p).2) ∧
      ∀ p q : Fin 2, (q : ℕ) ∈ (colorCells twoTriangles 2 oneEach p).2.sharedUsers ↔
        (p : ℕ) ∈ (colorCells twoTriangles 2 oneEach q).2.ghostOwners :=
  color_cells twoTriangles_partition

end Flecsi.Supplemental
