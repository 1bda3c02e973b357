import Flecsi.Coloring.SerialAdjacency

/-!
# Neighbours and closures

Two entities are neighbours through a dimension when they share more vertices than that. For one
entity this is asked of every other one; for a set, the neighbours of all entities of the mesh are
found in one pass over their vertices.
-/

namespace Flecsi.Topology

open Coloring MultiMap

/-- What is asked of a `mesh_definition_u`. -/
structure MeshDefinition where
  num_entities : ℕ → ℕ
  entities : ℕ → ℕ → ℕ → List ℕ

def MeshDefinition.entities_set (md : MeshDefinition) (from_dimension to_dimension id : ℕ) : Finset ℕ :=
  (md.entities from_dimension to_dimension id).toFinset

/-- `entity_neighbors` of one entity. -/
def entityNeighbors (from_dim to_dim thru_dim : ℕ) (md : MeshDefinition) (entity_id : ℕ) : Finset ℕ :=
  let vertices := md.entities_set from_dim 0 entity_id
  (List.range (md.num_entities to_dim)).foldl (fun neighbors e =>
    if from_dim = to_dim ∧ e = entity_id then neighbors
    else
      let other := md.entities_set to_dim 0 e
      if (vertices ∩ other).card > thru_dim then insert e neighbors else neighbors) ∅

/-- `entity_neighbors` of a set, whose pass over the entities is that of `make_dcrs`. Different
dimensions fail an assertion. -/
def entityNeighborsSet (from_dim to_dim thru_dim : ℕ) (md : MeshDefinition) (indices : List ℕ) :
    Option (Finset ℕ) := do
  guard (from_dim = to_dim)
  let closure := indices.toFinset
  let (_, entity_neighbors) := (List.range (md.num_entities from_dim)).foldl (fun s cell =>
    serialCell thru_dim s (cell, md.entities from_dim 0 cell)) ((∅, ∅) : VertexCells × VertexCells)
  some (indices.foldl (fun closure i =>
    (find entity_neighbors i).foldl (fun closure n => insert n closure) closure) closure)

/-- `entity_referencers`. -/
def entityReferencers (from_dim to_dim : ℕ) (md : MeshDefinition) (id : ℕ) : Finset ℕ :=
  (List.range (md.num_entities from_dim)).foldl (fun referencers e =>
    if id ∈ md.entities from_dim to_dim e then insert e referencers else referencers) ∅

/-- `entity_closure`. -/
def entityClosure (from_dim to_dim : ℕ) (md : MeshDefinition) (indices : List ℕ) : Finset ℕ :=
  indices.foldl (fun closure i =>
    (md.entities from_dim to_dim i).foldl (fun closure v => insert v closure) closure) ∅

-- ---------------------------------------------------------------------------
-- One entity
-- ---------------------------------------------------------------------------

theorem foldl_insert_if [DecidableEq α] (q : α → Prop) [DecidablePred q] (l : List α) (s : Finset α) :
    l.foldl (fun s e => if q e then insert e s else s) s = s ∪ (l.filter q).toFinset := by
  induction l generalizing s with
  | nil => simp
  | cons e l ih =>
    rw [List.foldl_cons, ih]
    by_cases he : q e
    · simp [he]
    · simp [he]

theorem mem_entityNeighbors : e ∈ entityNeighbors from_dim to_dim thru_dim md entity_id ↔
    e < md.num_entities to_dim ∧ ¬(from_dim = to_dim ∧ e = entity_id) ∧
      thru_dim < (md.entities_set from_dim 0 entity_id ∩ md.entities_set to_dim 0 e).card := by
  have hloop : entityNeighbors from_dim to_dim thru_dim md entity_id =
      (List.range (md.num_entities to_dim)).foldl (fun s e =>
        if ¬(from_dim = to_dim ∧ e = entity_id) ∧
          thru_dim < (md.entities_set from_dim 0 entity_id ∩ md.entities_set to_dim 0 e).card
        then insert e s else s) ∅ := by
    unfold entityNeighbors
    dsimp only
    congr 1
    funext s e
    by_cases hself : from_dim = to_dim ∧ e = entity_id
    · simp [hself]
    · simp [hself]
  rw [hloop, foldl_insert_if, Finset.empty_union, List.mem_toFinset, List.mem_filter, List.mem_range,
    decide_eq_true_eq]

-- ---------------------------------------------------------------------------
-- All entities
-- ---------------------------------------------------------------------------

/-- The vertices of all entities of a dimension. -/
def MeshDefinition.cells (md : MeshDefinition) (dim : ℕ) : List (List ℕ) :=
  (List.range (md.num_entities dim)).map (md.entities dim 0)

theorem cellAt_cells (md : MeshDefinition) (h : c < md.num_entities dim) :
    cellAt (md.cells dim) c = md.entities dim 0 c := by
  simp [cellAt, MeshDefinition.cells, h]

/-- Shared vertices, counted in lists without repetitions. -/
theorem connections_cells {md : MeshDefinition} (hnodup : ∀ c < md.num_entities dim, (md.entities dim 0 c).Nodup)
    (hc : c < md.num_entities dim) (hj : j < md.num_entities dim) :
    connections (md.cells dim) c j = (md.entities_set dim 0 c ∩ md.entities_set dim 0 j).card := by
  rw [connections, cellAt_cells md hc, cellAt_cells md hj, ← List.toFinset_card_of_nodup ((hnodup c hc).filter _)]
  congr 1
  ext v
  simp [MeshDefinition.entities_set]

theorem mem_neighbors_cells {md : MeshDefinition}
    (hnodup : ∀ c < md.num_entities dim, (md.entities dim 0 c).Nodup) (hi : i < md.num_entities dim) :
    n ∈ neighbors (thru_dim + 1) (md.cells dim) i ↔ n ∈ entityNeighbors dim dim thru_dim md i := by
  have hlen : (md.cells dim).length = md.num_entities dim := by simp [MeshDefinition.cells]
  rw [mem_neighbors, mem_entityNeighbors, hlen]
  constructor
  · rintro ⟨hn, hne, hconn⟩
    rw [connections_cells hnodup hi hn] at hconn
    exact ⟨hn, fun h => hne h.2, hconn⟩
  · rintro ⟨hn, hne, hshared⟩
    rw [connections_cells hnodup hi hn]
    exact ⟨hn, fun h => hne ⟨rfl, h⟩, hshared⟩

/-- The loop over ids is the loop over the list of cells. -/
theorem foldl_cells (md : MeshDefinition) (dim thru_dim : ℕ) (s : VertexCells × VertexCells) :
    (List.range (md.num_entities dim)).foldl (fun s cell => serialCell thru_dim s (cell, md.entities dim 0 cell)) s =
      (md.cells dim).zipIdx.foldl (fun s c => serialCell thru_dim s (c.2, c.1)) s := by
  have hzip : (md.cells dim).zipIdx = (List.range (md.num_entities dim)).map fun c => (md.entities dim 0 c, c) := by
    refine List.ext_getElem (by simp [MeshDefinition.cells]) fun i _ _ => ?_
    simp [MeshDefinition.cells]
  rw [hzip, List.foldl_map]

theorem mem_foldl_insert [DecidableEq β] (f : α → List β) (l : List α) (s : Finset β) (n : β) :
    n ∈ l.foldl (fun s i => (f i).foldl (fun s n => insert n s) s) s ↔ n ∈ s ∨ ∃ i ∈ l, n ∈ f i := by
  have hrow (xs : List β) (s : Finset β) : n ∈ xs.foldl (fun s n => insert n s) s ↔ n ∈ s ∨ n ∈ xs := by
    induction xs generalizing s with
    | nil => simp
    | cons x xs ih => simp [ih, or_assoc, or_left_comm]
  induction l generalizing s with
  | nil => simp
  | cons i l ih => simp [ih, hrow, or_assoc]

/-- The neighbours of a set are the set itself and the neighbours of its members. -/
theorem entityNeighborsSet_eq {md : MeshDefinition} {dim : ℕ}
    (hnodup : ∀ c < md.num_entities dim, (md.entities dim 0 c).Nodup) (thru_dim : ℕ) {indices : List ℕ}
    (hindices : ∀ i ∈ indices, i < md.num_entities dim) :
    entityNeighborsSet dim dim thru_dim md indices =
      some (indices.toFinset ∪ indices.toFinset.biUnion (entityNeighbors dim dim thru_dim md)) := by
  have hcells : ∀ cell ∈ md.cells dim, cell.Nodup := by
    intro cell hcell
    obtain ⟨c, hc, rfl⟩ := List.mem_map.mp hcell
    exact hnodup c (List.mem_range.mp hc)
  have hlen : (md.cells dim).length = md.num_entities dim := by simp [MeshDefinition.cells]
  have hrows := (serialCells_connected hcells thru_dim).rows
  rw [hlen] at hrows
  unfold entityNeighborsSet
  rw [foldl_cells]
  simp only [guard, if_true, Option.pure_def, Option.bind_eq_bind, Option.bind_some, Option.some_inj]
  ext n
  rw [mem_foldl_insert]
  simp only [Finset.mem_union, Finset.mem_biUnion, List.mem_toFinset]
  refine or_congr_right (exists_congr fun i => and_congr_right fun hi => ?_)
  rw [hrows, if_pos (hindices i hi), ← mem_neighbors_cells hnodup (hindices i hi), neighborsBelow, neighbors, hlen]

-- ---------------------------------------------------------------------------
-- References
-- ---------------------------------------------------------------------------

theorem mem_entityReferencers {id : ℕ} : e ∈ entityReferencers from_dim to_dim md id ↔
    e < md.num_entities from_dim ∧ id ∈ md.entities from_dim to_dim e := by
  rw [entityReferencers, foldl_insert_if]
  simp

theorem mem_entityClosure : v ∈ entityClosure from_dim to_dim md indices ↔
    ∃ i ∈ indices, v ∈ md.entities from_dim to_dim i := by
  rw [entityClosure, mem_foldl_insert]
  simp

/-- Two triangles with an edge in common. -/
def twoTriangles : MeshDefinition where
  num_entities dim := if dim = 2 then 2 else 4
  entities from_dimension to_dimension id :=
    if from_dimension = 2 ∧ to_dimension = 0 then [[0, 1, 2], [1, 3, 2]].getD id [] else []

theorem entityNeighborsSet_eq_triangles : entityNeighborsSet 2 2 1 twoTriangles [0] = some {0, 1} :=
  (@entityNeighborsSet_eq twoTriangles 2 (by decide) 1 [0] (by decide)).trans (by decide)

end Flecsi.Topology
