import Flecsi.Coloring.Types
import Flecsi.Lib.MultiMap
import Flecsi.Lib.Tally

/-!
# The cell graph of a distributed mesh

`make_dcrs_distributed` builds the graph that joins two cells when they share
enough vertices. Every vertex has a manager rank, found by subdividing the id
range; ranks send the cells around each of their vertices to its manager, and
the manager sends the merged list back. `make_dcrs` builds the same graph from
a mesh every rank holds whole.
-/

namespace Flecsi.Coloring

open PackedBuffer MultiMap Tally
open Std (TreeMap)

-- ---------------------------------------------------------------------------
-- make_dcrs_distributed
-- ---------------------------------------------------------------------------

/-- What the function asks the mesh definition of a rank for: the vertices of
its cells by local number, and the global ids of its vertices. -/
structure MeshPart where
  cells2vertex : Crs
  vertexLocalToGlobal : List ℕ

/-- The global ids of the vertices of a cell. -/
def MeshPart.cellVertices (md : MeshPart) (ic : ℕ) : List ℕ :=
  (md.cells2vertex.row ic).map fun iv => md.vertexLocalToGlobal.getD iv 0

abbrev VertexCells := TreeMap ℕ (List ℕ)

def vertex2cell (md : MeshPart) (cellsStart : ℕ) : VertexCells :=
  (List.range md.cells2vertex.size).foldl (fun m ic =>
    (md.cellVertices ic).foldl (fun m vertex => emplaceBack m vertex (cellsStart + ic)) m) ∅

def removeDuplicates (m : VertexCells) : VertexCells := m.map fun _ cells => removeUnique cells

/-- Vertex id, number of cells, cell ids. -/
def vertexRecord (vs : ℕ × List ℕ) : List ℕ := vs.1 :: vs.2.length :: vs.2

/-- The entries of the local graph that another rank manages, with that rank. -/
def managedElsewhere (commRank : ℕ) (vertDist : List ℕ) (m : VertexCells) :
    Option (List (ℕ × ℕ × List ℕ)) := do
  let owned ← m.toList.mapM fun vs => do
    let r ← rankOwner vertDist vs.1
    some (r, vs)
  some (owned.filter (·.1 ≠ commRank))

/-- The count pass and the fill pass over vertex records. -/
def packVertices (n : ℕ) (items : List (ℕ × ℕ × List ℕ)) : Buffer ℕ :=
  packMessages n (items.map fun it => (it.1, 2 + it.2.2.length))
    (items.map fun it => (it.1, vertexRecord it.2))

/-- `for(j = 0; j < n; ++j)`: the cells of one vertex record. -/
def readCells (buf : List ℕ) (stop vertex : ℕ) :
    ℕ → ℕ → VertexCells → Option (ℕ × VertexCells)
  | 0, i, m => some (i, m)
  | n + 1, i, m => do
    guard (i < stop)
    let cell ← buf[i]?
    readCells buf stop vertex n (i + 1) (emplaceBack m vertex cell)

/-- One vertex record: the cells go to `vertex2cell`, the sender to
`vertex2rank`. -/
def readVertex (buf : List ℕ) (r stop i : ℕ) (s : VertexCells × VertexCells) :
    Option (ℕ × VertexCells × VertexCells) := do
  let vertex ← buf[i]?
  let vertex2rank := emplaceBack s.2 vertex r
  guard (i + 1 < stop)
  let n ← buf[i + 1]?
  let (i', vertex2cell) ← readCells buf stop vertex n (i + 2) s.1
  some (i', vertex2cell, vertex2rank)

/-- The final results for the vertices other ranks asked about. -/
def sharedVertices (commRank : ℕ) (vertex2cell vertex2rank : VertexCells) :
    Option (List (ℕ × ℕ × List ℕ)) :=
  (vertex2rank.toList.flatMap fun vs =>
    (vs.2.filter (· ≠ commRank)).map fun r => (r, vs.1)).mapM fun rv => do
      let cells ← vertex2cell[rv.2]?
      some (rv.1, rv.2, cells)

/-- `if(other != cell) cell_counts[other] += 1;` -/
def countOthers (cell : ℕ) (counts : Counts) (others : List ℕ) : Counts :=
  others.foldl (fun counts other => if other ≠ cell then bump counts other else counts) counts

/-- How many vertices each other cell shares with `cell`. -/
def cellCounts (vertex2cell : VertexCells) (cell : ℕ) (vertices : List ℕ) : Option Counts :=
  vertices.foldlM (fun counts vertex => do
    let others ← vertex2cell[vertex]?
    some (countOthers cell counts others)) ∅

/-- The inversion to a cell-to-cell graph. -/
def invertGraph (minConnections : ℕ) (md : MeshPart) (cellsStart : ℕ) (m : VertexCells) :
    Option Crs :=
  (List.range md.cells2vertex.size).foldlM (fun c ic => do
    let counts ← cellCounts m (cellsStart + ic) (md.cellVertices ic)
    some (c.appendRow (c.offsets.getLastD 0) (atLeast minConnections counts)))
    ⟨[0], []⟩

/-- The two rounds: vertices go to their manager, and the merged lists back. -/
def completeVertices (vertDist : List ℕ) (vertex2cell : Fin n → VertexCells) :
    Option (Fin n → VertexCells) := do
  -- send vertex information to the deemed vertex-owner
  let items ← allRanks fun p => managedElsewhere p vertDist (vertex2cell p)
  let recv ← exchange fun p => packVertices n (items p)
  let read ← allRanks fun p =>
    readSegments n (readVertex (recv p).buf) (recv p).displs (vertex2cell p, ∅)
  let vertex2cell := fun p => removeDuplicates (read p).1
  -- send back the final results for shared vertices
  let items ← allRanks fun p => sharedVertices p (vertex2cell p) (read p).2
  let recv ← exchange fun p => packVertices n (items p)
  let read ← allRanks fun p =>
    readSegments n (readVertex (recv p).buf) (recv p).displs (vertex2cell p, (read p).2)
  some fun p => removeDuplicates (read p).1

/-- `make_dcrs_distributed` on all ranks. -/
def makeDcrsDistributed (minConnections : ℕ) (md : Fin n → MeshPart) : Option (Fin n → Dcrs) := do
  let distribution := displs (mpiAllgather fun p => (md p).cells2vertex.size)
  let totVerts := mpiAllreduceMax (fun p => (md p).vertexLocalToGlobal.foldl max 0) + 1
  let vertDist := subdivide totVerts n
  let vertex2cell ← completeVertices vertDist fun p : Fin n =>
    removeDuplicates (vertex2cell (md p) (distribution.getD p 0))
  -- invert for final cell-to-cell graph
  let crs ← allRanks fun p =>
    invertGraph minConnections (md p) (distribution.getD p 0) (vertex2cell p)
  some fun p => ⟨crs p, distribution⟩

-- ---------------------------------------------------------------------------
-- make_dcrs
-- ---------------------------------------------------------------------------

/-- `vertex2cells[vertex].push_back(cell)`, then the cells seen around the
vertex are counted. -/
def serialVertex (cell : ℕ) (s : VertexCells × Counts) (vertex : ℕ) : VertexCells × Counts :=
  let vertex2cells := emplaceBack s.1 vertex cell
  (vertex2cells, countOthers cell s.2 (find vertex2cells vertex))

/-- Both directions of one connection. -/
def connect (thruDimension cell : ℕ) (cell2cells : VertexCells) (count : ℕ × ℕ) : VertexCells :=
  if count.2 > thruDimension then
    emplaceBack (emplaceBack cell2cells cell count.1) count.1 cell
  else cell2cells

/-- One cell: the maps from vertices and from cells to cells so far. -/
def serialCell (thruDimension : ℕ) (s : VertexCells × VertexCells) (cell : ℕ × List ℕ) :
    VertexCells × VertexCells :=
  let (vertex2cells, counts) := cell.2.foldl (serialVertex cell.1) (s.1, ∅)
  (vertex2cells, counts.toList.foldl (connect thruDimension cell.1) s.2)

/-- `make_dcrs` on one of `size` ranks; `entities` lists the vertices of every
cell of the mesh. -/
def makeDcrs (size rank thruDimension : ℕ) (entities : List (List ℕ)) : Dcrs :=
  let quot := entities.length / size
  let rem := entities.length % size
  let initIndices := quot + if rank ≥ size - rem then 1 else 0
  let distribution := (List.range size).foldl (fun dist r =>
    dist ++ [dist.getD r 0 + (quot + if r ≥ size - rem then 1 else 0)]) [0]
  let cell2cells := (entities.zipIdx.foldl (fun s c => serialCell thruDimension s (c.2, c.1))
    (∅, ∅)).2
  ⟨(List.range initIndices).foldl (fun c i =>
    c.appendRow (c.offsets.getD i 0) (find cell2cells (distribution.getD rank 0 + i))) ⟨[0], []⟩,
    distribution⟩

end Flecsi.Coloring
