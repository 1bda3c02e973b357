import Flecsi.Coloring.CrsErase
import Flecsi.Lib.ByteCast

/-!
# Migrating cells

`migrate` sends every cell to the rank that owns its partition: the row of the
graph and whatever the mesh definition packs for the cell are flattened to
bytes, the cells sent are erased, and the cells received are appended.
-/

namespace Flecsi.Coloring

open PackedBuffer ByteCast

-- ---------------------------------------------------------------------------
-- The mesh definition
-- ---------------------------------------------------------------------------

/-- The virtual functions of a mesh definition that `migrate` calls. `unpack`
takes the rest of the buffer and gives back what it leaves of it. -/
structure MeshDefinition (μ : Type) where
  pack : μ → ℕ → List UInt8
  unpack : μ → ℕ → List UInt8 → μ × List UInt8
  erase : μ → List ℕ → μ

/-- What is asked of a mesh definition, in terms of the records it keeps for
its cells: `unpack` at the next local id undoes `pack` and takes exactly the
bytes packed, `erase` removes the cells named. -/
structure MeshLaws (mesh : MeshDefinition μ) (records : μ → List ρ) : Prop where
  unpack_pack : ∀ md md' i rest, i < (records md').length →
    (mesh.unpack md (records md).length (mesh.pack md' i ++ rest)).2 = rest ∧
      records (mesh.unpack md (records md).length (mesh.pack md' i ++ rest)).1 =
        records md ++ ((records md')[i]?).toList
  erase : ∀ md ids, ids.Pairwise (· < ·) → (∀ i ∈ ids, i < (records md).length) →
    records (mesh.erase md ids) = atPositions (· ∉ ids) (records md)

-- ---------------------------------------------------------------------------
-- migrate
-- ---------------------------------------------------------------------------

/-- What a rank brings. -/
structure MigrateInput (μ : Type) where
  partitioning : List ℕ
  dcrs : Dcrs
  md : μ

def ownedBy (dist : List ℕ) (id owner : ℕ) : Bool :=
  if id < dist.getD owner 0 then false
  else if id < dist.getD (owner + 1) 0 then true
  else false

section
variable (mesh : MeshDefinition μ)

/-- Global id, length of the row, row, and what the mesh packs. -/
def packCell (commRank : ℕ) (dcrs : Dcrs) (md : μ) (localId : ℕ) : List UInt8 :=
  let globalId := dcrs.distribution.getD commRank 0 + localId
  let start := dcrs.offsets.getD localId 0
  let numOffsets := dcrs.offsets.getD (localId + 1) 0 - start
  castWords [globalId] ++ castWords [numOffsets] ++
    castWords ((dcrs.indices.drop start).take numOffsets) ++ mesh.pack md localId

/-- One cell looked at for one rank: `eraseLocalIds` and `sendbuf`. -/
def packFor (commRank : ℕ) (partitionDist : List ℕ) (inp : MigrateInput μ) (rank : ℕ)
    (s : List ℕ × List UInt8) (localId : ℕ) : List ℕ × List UInt8 :=
  let partitionId := inp.partitioning.getD localId 0
  if ownedBy partitionDist partitionId commRank then s
  else if ownedBy partitionDist partitionId rank then
    (s.1 ++ [localId], s.2 ++ packCell mesh commRank inp.dcrs inp.md localId)
  else s

/-- `eraseLocalIds`, `sendbuf` and `sendcounts` after one more rank. -/
def packRank (commRank : ℕ) (partitionDist : List ℕ) (inp : MigrateInput μ)
    (s : List ℕ × List UInt8 × List ℕ) (rank : ℕ) : List ℕ × List UInt8 × List ℕ :=
  let numElements := if rank ≠ commRank then inp.dcrs.size else 0
  let (eraseLocalIds, sendbuf) :=
    (List.range numElements).foldl (packFor mesh commRank partitionDist inp rank) (s.1, s.2.1)
  (eraseLocalIds, sendbuf, s.2.2 ++ [sendbuf.length - s.2.1.length])

def packAll (n commRank : ℕ) (partitionDist : List ℕ) (inp : MigrateInput μ) :
    List ℕ × Buffer UInt8 :=
  let (eraseLocalIds, sendbuf, sendcounts) :=
    (List.range n).foldl (packRank mesh commRank partitionDist inp) ([], [], [])
  (eraseLocalIds, ⟨sendcounts, displs sendcounts, sendbuf⟩)

/-- The number of elements, the graph and the mesh while cells come and go. -/
structure MigrateState (μ : Type) where
  numElements : ℕ
  crs : Crs
  md : μ

/-- Erase entities to be migrated. -/
def eraseMigrated (eraseLocalIds : List ℕ) (inp : MigrateInput μ) : Option (MigrateState μ) :=
  if eraseLocalIds = [] then some ⟨inp.dcrs.size, inp.dcrs.toCrs, inp.md⟩ else do
    let ids := eraseLocalIds.insertionSort (· ≤ ·)
    guard (ids.destutter (· ≠ ·) = ids)
    let crs ← inp.dcrs.erase ids
    some ⟨inp.dcrs.size - ids.length, crs, mesh.erase inp.md ids⟩

/-- One received cell; the buffer pointer is the position `i`. -/
def unpackCell (recvbuf : List UInt8) (_r _stop i : ℕ) (s : MigrateState μ) :
    Option (ℕ × MigrateState μ) := do
  let localId := s.numElements
  let _globalId ← uncastWords recvbuf i 1
  let last ← s.crs.offsets[localId]?
  let numOffsets ← (← uncastWords recvbuf (i + 8) 1).head?
  let row ← uncastWords recvbuf (i + 16) numOffsets
  let indices := writeAt (s.crs.indices ++ List.replicate numOffsets 0) last row
  let (md, rest) := mesh.unpack s.md localId (recvbuf.drop (i + 16 + 8 * numOffsets))
  some (recvbuf.length - rest.length,
    ⟨s.numElements + 1, ⟨s.crs.offsets ++ [last + numOffsets], indices⟩, md⟩)

/-- All received cells; every segment must be read to its end exactly. -/
def unpackAll (n : ℕ) (recv : Buffer UInt8) (s : MigrateState μ) : Option (MigrateState μ) :=
  (List.range n).foldlM (fun s rank => do
    let (i, s) ← readSegment (unpackCell mesh recv.buf) recv.displs rank s
    guard (i = recv.displs.getD (rank + 1) 0)
    some s) s

/-- `migrate` on all ranks. -/
def migrate (partitionDist : List ℕ) (inp : Fin n → MigrateInput μ) :
    Option (Fin n → Dcrs × μ) := do
  let packed := fun p : Fin n => packAll mesh n p partitionDist (inp p)
  let s ← allRanks fun p => eraseMigrated mesh (packed p).1 (inp p)
  let recv ← exchange fun p => (packed p).2
  let s ← allRanks fun p => unpackAll mesh n (recv p) (s p)
  let _ ← allRanks fun p => do
    guard ((s p).numElements = (s p).crs.size)
    guard (0 < (s p).numElements)
  let distribution := displs (mpiAllgather fun p => (s p).numElements)
  some fun p => (⟨(s p).crs, distribution⟩, (s p).md)

end

end Flecsi.Coloring
