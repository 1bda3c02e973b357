import Flecsi.Coloring.Types
import Flecsi.Lib.Numbering

/-!
# Numbering an index space

`match_ids` numbers edges, faces or whatever is given by lists of vertices. An
entity belongs to the manager of its lowest vertex, which numbers the entities
sent to it in the order it sees them; the numbers of all managers are then
shifted apart and sent back.
-/

namespace Flecsi.Coloring

open PackedBuffer SortUnique Numbering
open Std (TreeMap)

-- ---------------------------------------------------------------------------
-- match_ids
-- ---------------------------------------------------------------------------

/-- From the sorted vertices of an entity to its id. -/
abbrev EntityMap := TreeMap (List ℕ) ℕ

def sortVertices (vs : List ℕ) : List ℕ := vs.insertionSort (· ≤ ·)

/-- The map after the call, and the iterator returned, which stays valid and is
known by its key. -/
def addToMap (vs : List ℕ) (vertices2id : EntityMap) (id : ℕ) : List ℕ × EntityMap :=
  (sortVertices vs, vertices2id.insertIfNew (sortVertices vs) id)

/-- `vertex_local2global.at(v)` for every vertex. -/
def globalVertices (vertexLocal2global vs : List ℕ) : Option (List ℕ) :=
  vs.mapM fun v => vertexLocal2global[v]?

/-- `rank_owner` of the least vertex. -/
def entityOwner (vertDist globalVs : List ℕ) : Option ℕ := do
  let v ← globalVs.min?
  rankOwner vertDist v

/-- The global vertices of every entity, with the rank they go to. -/
def ownedEntities (vertDist vertexLocal2global : List ℕ) (entities2vertex : List (List ℕ)) :
    Option (List (ℕ × List ℕ)) :=
  entities2vertex.mapM fun vs => do
    let globalVs ← globalVertices vertexLocal2global vs
    let r ← entityOwner vertDist globalVs
    some (r, globalVs)

/-- Number of vertices, vertices. -/
def entityRecord (vs : List ℕ) : List ℕ := vs.length :: vs

/-- What goes to other ranks. -/
def packEntities (n commRank : ℕ) (items : List (ℕ × List ℕ)) : Buffer ℕ :=
  let items := items.filter (·.1 ≠ commRank)
  packMessages n (items.map fun it => (it.1, 1 + it.2.length))
    (items.map fun it => (it.1, entityRecord it.2))

/-- What is this rank's own. -/
def addOwn (commRank : ℕ) (items : List (ℕ × List ℕ)) : EntityMap :=
  items.foldl (fun m it => if it.1 ≠ commRank then m else (addToMap it.2 m m.size).2) ∅

/-- The map, the iterators of the current sender, and those of the senders
before it. -/
structure ManagerState where
  entities : EntityMap
  rankData : List (List ℕ)
  rankEdges : List (List (List ℕ))

def readEntity (buf : List ℕ) (_r _stop i : ℕ) (s : ManagerState) : Option (ℕ × ManagerState) := do
  let n ← buf[i]?
  let vs ← span buf (i + 1) n
  let (it, entities) := addToMap vs s.entities s.entities.size
  some (i + (n + 1), { s with entities := entities, rankData := s.rankData ++ [it] })

/-- Sort by id and remove unique entries, then on to the next sender. -/
def finishSender (s : ManagerState) : ManagerState :=
  { s with
    rankData := []
    rankEdges := s.rankEdges ++ [sortUnique (fun it => s.entities.getD it 0) s.rankData] }

/-- Id, number of vertices, vertices. -/
def finishedRecord (edge : ℕ × List ℕ) : List ℕ := edge.1 :: edge.2.length :: edge.2

/-- The finished edges for those that asked, appended rank by rank. -/
def sendBack (n commRank : ℕ) (entities : EntityMap) (rankEdges : List (List (List ℕ))) :
    Option (Buffer ℕ) := do
  let edges ← (List.range n).mapM fun r =>
    if r = commRank then some [] else do
      let its ← rankEdges[r]?
      its.mapM fun it => do
        let globalId ← entities[it]?
        some (globalId, it)
  let counts := edges.map fun es => (es.map fun edge => 2 + edge.2.length).sum
  some ⟨counts, displs counts, edges.flatMap fun es => es.flatMap finishedRecord⟩

def readFinished (buf : List ℕ) (_r _stop i : ℕ) (entities : EntityMap) :
    Option (ℕ × EntityMap) := do
  let globalId ← buf[i]?
  let n ← buf[i + 1]?
  let vs ← span buf (i + 2) n
  some (i + (n + 2), (addToMap vs entities globalId).2)

/-- `local2global` and `global2local` after one more entity. -/
def addLocal (vertexLocal2global : List ℕ) (entities : EntityMap) (s : List ℕ × TreeMap ℕ ℕ)
    (vs : List ℕ) : Option (List ℕ × TreeMap ℕ ℕ) := do
  let globalVs ← globalVertices vertexLocal2global vs
  let globalId ← entities[sortVertices globalVs]?
  some (s.1 ++ [globalId], s.2.insertIfNew globalId s.1.length)

/-- `match_ids` on all ranks; `out` holds `local2global` and `global2local`. -/
def matchIds (entities2vertex : Fin n → Crs) (vertexLocal2global : Fin n → List ℕ)
    (out : Fin n → List ℕ × TreeMap ℕ ℕ) : Option (Fin n → List ℕ × TreeMap ℕ ℕ) := do
  let totVerts := mpiAllreduceMax (fun p => (vertexLocal2global p).foldl max 0) + 1
  let vertDist := subdivide totVerts n
  -- send each edge to the edge owner
  let items ← allRanks fun p =>
    ownedEntities vertDist (vertexLocal2global p) (entities2vertex p).rows
  let recv ← exchange fun p : Fin n => packEntities n p (items p)
  let managers ← allRanks fun p => readSegmentsThen n (readEntity (recv p).buf) finishSender
    (recv p).displs ⟨addOwn p (items p), [], []⟩
  -- come up with a global numbering
  let edgeDist := displs (mpiAllgather fun p => (managers p).entities.size)
  let entities := fun p : Fin n =>
    (managers p).entities.map fun _ id => id + edgeDist.getD p 0
  -- send back the finished edges
  let send ← allRanks fun p => sendBack n p (entities p) (managers p).rankEdges
  let recv ← exchange send
  let entities ← allRanks fun p =>
    readSegments n (readFinished (recv p).buf) (recv p).displs (entities p)
  -- figure local ids for the edges
  allRanks fun p =>
    (entities2vertex p).rows.foldlM (addLocal (vertexLocal2global p) (entities p)) (out p)

end Flecsi.Coloring
