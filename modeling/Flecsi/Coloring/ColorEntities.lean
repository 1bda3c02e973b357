import Flecsi.Coloring.Types

/-!
# Ownership of auxiliary entities

`color_entities` decides which rank owns an edge, face or vertex. A rank sends
the entities of its shared cells to the ranks that hold the cell as a ghost.
Every entity of a shared cell has a manager, the rank whose range of ids it
falls into. The manager hears of all ranks that have the entity in a shared
cell, of which the lowest becomes the owner, and then of all ranks that
received it, and tells both what it decided.
-/

namespace Flecsi.Coloring

open PackedBuffer
open Std (TreeMap)

-- ---------------------------------------------------------------------------
-- color_entities
-- ---------------------------------------------------------------------------

/-- The arguments of one rank; `global2local` is never read, and of `cells`
only the shared ones are. -/
structure ColorInput where
  cells2entity : Crs
  local2global : List ℕ
  shared : List EntityInfo

/-- Start by marking all entities as exclusive, then mark shared. -/
def markShared (inp : ColorInput) : List Bool × List ℕ :=
  (inp.shared.flatMap fun c => inp.cells2entity.row c.offset).foldl
    (fun s localId => (s.1.set localId false, s.2 ++ [localId]))
    (List.replicate inp.local2global.length true, [])

/-- The global ids of the entities of a cell. -/
def cellEntities (inp : ColorInput) (c : EntityInfo) : Option (List ℕ) :=
  (inp.cells2entity.row c.offset).mapM fun localId => inp.local2global[localId]?

/-- The entities of every shared cell, with every rank that shares it. -/
def sharedCells (commRank : ℕ) (inp : ColorInput) : Option (List (ℕ × List ℕ)) := do
  let sends ← inp.shared.mapM fun c => do
    let ents ← cellEntities inp c
    some (((c.shared.sort (· ≤ ·)).filter (· ≠ commRank)).map fun r => (r, ents))
  some sends.flatten

/-- Number of entities, entities. -/
def cellEntitiesRecord (ents : List ℕ) : List ℕ := ents.length :: ents

structure GhostState where
  potentialGhost : List ℕ
  connectivityCounts : ℕ

def readCellEntities (buf : List ℕ) (_r _stop i : ℕ) (s : GhostState) :
    Option (ℕ × GhostState) := do
  let n ← buf[i]?
  let ents ← span buf (i + 1) n
  some (i + (n + 1), ⟨s.potentialGhost ++ ents, s.connectivityCounts + n⟩)

/-- `owner_t`. -/
structure Owner where
  rank : ℕ
  localId : ℕ
  ghostRanks : List ℕ
  deriving DecidableEq

/-- `entities2rank`. -/
abbrev OwnerMap := TreeMap ℕ Owner

/-- Manager, global id and local id of every entity of a shared cell. -/
def managedShared (entDist : List ℕ) (inp : ColorInput) (potentialShared : List ℕ) :
    Option (List (ℕ × ℕ × ℕ)) :=
  potentialShared.mapM fun localId => do
    let globalId ← inp.local2global[localId]?
    let rank ← rankOwner entDist globalId
    some (rank, globalId, localId)

/-- If it is ours, just add it to the list. -/
def addOwnShared (commRank : ℕ) (items : List (ℕ × ℕ × ℕ)) : OwnerMap :=
  items.foldl (fun m it =>
    if it.1 ≠ commRank then m else m.insertIfNew it.2.1 ⟨it.1, it.2.2, []⟩) ∅

/-- Global id, local id. -/
def sharedRecord (x : ℕ × ℕ) : List ℕ := [x.1, x.2]

/-- `emplace`, and the lower rank where there is an entry already. -/
def addShared (r : ℕ) (m : OwnerMap) (x : ℕ × ℕ) : OwnerMap :=
  match m[x.1]? with
  | none => m.insert x.1 ⟨r, x.2, []⟩
  | some owner => if r < owner.rank then m.insert x.1 ⟨r, x.2, []⟩ else m

def readShared (buf : List ℕ) (r _stop i : ℕ) (m : OwnerMap) : Option (ℕ × OwnerMap) := do
  let globalId ← buf[i]?
  let localId ← buf[i + 1]?
  some (i + 2, addShared r m (globalId, localId))

/-- Manager and global id of every potential ghost. -/
def managedGhosts (entDist potentialGhost : List ℕ) : Option (List (ℕ × ℕ)) :=
  potentialGhost.mapM fun globalId => do
    let rank ← rankOwner entDist globalId
    some (rank, globalId)

/-- `entities2rank.at(global_id)` gets one more ghost rank. -/
def addGhost (r : ℕ) (m : OwnerMap) (globalId : ℕ) : Option OwnerMap := do
  let owner ← m[globalId]?
  some (if owner.rank ≠ r then
    m.insert globalId { owner with ghostRanks := owner.ghostRanks ++ [r] } else m)

/-- Otherwise, I am responsible for this ghost. -/
def addOwnGhosts (commRank : ℕ) (items : List (ℕ × ℕ)) (m : OwnerMap) : Option OwnerMap :=
  items.foldlM (fun m it => if it.1 ≠ commRank then some m else addGhost it.1 m it.2) m

def readGhost (buf : List ℕ) (r _stop i : ℕ) (m : OwnerMap) : Option (ℕ × OwnerMap) := do
  let globalId ← buf[i]?
  let m ← addGhost r m globalId
  some (i + 1, m)

/-- What a manager sends back: to the ghosts of an entity and to its owner. -/
def sendOwners (commRank : ℕ) (m : OwnerMap) : List (ℕ × ℕ × Owner) :=
  m.toList.flatMap fun pair =>
    ((pair.2.ghostRanks ++ [pair.2.rank]).filter (· ≠ commRank)).map fun rank => (rank, pair)

/-- Id, rank, offset, number of ghosts, ghost ranks. -/
def ownerRecord (pair : ℕ × Owner) : List ℕ :=
  pair.1 :: pair.2.rank :: pair.2.localId :: pair.2.ghostRanks.length :: pair.2.ghostRanks

/-- An entry that is there already means that multiple owners sent it. -/
def readOwner (buf : List ℕ) (_r _stop i : ℕ) (m : OwnerMap) : Option (ℕ × OwnerMap) := do
  let globalId ← buf[i]?
  let rank ← buf[i + 1]?
  let localId ← buf[i + 2]?
  let numShared ← buf[i + 3]?
  let ghostRanks ← span buf (i + 4) numShared
  if globalId ∈ m then none
  else some (i + (numShared + 4), m.insert globalId ⟨rank, localId, ghostRanks⟩)

def setExclusive (commRank : ℕ) (inp : ColorInput) (exclusive : List Bool)
    (entities : IndexColoring) : IndexColoring :=
  { entities with
    exclusive := removeUniqueEntities (entities.exclusive ++
      ((List.range inp.local2global.length).filter (exclusive.getD · false)).map fun localId =>
        entityInfo (inp.local2global.getD localId 0) commRank localId ∅) }

/-- An entry of the map is shared if I am its owner, and otherwise "may" be a
ghost; `std::binary_search` looks through the sorted potential ghosts. -/
def setSharedGhost (commRank : ℕ) (potentialGhost : List ℕ) (s : IndexColoring × ColoringInfo)
    (pair : ℕ × Owner) : Option (IndexColoring × ColoringInfo) :=
  let (entities, colorInfo) := s
  let (globalId, owner) := pair
  if owner.rank = commRank then
    if owner.ghostRanks = [] then none
    else some ({ entities with
        shared := entities.shared ++
          [entityInfo globalId owner.rank owner.localId owner.ghostRanks.toFinset] },
      { colorInfo with sharedUsers := colorInfo.sharedUsers ∪ owner.ghostRanks.toFinset })
  else if globalId ∈ potentialGhost then
    some ({ entities with
        ghost := entities.ghost ++ [entityInfo globalId owner.rank owner.localId ∅] },
      { colorInfo with ghostOwners := insert owner.rank colorInfo.ghostOwners })
  else some (entities, colorInfo)

def setColoring (commRank : ℕ) (inp : ColorInput) (exclusive : List Bool)
    (potentialGhost : List ℕ) (entities2rank : OwnerMap) (s : IndexColoring × ColoringInfo) :
    Option (IndexColoring × ColoringInfo) := do
  let (entities, colorInfo) ← entities2rank.toList.foldlM (setSharedGhost commRank potentialGhost)
    (setExclusive commRank inp exclusive s.1, s.2)
  let entities := { entities with
    shared := removeUniqueEntities entities.shared
    ghost := removeUniqueEntities entities.ghost }
  some (entities, { colorInfo with
    exclusive := entities.exclusive.length
    shared := entities.shared.length
    ghost := entities.ghost.length })

/-- Send shared information. -/
def receiveCells (inp : Fin n → ColorInput) : Option (Fin n → GhostState) := do
  let cells ← allRanks fun p => sharedCells p (inp p)
  let recv ← exchange fun p => packMessages n ((cells p).map fun it => (it.1, 1 + it.2.length))
    ((cells p).map fun it => (it.1, cellEntitiesRecord it.2))
  allRanks fun p => readSegments n (readCellEntities (recv p).buf) (recv p).displs
    ⟨[], (inp p).cells2entity.indices.length⟩

/-- The three rounds with the managers, which end in `entities2rank`. -/
def decideOwners (entDist : List ℕ) (inp : Fin n → ColorInput)
    (potentialShared potentialGhost : Fin n → List ℕ) : Option (Fin n → OwnerMap) := do
  -- send shared entity information to the manager
  let items ← allRanks fun p => managedShared entDist (inp p) (potentialShared p)
  let send := fun p : Fin n => (items p).filter (·.1 ≠ (p : ℕ))
  let recv ← exchange fun p => packMessages n ((send p).map fun it => (it.1, 2))
    ((send p).map fun it => (it.1, sharedRecord it.2))
  let entities2rank ← allRanks fun p : Fin n =>
    readSegments n (readShared (recv p).buf) (recv p).displs (addOwnShared p (items p))
  -- send ghost entity information to the manager
  let ghosts ← allRanks fun p => managedGhosts entDist (potentialGhost p)
  let send := fun p : Fin n => (ghosts p).filter (·.1 ≠ (p : ℕ))
  let entities2rank ← allRanks fun p : Fin n => addOwnGhosts p (ghosts p) (entities2rank p)
  let recv ← exchange fun p => packMessages n ((send p).map fun it => (it.1, 1))
    ((send p).map fun it => (it.1, [it.2]))
  let entities2rank ← allRanks fun p =>
    readSegments n (readGhost (recv p).buf) (recv p).displs (entities2rank p)
  -- send back the ghost/shared information to everyone that needs it
  let send := fun p : Fin n => sendOwners p (entities2rank p)
  let recv ← exchange fun p => packMessages n
    ((send p).map fun it => (it.1, 4 + it.2.2.ghostRanks.length))
    ((send p).map fun it => (it.1, ownerRecord it.2))
  allRanks fun p => readSegments n (readOwner (recv p).buf) (recv p).displs (entities2rank p)

/-- `color_entities` on all ranks; the last result is `connectivity_counts`. -/
def colorEntities (inp : Fin n → ColorInput) (out : Fin n → IndexColoring × ColoringInfo) :
    Option (Fin n → (IndexColoring × ColoringInfo) × ℕ) := do
  let marked := fun p => markShared (inp p)
  let potentialShared := fun p => removeUnique (marked p).2
  let received ← receiveCells inp
  let potentialGhost := fun p => removeUnique (received p).potentialGhost
  -- create a naive initial distribution of the entities
  let totEnts := mpiAllreduceMax (fun p => (inp p).local2global.foldl max 0) + 1
  let entDist := subdivide totEnts n
  let entities2rank ← decideOwners entDist inp potentialShared potentialGhost
  -- now we can set exclusive, shared and ghost
  let colored ← allRanks fun p =>
    setColoring p (inp p) (marked p).1 (potentialGhost p) (entities2rank p) (out p)
  some fun p => (colored p, (received p).connectivityCounts)

end Flecsi.Coloring
