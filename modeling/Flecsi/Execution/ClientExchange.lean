import Flecsi.Execution.ExchangeColoring

/-!
# Ghost entities of a mesh

When a task may have changed a mesh, the epilog sends the shared entities of every type to the
ranks that have them as ghosts. An entity goes as its bytes, the global id included; the receiver
keeps its own id.
-/

namespace Flecsi.Execution

open Coloring PackedBuffer

-- ---------------------------------------------------------------------------
-- Entities
-- ---------------------------------------------------------------------------

/-- `entity_type_t`, by its size and the place of `id_`, which has 16 bytes. -/
structure EntityType where
  size : ℕ
  id_offset : ℕ
  id_fits : id_offset + 16 ≤ size

namespace EntityType

variable (t : EntityType)

def global_id (e : List UInt8) : List UInt8 := (e.drop t.id_offset).take 16

def set_global_id (e id : List UInt8) : List UInt8 := e.take t.id_offset ++ id ++ e.drop (t.id_offset + 16)

/-- The bytes of an entity before and after its global id. -/
def rest (e : List UInt8) : List UInt8 × List UInt8 := (e.take t.id_offset, e.drop (t.id_offset + 16))

section
variable {t} {e id : List UInt8} (he : e.length = t.size) (hid : id.length = 16)
include he

theorem length_global_id : (t.global_id e).length = 16 := by
  have := t.id_fits
  simp only [global_id, List.length_take, List.length_drop]
  omega

include hid

theorem length_set_global_id : (t.set_global_id e id).length = t.size := by
  have := t.id_fits
  simp only [set_global_id, List.length_append, List.length_take, List.length_drop]
  omega

theorem global_id_set : t.global_id (t.set_global_id e id) = id := by
  have htake : (e.take t.id_offset).length = t.id_offset := by
    have := t.id_fits
    simp only [List.length_take]
    omega
  unfold global_id set_global_id
  rw [List.append_assoc, List.drop_left' htake, List.take_left' hid]

theorem rest_set : t.rest (t.set_global_id e id) = t.rest e := by
  have htake : (e.take t.id_offset).length = t.id_offset := by
    have := t.id_fits
    simp only [List.length_take]
    omega
  unfold rest set_global_id
  refine Prod.ext ?_ ?_
  · rw [List.append_assoc]
    exact List.take_left' htake
  · exact List.drop_left' (by rw [List.length_append, htake, hid])

end

end EntityType

/-- What a mesh registers for each index space: the type of its entities and its coloring. -/
structure ClientMesh (n : ℕ) where
  entity : ℕ → EntityType
  coloring : ℕ → Fin n → IndexColoring
  coloring_info : ℕ → Fin n → ColoringInfo

/-- The entities of a rank, by index space. -/
structure Client where
  entities : ℕ → List (List UInt8)
  /-- For each exchange so far, the length of the receive buffer and the positions of the bytes
  that were read from it. -/
  received : List (ℕ × List ℕ)

-- ---------------------------------------------------------------------------
-- The handler
-- ---------------------------------------------------------------------------

/-- The loop state while the ghosts are unpacked. -/
structure Unpacked where
  recvcounts : List ℕ
  i : ℕ
  entities : List (List UInt8)
  /-- The positions of the bytes read so far. -/
  reads : List ℕ

section
variable (m : ClientMesh n) (is : ℕ)

/-- The shared entities with their peers, in the order of the two loops that count and fill. -/
def sharedPeers (p : Fin n) : List (ℕ × ℕ) :=
  (m.coloring is p).shared.flatMap fun shared =>
    (shared.shared.sort (· ≤ ·)).map fun peer => (peer, shared.offset)

/-- What a rank copies into its send buffer. No peer is the rank itself. -/
def clientMessages (p : Fin n) (entities : List (List UInt8)) : Option (List (ℕ × List UInt8)) :=
  let entities := entities.drop (m.coloring_info is p).exclusive
  (sharedPeers m is p).mapM fun x =>
    if x.1 = (p : ℕ) then none else entities[x.2]?.map fun eptr => (x.1, eptr)

def unpackEntity (t : EntityType) (first : ℕ) (recvbuf : List UInt8) (recvdispls : List ℕ) (u : Unpacked)
    (ghost : EntityInfo) : Option Unpacked := do
  let offset := recvdispls.getD ghost.rank 0 + u.recvcounts.getD ghost.rank 0
  let eptr := first + u.i
  let old ← u.entities[eptr]?
  let id := t.global_id old
  let data ← span recvbuf offset t.size
  some
    { recvcounts := u.recvcounts.modify ghost.rank (· + t.size)
      i := u.i + 1
      entities := u.entities.set eptr (t.set_global_id data id)
      reads := u.reads ++ List.range' offset t.size }

/-- `client_handler` on all ranks, for one type of entities. -/
def exchangeEntities (s : Fin n → Client) : Option (Fin n → Client) := do
  let entity_size := (m.entity is).size
  let msgs ← allRanks fun p => clientMessages m is p ((s p).entities is)
  let send := fun p => packMessages n ((sharedPeers m is p).map fun x => (x.1, entity_size)) (msgs p)
  let recvcounts := fun p => countPass n ((m.coloring is p).ghost.map fun ghost => (ghost.rank, entity_size))
  let recvdispls := fun p => displs (recvcounts p)
  let recvbuf ← alltoallv send fun p =>
    ⟨recvcounts p, recvdispls p, List.replicate ((recvdispls p).getD n 0) 0⟩
  let unpacked ← allRanks fun p =>
    (m.coloring is p).ghost.foldlM
      (unpackEntity (m.entity is) ((m.coloring_info is p).exclusive + (m.coloring_info is p).shared)
        (recvbuf p) (recvdispls p))
      ⟨List.replicate n 0, 0, (s p).entities is, []⟩
  some fun p =>
    { entities := Function.update (s p).entities is (unpacked p).entities
      received := (s p).received ++ [((recvbuf p).length, (unpacked p).reads)] }

/-- `client_handler<I>`; the list holds the index spaces of the entity types from `I` on. -/
def clientHandler : List ℕ → (Fin n → Client) → Option (Fin n → Client)
  | [], s => some s
  | is :: types, s => do
    let s' ← exchangeEntities m is s
    clientHandler types s'

end

end Flecsi.Execution
