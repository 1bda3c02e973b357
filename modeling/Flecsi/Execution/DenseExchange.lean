import Flecsi.Execution.ExchangeColoring
import Flecsi.Execution.SlotExchange
import Flecsi.Execution.TaskArgs
import Flecsi.Lib.Runs

/-!
# Ghost exchange of dense fields

A task on the MPI backend with aggregated messages: the prolog collects the fields whose
ghosts are read and not up to date, `launch_dense_exchange` sends the shared elements of
all of them in one message for each pair of ranks, the task runs, the epilog updates the
flags. All ranks run the same tasks.
-/

namespace Flecsi.Execution

open Coloring PackedBuffer SlotCopy

-- ---------------------------------------------------------------------------
-- Field metadata
-- ---------------------------------------------------------------------------

/-- `field_metadata_t`; the entries of the ranges are in bytes. -/
structure FieldMetadata where
  shared_indices : ℕ → List (ℕ × ℕ)
  ghost_indices : ℕ → List (ℕ × ℕ)
  shared_field_sizes : ℕ → ℕ
  ghost_field_sizes : ℕ → ℕ

/-- `register_field_metadata`, with `sizeof(T) = size`. -/
def registerFieldMetadata (size : ℕ) (c : IndexColoring) : FieldMetadata :=
  let ghost_indices := collectRanges
    (c.ghost.zipIdx.map fun x => (x.1.rank, x.2 * size)) size
  let shared_indices := collectRanges
    (c.shared.flatMap fun shared =>
      (shared.shared.sort (· ≤ ·)).map fun s => (s, shared.offset * size)) size
  { shared_indices := shared_indices
    ghost_indices := ghost_indices
    shared_field_sizes := fun rank => ((shared_indices rank).map Prod.snd).sum
    ghost_field_sizes := fun rank => ((ghost_indices rank).map Prod.snd).sum }

/-- `field_info_t`. -/
structure FieldInfo where
  index_space : ℕ
  size : ℕ

/-- What all ranks have registered: the fields, and a coloring for each index space. -/
structure Registry (n : ℕ) where
  fields : ℕ → FieldInfo
  coloring : ℕ → Fin n → IndexColoring

namespace Registry

variable (r : Registry n)

def size (f : ℕ) : ℕ := (r.fields f).size
def fieldColoring (f : ℕ) (p : Fin n) : IndexColoring := r.coloring (r.fields f).index_space p
def metadata (f : ℕ) (p : Fin n) : FieldMetadata :=
  registerFieldMetadata (r.size f) (r.fieldColoring f p)

/-- The offsets of `shared_data` and `ghost_data` in a field's buffer, and its length. -/
def sharedData (f : ℕ) (p : Fin n) : ℕ := (r.fieldColoring f p).exclusive.length * r.size f
def ghostData (f : ℕ) (p : Fin n) : ℕ :=
  r.sharedData f p + (r.fieldColoring f p).shared.length * r.size f
def dataSize (f : ℕ) (p : Fin n) : ℕ :=
  r.ghostData f p + (r.fieldColoring f p).ghost.length * r.size f

end Registry

-- ---------------------------------------------------------------------------
-- Prolog and epilog
-- ---------------------------------------------------------------------------

def Privilege.Writes (p : Privilege) : Prop := p = .wo ∨ p = .rw

instance : DecidablePred Privilege.Writes := fun _ => inferInstanceAs (Decidable (_ ∨ _))

structure DenseAccessor where
  fid : ℕ
  exclusive : Privilege
  shared : Privilege
  ghost : Privilege
  deriving DecidableEq, Repr

/-- `task_prolog_t::handle`, on the flags and the fields to exchange. -/
def prologDense (st : (ℕ → Bool) × List ℕ) (a : DenseAccessor) : (ℕ → Bool) × List ℕ :=
  if st.1 a.fid ∨ a.ghost = .na ∨ a.ghost = .wo then st
  else (Function.update st.1 a.fid true, st.2 ++ [a.fid])

/-- `task_epilog_t::handle`. -/
def epilogDense (ghost_is_readable : ℕ → Bool) (a : DenseAccessor) : ℕ → Bool :=
  if a.ghost = .rw ∨ a.ghost = .wo then Function.update ghost_is_readable a.fid true
  else if a.shared = .rw ∨ a.shared = .wo then Function.update ghost_is_readable a.fid false
  else ghost_is_readable

-- ---------------------------------------------------------------------------
-- The exchange
-- ---------------------------------------------------------------------------

/-- The number of bytes for one rank, added up in an `int`. -/
def messageSize (sizes : ℕ → ℕ) (modified_fields : List ℕ) : Option ℕ :=
  modified_fields.foldlM (fun size f => toInt (size + sizes f)) 0

/-- No message is posted for an empty buffer. -/
def posted (size : ℕ) : Option ℕ := if size = 0 then none else some size

section
variable (r : Registry n) (modified_fields : Fin n → List ℕ)

def sharedSlots (p : Fin n) (rank : ℕ) : List (Slot ℕ) :=
  (modified_fields p).flatMap fun f =>
    ((r.metadata f p).shared_indices rank).map fun ind => ⟨f, r.sharedData f p + ind.1, ind.2⟩

def ghostSlots (p : Fin n) (rank : ℕ) : List (Slot ℕ) :=
  (modified_fields p).flatMap fun f =>
    ((r.metadata f p).ghost_indices rank).map fun ind => ⟨f, r.ghostData f p + ind.1, ind.2⟩

def densePlan (ghostSize sharedSize : Fin n → Fin n → ℕ) : Plan n ℕ ℕ where
  recvSize p q := posted (ghostSize p q)
  sendSize p q := posted (sharedSize p q)
  recvSlots p q := ghostSlots r modified_fields p q
  sendSlots p q := sharedSlots r modified_fields p q

/-- `launch_dense_exchange` on all ranks. Without modified fields all sizes are zero. -/
def launchDenseExchange (field_data : Fin n → ℕ → List UInt8) : Option (Fin n → ℕ → List UInt8) := do
  let ghostSize ← allRanks fun p => allRanks fun q =>
    messageSize (fun f => (r.metadata f p).ghost_field_sizes q) (modified_fields p)
  let sharedSize ← allRanks fun p => allRanks fun q =>
    messageSize (fun f => (r.metadata f p).shared_field_sizes q) (modified_fields p)
  (densePlan r modified_fields ghostSize sharedSize).exchange field_data field_data

end

-- ---------------------------------------------------------------------------
-- Tasks
-- ---------------------------------------------------------------------------

structure DenseContext where
  field_data : ℕ → List UInt8
  ghost_is_readable : ℕ → Bool

section
variable (r : Registry n)

/-- The part of `execute_task` before the task runs. `args` are the accessors in the
order in which the walk over the arguments reaches them. -/
def startTask (args : List DenseAccessor) (s : Fin n → DenseContext) :
    Option (Fin n → DenseContext) := do
  let walked := fun p => args.foldl prologDense ((s p).ghost_is_readable, [])
  let field_data ← launchDenseExchange r (fun p => (walked p).2) fun p => (s p).field_data
  some fun p => ⟨field_data p, (walked p).1⟩

def finishTask (args : List DenseAccessor) (s : Fin n → DenseContext) (p : Fin n) : DenseContext :=
  { s p with ghost_is_readable := args.foldl epilogDense (s p).ghost_is_readable }

/-- The bytes of a field a task may change with its accessors. -/
def Writable (args : List DenseAccessor) (f : ℕ) (p : Fin n) (i : ℕ) : Prop :=
  ∃ a ∈ args, a.fid = f ∧
    (i < r.sharedData f p ∧ a.exclusive.Writes ∨
      r.sharedData f p ≤ i ∧ i < r.ghostData f p ∧ a.shared.Writes ∨
      r.ghostData f p ≤ i ∧ a.ghost.Writes)

/-- The task itself: any change of the bytes its accessors may write. -/
structure Performs (args : List DenseAccessor) (s s' : Fin n → DenseContext) : Prop where
  flags : ∀ p, (s' p).ghost_is_readable = (s p).ghost_is_readable
  length : ∀ p f, ((s' p).field_data f).length = ((s p).field_data f).length
  frame : ∀ p f i, ¬Writable r args f p i →
    ((s' p).field_data f)[i]? = ((s p).field_data f)[i]?

/-- One task on all ranks. -/
def TaskStep (args : List DenseAccessor) (s s' : Fin n → DenseContext) : Prop :=
  ∃ b b', startTask r args s = some b ∧ Performs r args b b' ∧ s' = finishTask args b'

/-- The state after start-up: all buffers zero, all flags set. -/
def initialContext (p : Fin n) : DenseContext where
  field_data f := List.replicate (r.dataSize f p) 0
  ghost_is_readable _ := true

def element (size : ℕ) (data : List UInt8) (i : ℕ) : List UInt8 := (data.drop (i * size)).take size

/-- Every ghost element of a field is its owner's shared element. -/
def Coherent (s : Fin n → DenseContext) (f : ℕ) : Prop :=
  ∀ (p : Fin n) (i : ℕ) (ghost : EntityInfo), (r.fieldColoring f p).ghost[i]? = some ghost →
    ∀ q : Fin n, ghost.rank = q →
      element (r.size f) ((s p).field_data f)
          ((r.fieldColoring f p).exclusive.length + (r.fieldColoring f p).shared.length + i) =
        element (r.size f) ((s q).field_data f)
          ((r.fieldColoring f q).exclusive.length + ghost.offset)

/-- The fields a task exchanges, on a rank with these flags. -/
def modifiedFields (args : List DenseAccessor) (readable : ℕ → Bool) : List ℕ :=
  (args.foldl prologDense (readable, [])).2

/-- The sizes of the messages of a task fit in an `int`. -/
def MessagesFit (args : List DenseAccessor) (readable : ℕ → Bool) : Prop :=
  ∀ p q : Fin n, ((modifiedFields args readable).map
    fun f => (r.metadata f p).ghost_field_sizes q).sum < 2 ^ 31

/-- A state some sequence of tasks with ghost permissions `na` and `ro` leads to. -/
def Reachable (s : Fin n → DenseContext) : Prop :=
  Relation.ReflTransGen
    (fun s s' => ∃ args, (∀ a ∈ args, a.ghost = .na ∨ a.ghost = .ro) ∧ TaskStep r args s s')
    (initialContext r) s

end

end Flecsi.Execution
