import Flecsi.Lib.BitFields

/-!
# Registry keys

The keys of the field and client registries carry small components below a
hash. The decoders read the components back.
-/

namespace Flecsi.Utils

open BitFields

/-- `size_t`. -/
abbrev Key := BitVec 64

def fieldHashVersionBits : ℕ := 3

def bitRange (mask : Key) (shift : ℕ) (key : Key) : Key := key >>> shift &&& mask

-- ---------------------------------------------------------------------------
-- Encoders and decoders
-- ---------------------------------------------------------------------------

def fieldHash (nspace name version : Key) : Key :=
  ((nspace ^^^ name) <<< fieldHashVersionBits ||| version) &&& ~~~((1 : Key) <<< 63)

def fieldHashVersion (key : Key) : Key := bitRange (((1 : Key) <<< fieldHashVersionBits) - 1) 0 key

def isInternal (key : Key) : Bool := key &&& (1 : Key) <<< 63 != 0

def clientEntityHash (nspace name index domain dimension : Key) : Key :=
  (nspace ^^^ name) <<< 12 ||| index <<< 4 ||| domain <<< 2 ||| dimension

def clientEntityIndex (key : Key) : Key := bitRange 0xff 4 key

def clientEntityDomain (key : Key) : Key := bitRange 0x03 2 key

def clientEntityDimension (key : Key) : Key := bitRange 0x03 0 key

def clientAdjacencyHash (nspace name index fromDomain toDomain fromDimension toDimension : Key) : Key :=
  (nspace ^^^ name) <<< 16 ||| index <<< 8 ||| fromDomain <<< 6 ||| toDomain <<< 4 ||| fromDimension <<< 2 |||
    toDimension

def clientIndexSubspaceHash (nspace name index indexSubspace : Key) : Key :=
  (nspace ^^^ name) <<< 16 ||| index <<< 8 ||| indexSubspace

/-- Of an adjacency key and of an index subspace key. -/
def clientAdjacencyIndex (key : Key) : Key := bitRange 0xff 8 key

def clientAdjacencyFromDomain (key : Key) : Key := bitRange 0x03 6 key

def clientAdjacencyToDomain (key : Key) : Key := bitRange 0x03 4 key

def clientAdjacencyFromDimension (key : Key) : Key := bitRange 0x03 2 key

def clientAdjacencyToDimension (key : Key) : Key := bitRange 0x03 0 key

def clientInternalFieldHash (label nspace name indexSpace : Key) : Key :=
  ((label ^^^ (nspace ^^^ name)) <<< 8 ||| indexSpace) ||| (1 : Key) <<< 63

def clientInternalFieldIndexSpace (key : Key) : Key := bitRange 0xff 8 key

-- ---------------------------------------------------------------------------
-- Components within their widths
-- ---------------------------------------------------------------------------

structure Entity where
  index : BitVec 8
  domain : BitVec 2
  dimension : BitVec 2
  deriving DecidableEq

structure Adjacency where
  index : BitVec 8
  fromDomain : BitVec 2
  toDomain : BitVec 2
  fromDimension : BitVec 2
  toDimension : BitVec 2
  deriving DecidableEq

structure IndexSubspace where
  index : BitVec 8
  indexSubspace : BitVec 8
  deriving DecidableEq

section
variable (nspace name : Key)

def Entity.key (e : Entity) : Key :=
  clientEntityHash nspace name (e.index.setWidth 64) (e.domain.setWidth 64) (e.dimension.setWidth 64)

def Adjacency.key (a : Adjacency) : Key :=
  clientAdjacencyHash nspace name (a.index.setWidth 64) (a.fromDomain.setWidth 64) (a.toDomain.setWidth 64)
    (a.fromDimension.setWidth 64) (a.toDimension.setWidth 64)

def IndexSubspace.key (s : IndexSubspace) : Key :=
  clientIndexSubspaceHash nspace name (s.index.setWidth 64) (s.indexSubspace.setWidth 64)

def versionKey (version : BitVec fieldHashVersionBits) : Key := fieldHash nspace name (version.setWidth 64)

def internalKey (label : Key) (indexSpace : BitVec 8) : Key :=
  clientInternalFieldHash label nspace name (indexSpace.setWidth 64)

end

theorem bitRange_two (shift : ℕ) (key : Key) : bitRange 0x03 shift key = key >>> shift &&& lowMask 64 2 := rfl

theorem bitRange_eight (shift : ℕ) (key : Key) : bitRange 0xff shift key = key >>> shift &&& lowMask 64 8 := rfl

-- ---------------------------------------------------------------------------
-- What the decoders read
-- ---------------------------------------------------------------------------

/-- The decoders of an entity key. -/
structure Entity.Decodes (e : Entity) (key : Key) : Prop where
  index : clientEntityIndex key = e.index.setWidth 64
  domain : clientEntityDomain key = e.domain.setWidth 64
  dimension : clientEntityDimension key = e.dimension.setWidth 64

structure Adjacency.Decodes (a : Adjacency) (key : Key) : Prop where
  index : clientAdjacencyIndex key = a.index.setWidth 64
  fromDomain : clientAdjacencyFromDomain key = a.fromDomain.setWidth 64
  toDomain : clientAdjacencyToDomain key = a.toDomain.setWidth 64
  fromDimension : clientAdjacencyFromDimension key = a.fromDimension.setWidth 64
  toDimension : clientAdjacencyToDimension key = a.toDimension.setWidth 64

section
variable (nspace name : Key)

theorem Entity.decodes (e : Entity) : e.Decodes (e.key nspace name) := by
  constructor <;>
  simp (disch := decide) only [clientEntityIndex, clientEntityDomain, clientEntityDimension, Entity.key,
    clientEntityHash, bitRange_two, bitRange_eight, range_or, range_above, range_component, range_below, range_bottom,
    range_bottom_below, BitVec.or_zero, BitVec.zero_or]

theorem Adjacency.decodes (a : Adjacency) : a.Decodes (a.key nspace name) := by
  constructor <;>
  simp (disch := decide) only [clientAdjacencyIndex, clientAdjacencyFromDomain, clientAdjacencyToDomain,
    clientAdjacencyFromDimension, clientAdjacencyToDimension, Adjacency.key, clientAdjacencyHash, bitRange_two,
    bitRange_eight, range_or, range_above, range_component, range_below, range_bottom, range_bottom_below,
    BitVec.or_zero, BitVec.zero_or]

theorem IndexSubspace.decodes (s : IndexSubspace) : clientAdjacencyIndex (s.key nspace name) = s.index.setWidth 64 := by
  simp (disch := decide) only [clientAdjacencyIndex, IndexSubspace.key, clientIndexSubspaceHash, bitRange_eight,
    range_or, range_above, range_component, range_bottom_below, BitVec.or_zero, BitVec.zero_or]

/-- The cleared bit is no bit of the version. -/
theorem fieldHashVersion_versionKey (version : BitVec fieldHashVersionBits) :
    fieldHashVersion (versionKey nspace name version) = version.setWidth 64 := by
  have hclear (x : Key) : (x &&& ~~~((1 : Key) <<< 63)) >>> 0 &&& lowMask 64 3 = x >>> 0 &&& lowMask 64 3 := by
    rw [BitVec.ushiftRight_zero, BitVec.ushiftRight_zero, BitVec.and_assoc]
    rfl
  have hmask : bitRange (((1 : Key) <<< fieldHashVersionBits) - 1) 0 = fun key : Key => key >>> 0 &&& lowMask 64 3 := rfl
  have hbottom : version.setWidth 64 >>> 0 &&& lowMask 64 3 = version.setWidth 64 := range_bottom version (by decide)
  rw [fieldHashVersion, hmask, versionKey, fieldHash]
  simp (disch := decide) only [hclear, range_or, fieldHashVersionBits, range_above, BitVec.zero_or]
  exact hbottom

/-- The decoder of the index space reads the byte above it, the lowest of the
hash. -/
theorem clientInternalFieldIndexSpace_internalKey (label : Key) (indexSpace : BitVec 8) :
    clientInternalFieldIndexSpace (internalKey nspace name label indexSpace) =
      ((label ^^^ (nspace ^^^ name)).setWidth 8).setWidth 64 := by
  simp (disch := decide) only [clientInternalFieldIndexSpace, internalKey, clientInternalFieldHash, bitRange_eight,
    range_or, range_self, range_above, range_bottom_below, BitVec.or_zero]

theorem isInternal_internalKey (label : Key) (indexSpace : BitVec 8) :
    isInternal (internalKey nspace name label indexSpace) = true := by
  have hbit (x : Key) : (x ||| (1 : Key) <<< 63) &&& (1 : Key) <<< 63 = (1 : Key) <<< 63 := by
    ext i hi
    simp
    grind
  rw [isInternal, internalKey, clientInternalFieldHash, hbit]
  decide

theorem isInternal_fieldHash (version : Key) : isInternal (fieldHash nspace name version) = false := by
  rw [isInternal, fieldHash, BitVec.and_assoc]
  simp

-- ---------------------------------------------------------------------------
-- Keys of different components
-- ---------------------------------------------------------------------------

theorem Entity.Decodes.unique {e e' : Entity} {key : Key} (h : e.Decodes key) (h' : e'.Decodes key) : e = e' := by
  cases e
  cases e'
  rw [Entity.mk.injEq]
  exact ⟨(setWidth_inj (by decide)).mp (h.index.symm.trans h'.index), (setWidth_inj (by decide)).mp (h.domain.symm.trans h'.domain),
    (setWidth_inj (by decide)).mp (h.dimension.symm.trans h'.dimension)⟩

theorem Adjacency.Decodes.unique {a a' : Adjacency} {key : Key} (h : a.Decodes key) (h' : a'.Decodes key) : a = a' := by
  cases a
  cases a'
  rw [Adjacency.mk.injEq]
  exact ⟨(setWidth_inj (by decide)).mp (h.index.symm.trans h'.index),
    (setWidth_inj (by decide)).mp (h.fromDomain.symm.trans h'.fromDomain),
    (setWidth_inj (by decide)).mp (h.toDomain.symm.trans h'.toDomain),
    (setWidth_inj (by decide)).mp (h.fromDimension.symm.trans h'.fromDimension),
    (setWidth_inj (by decide)).mp (h.toDimension.symm.trans h'.toDimension)⟩

theorem IndexSubspace.key_injective : Function.Injective (IndexSubspace.key nspace name) := by
  intro s s' h
  have hindex := congrArg clientAdjacencyIndex h
  rw [decodes, decodes, setWidth_inj (by decide)] at hindex
  -- no decoder reads the subspace, but its bits are there
  have hbottom (s : IndexSubspace) : bitRange 0xff 0 (s.key nspace name) = s.indexSubspace.setWidth 64 := by
    simp (disch := decide) only [IndexSubspace.key, clientIndexSubspaceHash, bitRange_eight, range_or, range_above,
      range_bottom, BitVec.zero_or]
  have hsubspace := congrArg (bitRange 0xff 0) h
  rw [hbottom, hbottom, setWidth_inj (by decide)] at hsubspace
  cases s
  cases s'
  rw [IndexSubspace.mk.injEq]
  exact ⟨hindex, hsubspace⟩

theorem versionKey_injective : Function.Injective (versionKey nspace name) := by
  intro version version' h
  have hversion := congrArg fieldHashVersion h
  rwa [fieldHashVersion_versionKey, fieldHashVersion_versionKey, setWidth_inj (by decide)] at hversion

theorem internalKey_injective (label : Key) : Function.Injective (internalKey nspace name label) := by
  intro indexSpace indexSpace' h
  have hbottom (x : BitVec 8) : bitRange 0xff 0 (internalKey nspace name label x) = x.setWidth 64 := by
    simp (disch := decide) only [internalKey, clientInternalFieldHash, bitRange_eight, range_or, range_above,
      range_bottom, BitVec.zero_or, BitVec.or_zero]
  have hspace := congrArg (bitRange 0xff 0) h
  rwa [hbottom, hbottom, setWidth_inj (by decide)] at hspace

-- ---------------------------------------------------------------------------
-- All keys
-- ---------------------------------------------------------------------------

/-- The decoders give the components back, other components give other keys,
and the keys of internal fields are told from those of fields. -/
structure KeyLaws (label : Key) (e : Entity) (a : Adjacency) (s : IndexSubspace) (version : BitVec fieldHashVersionBits)
    (indexSpace : BitVec 8) : Prop where
  entity : e.Decodes (e.key nspace name)
  adjacency : a.Decodes (a.key nspace name)
  indexSubspace : clientAdjacencyIndex (s.key nspace name) = s.index.setWidth 64
  field : fieldHashVersion (versionKey nspace name version) = version.setWidth 64
  internalField : clientInternalFieldIndexSpace (internalKey nspace name label indexSpace) = indexSpace.setWidth 64
  entity_ne : ∀ e', e' ≠ e → e'.key nspace name ≠ e.key nspace name
  adjacency_ne : ∀ a', a' ≠ a → a'.key nspace name ≠ a.key nspace name
  indexSubspace_ne : ∀ s', s' ≠ s → s'.key nspace name ≠ s.key nspace name
  field_ne : ∀ version', version' ≠ version → versionKey nspace name version' ≠ versionKey nspace name version
  internalField_ne : ∀ indexSpace', indexSpace' ≠ indexSpace →
    internalKey nspace name label indexSpace' ≠ internalKey nspace name label indexSpace
  internal : isInternal (internalKey nspace name label indexSpace) = true
  notInternal : isInternal (versionKey nspace name version) = false

/-- Only the index space of an internal field is lost, unless the hash has it in
its lowest byte. -/
theorem keyLaws_iff (label : Key) (e : Entity) (a : Adjacency) (s : IndexSubspace)
    (version : BitVec fieldHashVersionBits) (indexSpace : BitVec 8) :
    KeyLaws nspace name label e a s version indexSpace ↔ (label ^^^ (nspace ^^^ name)).setWidth 8 = indexSpace := by
  constructor
  · intro h
    have hspace := h.internalField
    rwa [clientInternalFieldIndexSpace_internalKey, setWidth_inj (by decide)] at hspace
  · rintro rfl
    exact {
      entity := e.decodes nspace name
      adjacency := a.decodes nspace name
      indexSubspace := s.decodes nspace name
      field := fieldHashVersion_versionKey nspace name version
      internalField := clientInternalFieldIndexSpace_internalKey nspace name label _
      entity_ne := fun e' hne heq => hne ((e'.decodes nspace name).unique (heq ▸ e.decodes nspace name))
      adjacency_ne := fun a' hne heq => hne ((a'.decodes nspace name).unique (heq ▸ a.decodes nspace name))
      indexSubspace_ne := fun _ hne => (IndexSubspace.key_injective nspace name).ne hne
      field_ne := fun _ hne => (versionKey_injective nspace name).ne hne
      internalField_ne := fun _ hne => (internalKey_injective nspace name label).ne hne
      internal := isInternal_internalKey nspace name label _
      notInternal := isInternal_fieldHash nspace name _ }

theorem indexSpace_lost : ¬KeyLaws 0 0 0 ⟨0, 0, 0⟩ ⟨0, 0, 0, 0, 0⟩ ⟨0, 0⟩ 0 1 := by
  intro h
  exact absurd h.internalField (by decide)

end

end Flecsi.Utils
