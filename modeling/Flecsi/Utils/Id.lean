import Flecsi.Lib.BitFields

/-!
# Entity ids

An id has six bit fields. Ids are compared by four of them, packed into one word of
64 bits by shifts that depend on the configured widths.
-/

namespace Flecsi.Utils.IdFields

open BitFields

/-- The template's parameters, as its assertion accepts them. A field has a bit and
fits `size_t`. -/
structure Config where
  PBITS : ℕ
  EBITS : ℕ
  FBITS : ℕ
  GBITS : ℕ
  total : PBITS + EBITS + FBITS + GBITS + 4 = 128
  pos : 0 < PBITS ∧ 0 < EBITS ∧ 0 < FBITS ∧ 0 < GBITS
  fits : PBITS ≤ 64 ∧ EBITS ≤ 64 ∧ FBITS ≤ 64 ∧ GBITS ≤ 64

/-- `std::size_t`. -/
abbrev Size := BitVec 64

/-- `id_`. -/
structure Id (c : Config) where
  dimension : BitVec 2
  domain : BitVec 2
  partition : BitVec c.PBITS
  entity : BitVec c.EBITS
  flags : BitVec c.FBITS
  global : BitVec c.GBITS

variable {c : Config}

def make (D M local_id partition_id global flags : Size) : Id c where
  dimension := D.setWidth 2
  domain := M.setWidth 2
  partition := partition_id.setWidth c.PBITS
  entity := local_id.setWidth c.EBITS
  flags := flags.setWidth c.FBITS
  global := global.setWidth c.GBITS

/-- `1 << n` for an `int`, converted to `size_t`. A shift by all its bits is not
defined. -/
def oneShifted (n : ℕ) : Option Size := if n < 32 then some ((1#32 <<< n).signExtend 64) else none

namespace Id

def set_partition (id : Id c) (partition : Size) : Id c := { id with partition := partition.setWidth c.PBITS }

def set_flags (id : Id c) (flags : Size) : Option (Id c) := do
  let bound ← oneShifted c.FBITS
  if flags < bound then some { id with flags := flags.setWidth c.FBITS } else none

def set_global (id : Id c) (global : Size) : Id c := { id with global := global.setWidth c.GBITS }

def set_local (id : Id c) (loc : Size) : Id c := { id with entity := loc.setWidth c.EBITS }

/-- A shift by all bits of the word is not defined. -/
def local_id (id : Id c) : Option (BitVec 64) :=
  if 4 + c.PBITS < 64 then
    let r := id.dimension.setWidth 64
    let r := r ||| id.domain.setWidth 64 <<< 2
    let r := r ||| id.partition.setWidth 64 <<< 4
    some (r ||| id.entity.setWidth 64 <<< (4 + c.PBITS))
  else none

/-- `operator<`. -/
def lt (id1 id2 : Id c) : Option Bool := do
  let a ← id1.local_id
  let b ← id2.local_id
  some (decide (a < b))

/-- `operator==`. -/
def eq (id1 id2 : Id c) : Option Bool := do
  let a ← id1.local_id
  let b ← id2.local_id
  some (decide (a = b))

end Id

/-- What is assigned to an id after it was made. -/
inductive Setter
  | partition (x : Size)
  | flags (x : Size)
  | global (x : Size)
  | local (x : Size)

def Setter.run (id : Id c) : Setter → Option (Id c)
  | .partition x => some (id.set_partition x)
  | .flags x => id.set_flags x
  | .global x => some (id.set_global x)
  | .local x => some (id.set_local x)

/-- What the getters give. -/
structure Fields where
  dimension : Size
  domain : Size
  partition : Size
  entity : Size
  flags : Size
  global : Size

def getters (id : Id c) : Fields :=
  ⟨id.dimension.setWidth 64, id.domain.setWidth 64, id.partition.setWidth 64, id.entity.setWidth 64, id.flags.setWidth 64,
    id.global.setWidth 64⟩

/-- What was given last. -/
def Setter.put (f : Fields) : Setter → Fields
  | .partition x => { f with partition := x }
  | .flags x => { f with flags := x }
  | .global x => { f with global := x }
  | .local x => { f with entity := x }

def Setter.Fits (c : Config) : Setter → Prop
  | .partition x => x.toNat < 2 ^ c.PBITS
  | .flags x => x.toNat < 2 ^ c.FBITS
  | .global x => x.toNat < 2 ^ c.GBITS
  | .local x => x.toNat < 2 ^ c.EBITS

structure Fields.Fit (c : Config) (f : Fields) : Prop where
  dimension : f.dimension.toNat < 2 ^ 2
  domain : f.domain.toNat < 2 ^ 2
  partition : f.partition.toNat < 2 ^ c.PBITS
  entity : f.entity.toNat < 2 ^ c.EBITS
  flags : f.flags.toNat < 2 ^ c.FBITS
  global : f.global.toNat < 2 ^ c.GBITS

/-- All fields are given back as they were made or set last. -/
def RoundTrips (c : Config) : Prop :=
  ∀ (f : Fields) (setters : List Setter), f.Fit c → (∀ s ∈ setters, s.Fits c) →
    ∃ id : Id c, setters.foldlM Setter.run (make f.dimension f.domain f.entity f.partition f.global f.flags) = some id ∧
      getters id = setters.foldl Setter.put f

/-- The fields that ids are compared by, the first one first. -/
def key (id : Id c) : ℕ ×ₗ ℕ ×ₗ ℕ ×ₗ ℕ :=
  toLex (id.entity.toNat, toLex (id.partition.toNat, toLex (id.domain.toNat, id.dimension.toNat)))

def Compares (c : Config) : Prop :=
  ∀ id1 id2 : Id c, id1.eq id2 = some (decide (key id1 = key id2)) ∧ id1.lt id2 = some (decide (key id1 < key id2))

-- ---------------------------------------------------------------------------
-- Fields
-- ---------------------------------------------------------------------------

theorem setWidth_setWidth {x : Size} {k : ℕ} (h : x.toNat < 2 ^ k) : (x.setWidth k).setWidth 64 = x := by
  apply BitVec.eq_of_toNat_eq
  rw [BitVec.toNat_setWidth, BitVec.toNat_setWidth, Nat.mod_eq_of_lt h, Nat.mod_eq_of_lt x.isLt]

theorem getters_make {f : Fields} (h : f.Fit c) :
    getters (make f.dimension f.domain f.entity f.partition f.global f.flags : Id c) = f := by
  simp only [getters, make, setWidth_setWidth h.dimension, setWidth_setWidth h.domain, setWidth_setWidth h.partition,
    setWidth_setWidth h.entity, setWidth_setWidth h.flags, setWidth_setWidth h.global]

/-- With 31 bits the bound is negative, and becomes larger than all flags. -/
theorem oneShifted_bound {k : ℕ} (h : k < 32) : ∃ bound, oneShifted k = some bound ∧ 2 ^ k ≤ bound.toNat := by
  have hall : ∀ k : Fin 32, 2 ^ k.val ≤ ((1#32 <<< k.val).signExtend 64).toNat := by decide
  exact ⟨_, if_pos h, hall ⟨k, h⟩⟩

theorem run_getters (hflags : c.FBITS < 32) (id : Id c) {s : Setter} (hs : s.Fits c) :
    ∃ id', s.run id = some id' ∧ getters id' = s.put (getters id) := by
  cases s with
  | partition x => exact ⟨_, rfl, by simp only [Id.set_partition, getters, Setter.put, setWidth_setWidth hs]⟩
  | global x => exact ⟨_, rfl, by simp only [Id.set_global, getters, Setter.put, setWidth_setWidth hs]⟩
  | «local» x => exact ⟨_, rfl, by simp only [Id.set_local, getters, Setter.put, setWidth_setWidth hs]⟩
  | flags x =>
    obtain ⟨bound, hbound, hle⟩ := oneShifted_bound hflags
    have hlt : x < bound := BitVec.lt_def.mpr (lt_of_lt_of_le hs hle)
    refine ⟨{ id with flags := x.setWidth c.FBITS }, ?_, by simp only [getters, Setter.put, setWidth_setWidth hs]⟩
    rw [Setter.run, Id.set_flags, hbound]
    exact if_pos hlt

theorem foldlM_getters (hflags : c.FBITS < 32) (id : Id c) {setters : List Setter} (hs : ∀ s ∈ setters, s.Fits c) :
    ∃ id', setters.foldlM Setter.run id = some id' ∧ getters id' = setters.foldl Setter.put (getters id) := by
  induction setters generalizing id with
  | nil => exact ⟨id, rfl, rfl⟩
  | cons s setters ih =>
    obtain ⟨id1, hrun, hget⟩ := run_getters hflags id (hs s List.mem_cons_self)
    obtain ⟨id', hrest, hall⟩ := ih id1 fun t ht => hs t (List.mem_cons_of_mem s ht)
    exact ⟨id', by rw [List.foldlM_cons, hrun]; exact hrest, by rw [hall, hget, List.foldl_cons]⟩

/-- From 32 bits on the bound of the flags is not defined. -/
theorem roundTrips_iff (c : Config) : RoundTrips c ↔ c.FBITS < 32 := by
  constructor
  · intro h
    by_contra hge
    have hzero (k : ℕ) : (0 : Size).toNat < 2 ^ k := Nat.two_pow_pos k
    obtain ⟨id, hrun, -⟩ := h ⟨0, 0, 0, 0, 0, 0⟩ [.flags 0] ⟨hzero _, hzero _, hzero _, hzero _, hzero _, hzero _⟩
      (by simp only [List.forall_mem_singleton]; exact hzero _)
    simp only [List.foldlM_cons, Setter.run, Id.set_flags, oneShifted, if_neg hge] at hrun
    cases hrun
  · intro hflags f setters hf hs
    obtain ⟨id, hrun, hget⟩ := foldlM_getters hflags (make f.dimension f.domain f.entity f.partition f.global f.flags) hs
    exact ⟨id, hrun, hget.trans (by rw [getters_make hf])⟩

-- ---------------------------------------------------------------------------
-- Comparison
-- ---------------------------------------------------------------------------

theorem toNat_widened {k : ℕ} (h : k ≤ 64) (x : BitVec k) : (x.setWidth 64).toNat = x.toNat := by
  rw [BitVec.toNat_setWidth, Nat.mod_eq_of_lt (x.isLt.trans_le (Nat.pow_le_pow_right Nat.two_pos h))]

/-- The fields below the entity. -/
def low (id : Id c) : ℕ := id.dimension.toNat + id.domain.toNat * 2 ^ 2 + id.partition.toNat * 2 ^ 4

theorem low_lt (id : Id c) : id.dimension.toNat + id.domain.toNat * 2 ^ 2 < 2 ^ 4 ∧ low id < 2 ^ (4 + c.PBITS) := by
  have hdim : id.dimension.toNat < 2 ^ 2 := id.dimension.isLt
  have hdom : id.domain.toNat < 2 ^ 2 := id.domain.isLt
  have hpart : id.partition.toNat + 1 ≤ 2 ^ c.PBITS := id.partition.isLt
  have hmul := Nat.mul_le_mul_right (2 ^ 4) hpart
  rw [← Nat.pow_add, Nat.add_comm c.PBITS, Nat.succ_mul] at hmul
  refine ⟨by omega, ?_⟩
  rw [low]
  omega

/-- The four fields one above the other, where they fit. -/
theorem local_id_eq (h : c.PBITS + c.EBITS ≤ 60) (id : Id c) :
    ∃ r, id.local_id = some r ∧ r.toNat = low id + id.entity.toNat * 2 ^ (4 + c.PBITS) := by
  obtain ⟨hlow, hlt⟩ := low_lt id
  have hdim : id.dimension.toNat < 2 ^ 2 := id.dimension.isLt
  have hdom : id.domain.toNat < 2 ^ 2 := id.domain.isLt
  have hpos := c.pos
  have hshift : 4 + c.PBITS < 64 := by omega
  have htop : id.entity.toNat * 2 ^ (4 + c.PBITS) < 2 ^ 64 := by
    have hmul := Nat.mul_lt_mul_of_pos_right id.entity.isLt (Nat.two_pow_pos (4 + c.PBITS))
    rw [← Nat.pow_add] at hmul
    exact hmul.trans_le (Nat.pow_le_pow_right Nat.two_pos (by omega))
  have hword : low id < 2 ^ 64 := hlt.trans_le (Nat.pow_le_pow_right Nat.two_pos hshift.le)
  have hd := toNat_widened (by norm_num) id.dimension
  have hm := toNat_widened (by norm_num) id.domain
  have hp := toNat_widened c.fits.1 id.partition
  have he := toNat_widened c.fits.2.1 id.entity
  rw [low] at hword hlt ⊢
  refine ⟨_, if_pos hshift, ?_⟩
  have h1 := @toNat_or_shiftLeft 64 (id.dimension.setWidth 64) (id.domain.setWidth 64) 2 (by omega) (by omega)
  rw [hd, hm] at h1
  have h2 := @toNat_or_shiftLeft 64 _ (id.partition.setWidth 64) 4 (h1.trans_lt hlow) (by omega)
  rw [h1, hp] at h2
  have h3 := @toNat_or_shiftLeft 64 _ (id.entity.setWidth 64) (4 + c.PBITS) (h2.trans_lt hlt) (by rw [he]; exact htop)
  rw [h2, he] at h3
  exact h3

theorem key_lt_iff (id1 id2 : Id c) : key id1 < key id2 ↔
    low id1 + id1.entity.toNat * 2 ^ (4 + c.PBITS) < low id2 + id2.entity.toNat * 2 ^ (4 + c.PBITS) := by
  rw [add_mul_lt (low_lt id1).2 (low_lt id2).2, low, low, add_mul_lt (low_lt id1).1 (low_lt id2).1,
    add_mul_lt id1.dimension.isLt id2.dimension.isLt]
  simp only [key, Prod.Lex.toLex_lt_toLex]

theorem key_inj (id1 id2 : Id c) : key id1 = key id2 ↔
    low id1 + id1.entity.toNat * 2 ^ (4 + c.PBITS) = low id2 + id2.entity.toNat * 2 ^ (4 + c.PBITS) := by
  rw [add_mul_inj (low_lt id1).2 (low_lt id2).2, low, low, add_mul_inj (low_lt id1).1 (low_lt id2).1,
    add_mul_inj id1.dimension.isLt id2.dimension.isLt]
  simp only [key, toLex_inj, Prod.mk.injEq]

theorem compares_of_fit (h : c.PBITS + c.EBITS ≤ 60) : Compares c := by
  intro id1 id2
  obtain ⟨r1, hlocal1, hr1⟩ := local_id_eq h id1
  obtain ⟨r2, hlocal2, hr2⟩ := local_id_eq h id2
  constructor
  · simp only [Id.eq, hlocal1, hlocal2, key_inj, ← hr1, ← hr2, BitVec.toNat_inj]
    rfl
  · simp only [Id.lt, hlocal1, hlocal2, key_lt_iff, ← hr1, ← hr2, ← BitVec.lt_def]
    rfl

/-- The lowest bit that is shifted out of the word tells two ids apart, but not
their packed words. -/
theorem not_compares (h : 60 < c.PBITS + c.EBITS) : ¬ Compares c := by
  intro hcompares
  have hpos := c.pos
  let id1 : Id c := ⟨0, 0, 0, 0, 0, 0⟩
  let id2 : Id c := ⟨0, 0, 0, BitVec.twoPow _ (60 - c.PBITS), 0, 0⟩
  have heq := (hcompares id1 id2).1
  by_cases hshift : 4 + c.PBITS < 64
  · have hentity : (BitVec.twoPow c.EBITS (60 - c.PBITS)).toNat = 2 ^ (60 - c.PBITS) := by
      rw [BitVec.toNat_twoPow, Nat.mod_eq_of_lt (Nat.pow_lt_pow_right Nat.one_lt_two (by omega))]
    have hlost : (BitVec.twoPow c.EBITS (60 - c.PBITS)).setWidth 64 <<< (4 + c.PBITS) = 0#64 := by
      apply BitVec.eq_of_toNat_eq
      rw [BitVec.toNat_shiftLeft, toNat_widened c.fits.2.1, hentity, Nat.shiftLeft_eq, ← Nat.pow_add,
        (by omega : 60 - c.PBITS + (4 + c.PBITS) = 64), Nat.mod_self]
      rfl
    have hkey : key id1 ≠ key id2 := by
      intro hsame
      have hzero : (0 : BitVec c.EBITS).toNat = (BitVec.twoPow c.EBITS (60 - c.PBITS)).toNat :=
        congrArg (fun k => (ofLex k).1) hsame
      rw [hentity] at hzero
      exact (Nat.two_pow_pos _).ne hzero
    have hlocal : id2.local_id = id1.local_id := by
      simp only [Id.local_id, id1, id2, hlost]
      simp
    obtain ⟨r, hr⟩ : ∃ r, id1.local_id = some r := ⟨_, if_pos hshift⟩
    simp [Id.eq, hlocal, hr, hkey] at heq
  · simp only [Id.eq, Id.local_id, if_neg hshift] at heq
    cases heq

theorem id_faithful_iff (c : Config) : (RoundTrips c ↔ c.FBITS < 32) ∧ (Compares c ↔ c.PBITS + c.EBITS ≤ 60) :=
  ⟨roundTrips_iff c, fun h => le_of_not_gt fun hlt => not_compares hlt h, compares_of_fit⟩

/-- The widths that the comment on the fields has with one bit more for entities. -/
def wide : Config := ⟨20, 41, 4, 59, by decide, by decide, by decide⟩

theorem not_id_faithful : ¬ Compares wide ∧ ¬ RoundTrips ⟨20, 20, 32, 52, by decide, by decide, by decide⟩ := by
  refine ⟨not_compares (by decide), fun h => ?_⟩
  exact absurd ((roundTrips_iff _).mp h) (by decide)

end Flecsi.Utils.IdFields
