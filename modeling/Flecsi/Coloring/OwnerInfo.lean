import Flecsi.Coloring.Types

/-!
# Shared and ghost cells of a distributed graph

`get_owner_info` sorts the cells of a rank into exclusive and shared ones and
collects the cells of other ranks they neighbour as ghosts. Every rank looks at
its own rows only. `getOwnerInfo_spec` says what one rank finds; the duality of
the lists of two ranks then rests on the symmetry of the graph alone.
-/

namespace Flecsi.Coloring

open SortUnique

-- ---------------------------------------------------------------------------
-- get_owner_info
-- ---------------------------------------------------------------------------

/-- What the neighbours of one cell change. -/
structure NeighborState where
  ghost : List EntityInfo
  ghostOwners : Finset ℕ
  sharedRanks : Finset ℕ

def visitNeighbor (commRank : ℕ) (distribution : List ℕ) (s : NeighborState) (neighbor : ℕ) :
    Option NeighborState := do
  let rank ← rankOwner distribution neighbor
  if rank ≠ commRank then
    let ghostId := neighbor - distribution.getD rank 0
    let e := entityInfo neighbor rank ghostId {commRank}
    let s := if e ∈ s.ghost then s else
      { s with ghost := s.ghost ++ [e], ghostOwners := insert rank s.ghostOwners }
    some { s with sharedRanks := insert rank s.sharedRanks }
  else some s

def visitCell (commRank : ℕ) (dcrs : Dcrs) (s : IndexColoring × ColoringInfo) (localId : ℕ) :
    Option (IndexColoring × ColoringInfo) := do
  let (entities, colorInfo) := s
  let globalId := dcrs.distribution.getD commRank 0 + localId
  let t ← (dcrs.row localId).foldlM (visitNeighbor commRank dcrs.distribution)
    ⟨entities.ghost, colorInfo.ghostOwners, ∅⟩
  let entities := { entities with ghost := t.ghost }
  let colorInfo := { colorInfo with ghostOwners := t.ghostOwners }
  if t.sharedRanks = ∅ then
    some ({ entities with
      exclusive := entities.exclusive ++ [entityInfo globalId commRank localId ∅] }, colorInfo)
  else
    some ({ entities with
        shared := entities.shared ++ [entityInfo globalId commRank localId t.sharedRanks] },
      { colorInfo with sharedUsers := colorInfo.sharedUsers ∪ t.sharedRanks })

/-- `get_owner_info` on one rank. The number of entities is computed as
`end - start + 1` from the last index, in wrapping arithmetic. -/
def getOwnerInfo (commRank : ℕ) (dcrs : Dcrs) (entities : IndexColoring)
    (colorInfo : ColoringInfo) : Option (IndexColoring × ColoringInfo) := do
  let numEntities :=
    dcrs.distribution.getD (commRank + 1) 0 - dcrs.distribution.getD commRank 0
  let (entities, colorInfo) ←
    (List.range numEntities).foldlM (visitCell commRank dcrs) (entities, colorInfo)
  let entities : IndexColoring :=
    ⟨removeUniqueEntities entities.exclusive, removeUniqueEntities entities.shared,
      removeUniqueEntities entities.ghost⟩
  some (entities, { colorInfo with
    exclusive := entities.exclusive.length
    shared := entities.shared.length
    ghost := entities.ghost.length })

-- ---------------------------------------------------------------------------
-- What one rank finds
-- ---------------------------------------------------------------------------

section
variable {d : List ℕ} {n total : ℕ}

/-- The ghost entry a rank makes for a foreign neighbour. -/
def ghostEntry (commRank : ℕ) (d : List ℕ) (x : ℕ) : EntityInfo :=
  entityInfo x (ownerOf d x) (x - d.getD (ownerOf d x) 0) {commRank}

/-- The foreign neighbours in a row. -/
def foreign (commRank : ℕ) (d : List ℕ) (row : List ℕ) : List ℕ :=
  row.filter (ownerOf d · ≠ commRank)

def ownersOf (commRank : ℕ) (d : List ℕ) (row : List ℕ) : Finset ℕ :=
  ((foreign commRank d row).map (ownerOf d)).toFinset

theorem mem_foreign : x ∈ foreign p d row ↔ x ∈ row ∧ ownerOf d x ≠ p := by
  simp [foreign]

theorem mem_ownersOf : r ∈ ownersOf p d row ↔ ∃ x ∈ row, ownerOf d x ≠ p ∧ ownerOf d x = r := by
  simp only [ownersOf, List.mem_toFinset, List.mem_map, mem_foreign, and_assoc]

theorem visitNeighbor_eq (h : Distribution d n total) (hx : x < total) (s : NeighborState)
    (hg : ∀ e ∈ s.ghost, ownerOf d e.id ∈ s.ghostOwners) :
    ∃ s', visitNeighbor p d s x = some s' ∧
      (∀ e, e ∈ s'.ghost ↔ e ∈ s.ghost ∨ ownerOf d x ≠ p ∧ e = ghostEntry p d x) ∧
      (∀ r, r ∈ s'.ghostOwners ↔ r ∈ s.ghostOwners ∨ ownerOf d x ≠ p ∧ r = ownerOf d x) ∧
      (∀ r, r ∈ s'.sharedRanks ↔ r ∈ s.sharedRanks ∨ ownerOf d x ≠ p ∧ r = ownerOf d x) := by
  unfold visitNeighbor
  rw [rankOwner_ownerOf h hx]
  by_cases hp : ownerOf d x = p
  · refine ⟨s, by simp [hp], ?_, ?_, ?_⟩ <;> simp [hp]
  · refine ⟨_, by simp only [Option.bind_eq_bind, Option.bind_some, ne_eq, hp, not_false_eq_true,
      ↓reduceIte]; rfl, ?_, ?_, ?_⟩
    · intro e
      split
      · rename_i hmem
        constructor
        · exact .inl
        · rintro (he | ⟨-, rfl⟩)
          · exact he
          · exact hmem
      · simp [hp, ghostEntry]
    · intro r
      split
      · rename_i hmem
        have hr : ownerOf d x ∈ s.ghostOwners := hg _ hmem
        constructor
        · exact .inl
        · rintro (he | ⟨-, rfl⟩)
          · exact he
          · exact hr
      · simp [hp, or_comm]
    · intro r
      split <;> simp [hp, or_comm]

/-- The neighbours of one cell, one after another. -/
theorem visitNeighbors_eq (h : Distribution d n total) (row : List ℕ) (hrow : ∀ x ∈ row, x < total)
    (s : NeighborState) (hg : ∀ e ∈ s.ghost, ownerOf d e.id ∈ s.ghostOwners) :
    ∃ s', row.foldlM (visitNeighbor p d) s = some s' ∧
      (∀ e, e ∈ s'.ghost ↔ e ∈ s.ghost ∨ ∃ x ∈ foreign p d row, e = ghostEntry p d x) ∧
      (∀ r, r ∈ s'.ghostOwners ↔ r ∈ s.ghostOwners ∨ r ∈ ownersOf p d row) ∧
      (∀ r, r ∈ s'.sharedRanks ↔ r ∈ s.sharedRanks ∨ r ∈ ownersOf p d row) := by
  induction row generalizing s with
  | nil => exact ⟨s, rfl, by simp [foreign], by simp [ownersOf, foreign], by simp [ownersOf, foreign]⟩
  | cons x row ih =>
    obtain ⟨s₁, hs₁, hgh₁, how₁, hsh₁⟩ := visitNeighbor_eq (p := p) h (hrow x (by simp)) s hg
    have hg₁ : ∀ e ∈ s₁.ghost, ownerOf d e.id ∈ s₁.ghostOwners := by
      intro e he
      rcases (hgh₁ e).mp he with he | ⟨hx, rfl⟩
      · exact (how₁ _).mpr (.inl (hg e he))
      · exact (how₁ _).mpr (.inr ⟨hx, rfl⟩)
    obtain ⟨s₂, hs₂, hgh₂, how₂, hsh₂⟩ := ih (fun y hy => hrow y (by simp [hy])) s₁ hg₁
    have hmem : ∀ r, r ∈ ownersOf p d (x :: row) ↔
        (ownerOf d x ≠ p ∧ r = ownerOf d x) ∨ r ∈ ownersOf p d row := by
      intro r
      by_cases hx : ownerOf d x = p <;> simp [ownersOf, foreign, hx]
    refine ⟨s₂, ?_, fun e => ?_, fun r => ?_, fun r => ?_⟩
    · rw [List.foldlM_cons, hs₁]
      exact hs₂
    · rw [hgh₂, hgh₁, or_assoc]
      refine or_congr_right ?_
      by_cases hx : ownerOf d x = p <;> simp [foreign, hx]
    · rw [how₂, how₁, hmem, or_assoc]
    · rw [hsh₂, hsh₁, hmem, or_assoc]

/-- The entry of an own cell. -/
def ownEntry (p : ℕ) (dcrs : Dcrs) (i : ℕ) : EntityInfo :=
  entityInfo (dcrs.distribution.getD p 0 + i) p i (ownersOf p dcrs.distribution (dcrs.row i))

/-- What the loop has collected after the first `k` cells. -/
structure Visited (p : ℕ) (dcrs : Dcrs) (k : ℕ) (s : IndexColoring × ColoringInfo) : Prop where
  exclusive : s.1.exclusive = ((List.range k).filter fun i =>
    ownersOf p dcrs.distribution (dcrs.row i) = ∅).map (ownEntry p dcrs)
  shared : s.1.shared = ((List.range k).filter fun i =>
    ownersOf p dcrs.distribution (dcrs.row i) ≠ ∅).map (ownEntry p dcrs)
  ghost : ∀ e, e ∈ s.1.ghost ↔ ∃ i < k, ∃ x ∈ foreign p dcrs.distribution (dcrs.row i),
    e = ghostEntry p dcrs.distribution x
  ghostOwners : ∀ r, r ∈ s.2.ghostOwners ↔ ∃ i < k, r ∈ ownersOf p dcrs.distribution (dcrs.row i)
  sharedUsers : ∀ r, r ∈ s.2.sharedUsers ↔ ∃ i < k, r ∈ ownersOf p dcrs.distribution (dcrs.row i)

theorem exists_lt_succ_iff {P : ℕ → Prop} : (∃ i < k + 1, P i) ↔ (∃ i < k, P i) ∨ P k := by
  simp only [Nat.lt_succ_iff_lt_or_eq]
  constructor
  · rintro ⟨i, hi | rfl, hp⟩
    · exact .inl ⟨i, hi, hp⟩
    · exact .inr hp
  · rintro (⟨i, hi, hp⟩ | hp)
    · exact ⟨i, .inl hi, hp⟩
    · exact ⟨k, .inr rfl, hp⟩

theorem visitCell_eq {dcrs : Dcrs} (h : Distribution dcrs.distribution n total)
    (hrow : ∀ x ∈ dcrs.row k, x < total) (hs : Visited p dcrs k s) :
    ∃ s', visitCell p dcrs s k = some s' ∧ Visited p dcrs (k + 1) s' := by
  have hg : ∀ e ∈ s.1.ghost, ownerOf dcrs.distribution e.id ∈ s.2.ghostOwners := by
    intro e he
    obtain ⟨i, hi, x, hx, rfl⟩ := (hs.ghost e).mp he
    exact (hs.ghostOwners _).mpr ⟨i, hi, by
      rw [ownersOf, List.mem_toFinset]; exact List.mem_map_of_mem hx⟩
  obtain ⟨t, ht, hgh, how, hsh⟩ := visitNeighbors_eq (p := p) h (dcrs.row k) hrow
    ⟨s.1.ghost, s.2.ghostOwners, ∅⟩ hg
  have hranks : t.sharedRanks = ownersOf p dcrs.distribution (dcrs.row k) := by
    ext r
    simp [hsh]
  have hghost : ∀ e, e ∈ t.ghost ↔ ∃ i < k + 1, ∃ x ∈ foreign p dcrs.distribution (dcrs.row i),
      e = ghostEntry p dcrs.distribution x := fun e => by
    rw [hgh, hs.ghost, exists_lt_succ_iff]
  have howners : ∀ r, r ∈ t.ghostOwners ↔
      ∃ i < k + 1, r ∈ ownersOf p dcrs.distribution (dcrs.row i) := fun r => by
    rw [how, hs.ghostOwners, exists_lt_succ_iff]
  unfold visitCell
  simp only [ht, hranks, Option.bind_eq_bind, Option.bind_some]
  by_cases hempty : ownersOf p dcrs.distribution (dcrs.row k) = ∅
  · rw [if_pos hempty]
    refine ⟨_, rfl, ⟨?_, ?_, hghost, howners, fun r => ?_⟩⟩
    · simp [hs.exclusive, List.range_succ, hempty, ownEntry]
    · simp [hs.shared, List.range_succ, hempty]
    · rw [hs.sharedUsers, exists_lt_succ_iff, hempty]
      simp
  · rw [if_neg hempty]
    refine ⟨_, rfl, ⟨?_, ?_, hghost, howners, fun r => ?_⟩⟩
    · simp [hs.exclusive, List.range_succ, hempty]
    · simp [hs.shared, List.range_succ, hempty, ownEntry]
    · rw [Finset.mem_union, hs.sharedUsers, exists_lt_succ_iff]

theorem visitCells_eq {dcrs : Dcrs} (h : Distribution dcrs.distribution n total) (k : ℕ)
    (hrow : ∀ i < k, ∀ x ∈ dcrs.row i, x < total) (hs : Visited p dcrs 0 s) :
    ∃ s', (List.range k).foldlM (visitCell p dcrs) s = some s' ∧ Visited p dcrs k s' := by
  induction k with
  | zero => exact ⟨s, rfl, hs⟩
  | succ k ih =>
    obtain ⟨s₁, h₁, hv₁⟩ := ih fun i hi => hrow i (by omega)
    obtain ⟨s₂, h₂, hv₂⟩ := visitCell_eq h (hrow k (by omega)) hv₁
    refine ⟨s₂, ?_, hv₂⟩
    rw [List.range_succ, List.foldlM_append, h₁]
    simpa using h₂

end

-- ---------------------------------------------------------------------------
-- Duality
-- ---------------------------------------------------------------------------

/-- The number of cells of a rank. -/
def numCells (d : List ℕ) (p : ℕ) : ℕ := d.getD (p + 1) 0 - d.getD p 0

/-- A graph over the cells of `n` ranks: each rank holds the rows of its range,
and a neighbour on another rank has the edge in its row too. -/
structure DistributedGraph (dcrs : Fin n → Dcrs) (d : List ℕ) (total : ℕ) : Prop where
  ranges : Distribution d n total
  distribution : ∀ p, (dcrs p).distribution = d
  covered : ∀ p : Fin n, ∀ i < numCells d p, ∀ x ∈ (dcrs p).row i, x < total
  symm : ∀ p q : Fin n, p ≠ q → ∀ i < numCells d p, ∀ j < numCells d q,
    d.getD q 0 + j ∈ (dcrs p).row i → d.getD p 0 + i ∈ (dcrs q).row j

/-- The lists of all ranks fit together. Cell `i` of rank `p` has the id
`d[p] + i`. -/
structure DualLists (dcrs : Fin n → Dcrs) (d : List ℕ) (out : Fin n → IndexColoring × ColoringInfo) :
    Prop where
  own : ∀ p : Fin n, ∀ i < numCells d p,
    Xor (∃ e ∈ (out p).1.exclusive, e.id = d.getD p 0 + i)
      (∃ e ∈ (out p).1.shared, e.id = d.getD p 0 + i)
  entries : ∀ p : Fin n, ∀ e ∈ (out p).1.exclusive ++ (out p).1.shared,
    e.offset < numCells d p ∧ e.id = d.getD p 0 + e.offset ∧ e.rank = p
  dual : ∀ p q : Fin n, ∀ i < numCells d p,
    (∃ e ∈ (out p).1.shared, e.id = d.getD p 0 + i ∧ (q : ℕ) ∈ e.shared) ↔
      ∃ g ∈ (out q).1.ghost, g.id = d.getD p 0 + i
  ghostEntries : ∀ p q : Fin n, ∀ i < numCells d p,
    ∀ g ∈ (out q).1.ghost, g.id = d.getD p 0 + i → g.rank = p ∧ g.offset = i
  ghostOnce : ∀ (q : Fin n) (x : ℕ), ((out q).1.ghost.map EntityInfo.id).count x =
    if ownerOf d x ≠ q ∧ ∃ j < numCells d q, x ∈ (dcrs q).row j then 1 else 0
  sorted : ∀ p, (out p).1.exclusive.Pairwise (·.id < ·.id) ∧
    (out p).1.shared.Pairwise (·.id < ·.id) ∧ (out p).1.ghost.Pairwise (·.id < ·.id)
  ghostOwners : ∀ p r, r ∈ (out p).2.ghostOwners ↔ ∃ g ∈ (out p).1.ghost, g.rank = r
  sharedUsers : ∀ p r, r ∈ (out p).2.sharedUsers ↔ ∃ e ∈ (out p).1.shared, r ∈ e.shared
  counts : ∀ p, (out p).2.exclusive = (out p).1.exclusive.length ∧
    (out p).2.shared = (out p).1.shared.length ∧ (out p).2.ghost = (out p).1.ghost.length

/-- The result on one rank: the collected lists, which are sorted already but
for the ghosts. -/
theorem getOwnerInfo_eq {dcrs : Fin n → Dcrs} (hg : DistributedGraph dcrs d total) (p : Fin n) :
    ∃ s, Visited p (dcrs p) (numCells d p) s ∧
      getOwnerInfo p (dcrs p) noColoring noColoringInfo =
        some (⟨s.1.exclusive, s.1.shared, removeUniqueEntities s.1.ghost⟩,
          ⟨s.1.exclusive.length, s.1.shared.length, (removeUniqueEntities s.1.ghost).length,
            s.2.sharedUsers, s.2.ghostOwners⟩) := by
  have hstart : Visited p (dcrs p) 0 (noColoring, noColoringInfo) := by
    constructor <;> simp [noColoring, noColoringInfo]
  obtain ⟨s, hs, hv⟩ := visitCells_eq (p := p) (hg.distribution p ▸ hg.ranges) (numCells d p)
    (hg.covered p) hstart
  refine ⟨s, hv, ?_⟩
  have hsorted : ∀ P : ℕ → Bool, (((List.range (numCells d p)).filter P).map
      (ownEntry p (dcrs p))).Pairwise (·.id < ·.id) := fun P => by
    rw [List.pairwise_map]
    refine (List.pairwise_lt_range.filter P).imp fun hlt => ?_
    simpa [ownEntry, entityInfo] using hlt
  have he : removeUniqueEntities s.1.exclusive = s.1.exclusive := by
    rw [hv.exclusive]; exact sortUnique_of_pairwise (hsorted _)
  have hsh : removeUniqueEntities s.1.shared = s.1.shared := by
    rw [hv.shared]; exact sortUnique_of_pairwise (hsorted _)
  have hk : (dcrs p).distribution.getD (p + 1) 0 - (dcrs p).distribution.getD p 0 = numCells d p := by
    rw [hg.distribution p]; rfl
  simp only [getOwnerInfo, hk, hs, Option.bind_eq_bind, Option.bind_some, he, hsh]

theorem toIndices_eq (hn : n < 2 ^ 31) (p : Fin n) : toIndices p = p :=
  toIndices_of_lt (by have := p.isLt; omega)

section
variable {dcrs : Fin n → Dcrs} (hg : DistributedGraph dcrs d total)
include hg

/-- Where the neighbours of a rank's cells live. -/
theorem DistributedGraph.neighbor {p : Fin n} (hi : i < numCells d p) (hx : x ∈ (dcrs p).row i) :
    ∃ q : Fin n, ∃ j < numCells d q, x = d.getD q 0 + j ∧ ownerOf d x = q := by
  obtain ⟨hlt, hle, hup⟩ := ownerOf_spec hg.ranges (hg.covered p i hi x hx)
  exact ⟨⟨_, hlt⟩, x - d.getD (ownerOf d x) 0, by simp only [numCells]; omega,
    (Nat.add_sub_cancel' hle).symm, rfl⟩

theorem DistributedGraph.ownerOf (p : Fin n) (hi : i < numCells d p) :
    ownerOf d (d.getD p 0 + i) = p := by
  unfold numCells at hi
  exact ownerOf_eq hg.ranges p.isLt (by omega) (by omega)

end

section
variable {s : IndexColoring × ColoringInfo} (hv : Visited p dcrs k s)
include hv

theorem Visited.mem_exclusive : e ∈ s.1.exclusive ↔
    ∃ i < k, ownersOf p dcrs.distribution (dcrs.row i) = ∅ ∧ e = ownEntry p dcrs i := by
  simp only [hv.exclusive, List.mem_map, List.mem_filter, List.mem_range, decide_eq_true_eq,
    and_assoc, eq_comm (b := e)]

theorem Visited.mem_shared : e ∈ s.1.shared ↔
    ∃ i < k, ownersOf p dcrs.distribution (dcrs.row i) ≠ ∅ ∧ e = ownEntry p dcrs i := by
  simp only [hv.shared, List.mem_map, List.mem_filter, List.mem_range, decide_eq_true_eq,
    and_assoc, eq_comm (b := e)]

end

/-- The lists of all ranks are dual, as long as ranks and local ids fit the
types that hold them. -/
theorem getOwnerInfo_dual {dcrs : Fin n → Dcrs} (hg : DistributedGraph dcrs d total)
    (hn : n < 2 ^ 31) (hsize : ∀ p : Fin n, numCells d p ≤ 2 ^ 32) :
    ∃ out : Fin n → IndexColoring × ColoringInfo,
      (∀ p : Fin n, getOwnerInfo p (dcrs p) noColoring noColoringInfo = some (out p)) ∧
        DualLists dcrs d out := by
  choose s hv hout using getOwnerInfo_eq hg
  refine ⟨_, hout, ?_⟩
  have hlocal : ∀ (p : Fin n) (i : ℕ), i < numCells d p → toIndices i = i := fun p i hi =>
    toIndices_of_lt (hi.trans_le (hsize p))
  have hghost : ∀ (q : Fin n) (g : EntityInfo), g ∈ removeUniqueEntities (s q).1.ghost ↔
      ∃ j < numCells d q, ∃ x ∈ (dcrs q).row j, Coloring.ownerOf d x ≠ q ∧ g = ghostEntry q d x := by
    intro q g
    rw [removeUniqueEntities, mem_sortUnique, (hv q).ghost]
    simp only [mem_foreign, hg.distribution, and_assoc]
  have hghostSorted : ∀ q : Fin n, (removeUniqueEntities (s q).1.ghost).Pairwise (·.id < ·.id) := by
    intro q
    refine sortUnique_pairwise fun a ha b hb hab => ?_
    obtain ⟨i, hi, x, hx, rfl⟩ := ((hv q).ghost a).mp ha
    obtain ⟨j, hj, y, hy, rfl⟩ := ((hv q).ghost b).mp hb
    simp only [ghostEntry, entityInfo] at hab
    rw [hab]
  constructor
  · intro p i hi
    have hid : ∀ P : ℕ → Prop, (∃ e, (∃ k < numCells d p, P k ∧ e = ownEntry p (dcrs p) k) ∧
        e.id = d.getD p 0 + i) ↔ P i := by
      intro P
      constructor
      · rintro ⟨e, ⟨k, hk, hP, rfl⟩, he⟩
        simp only [ownEntry, entityInfo, hg.distribution, Nat.add_left_cancel_iff] at he
        exact he ▸ hP
      · intro hP
        exact ⟨_, ⟨i, hi, hP, rfl⟩, by simp only [ownEntry, entityInfo, hg.distribution]⟩
    simp only [(hv p).mem_exclusive, (hv p).mem_shared, hid]
    by_cases he : ownersOf p (dcrs p).distribution ((dcrs p).row i) = ∅ <;> simp [he, Xor]
  · intro p e he
    have : ∃ i < numCells d p, e = ownEntry p (dcrs p) i := by
      rcases List.mem_append.mp he with he | he
      · obtain ⟨i, hi, -, rfl⟩ := (hv p).mem_exclusive.mp he
        exact ⟨i, hi, rfl⟩
      · obtain ⟨i, hi, -, rfl⟩ := (hv p).mem_shared.mp he
        exact ⟨i, hi, rfl⟩
    obtain ⟨i, hi, rfl⟩ := this
    simp only [ownEntry, entityInfo, hg.distribution, hlocal p i hi, toIndices_eq hn p, hi, and_self]
  · intro p q i hi
    simp only [hghost]
    constructor
    · rintro ⟨e, he, hid, hq⟩
      obtain ⟨k, hk, -, rfl⟩ := (hv p).mem_shared.mp he
      simp only [ownEntry, entityInfo, hg.distribution, Nat.add_left_cancel_iff] at hid hq
      subst hid
      obtain ⟨r, hr, hrq⟩ := Finset.mem_image.mp hq
      obtain ⟨x, hx, hne, rfl⟩ := mem_ownersOf.mp hr
      obtain ⟨q', j, hj, rfl, hown⟩ := hg.neighbor hi hx
      rw [hown] at hrq hne
      rw [toIndices_eq hn q', Fin.val_inj] at hrq
      subst hrq
      have hpq : p ≠ q' := fun h => hne (by rw [h])
      refine ⟨_, ⟨j, hj, _, hg.symm p q' hpq k hi j hj hx, ?_, rfl⟩, rfl⟩
      rw [hg.ownerOf p hi]
      exact fun h => hpq (Fin.ext h)
    · rintro ⟨g, ⟨j, hj, x, hx, hne, rfl⟩, hid⟩
      simp only [ghostEntry, entityInfo] at hid
      subst hid
      rw [hg.ownerOf p hi] at hne
      have hqp : q ≠ p := fun h => hne (by rw [h])
      have hmem : (q : ℕ) ∈ ownersOf p (dcrs p).distribution ((dcrs p).row i) :=
        mem_ownersOf.mpr ⟨_, hg.symm q p hqp j hj i hi hx, by
          rw [hg.distribution, hg.ownerOf q hj]; exact ⟨fun h => hqp (Fin.ext h), rfl⟩⟩
      refine ⟨_, (hv p).mem_shared.mpr ⟨i, hi, Finset.ne_empty_of_mem hmem, rfl⟩, ?_, ?_⟩
      · simp only [ownEntry, entityInfo, hg.distribution]
      · exact Finset.mem_image.mpr ⟨q, hmem, toIndices_eq hn q⟩
  · intro p q i hi g hgm hid
    obtain ⟨j, hj, x, hx, hne, rfl⟩ := (hghost q g).mp hgm
    simp only [ghostEntry, entityInfo] at hid
    subst hid
    simp only [ghostEntry, entityInfo, hg.ownerOf p hi, toIndices_eq hn p, Nat.add_sub_cancel_left,
      hlocal p i hi, and_self]
  · intro q x
    have hnodup : ((removeUniqueEntities (s q).1.ghost).map EntityInfo.id).Nodup :=
      (List.pairwise_map.mpr (hghostSorted q)).imp ne_of_lt
    rw [List.Nodup.count hnodup]
    congr 1
    simp only [List.mem_map, hghost, eq_iff_iff]
    constructor
    · rintro ⟨g, ⟨j, hj, y, hy, hne, rfl⟩, rfl⟩
      exact ⟨hne, j, hj, hy⟩
    · rintro ⟨hne, j, hj, hx⟩
      exact ⟨_, ⟨j, hj, x, hx, hne, rfl⟩, rfl⟩
  · intro p
    have hsorted : ∀ P : ℕ → Bool, (((List.range (numCells d p)).filter P).map
        (ownEntry p (dcrs p))).Pairwise (·.id < ·.id) := fun P => by
      rw [List.pairwise_map]
      refine (List.pairwise_lt_range.filter P).imp fun hlt => ?_
      simpa [ownEntry, entityInfo] using hlt
    exact ⟨(hv p).exclusive ▸ hsorted _, (hv p).shared ▸ hsorted _, hghostSorted p⟩
  · intro p r
    rw [(hv p).ghostOwners]
    simp only [hghost, mem_ownersOf, hg.distribution]
    constructor
    · rintro ⟨i, hi, x, hx, hne, rfl⟩
      obtain ⟨q, j, hj, -, hown⟩ := hg.neighbor hi hx
      exact ⟨_, ⟨i, hi, x, hx, hne, rfl⟩, by
        simp only [ghostEntry, entityInfo, hown, toIndices_eq hn q]⟩
    · rintro ⟨g, ⟨i, hi, x, hx, hne, rfl⟩, rfl⟩
      obtain ⟨q, j, hj, -, hown⟩ := hg.neighbor hi hx
      exact ⟨i, hi, x, hx, hne, by simp only [ghostEntry, entityInfo, hown, toIndices_eq hn q]⟩
  · intro p r
    rw [(hv p).sharedUsers]
    simp only [(hv p).mem_shared]
    have hranks : ∀ i < numCells d p, ∀ r ∈ ownersOf p (dcrs p).distribution ((dcrs p).row i),
        toIndices r = r := by
      intro i hi r hr
      rw [hg.distribution] at hr
      obtain ⟨x, hx, hne, rfl⟩ := mem_ownersOf.mp hr
      obtain ⟨q, j, hj, -, hown⟩ := hg.neighbor hi hx
      rw [hown, toIndices_eq hn q]
    constructor
    · rintro ⟨i, hi, hr⟩
      exact ⟨_, ⟨i, hi, Finset.ne_empty_of_mem hr, rfl⟩,
        Finset.mem_image.mpr ⟨r, hr, hranks i hi r hr⟩⟩
    · rintro ⟨e, ⟨i, hi, -, rfl⟩, hr⟩
      obtain ⟨r', hr', rfl⟩ := Finset.mem_image.mp hr
      exact ⟨i, hi, by rwa [hranks i hi r' hr']⟩
  · intro p
    exact ⟨rfl, rfl, rfl⟩

/-- Two ranks of one cell each, neighbours of each other. -/
theorem getOwnerInfo_dual_pair :
    ∃ out : Fin 2 → IndexColoring × ColoringInfo,
      (∀ p : Fin 2, getOwnerInfo p ⟨Crs.ofRows [[1 - p]], [0, 1, 2]⟩ noColoring noColoringInfo =
        some (out p)) ∧
        DualLists (fun p : Fin 2 => ⟨Crs.ofRows [[1 - p]], [0, 1, 2]⟩) [0, 1, 2] out :=
  have hg : DistributedGraph (fun p : Fin 2 => ⟨Crs.ofRows [[1 - p]], [0, 1, 2]⟩) [0, 1, 2] 2 :=
    ⟨⟨rfl, rfl, by decide, rfl⟩, fun _ => rfl, by decide, by decide⟩
  getOwnerInfo_dual hg (by decide) (by decide)

-- A rank of more than 2 ^ 32 cells, whose last one neighbours another rank.
section

def wideDistribution : List ℕ := [0, 2 ^ 32 + 1, 2 ^ 32 + 2]

def wideGraph : Fin 2 → Dcrs
  | 0 => ⟨Crs.ofRows (List.replicate (2 ^ 32) [] ++ [[2 ^ 32 + 1]]), wideDistribution⟩
  | 1 => ⟨Crs.ofRows [[2 ^ 32]], wideDistribution⟩

theorem wideGraph_row_zero (h : x ∈ (wideGraph 0).row i) (hi : i < 2 ^ 32 + 1) :
    x = 2 ^ 32 + 1 ∧ i = 2 ^ 32 := by
  have hlen : i < (List.replicate (2 ^ 32) [] ++ [[2 ^ 32 + 1]]).length := by
    rw [List.length_append, List.length_replicate]; exact hi
  have hrow : (wideGraph 0).row i = (List.replicate (2 ^ 32) [] ++ [[2 ^ 32 + 1]])[i] :=
    Crs.row_ofRows hlen
  rw [hrow] at h
  by_cases hlt : i < 2 ^ 32
  · rw [List.getElem_append_left (by rw [List.length_replicate]; exact hlt),
      List.getElem_replicate] at h
    cases h
  · have hlast : i = 2 ^ 32 := by omega
    subst hlast
    rw [List.getElem_append_right (by rw [List.length_replicate])] at h
    simp only [List.length_replicate, Nat.sub_self, List.getElem_cons_zero,
      List.mem_singleton] at h
    exact ⟨h, rfl⟩

theorem wideGraph_row_last : 2 ^ 32 + 1 ∈ (wideGraph 0).row (2 ^ 32) := by
  have hlen : 2 ^ 32 < (List.replicate (2 ^ 32) [] ++ [[2 ^ 32 + 1]]).length := by
    rw [List.length_append, List.length_replicate]; decide
  have hrow : (wideGraph 0).row (2 ^ 32) =
      (List.replicate (2 ^ 32) [] ++ [[2 ^ 32 + 1]])[2 ^ 32] := Crs.row_ofRows hlen
  rw [hrow, List.getElem_append_right (by rw [List.length_replicate])]
  simp only [List.length_replicate, Nat.sub_self, List.getElem_cons_zero, List.mem_singleton]

theorem wideGraph_row_one (h : x ∈ (wideGraph 1).row i) (hi : i < 1) : x = 2 ^ 32 := by
  obtain rfl : i = 0 := by omega
  exact List.mem_singleton.mp h

theorem wideGraph_distributed : DistributedGraph wideGraph wideDistribution (2 ^ 32 + 2) := by
  refine ⟨⟨rfl, rfl, by decide, rfl⟩, fun p => ?_, fun p i hi x hx => ?_,
    fun p q hpq i hi j hj h => ?_⟩
  · fin_cases p <;> rfl
  · fin_cases p
    · obtain ⟨rfl, -⟩ := wideGraph_row_zero hx hi
      decide
    · obtain rfl := wideGraph_row_one hx hi
      decide
  · fin_cases p <;> fin_cases q
    · exact absurd rfl hpq
    · obtain ⟨-, rfl⟩ := wideGraph_row_zero h hi
      obtain rfl : j = 0 := Nat.lt_one_iff.mp hj
      exact List.mem_singleton.mpr rfl
    · obtain rfl : i = 0 := Nat.lt_one_iff.mp hi
      obtain rfl : j = 2 ^ 32 := (Nat.zero_add j).symm.trans (wideGraph_row_one h hi)
      exact wideGraph_row_last
    · exact absurd rfl hpq

/-- The 32-bit offset of a ghost loses the local id of its owner. -/
theorem getOwnerInfo_wide : DistributedGraph wideGraph wideDistribution (2 ^ 32 + 2) ∧
    ¬ ∃ out : Fin 2 → IndexColoring × ColoringInfo,
      (∀ p : Fin 2, getOwnerInfo p (wideGraph p) noColoring noColoringInfo = some (out p)) ∧
        DualLists wideGraph wideDistribution out := by
  have hg := wideGraph_distributed
  refine ⟨hg, ?_⟩
  rintro ⟨out, hout, hdual⟩
  obtain ⟨s, hv, hs⟩ := getOwnerInfo_eq hg 1
  have hone := Option.some.inj ((hout 1).symm.trans hs)
  have hown : ownerOf wideDistribution (2 ^ 32) = 0 :=
    hg.ownerOf 0 (i := 2 ^ 32) (by decide)
  have hmem : ghostEntry 1 wideDistribution (2 ^ 32) ∈ (out 1).1.ghost := by
    rw [hone, removeUniqueEntities, mem_sortUnique, hv.ghost]
    exact ⟨0, by decide, 2 ^ 32, mem_foreign.mpr ⟨List.mem_singleton.mpr rfl, by
      rw [hg.distribution, hown]; decide⟩, rfl⟩
  obtain ⟨-, hoff⟩ := hdual.ghostEntries 0 1 (2 ^ 32) (by decide) _ hmem rfl
  simp only [ghostEntry, entityInfo, hown] at hoff
  exact absurd hoff (by decide)

end

end Flecsi.Coloring
