import Flecsi.Coloring.ColorEntities

/-!
# Shared cells of a distributed mesh

What `color_entities` is given, and its first round: the ranks mark the
entities of their shared cells, which they claim, and receive those of the
cells that other ranks share with them.
-/

namespace Flecsi.Coloring

open PackedBuffer SortUnique

-- ---------------------------------------------------------------------------
-- Meshes
-- ---------------------------------------------------------------------------

def globalIds (inp : ColorInput) (row : List ℕ) : List ℕ :=
  row.map fun l => inp.local2global.getD l 0

/-- `g` is an entity of a primary cell. -/
def HasEntity (inp : ColorInput) (g : ℕ) : Prop :=
  ∃ k < inp.cells2entity.size, g ∈ globalIds inp (inp.cells2entity.row k)

/-- `g`, here called `l`, is an entity of a shared cell. -/
def Claims (inp : ColorInput) (g l : ℕ) : Prop :=
  inp.local2global[l]? = some g ∧ ∃ c ∈ inp.shared, l ∈ inp.cells2entity.row c.offset

/-- `g` is an entity of a cell that some rank sends to rank `q`. -/
def Receives (inp : Fin n → ColorInput) (q g : ℕ) : Prop :=
  ∃ p, ∃ c ∈ (inp p).shared, q ∈ c.shared ∧
    g ∈ globalIds (inp p) ((inp p).cells2entity.row c.offset)

/-- A mesh over `n` ranks whose shared cells are complete: cells of two ranks
with an entity in common are shared with each other's rank. -/
structure DistributedMesh (inp : Fin n → ColorInput) : Prop where
  localIds : ∀ p, ∀ k < (inp p).cells2entity.size, ∀ l ∈ (inp p).cells2entity.row k,
    l < (inp p).local2global.length
  covered : ∀ p, ∀ l < (inp p).local2global.length,
    ∃ k < (inp p).cells2entity.size, l ∈ (inp p).cells2entity.row k
  distinct : ∀ p, (inp p).local2global.Nodup
  primary : ∀ p, ∀ c ∈ (inp p).shared, c.offset < (inp p).cells2entity.size
  others : ∀ p, ∀ c ∈ (inp p).shared, ∀ r ∈ c.shared, r < n ∧ r ≠ p
  complete : ∀ p q : Fin n, p ≠ q → ∀ k < (inp p).cells2entity.size,
    ∀ j < (inp q).cells2entity.size,
    (∃ g, g ∈ globalIds (inp p) ((inp p).cells2entity.row k) ∧
      g ∈ globalIds (inp q) ((inp q).cells2entity.row j)) →
    ∃ c ∈ (inp p).shared, c.offset = k ∧ (q : ℕ) ∈ c.shared

section
variable {inp : Fin n → ColorInput} (h : DistributedMesh inp)

include h in
theorem DistributedMesh.mem_globalIds {p : Fin n} (hk : k < (inp p).cells2entity.size) :
    g ∈ globalIds (inp p) ((inp p).cells2entity.row k) ↔
      ∃ l ∈ (inp p).cells2entity.row k, (inp p).local2global[l]? = some g := by
  rw [globalIds, List.mem_map]
  refine exists_congr fun l => and_congr_right fun hl => ?_
  have hlt := h.localIds p k hk l hl
  rw [List.getD_eq_getElem _ _ hlt, List.getElem?_eq_getElem hlt, Option.some_inj]

include h in
theorem DistributedMesh.local_unique {p : Fin n} {l l' : ℕ} (hl : (inp p).local2global[l]? = some g)
    (hl' : (inp p).local2global[l']? = some g) : l = l' := by
  obtain ⟨hlt, rfl⟩ := List.getElem?_eq_some_iff.mp hl
  obtain ⟨hlt', heq⟩ := List.getElem?_eq_some_iff.mp hl'
  exact ((h.distinct p).getElem_inj_iff.mp heq).symm

include h in
theorem DistributedMesh.hasEntity_iff {p : Fin n} :
    HasEntity (inp p) g ↔ ∃ l : ℕ, (inp p).local2global[l]? = some g := by
  constructor
  · rintro ⟨k, hk, hg⟩
    obtain ⟨l, -, hl⟩ := (h.mem_globalIds hk).mp hg
    exact ⟨l, hl⟩
  · rintro ⟨l, hl⟩
    obtain ⟨hlt, -⟩ := List.getElem?_eq_some_iff.mp hl
    obtain ⟨k, hk, hrow⟩ := h.covered p l hlt
    exact ⟨k, hk, (h.mem_globalIds hk).mpr ⟨l, hrow, hl⟩⟩

include h in
theorem DistributedMesh.receives_iff : Receives inp q g ↔
    ∃ p : Fin n, ∃ c ∈ (inp p).shared, q ∈ c.shared ∧
      ∃ l ∈ (inp p).cells2entity.row c.offset, (inp p).local2global[l]? = some g := by
  refine exists_congr fun p => exists_congr fun c => and_congr_right fun hc => ?_
  rw [h.mem_globalIds (h.primary p c hc)]

include h in
/-- An entity received is claimed by its sender. -/
theorem DistributedMesh.claims_of_receives (hr : Receives inp q g) :
    ∃ p l, Claims (inp p) g l := by
  obtain ⟨p, c, hc, -, l, hl, hg⟩ := h.receives_iff.mp hr
  exact ⟨p, l, hg, c, hc, hl⟩

include h in
/-- Two ranks that have an entity both claim it, and each receives it. -/
theorem DistributedMesh.claims_of_two {p q : Fin n} (hpq : p ≠ q)
    (hp : (inp p).local2global[l]? = some g) (hq : HasEntity (inp q) g) :
    Claims (inp p) g l ∧ Receives inp q g := by
  obtain ⟨hlt, -⟩ := List.getElem?_eq_some_iff.mp hp
  obtain ⟨k, hk, hrow⟩ := h.covered p l hlt
  obtain ⟨j, hj, hgj⟩ := hq
  have hgk := (h.mem_globalIds hk).mpr ⟨l, hrow, hp⟩
  obtain ⟨c, hc, rfl, hqc⟩ := h.complete p q hpq k hk j hj ⟨g, hgk, hgj⟩
  exact ⟨⟨hp, c, hc, hrow⟩, p, c, hc, hqc, hgk⟩

end

-- ---------------------------------------------------------------------------
-- Marks and received cells
-- ---------------------------------------------------------------------------

theorem foldl_mark (xs : List ℕ) (flags : List Bool) (l : List ℕ) :
    (xs.foldl (fun s localId => (s.1.set localId false, s.2 ++ [localId])) (flags, l)).2 = l ++ xs ∧
      ∀ k, (xs.foldl (fun s localId => (s.1.set localId false, s.2 ++ [localId]))
        (flags, l)).1.getD k false = (flags.getD k false && !decide (k ∈ xs)) := by
  induction xs generalizing flags l with
  | nil => simp
  | cons x xs ih =>
    obtain ⟨hshared, hflags⟩ := ih (flags.set x false) (l ++ [x])
    refine ⟨by rw [List.foldl_cons, hshared, List.append_assoc]; rfl, fun k => ?_⟩
    have hset : (flags.set x false).getD k false = (flags.getD k false && !decide (k = x)) := by
      simp only [List.getD_eq_getElem?_getD, List.getElem?_set]
      cases eq_or_ne x k with
      | inl hx => subst hx; by_cases hlt : x < flags.length <;> simp [hlt]
      | inr hx => simp [hx, Ne.symm hx]
    rw [List.foldl_cons, hflags, hset]
    simp [Bool.and_assoc]

theorem mem_potentialShared {inp : ColorInput} :
    l ∈ removeUnique (markShared inp).2 ↔ ∃ c ∈ inp.shared, l ∈ inp.cells2entity.row c.offset := by
  rw [removeUnique, mem_sortUnique, markShared, (foldl_mark _ _ _).1, List.nil_append,
    List.mem_flatMap]

/-- A local entity stays exclusive when it is in no shared cell. -/
theorem exclusive_iff {inp : ColorInput} (hg : inp.local2global[l]? = some g) :
    (markShared inp).1.getD l false = true ↔ ¬ Claims inp g l := by
  obtain ⟨hlt, -⟩ := List.getElem?_eq_some_iff.mp hg
  rw [markShared, (foldl_mark _ _ _).2]
  simp only [List.getD_replicate _ hlt, Bool.true_and, Claims, hg, true_and, List.mem_flatMap,
    Bool.not_eq_true', decide_eq_false_iff_not]

section
variable {inp : Fin n → ColorInput} (h : DistributedMesh inp)

/-- What rank `q` sends of its shared cells to rank `p`. -/
def sentCells (inp : ColorInput) (p : ℕ) : List (List ℕ) :=
  (inp.shared.filter (p ∈ ·.shared)).map fun c => globalIds inp (inp.cells2entity.row c.offset)

include h in
theorem sharedCells_eq (q : Fin n) : ∃ cells, sharedCells q (inp q) = some cells ∧
    (∀ it ∈ cells, it.1 < n) ∧ ∀ p, itemsFor p cells = sentCells (inp q) p := by
  have hrow : ∀ c ∈ (inp q).shared, cellEntities (inp q) c =
      some (globalIds (inp q) ((inp q).cells2entity.row c.offset)) := fun c hc =>
    mapM_some fun l hl => by
      have hlt := h.localIds q _ (h.primary q c hc) l hl
      rw [List.getElem?_eq_getElem hlt, List.getD_eq_getElem _ _ hlt]
  refine ⟨(inp q).shared.flatMap fun c => ((c.shared.sort (· ≤ ·)).filter (· ≠ (q : ℕ))).map fun r =>
    (r, globalIds (inp q) ((inp q).cells2entity.row c.offset)), ?_, fun it hit => ?_, fun p => ?_⟩
  · rw [sharedCells, mapM_some fun c hc => by rw [hrow c hc]; rfl]
    rfl
  · obtain ⟨c, hc, hit⟩ := List.mem_flatMap.mp hit
    obtain ⟨r, hr, rfl⟩ := List.mem_map.mp hit
    exact (h.others q c hc r (by simpa using (List.mem_filter.mp hr).1)).1
  · rw [itemsFor_flatMap fun c _ => (c.shared.sort_nodup _).filter _, sentCells]
    congr 1
    refine List.filter_congr fun c hc => decide_eq_decide.mpr ?_
    rw [List.mem_filter, Finset.mem_sort, decide_eq_true_eq]
    exact ⟨fun hp => hp.1, fun hp => ⟨hp, (h.others q c hc p hp).2⟩⟩

/-- How many entities of cells of other ranks rank `p` receives. -/
def receivedCounts (inp : Fin n → ColorInput) (p : ℕ) : ℕ :=
  ((List.finRange n).map fun q => ((sentCells (inp q) p).map List.length).sum).sum

theorem mem_sentCells : (∃ q, ∃ ents ∈ sentCells (inp q) p, g ∈ ents) ↔ Receives inp p g := by
  refine exists_congr fun q => ?_
  constructor
  · rintro ⟨_, hents, hg⟩
    obtain ⟨c, hc, rfl⟩ := List.mem_map.mp hents
    obtain ⟨hc, hp⟩ := List.mem_filter.mp hc
    exact ⟨c, hc, by simpa using hp, hg⟩
  · rintro ⟨c, hc, hp, hg⟩
    exact ⟨_, List.mem_map.mpr ⟨c, List.mem_filter.mpr ⟨hc, by simpa using hp⟩, rfl⟩, hg⟩

include h in
/-- The first round: the cells shared with a rank. -/
theorem receiveCells_eq : ∃ out, receiveCells inp = some out ∧
    ∀ p : Fin n, (∀ g, g ∈ (out p).potentialGhost ↔ Receives inp p g) ∧
      (out p).connectivityCounts =
        (inp p).cells2entity.indices.length + receivedCounts inp p := by
  choose cells hcells hlt hitems using sharedCells_eq h
  let J : Fin n → List (ℕ × List ℕ) → GhostState → Prop := fun p recs s =>
    s.potentialGhost = recs.flatMap (·.2) ∧
      s.connectivityCounts = (inp p).cells2entity.indices.length + (recs.map (·.2.length)).sum
  obtain ⟨recv, out, hrecv, hout, hJ⟩ := exchange_run cells cellEntitiesRecord
    (fun ents => 1 + ents.length) readCellEntities J
    (fun p => ⟨[], (inp p).cells2entity.indices.length⟩)
    (fun ents => by simp [cellEntitiesRecord, Nat.add_comm]) (fun _ => by simp [cellEntitiesRecord])
    hlt (fun p => ⟨rfl, rfl⟩) fun p buf l r ents stop _ i s hs hbuf _ => by
      obtain ⟨hn, hbuf⟩ := drop_prefix_cons hbuf
      refine ⟨⟨s.potentialGhost ++ ents, s.connectivityCounts + ents.length⟩, ?_, ?_, ?_⟩
      · rw [readCellEntities, hn]
        simp only [Option.bind_eq_bind, Option.bind_some, span_eq hbuf]
        rfl
      · rw [hs.1, List.flatMap_append, List.flatMap_singleton]
      · rw [hs.2, List.map_append, List.sum_append, Nat.add_assoc]
        rfl
  refine ⟨out, ?_, fun p => ⟨fun g => ?_, ?_⟩⟩
  · rw [receiveCells, allRanks_eq_some.mpr hcells, Option.bind_eq_bind, Option.bind_some, hrecv]
    exact hout
  · rw [(hJ p).1, List.mem_flatMap, ← mem_sentCells]
    constructor
    · rintro ⟨x, hx, hg⟩
      obtain ⟨r, -, hx⟩ := mem_allRecords.mp hx
      exact ⟨r, x.2, hitems r p ▸ hx, hg⟩
    · rintro ⟨r, ents, hents, hg⟩
      exact ⟨(r, ents), mem_allRecords.mpr ⟨r, rfl, (hitems r p).symm ▸ hents⟩, hg⟩
  · rw [(hJ p).2, allRecords, List.map_flatMap, List.flatMap_def, List.sum_flatten,
      receivedCounts]
    simp only [List.map_map, Function.comp_def, hitems]

end

end Flecsi.Coloring
