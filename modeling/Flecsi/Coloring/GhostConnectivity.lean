import Flecsi.Coloring.Types

/-!
# Connectivity of the ghost entities

`ghost_connectivity` gives every rank the rows of the entities that other ranks
share with it. A sender packs a record for each of its shared entities and each
rank that shares it, and the receiver appends a row for each record it reads.
-/

namespace Flecsi.Coloring

open PackedBuffer

-- ---------------------------------------------------------------------------
-- ghost_connectivity
-- ---------------------------------------------------------------------------

/-- The arguments of one rank; of `from_entities` only the shared ones are read. -/
structure GhostArgs where
  from2to : Crs
  local2global : List ℕ
  fromEntities : IndexColoring

/-- What is sent of an entity: its id, the length `end - start` of its row, and
the global ids of `for(i = start; i < end; ++i)`. -/
def entityRow (inp : GhostArgs) (e : EntityInfo) : Option (ℕ × ℕ × List ℕ) := do
  let start ← inp.from2to.offsets[e.offset]?
  let stop ← inp.from2to.offsets[e.offset + 1]?
  let localIds ← span inp.from2to.indices start (stop - start)
  let globalIds ← localIds.mapM fun localId => inp.local2global[localId]?
  some (e.id, stop - start, globalIds)

/-- One record for every shared entity and every other rank that shares it. -/
def sharedRows (commRank : ℕ) (inp : GhostArgs) : Option (List (ℕ × ℕ × ℕ × List ℕ)) :=
  (inp.fromEntities.shared.flatMap fun e =>
    ((e.shared.sort (· ≤ ·)).filter (· ≠ commRank)).map fun r => (r, e)).mapM fun re => do
      let row ← entityRow inp re.2
      some (re.1, row)

/-- First the id and size. -/
def rowRecord (x : ℕ × ℕ × List ℕ) : List ℕ := x.1 :: x.2.1 :: x.2.2

/-- One record: the id goes to `from_ids`, the ids behind it to `connectivity`. -/
def readRow (buf : List ℕ) (_r _stop i : ℕ) (s : List ℕ × Crs) : Option (ℕ × List ℕ × Crs) := do
  let globalId ← buf[i]?
  let n ← buf[i + 1]?
  let ents ← span buf (i + 2) n
  some (i + (n + 2), s.1 ++ [globalId],
    ⟨s.2.offsets ++ [s.2.offsets.getLastD 0 + n], s.2.indices ++ ents⟩)

/-- `ghost_connectivity` on all ranks: `from_ids` and `connectivity` of each. -/
def ghostConnectivity (inp : Fin n → GhostArgs) : Option (Fin n → List ℕ × Crs) := do
  let rows ← allRanks fun p => sharedRows p (inp p)
  let recv ← exchange fun p => packMessages n ((rows p).map fun it => (it.1, 2 + it.2.2.1))
    ((rows p).map fun it => (it.1, rowRecord it.2))
  allRanks fun p => readSegments n (readRow (recv p).buf) (recv p).displs ([], ⟨[0], []⟩)

-- ---------------------------------------------------------------------------
-- What is to be delivered
-- ---------------------------------------------------------------------------

/-- The row of an entity in global ids. -/
def GhostArgs.globalRow (inp : GhostArgs) (e : EntityInfo) : List ℕ :=
  (inp.from2to.row e.offset).map fun l => inp.local2global.getD l 0

/-- The shared entities of the other ranks that rank `p` shares, by rank. -/
def sharedWith (inp : Fin n → GhostArgs) (p : Fin n) : List (Fin n × EntityInfo) :=
  (List.finRange n).flatMap fun q =>
    ((inp q).fromEntities.shared.filter ((p : ℕ) ∈ ·.shared)).map (q, ·)

/-- The shared entities of a coloring name rows of `from2to`, and other ranks. -/
structure SharesRows (inp : Fin n → GhostArgs) : Prop where
  wellFormed : ∀ p, (inp p).from2to.WellFormed
  offsets : ∀ p, ∀ e ∈ (inp p).fromEntities.shared, e.offset < (inp p).from2to.size
  localIds : ∀ p, ∀ e ∈ (inp p).fromEntities.shared, ∀ l ∈ (inp p).from2to.row e.offset,
    l < (inp p).local2global.length
  others : ∀ p, ∀ e ∈ (inp p).fromEntities.shared, ∀ r ∈ e.shared, r < n ∧ r ≠ p

-- ---------------------------------------------------------------------------
-- Sending
-- ---------------------------------------------------------------------------

section
variable {inp : Fin n → GhostArgs} (h : SharesRows inp)

include h in
theorem SharesRows.entityRow_eq {p : Fin n} (he : e ∈ (inp p).fromEntities.shared) :
    entityRow (inp p) e =
      some (e.id, ((inp p).globalRow e).length, (inp p).globalRow e) := by
  have hk := h.offsets p e he
  have hlen := (h.wellFormed p).length_row hk
  have hget : ∀ j < (inp p).from2to.offsets.length,
      (inp p).from2to.offsets[j]? = some ((inp p).from2to.offsets.getD j 0) := fun j hj => by
    rw [List.getElem?_eq_getElem hj, List.getD_eq_getElem _ _ hj]
  have hprefix : (inp p).from2to.row e.offset <+:
      (inp p).from2to.indices.drop ((inp p).from2to.offsets.getD e.offset 0) :=
    List.take_prefix _ _
  have hids : ((inp p).from2to.row e.offset).mapM (fun l => (inp p).local2global[l]?) =
      some ((inp p).globalRow e) := mapM_some fun l hl => by
    have hlt := h.localIds p e he l hl
    rw [List.getElem?_eq_getElem hlt, List.getD_eq_getElem _ _ hlt]
  rw [Crs.size] at hk
  rw [entityRow, hget _ (by omega), hget _ (by omega)]
  simp only [Option.bind_eq_bind, Option.bind_some, hlen, span_eq hprefix, hids]
  rw [GhostArgs.globalRow, List.length_map]

/-- What a rank sends of its shared entities, each with its destination. -/
def rowItems (inp : Fin n → GhostArgs) (q : Fin n) : List (ℕ × ℕ × List ℕ) :=
  (inp q).fromEntities.shared.flatMap fun e =>
    ((e.shared.sort (· ≤ ·)).filter (· ≠ (q : ℕ))).map fun r => (r, e.id, (inp q).globalRow e)

include h in
theorem SharesRows.sharedRows_eq (q : Fin n) : sharedRows q (inp q) =
    some ((rowItems inp q).map fun it => (it.1, it.2.1, it.2.2.length, it.2.2)) := by
  rw [sharedRows, mapM_some (g := fun re => (re.1, re.2.id, ((inp q).globalRow re.2).length,
    (inp q).globalRow re.2))]
  · rw [rowItems, List.map_flatMap, List.map_flatMap]
    simp only [List.map_map, Function.comp_def]
  · intro re hre
    obtain ⟨e, he, hre⟩ := List.mem_flatMap.mp hre
    obtain ⟨r, -, rfl⟩ := List.mem_map.mp hre
    rw [h.entityRow_eq he]
    rfl

include h in
theorem SharesRows.rowItems_lt (q : Fin n) : ∀ it ∈ rowItems inp q, it.1 < n := by
  intro it hit
  obtain ⟨e, he, hit⟩ := List.mem_flatMap.mp hit
  obtain ⟨r, hr, rfl⟩ := List.mem_map.mp hit
  exact (h.others q e he r (by simpa using (List.mem_filter.mp hr).1)).1

include h in
theorem SharesRows.itemsFor_rowItems (p q : Fin n) : itemsFor p (rowItems inp q) =
    ((inp q).fromEntities.shared.filter ((p : ℕ) ∈ ·.shared)).map fun e =>
      (e.id, (inp q).globalRow e) := by
  rw [rowItems, itemsFor_flatMap fun e _ => (e.shared.sort_nodup _).filter _]
  congr 1
  refine List.filter_congr fun e he => decide_eq_decide.mpr ?_
  rw [List.mem_filter, Finset.mem_sort, decide_eq_true_eq]
  exact ⟨fun hp => hp.1, fun hp => ⟨hp, (h.others q e he p hp).2⟩⟩

include h in
/-- The records rank `p` is sent, in the order in which it reads them. -/
theorem SharesRows.allRecords_eq (p : Fin n) : allRecords (fun q => itemsFor p (rowItems inp q)) =
    (sharedWith inp p).map fun x => ((x.1 : ℕ), x.2.id, (inp x.1).globalRow x.2) := by
  rw [allRecords, sharedWith, List.map_flatMap]
  simp only [h.itemsFor_rowItems, List.map_map, Function.comp_def]

end

-- ---------------------------------------------------------------------------
-- Reading
-- ---------------------------------------------------------------------------

/-- What a record does to `from_ids` and `connectivity`. -/
def addRow (_r : ℕ) (s : List ℕ × Crs) (x : ℕ × List ℕ) : List ℕ × Crs :=
  (s.1 ++ [x.1], s.2.appendRow (s.2.offsets.getLastD 0) x.2)

theorem readRow_reads (buf : List ℕ) (r stop : ℕ) (x : ℕ × List ℕ) :
    Reads buf stop (fun x => x.1 :: x.2.length :: x.2) (addRow r) (readRow buf r stop) x := by
  intro i s hbuf _
  obtain ⟨hid, hbuf⟩ := drop_prefix_cons hbuf
  obtain ⟨hn, hbuf⟩ := drop_prefix_cons hbuf
  rw [readRow, hid, hn]
  simp only [Option.bind_eq_bind, Option.bind_some, span_eq hbuf, addRow, Crs.appendRow,
    List.length_cons]

/-- Records appended one after another: an id and a row for each. -/
theorem foldl_addRow (recs : List (ℕ × ℕ × List ℕ)) (ids : List ℕ) (rows : List (List ℕ)) :
    recs.foldl (fun s x => addRow x.1 s x.2) (ids, Crs.ofRows rows) =
      (ids ++ recs.map (·.2.1), Crs.ofRows (rows ++ recs.map (·.2.2))) := by
  induction recs generalizing ids rows with
  | nil => simp
  | cons x recs ih =>
    rw [List.foldl_cons, addRow, Crs.getLastD_ofRows, Crs.appendRow_ofRows, ih]
    simp

theorem ghostConnectivity_eq {inp : Fin n → GhostArgs} (h : SharesRows inp) :
    ghostConnectivity inp = some fun p => ((sharedWith inp p).map fun x => x.2.id,
      Crs.ofRows ((sharedWith inp p).map fun x => (inp x.1).globalRow x.2)) := by
  have hexchange := exchange_items (fun x => x.1 :: x.2.length :: x.2) (fun x => 2 + x.2.length)
    (fun x => by simp only [List.length_cons]; omega) h.rowItems_lt
  rw [ghostConnectivity, allRanks_eq_some.mpr h.sharedRows_eq]
  simp only [Option.bind_eq_bind, Option.bind_some, List.map_map, Function.comp_def, rowRecord,
    hexchange]
  refine allRanks_eq_some.mpr fun p => ?_
  have hread := readSegments_eq (s := ([], Crs.ofRows [])) addRow
    (fun r x (_ : x ∈ itemsFor p (rowItems inp r)) stop => readRow_reads _ _ _ _)
    (fun _ _ _ => by simp)
  rw [foldl_addRow, h.allRecords_eq] at hread
  simp only [List.nil_append, List.map_map, Function.comp_def] at hread
  exact hread

-- ---------------------------------------------------------------------------
-- The rows of the owners
-- ---------------------------------------------------------------------------

theorem mem_sharedWith {inp : Fin n → GhostArgs} : x ∈ sharedWith inp p ↔
    x.2 ∈ (inp x.1).fromEntities.shared ∧ (p : ℕ) ∈ x.2.shared := by
  obtain ⟨q, e⟩ := x
  simp [sharedWith]

/-- Ids that are distinct on each sender come once from each. -/
theorem sharedWith_nodup {inp : Fin n → GhostArgs}
    (h : ∀ q, ((inp q).fromEntities.shared.map EntityInfo.id).Nodup) (p : Fin n) :
    ((sharedWith inp p).map fun x => ((x.1 : ℕ), x.2.id)).Nodup := by
  have hids : (allRecords fun q => ((inp q).fromEntities.shared.filter ((p : ℕ) ∈ ·.shared)).map
      EntityInfo.id).Nodup :=
    allRecords_nodup fun q => (h q).sublist (List.filter_sublist.map _)
  rw [allRecords] at hids
  rw [sharedWith, List.map_flatMap]
  simpa only [List.map_map, Function.comp_def] using hids

/-- On each rank `from_ids` has the ids the other ranks share with it, by rank
and in the order of each, and the connectivity a row for each of them: the row
of its sender. -/
theorem ghostConnectivity_owners {inp : Fin n → GhostArgs} (h : SharesRows inp) :
    ∃ out, ghostConnectivity inp = some out ∧ ∀ p,
      (out p).1 = (sharedWith inp p).map (·.2.id) ∧
      (out p).2.WellFormed ∧ (out p).2.size = (out p).1.length ∧
      (∀ k (hk : k < (sharedWith inp p).length), (out p).2.row k =
        (inp (sharedWith inp p)[k].1).globalRow (sharedWith inp p)[k].2) ∧
      (∀ x ∈ sharedWith inp p, x.1 ≠ p) ∧
      ((∀ q, ((inp q).fromEntities.shared.map EntityInfo.id).Nodup) →
        ((sharedWith inp p).map fun x => ((x.1 : ℕ), x.2.id)).Nodup) := by
  refine ⟨_, ghostConnectivity_eq h, fun p => ⟨rfl, Crs.wellFormed_ofRows _, ?_, ?_, ?_, ?_⟩⟩
  · simp
  · intro k hk
    rw [Crs.row_ofRows (by simpa using hk), List.getElem_map]
  · rintro x hx rfl
    obtain ⟨he, hp⟩ := mem_sharedWith.mp hx
    exact (h.others _ _ he _ hp).2 rfl
  · exact fun hids => sharedWith_nodup hids p

/-- Rank 0 shares its entities 7 and 9, the second without a row, and rank 1
its entity 4. -/
def twoRanks (p : Fin 2) : GhostArgs :=
  if p.val = 0 then ⟨⟨[0, 2, 2], [1, 0]⟩, [10, 11], ⟨[], [⟨7, 0, 0, {1}⟩, ⟨9, 0, 1, {1}⟩], []⟩⟩
  else ⟨⟨[0, 1, 3], [0, 0, 1]⟩, [11, 12], ⟨[], [⟨4, 1, 1, {0}⟩], []⟩⟩

theorem twoRanks_sharesRows : SharesRows twoRanks where
  wellFormed := by decide
  offsets := by decide
  localIds := by decide
  others := by decide

theorem ghostConnectivity_owners_twoRanks : ∃ out, ghostConnectivity twoRanks = some out ∧
    (out 0).1 = [4] ∧ (out 0).2.row 0 = [11, 12] ∧
    (out 1).1 = [7, 9] ∧ (out 1).2.row 0 = [11, 10] ∧ (out 1).2.row 1 = [] := by
  obtain ⟨out, hout, h⟩ := ghostConnectivity_owners twoRanks_sharesRows
  obtain ⟨hids, -, -, hrow, -⟩ := h 0
  obtain ⟨hids', -, -, hrow', -⟩ := h 1
  exact ⟨out, hout, hids.trans (by decide), (hrow 0 (by decide)).trans (by decide),
    hids'.trans (by decide), (hrow' 0 (by decide)).trans (by decide),
    (hrow' 1 (by decide)).trans (by decide)⟩

end Flecsi.Coloring
