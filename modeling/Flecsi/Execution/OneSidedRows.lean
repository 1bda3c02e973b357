import Flecsi.Execution.OneSidedDense
import Flecsi.Lib.ArrayLoops
import Flecsi.Lib.Mailbox

/-!
# One-sided ghost copies of ragged fields

Every rank lays its shared rows out in slots of `max_entries_per_index` entries, fetches the
slots of its ghosts, and receives the lengths of their rows in messages of their own. A row
that is too long for its slot runs into the next ones.
-/

namespace Flecsi.Execution

open Coloring PackedBuffer Segments StrideSlots

namespace OneSidedRows

variable {α : Type}

/-- What the two new buffers of a rank hold before anything is stored in them. -/
structure Fresh (α : Type) where
  shared_data : ℕ → α
  ghost_data : ℕ → α

def newBuffer (fresh : ℕ → α) (k : ℕ) : List α := (List.range k).map fresh

@[simp] theorem length_newBuffer (fresh : ℕ → α) (k : ℕ) : (newBuffer fresh k).length = k := by
  simp [newBuffer]

/-- `shared_data`, after the shared rows are copied into their slots. -/
def loadShared (m : ℕ) (info : ColoringInfo) (fresh : ℕ → α) (rows : List (List α)) : Option (List α) := do
  let shared ← (List.range info.shared).mapM fun i => rows[info.exclusive + i]?
  storeRows m shared (newBuffer fresh (info.shared * m))

/-- `MPI_Get` of a ghost's slot. -/
def getSlot (m : ℕ) (windows : Fin n → List α) (ghost : EntityInfo) : Option (List α) := do
  let count ← toInt m
  let window ← OneSided.windowOf windows ghost.rank
  loadAt window ((ghost.offset * m : ℕ) : ℤ) count

/-- `ghost_data`, after the gets of one slot for each ghost. -/
def fetchGhosts (m : ℕ) (windows : Fin n → List α) (info : ColoringInfo) (c : IndexColoring)
    (fresh : ℕ → α) : Option (List α) := do
  let slots ← c.ghost.mapM (getSlot m windows)
  storeRows m slots (newBuffer fresh (info.ghost * m))

/-- The messages of row lengths: the peer, and the tag and the length, a `uint32_t`. -/
def sendCounts (tag : ℕ → ℕ) (info : ColoringInfo) (c : IndexColoring) (rows : List (List α)) :
    Option (List (ℕ × ℕ × ℕ)) := do
  let messages ← c.shared.mapM fun shared => do
    let row ← rows[info.exclusive + shared.offset]?
    some ((shared.shared.sort (· ≤ ·)).map fun peer => (peer, tag shared.id, row.length % 2 ^ 32))
  some messages.flatten

/-- The lengths received for the ghosts, in their order. -/
def receiveCounts (tag : ℕ → ℕ) (sent : Fin n → List (ℕ × ℕ × ℕ)) (c : IndexColoring)
    (p : Fin n) : Option (List ℕ) :=
  Mailbox.receiveAll n (fun q => if h : q < n then itemsFor p (sent ⟨q, h⟩) else [])
    (c.ghost.map fun ghost => (ghost.rank, tag ghost.id))

/-- The entries of a ghost's row, whose length and place are given. -/
def unloadRow (m : ℕ) (ghost_data : List α) (x : ℕ × ℕ) : Option (List α) := do
  let count ← toInt x.1
  loadAt ghost_data ((x.2 * m : ℕ) : ℤ) count

/-- The rows after those of the ghosts are resized and filled from their slots. -/
def unloadGhosts (m : ℕ) (info : ColoringInfo) (ghost_data : List α) (counts : List ℕ)
    (rows : List (List α)) : Option (List (List α)) := do
  let ghosts ← counts.zipIdx.mapM (unloadRow m ghost_data)
  let first := info.exclusive + info.shared
  if first + ghosts.length ≤ rows.length then
    some (rows.take first ++ ghosts ++ rows.drop (first + ghosts.length))
  else none

/-- The copy on all ranks, in `task_epilog_t::handle` with the ids as tags and in
`finalize_handles_t::handle` with one tag. -/
def copyGhosts (m : ℕ) (tag : ℕ → ℕ) (info : Fin n → ColoringInfo)
    (coloring : Fin n → IndexColoring) (fresh : Fin n → Fresh α) (rows : Fin n → List (List α)) :
    Option (Fin n → List (List α)) := do
  let shared_data ← allRanks fun p => loadShared m (info p) (fresh p).shared_data (rows p)
  OneSided.epoch info
  let ghost_data ← allRanks fun p => fetchGhosts m shared_data (info p) (coloring p) (fresh p).ghost_data
  let sent ← allRanks fun p => sendCounts tag (info p) (coloring p) (rows p)
  allRanks fun p => do
    let counts ← receiveCounts tag sent (coloring p) p
    unloadGhosts m (info p) (ghost_data p) counts (rows p)

-- ---------------------------------------------------------------------------
-- What is copied
-- ---------------------------------------------------------------------------

/-- All rows end inside the buffers: the shared rows when they are put into their slots, the
owners' rows when they are taken out of the ghosts' slots. -/
structure Fits (m : ℕ) (coloring : Fin n → IndexColoring) (rows : Fin n → List (List α)) : Prop where
  shared : ∀ p, ∀ i < (coloring p).shared.length, ∀ row,
    (rows p)[(coloring p).exclusive.length + i]? = some row →
      i * m + row.length ≤ (coloring p).shared.length * m
  ghost : ∀ (p : Fin n) (k : ℕ) (g : EntityInfo), (coloring p).ghost[k]? = some g → ∀ q : Fin n, g.rank = q →
    ∀ row, (rows q)[(coloring q).exclusive.length + g.offset]? = some row →
      k * m + row.length ≤ (coloring p).ghost.length * m

/-- Ghost rows have their owners' lengths, and their first `m` entries. -/
structure Copied (m : ℕ) (coloring : Fin n → IndexColoring) (rows rows' : Fin n → List (List α)) : Prop where
  length : ∀ p, (rows' p).length = (rows p).length
  kept : ∀ p, ∀ i < (coloring p).exclusive.length + (coloring p).shared.length, (rows' p)[i]? = (rows p)[i]?
  ghosts : ∀ (p : Fin n) (k : ℕ) (g : EntityInfo), (coloring p).ghost[k]? = some g → ∀ q : Fin n, g.rank = q →
    ∀ row, (rows q)[(coloring q).exclusive.length + g.offset]? = some row →
      ∃ row', (rows' p)[(coloring p).exclusive.length + (coloring p).shared.length + k]? = some row' ∧
        row'.length = row.length ∧ row'.take m = row.take m

theorem mapM_range {rows : List (List α)} {first k : ℕ} (h : first + k ≤ rows.length) :
    ((List.range k).mapM fun i => rows[first + i]?) = some ((rows.drop first).take k) := by
  rw [mapM_some (g := fun i => (rows[first + i]?).getD [])]
  · congr 1
    refine List.ext_getElem? fun i => ?_
    rw [List.getElem?_map, List.getElem?_take, List.getElem?_drop]
    rcases Nat.lt_or_ge i k with hi | hi
    · have hin : first + i < rows.length := by omega
      simp [hi, List.getElem?_eq_getElem hin]
    · rw [List.getElem?_eq_none (by simpa using hi), if_neg (by omega)]
      rfl
  · intro i hi
    have hin : first + i < rows.length := by
      have := List.mem_range.mp hi
      omega
    simp [List.getElem?_eq_getElem hin]

section
variable {m : ℕ} {tag : ℕ → ℕ} {info : Fin n → ColoringInfo} {coloring : Fin n → IndexColoring}
  (hc : ExchangeColoring coloring) (hinfo : ∀ p, Described (info p) (coloring p)) (hm : m < 2 ^ 31)
  {rows : Fin n → List (List α)} (hrows : ∀ p, (rows p).length =
    (coloring p).exclusive.length + (coloring p).shared.length + (coloring p).ghost.length)
  (hlen : ∀ p, ∀ i < (coloring p).shared.length, ∀ row,
    (rows p)[(coloring p).exclusive.length + i]? = some row → row.length < 2 ^ 31)

/-- The shared rows of a rank. -/
def sharedRows (coloring : Fin n → IndexColoring) (rows : Fin n → List (List α)) (p : Fin n) : List (List α) :=
  ((rows p).drop (coloring p).exclusive.length).take (coloring p).shared.length

theorem getElem?_sharedRows {p : Fin n} {i : ℕ} (hi : i < (coloring p).shared.length) :
    (sharedRows coloring rows p)[i]? = (rows p)[(coloring p).exclusive.length + i]? := by
  rw [sharedRows, List.getElem?_take, if_pos hi, List.getElem?_drop]

include hinfo hrows in
theorem loadShared_eq (p : Fin n) (fresh : ℕ → α) : loadShared m (info p) fresh (rows p) =
    storeRows m (sharedRows coloring rows p) (newBuffer fresh ((coloring p).shared.length * m)) := by
  have hroom : (coloring p).exclusive.length + (coloring p).shared.length ≤ (rows p).length := by
    rw [hrows]
    omega
  rw [loadShared, (hinfo p).exclusive, (hinfo p).shared, mapM_range hroom]
  rfl

include hinfo hrows in
theorem loadShared_isSome (p : Fin n) (fresh : ℕ → α) : (loadShared m (info p) fresh (rows p)).isSome ↔
    ∀ i < (coloring p).shared.length, ∀ row, (rows p)[(coloring p).exclusive.length + i]? = some row →
      i * m + row.length ≤ (coloring p).shared.length * m := by
  rw [loadShared_eq hinfo hrows, storeRows_isSome, length_newBuffer]
  refine forall_congr' fun i => ?_
  constructor
  · intro h hi row hrow
    exact h row ((getElem?_sharedRows hi).trans hrow)
  · intro h row hrow
    have hi : i < (coloring p).shared.length :=
      (List.getElem?_eq_some_iff.mp hrow).1.trans_le (List.length_take_le _ _)
    exact h hi row ((getElem?_sharedRows hi).symm.trans hrow)

theorem toInt_some {x : ℕ} (h : x < 2 ^ 31) : toInt x = some x := if_pos h

include hc hinfo hm in
/-- The gets fill every ghost's slot with its owner's. -/
theorem fetchGhosts_some {windows : Fin n → List α}
    (hwindows : ∀ q, (windows q).length = (coloring q).shared.length * m) (p : Fin n) (fresh : ℕ → α) :
    ∃ ghost_data, fetchGhosts m windows (info p) (coloring p) fresh = some ghost_data ∧
      ghost_data.length = (coloring p).ghost.length * m ∧
      ∀ (k : ℕ) (g : EntityInfo), (coloring p).ghost[k]? = some g → ∀ q : Fin n, g.rank = q → ∀ j < m,
        ghost_data[k * m + j]? = (windows q)[g.offset * m + j]? := by
  have hload : ∀ g ∈ (coloring p).ghost, ∀ q : Fin n, g.rank = q →
      getSlot m windows g = some (((windows q).drop (g.offset * m)).take m) ∧
      (((windows q).drop (g.offset * m)).take m).length = m := by
    intro g hg q hq
    obtain ⟨e, he, -, hoff, -⟩ := hc.owner hg hq
    have hend : (g.offset + 1) * m ≤ (coloring q).shared.length * m :=
      Nat.mul_le_mul_right m (hoff ▸ hc.offset_lt he)
    rw [Nat.succ_mul] at hend
    have hloaded : loadAt (windows q) ((g.offset * m : ℕ) : ℤ) m =
        some (((windows q).drop (g.offset * m)).take m) := loadAt_nat.mpr ⟨by rw [hwindows]; exact hend, rfl⟩
    refine ⟨?_, length_loadAt hloaded⟩
    simp only [getSlot, toInt_some hm, hq, OneSided.windowOf_fin, Option.bind_eq_bind, Option.bind_some]
    exact hloaded
  have hall : ((coloring p).ghost.mapM (getSlot m windows)).isSome := ArrayLoops.isSome_mapM.mpr fun g hg => by
    obtain ⟨q, hq, -⟩ := hc.ghost p g hg
    exact Option.isSome_iff_exists.mpr ⟨_, (hload g hg q hq).1⟩
  obtain ⟨slots, hslots⟩ := Option.isSome_iff_exists.mp hall
  obtain ⟨hcount, hget⟩ := ArrayLoops.getElem?_mapM hslots
  have hslot (k : ℕ) (g : EntityInfo) (hg : (coloring p).ghost[k]? = some g) (q : Fin n) (hq : g.rank = q) :
      slots[k]? = some (((windows q).drop (g.offset * m)).take m) := by
    obtain ⟨slot, hslot, hsome⟩ := hget k g hg
    rw [hslot, ← hsome]
    exact (hload g (List.mem_of_getElem? hg) q hq).1
  have hfit : ∀ k slot, slots[k]? = some slot →
      k * m + slot.length ≤ (newBuffer fresh ((coloring p).ghost.length * m)).length := by
    intro k slot hk
    have hlt : k < (coloring p).ghost.length := hcount ▸ (List.getElem?_eq_some_iff.mp hk).1
    have hg := List.getElem?_eq_getElem hlt
    obtain ⟨q, hq, -⟩ := hc.ghost p _ (List.getElem_mem hlt)
    obtain rfl := Option.some.inj (hk.symm.trans (hslot k _ hg q hq))
    have hend : (k + 1) * m ≤ (coloring p).ghost.length * m := Nat.mul_le_mul_right m hlt
    rw [Nat.succ_mul] at hend
    rw [(hload _ (List.getElem_mem hlt) q hq).2, length_newBuffer]
    exact hend
  obtain ⟨ghost_data, hstore⟩ := Option.isSome_iff_exists.mp (storeRows_isSome.mpr hfit)
  refine ⟨ghost_data, ?_, ?_, fun k g hg q hq j hj => ?_⟩
  · rw [fetchGhosts, hslots, (hinfo p).ghost]
    exact hstore
  · rw [length_storeRows hstore, length_newBuffer]
  · have hlong : j < (((windows q).drop (g.offset * m)).take m).length := by
      rw [(hload g (List.mem_of_getElem? hg) q hq).2]
      exact hj
    rw [getElem?_storeRows hstore (hslot k g hg q hq) hj hlong, List.getElem?_take, if_pos hj,
      List.getElem?_drop]

/-- The owner's row of a ghost. -/
def ownerRow (coloring : Fin n → IndexColoring) (rows : Fin n → List (List α)) (g : EntityInfo) : List α :=
  if h : g.rank < n then
    ((rows ⟨g.rank, h⟩)[(coloring ⟨g.rank, h⟩).exclusive.length + g.offset]?).getD []
  else []

theorem ownerRow_eq {g : EntityInfo} {q : Fin n} (hq : g.rank = q) :
    ownerRow coloring rows g = ((rows q)[(coloring q).exclusive.length + g.offset]?).getD [] := by
  have hlt : g.rank < n := hq ▸ q.isLt
  have hrank : (⟨g.rank, hlt⟩ : Fin n) = q := Fin.ext hq
  simp only [ownerRow, dif_pos hlt, hrank]

include hc in
/-- Ghosts and the entries they stand for, in the order of both lists. -/
theorem paired_ids (p q : Fin n) :
    ((coloring p).ghost.filter (·.rank = (q : ℕ))).map (fun g => (g.id, g.offset)) =
      (userEntries (coloring q) p).map fun e => (e.id, e.offset) := by
  let at_ (id : ℕ) : ℕ × ℕ := (id, sharedPosition (coloring q) id)
  have hghost : ((coloring p).ghost.filter (·.rank = (q : ℕ))).map (fun g => (g.id, g.offset)) =
      (((coloring p).ghost.filter (·.rank = (q : ℕ))).map EntityInfo.id).map at_ := by
    rw [List.map_map]
    refine List.map_congr_left fun g hg => ?_
    obtain ⟨hmem, hrank⟩ := List.mem_filter.mp hg
    obtain ⟨e, he, hid, hoff, -⟩ := hc.owner hmem (of_decide_eq_true hrank)
    simp only [at_, Function.comp_apply, hoff, hc.shared_offset he, hid]
  have hshared : (userEntries (coloring q) p).map (fun e => (e.id, e.offset)) =
      ((userEntries (coloring q) p).map EntityInfo.id).map at_ := by
    rw [List.map_map]
    refine List.map_congr_left fun e he => ?_
    simp only [at_, Function.comp_apply, hc.shared_offset (List.mem_filter.mp he).1]
  rw [hghost, hshared, hc.ghost_ids]

variable (tag) in
include hc hinfo hrows hlen in
/-- What is sent to a rank, one length for each entry it uses. -/
theorem sendCounts_some (q : Fin n) : ∃ sent, sendCounts tag (info q) (coloring q) (rows q) = some sent ∧
    ∀ p, itemsFor p sent = (userEntries (coloring q) p).map fun e =>
      (tag e.id, (((rows q)[(coloring q).exclusive.length + e.offset]?).getD []).length) := by
  let row (e : EntityInfo) : List α := ((rows q)[(coloring q).exclusive.length + e.offset]?).getD []
  have hrow : ∀ e ∈ (coloring q).shared, (rows q)[(info q).exclusive + e.offset]? = some (row e) ∧
      (row e).length < 2 ^ 31 := by
    intro e he
    have hlt : (coloring q).exclusive.length + e.offset < (rows q).length := by
      have := hc.offset_lt he
      rw [hrows]
      omega
    have hget := List.getElem?_eq_getElem hlt
    have hrow : row e = (rows q)[(coloring q).exclusive.length + e.offset] := by
      simp only [row, hget, Option.getD_some]
    rw [(hinfo q).exclusive, hrow]
    exact ⟨hget, hlen q _ (hc.offset_lt he) _ hget⟩
  refine ⟨(coloring q).shared.flatMap fun e =>
    (e.shared.sort (· ≤ ·)).map fun peer => (peer, tag e.id, (row e).length), ?_, fun p => ?_⟩
  · rw [sendCounts, mapM_some (g := fun e => (e.shared.sort (· ≤ ·)).map fun peer =>
      (peer, tag e.id, (row e).length)) fun e he => ?_]
    · rfl
    · obtain ⟨hget, hshort⟩ := hrow e he
      have hmod : (row e).length % 2 ^ 32 = (row e).length := Nat.mod_eq_of_lt (hshort.trans (by decide))
      simp only [hget, Option.bind_eq_bind, Option.bind_some, hmod]
  · rw [itemsFor_flatMap fun e _ => e.shared.sort_nodup (· ≤ ·)]
    simp [userEntries, row]

include hc in
/-- Every ghost gets the length of its owner's row. -/
theorem receiveCounts_eq {sent : Fin n → List (ℕ × ℕ × ℕ)}
    (hsent : ∀ q p, itemsFor p (sent q) = (userEntries (coloring q) p).map fun e =>
      (tag e.id, (((rows q)[(coloring q).exclusive.length + e.offset]?).getD []).length)) (p : Fin n) :
    receiveCounts tag sent (coloring p) p =
      some ((coloring p).ghost.map fun g => (ownerRow coloring rows g).length) := by
  have hmatch : ∀ q : ℕ, (if h : q < n then itemsFor p (sent ⟨q, h⟩) else []) =
      (itemsFor q ((coloring p).ghost.map fun g => (g.rank, g))).map fun g =>
        (tag g.id, (ownerRow coloring rows g).length) := by
    intro q
    have hitems : itemsFor q ((coloring p).ghost.map fun g => (g.rank, g)) =
        (coloring p).ghost.filter (·.rank = q) := by
      simp [itemsFor, List.filter_map, Function.comp_def]
    rw [hitems]
    split
    · rename_i hq
      let value (x : ℕ × ℕ) : ℕ × ℕ :=
        (tag x.1, (((rows ⟨q, hq⟩)[(coloring ⟨q, hq⟩).exclusive.length + x.2]?).getD []).length)
      have hpair := congrArg (List.map value) (paired_ids hc p ⟨q, hq⟩)
      rw [List.map_map, List.map_map] at hpair
      refine (hsent ⟨q, hq⟩ p).trans (hpair.symm.trans (List.map_congr_left fun g hg => ?_))
      have hrank : g.rank = q := of_decide_eq_true (List.mem_filter.mp hg).2
      simp only [value, Function.comp_apply, ownerRow_eq (q := ⟨q, hq⟩) hrank]
    · rename_i hq
      have hnone : (coloring p).ghost.filter (·.rank = q) = [] := List.filter_eq_nil_iff.mpr fun g hg hrank => by
        obtain ⟨q', hq', -⟩ := hc.ghost p g hg
        exact hq (of_decide_eq_true hrank ▸ hq' ▸ q'.isLt)
      rw [hnone]
      rfl
  have hreceived := Mailbox.receiveAll_eq (fun g : EntityInfo => tag g.id) n hmatch
  simpa only [receiveCounts, List.map_map, Function.comp_def] using hreceived

theorem unloadRow_eq {ghost_data : List α} {count : ℕ} (h : count < 2 ^ 31) (k : ℕ) :
    unloadRow m ghost_data (count, k) = loadAt ghost_data ((k * m : ℕ) : ℤ) count := by
  rw [unloadRow, toInt_some h]
  rfl

/-- The rows come out of the ghosts' slots exactly if they end inside the buffer. -/
theorem unloadGhosts_isSome {info : ColoringInfo} {counts : List ℕ} (hcounts : ∀ x ∈ counts, x < 2 ^ 31)
    {ghost_data : List α} {l : List (List α)} (hl : l.length = info.exclusive + info.shared + counts.length) :
    (unloadGhosts m info ghost_data counts l).isSome ↔
      ∀ k count, counts[k]? = some count → k * m + count ≤ ghost_data.length := by
  have hmapM : (unloadGhosts m info ghost_data counts l).isSome ↔
      (counts.zipIdx.mapM (unloadRow m ghost_data)).isSome := by
    unfold unloadGhosts
    cases hghosts : counts.zipIdx.mapM (unloadRow m ghost_data) with
    | none => simp
    | some ghosts =>
      have hcount := (ArrayLoops.getElem?_mapM hghosts).1
      rw [List.length_zipIdx] at hcount
      simp [hcount, hl]
  rw [hmapM, ArrayLoops.isSome_mapM]
  constructor
  · intro h k count hk
    have hload := h (count, k) (List.mem_zipIdx_iff_getElem?.mpr hk)
    rw [unloadRow_eq (hcounts count (List.mem_of_getElem? hk))] at hload
    obtain ⟨row, hrow⟩ := Option.isSome_iff_exists.mp hload
    exact (loadAt_nat.mp hrow).1
  · rintro h ⟨count, k⟩ hx
    have hk := List.mem_zipIdx_iff_getElem?.mp hx
    rw [unloadRow_eq (hcounts count (List.mem_of_getElem? hk))]
    exact Option.isSome_iff_exists.mpr ⟨_, loadAt_nat.mpr ⟨h k count hk, rfl⟩⟩

theorem unloadGhosts_rows {info : ColoringInfo} {counts : List ℕ} (hcounts : ∀ x ∈ counts, x < 2 ^ 31)
    {ghost_data : List α} {l l' : List (List α)} (hl : l.length = info.exclusive + info.shared + counts.length)
    (h : unloadGhosts m info ghost_data counts l = some l') :
    l'.length = l.length ∧ (∀ i < info.exclusive + info.shared, l'[i]? = l[i]?) ∧
      ∀ (k : ℕ) (count : ℕ), counts[k]? = some count →
        l'[info.exclusive + info.shared + k]? = some ((ghost_data.drop (k * m)).take count) ∧
          k * m + count ≤ ghost_data.length := by
  obtain ⟨ghosts, hghosts, hset⟩ := Option.bind_eq_some_iff.mp h
  obtain ⟨hcount, hget⟩ := ArrayLoops.getElem?_mapM hghosts
  rw [List.length_zipIdx] at hcount
  rw [if_pos (by rw [hcount, hl])] at hset
  obtain rfl := Option.some.inj hset
  have hnil : l.drop (info.exclusive + info.shared + ghosts.length) = [] :=
    List.drop_eq_nil_of_le (by rw [hcount, hl])
  have htake : (l.take (info.exclusive + info.shared)).length = info.exclusive + info.shared := by
    rw [List.length_take, hl]
    omega
  rw [hnil, List.append_nil]
  refine ⟨by rw [List.length_append, htake, hcount, hl], fun i hi => ?_, fun k count hk => ?_⟩
  · rw [List.getElem?_append_left (by omega), List.getElem?_take, if_pos hi]
  · have hindex : counts.zipIdx[k]? = some (count, k) := by
      rw [List.getElem?_zipIdx, hk]
      simp
    obtain ⟨row, hrow, hload⟩ := hget k _ hindex
    rw [unloadRow_eq (hcounts count (List.mem_of_getElem? hk))] at hload
    obtain ⟨hfit, rfl⟩ := loadAt_nat.mp hload
    rw [List.getElem?_append_right (by omega), htake, Nat.add_sub_cancel_left]
    exact ⟨hrow, hfit⟩

-- ---------------------------------------------------------------------------
-- The copy
-- ---------------------------------------------------------------------------

theorem isSome_allRanks {f : Fin n → Option α} : (allRanks f).isSome ↔ ∀ r, (f r).isSome := by
  unfold allRanks
  split
  · rename_i h
    exact iff_of_true rfl h
  · rename_i h
    exact iff_of_false (by simp) h

include hc hrows in
/-- The owner has a row for every ghost. -/
theorem exists_ownerRow {p q : Fin n} {g : EntityInfo} (hg : g ∈ (coloring p).ghost) (hq : g.rank = q) :
    (rows q)[(coloring q).exclusive.length + g.offset]? = some (ownerRow coloring rows g) := by
  obtain ⟨e, he, -, hoff, -⟩ := hc.owner hg hq
  have hlt : (coloring q).exclusive.length + g.offset < (rows q).length := by
    have := hoff ▸ hc.offset_lt he
    rw [hrows]
    omega
  rw [ownerRow_eq hq, List.getElem?_eq_getElem hlt, Option.getD_some]

variable (tag) in
include hc hinfo hrows hlen hm in
/-- With the shared rows in their slots, the copy comes down to taking out the ghosts' rows. -/
theorem copyGhosts_eq {fresh : Fin n → Fresh α} {windows : Fin n → List α}
    (hload : ∀ p, loadShared m (info p) (fresh p).shared_data (rows p) = some (windows p)) :
    ∃ ghost_data : Fin n → List α,
      copyGhosts m tag info coloring fresh rows = allRanks (fun p => unloadGhosts m (info p) (ghost_data p)
        ((coloring p).ghost.map fun g => (ownerRow coloring rows g).length) (rows p)) ∧
      ∀ p, (ghost_data p).length = (coloring p).ghost.length * m ∧
        ∀ (k : ℕ) (g : EntityInfo), (coloring p).ghost[k]? = some g → ∀ q : Fin n, g.rank = q → ∀ j < m,
          (ghost_data p)[k * m + j]? = (windows q)[g.offset * m + j]? := by
  have hwindows (q : Fin n) : (windows q).length = (coloring q).shared.length * m := by
    have hq := hload q
    rw [loadShared_eq hinfo hrows] at hq
    rw [length_storeRows hq, length_newBuffer]
  choose ghost_data hfetch hghost using fun p => fetchGhosts_some hc hinfo hm hwindows p (fresh p).ghost_data
  choose sent hsend hsent using sendCounts_some tag hc hinfo hrows hlen
  refine ⟨ghost_data, ?_, hghost⟩
  simp only [copyGhosts, hload, allRanks_some, OneSided.epoch_some hc hinfo, hfetch, hsend,
    receiveCounts_eq hc hsent, Option.bind_eq_bind, Option.bind_some]

include hinfo hrows in
theorem length_rows (p : Fin n) : (rows p).length = (info p).exclusive + (info p).shared +
    ((coloring p).ghost.map fun g => (ownerRow coloring rows g).length).length := by
  rw [hrows, (hinfo p).exclusive, (hinfo p).shared, List.length_map]

include hc hrows hlen in
theorem counts_lt (p : Fin n) : ∀ x ∈ (coloring p).ghost.map fun g => (ownerRow coloring rows g).length,
    x < 2 ^ 31 := by
  intro x hx
  obtain ⟨g, hg, rfl⟩ := List.mem_map.mp hx
  obtain ⟨q, hq, e, he, -, hoff, -⟩ := hc.ghost p g hg
  exact hlen q _ (hoff ▸ hc.offset_lt he) _ (exists_ownerRow hc hrows hg hq)

include hc hinfo hrows hlen hm in
theorem copyGhosts_isSome (fresh : Fin n → Fresh α) :
    (copyGhosts m tag info coloring fresh rows).isSome ↔ Fits m coloring rows := by
  by_cases hload : ∀ p, (loadShared m (info p) (fresh p).shared_data (rows p)).isSome
  · have hshared := fun p => (loadShared_isSome hinfo hrows p _).mp (hload p)
    choose windows hwindows using fun p => Option.isSome_iff_exists.mp (hload p)
    obtain ⟨ghost_data, heq, hghost⟩ := copyGhosts_eq tag hc hinfo hm hrows hlen hwindows
    rw [heq, isSome_allRanks]
    constructor
    · intro h
      refine ⟨hshared, fun p k g hg q hq row hrow => ?_⟩
      have hfit := (unloadGhosts_isSome (counts_lt hc hrows hlen p) (length_rows hinfo hrows p)).mp (h p) k
        (ownerRow coloring rows g).length (by rw [List.getElem?_map, hg]; rfl)
      rw [exists_ownerRow hc hrows (List.mem_of_getElem? hg) hq] at hrow
      rw [(hghost p).1] at hfit
      rwa [← Option.some.inj hrow]
    · intro h p
      refine (unloadGhosts_isSome (counts_lt hc hrows hlen p) (length_rows hinfo hrows p)).mpr ?_
      intro k count hk
      rw [List.getElem?_map] at hk
      obtain ⟨g, hg, rfl⟩ := Option.map_eq_some_iff.mp hk
      have hmem := List.mem_of_getElem? hg
      obtain ⟨q, hq, -⟩ := hc.ghost p g hmem
      rw [(hghost p).1]
      exact h.ghost p k g hg q hq _ (exists_ownerRow hc hrows hmem hq)
  · have hnone : allRanks (fun p => loadShared m (info p) (fresh p).shared_data (rows p)) = none :=
      Option.not_isSome_iff_eq_none.mp (mt isSome_allRanks.mp hload)
    refine iff_of_false (by simp [copyGhosts, hnone]) fun h => hload fun p => ?_
    exact (loadShared_isSome hinfo hrows p _).mpr (h.shared p)

include hc hinfo hrows hlen hm in
theorem copyGhosts_copied {fresh : Fin n → Fresh α} {rows' : Fin n → List (List α)}
    (h : copyGhosts m tag info coloring fresh rows = some rows') : Copied m coloring rows rows' := by
  obtain ⟨windows, hload, -⟩ := Option.bind_eq_some_iff.mp h
  rw [allRanks_eq_some] at hload
  obtain ⟨ghost_data, heq, hghost⟩ := copyGhosts_eq tag hc hinfo hm hrows hlen hload
  rw [heq, allRanks_eq_some] at h
  have hrun := fun p => unloadGhosts_rows (counts_lt hc hrows hlen p) (length_rows hinfo hrows p) (h p)
  refine ⟨fun p => (hrun p).1, fun p i hi => (hrun p).2.1 i ?_, fun p k g hg q hq row hrow => ?_⟩
  · rwa [(hinfo p).exclusive, (hinfo p).shared]
  · rw [exists_ownerRow hc hrows (List.mem_of_getElem? hg) hq] at hrow
    obtain ⟨hget, hfit⟩ := (hrun p).2.2 k (ownerRow coloring rows g).length (by rw [List.getElem?_map, hg]; rfl)
    rw [(hinfo p).exclusive, (hinfo p).shared, Option.some.inj hrow] at hget
    rw [Option.some.inj hrow] at hfit
    have hlength : (((ghost_data p).drop (k * m)).take row.length).length = row.length := by
      rw [List.length_take, List.length_drop]
      omega
    refine ⟨_, hget, hlength, List.ext_getElem? fun j => ?_⟩
    have htake (l : List α) : (l.take m)[j]? = if j < m then l[j]? else none := List.getElem?_take
    rw [htake, htake]
    split
    · rename_i hj
      rcases Nat.lt_or_ge j row.length with hlt | hge
      · -- entry `j` came through the owner's slot
        obtain ⟨e, he, -, hoff, -⟩ := hc.owner (List.mem_of_getElem? hg) hq
        have hq' := hload q
        rw [loadShared_eq hinfo hrows] at hq'
        have hin : g.offset < (coloring q).shared.length := by
          rw [hoff]
          exact hc.offset_lt he
        have hslot : (sharedRows coloring rows q)[g.offset]? = some row := by
          rw [getElem?_sharedRows hin,
            exists_ownerRow hc hrows (List.mem_of_getElem? hg) hq, Option.some.inj hrow]
        rw [List.getElem?_take, if_pos hlt, List.getElem?_drop, (hghost p).2 k g hg q hq j hj,
          getElem?_storeRows hq' hslot hj hlt]
      · rw [List.getElem?_eq_none (by rw [hlength]; exact hge), List.getElem?_eq_none hge]
    · rfl

end

/-- The one-sided copy of a ragged field stays inside its buffers exactly if the rows do. Then it
changes ghost rows only: they get their owners' lengths, and their owners' entries up to the size
of a slot. -/
theorem one_sided_rows (m : ℕ) (tag : ℕ → ℕ) (info : Fin n → ColoringInfo) (coloring : Fin n → IndexColoring)
    (hc : ExchangeColoring coloring) (hinfo : ∀ p, Described (info p) (coloring p)) (hm : m < 2 ^ 31)
    (fresh : Fin n → Fresh α) (rows : Fin n → List (List α)) (hrows : ∀ p, (rows p).length =
      (coloring p).exclusive.length + (coloring p).shared.length + (coloring p).ghost.length)
    (hlen : ∀ p, ∀ i < (coloring p).shared.length, ∀ row,
      (rows p)[(coloring p).exclusive.length + i]? = some row → row.length < 2 ^ 31) :
    ((copyGhosts m tag info coloring fresh rows).isSome ↔ Fits m coloring rows) ∧
      ∀ rows', copyGhosts m tag info coloring fresh rows = some rows' → Copied m coloring rows rows' :=
  ⟨copyGhosts_isSome hc hinfo hm hrows hlen fresh, fun _ => copyGhosts_copied hc hinfo hm hrows hlen⟩

/-- Rank 0 shares a row of two entries, rank 1 one of one. -/
def pairRows (p : Fin 2) : List (List ℕ) := if p.val = 0 then [[1, 2], []] else [[3], [4, 5, 6]]

theorem pairRows_short (p : Fin 2) (i : ℕ) (hi : i < (pairColoring p).shared.length) (row : List ℕ)
    (hrow : (pairRows p)[(pairColoring p).exclusive.length + i]? = some row) : i = 0 ∧ row.length ≤ 2 := by
  obtain rfl : i = 0 := Nat.lt_one_iff.mp hi
  refine ⟨rfl, ?_⟩
  match p with
  | 0 =>
    obtain rfl : [1, 2] = row := Option.some.inj hrow
    exact Nat.le_refl 2
  | 1 =>
    obtain rfl : [3] = row := Option.some.inj hrow
    exact Nat.le_succ 1

theorem pairRows_fits : Fits 2 pairColoring pairRows where
  shared p i hi row hrow := by
    obtain ⟨rfl, hlen⟩ := pairRows_short p i hi row hrow
    simpa [pairColoring] using hlen
  ghost p k g hg q hq row hrow := by
    have hk : k < 1 := (List.getElem?_eq_some_iff.mp hg).1
    obtain rfl : k = 0 := Nat.lt_one_iff.mp hk
    obtain rfl := Option.some.inj hg
    simpa [pairColoring] using (pairRows_short q 0 Nat.zero_lt_one row hrow).2

theorem one_sided_rows_pair : ∃ rows', copyGhosts 2 (fun _ => 99) OneSided.pairInfo pairColoring
    (fun _ => ⟨fun _ => 0, fun _ => 0⟩) pairRows = some rows' ∧ Copied 2 pairColoring pairRows rows' := by
  obtain ⟨hsome, hcopied⟩ := one_sided_rows 2 (fun _ => 99) OneSided.pairInfo pairColoring
    pairColoring_exchange OneSided.pairInfo_described (by decide) (fun _ => ⟨fun _ => 0, fun _ => 0⟩) pairRows
    (by decide) fun p i hi row hrow => (pairRows_short p i hi row hrow).2.trans_lt (by decide)
  obtain ⟨rows', hrun⟩ := Option.isSome_iff_exists.mp (hsome.mpr pairRows_fits)
  exact ⟨rows', hrun, hcopied rows' hrun⟩

end OneSidedRows

end Flecsi.Execution
