import Flecsi.Coloring.Types
import Flecsi.Coloring.Comm

/-!
# Renumbering of the shared entities

`remap_shared_entities`, for one index space: the shared entries of every rank get
their positions in the shared list as offsets, and the positions are sent to the
ranks that hold the entries as ghosts.
-/

namespace Flecsi.Execution

open Coloring

/-- The positions collected in `send_buffers[peer]`. -/
def sendBuffer (c : IndexColoring) (peer : ℕ) : List ℕ :=
  c.shared.zipIdx.filterMap fun x => if peer ∈ x.1.shared then some x.2 else none

def newShared (c : IndexColoring) : List EntityInfo :=
  removeUniqueEntities (c.shared.zipIdx.map fun x => entityInfo x.1.id x.1.rank x.2 x.1.shared)

def ghostCount (c : IndexColoring) (rank : ℕ) : ℕ := c.ghost.countP (·.rank = rank)

/-- The message from `q` to `p`, received in a buffer of `p`'s count. A receive without
a send, or a send without a receive, is never completed; the assertions are on messages
of a rank to itself. -/
def received (coloring : Fin n → IndexColoring) (p q : Fin n) : Option (List ℕ) :=
  let count := ghostCount (coloring p) q
  let buf := sendBuffer (coloring q) p
  if count = 0 ∧ buf = [] then some []
  else if count = 0 ∨ buf = [] ∨ p = q ∨ count < buf.length then none
  else some (buf ++ List.replicate (count - buf.length) 0)

/-- One pass of the loop over the ghosts: `recv_buffers.at(rank).at(offset)`. The empty braces
construct an `id_t`, so the shared set of the new entry is that of rank zero. -/
def unpackGhost (recv : ℕ → Option (List ℕ)) (s : (ℕ → ℕ) × List EntityInfo) (ghost : EntityInfo) :
    Option ((ℕ → ℕ) × List EntityInfo) := do
  let buf ← recv ghost.rank
  let index ← buf[s.1 ghost.rank]?
  some (Function.update s.1 ghost.rank (s.1 ghost.rank + 1),
    s.2 ++ [entityInfo ghost.id ghost.rank index {0}])

/-- The loop over the ghosts, with the buffers received from each rank. -/
def newGhost (c : IndexColoring) (recv : Fin n → List ℕ) : Option (List EntityInfo) :=
  (c.ghost.foldlM (unpackGhost fun rank => if h : rank < n then some (recv ⟨rank, h⟩) else none)
    (fun _ => 0, [])).map fun s => removeUniqueEntities s.2

/-- `remap_shared_entities` on all ranks. A shared entry must name ranks that exist. -/
def remapSharedEntities (coloring : Fin n → IndexColoring) : Option (Fin n → IndexColoring) :=
  allRanks fun p => do
    if ∃ e ∈ (coloring p).shared, ∃ peer ∈ e.shared, n ≤ peer then none
    else
      let recv ← allRanks (received coloring p)
      let ghost ← newGhost (coloring p) recv
      some { exclusive := (coloring p).exclusive
             shared := newShared (coloring p)
             ghost := ghost }

-- ---------------------------------------------------------------------------
-- Dual colorings
-- ---------------------------------------------------------------------------

/-- The entities a rank owns, in the order of their positions. -/
def own (c : IndexColoring) : List EntityInfo := c.exclusive ++ c.shared

/-- The ghosts of a rank are what their owners share with it, in lists sorted by id. -/
structure Dual (coloring : Fin n → IndexColoring) : Prop where
  /-- Ranks and offsets are stored as `uint32_t`. -/
  wide : ∀ p, ∀ e ∈ (coloring p).shared ++ (coloring p).ghost,
    e.rank < 2 ^ 32 ∧ e.offset < 2 ^ 32 ∧ ∀ r ∈ e.shared, r < 2 ^ 32
  sorted : ∀ p, (coloring p).shared.Pairwise (·.id < ·.id) ∧
    (coloring p).ghost.Pairwise (·.id < ·.id)
  ghost : ∀ p : Fin n, ∀ g ∈ (coloring p).ghost, ∃ q : Fin n, q ≠ p ∧ g.rank = q ∧
    ∃ e ∈ (coloring q).shared, e.id = g.id ∧ (p : ℕ) ∈ e.shared
  users : ∀ q : Fin n, ∀ e ∈ (coloring q).shared, ∀ r ∈ e.shared, ∃ p : Fin n, (p : ℕ) = r ∧ p ≠ q ∧
    ∃ g ∈ (coloring p).ghost, g.id = e.id ∧ g.rank = q

/-- A coloring of an index space as all ranks hold it together. -/
structure DualColoring (coloring : Fin n → IndexColoring) : Prop where
  /-- Ranks and offsets are stored as `uint32_t`. -/
  wide : ∀ p, ∀ e ∈ own (coloring p) ++ (coloring p).ghost,
    e.rank < 2 ^ 32 ∧ e.offset < 2 ^ 32 ∧ ∀ r ∈ e.shared, r < 2 ^ 32
  sorted : ∀ p, (coloring p).shared.Pairwise (·.id < ·.id) ∧
    (coloring p).ghost.Pairwise (·.id < ·.id)
  nodup : ∀ p, ((own (coloring p)).map EntityInfo.id).Nodup
  once : ∀ p q, ∀ e ∈ own (coloring p), ∀ e' ∈ own (coloring q), e.id = e'.id → p = q
  rank : ∀ p : Fin n, ∀ e ∈ own (coloring p), e.rank = p
  offsets : ∀ p, ((own (coloring p)).map EntityInfo.offset).Perm
    (List.range (own (coloring p)).length)
  /-- A ghost entry names its owner and the owner's offset; the owner lists the rank. -/
  ghost : ∀ p : Fin n, ∀ g ∈ (coloring p).ghost, ∃ q, q ≠ p ∧ ∃ e ∈ (coloring q).shared,
    g.id = e.id ∧ g.rank = e.rank ∧ g.offset = e.offset ∧ (p : ℕ) ∈ e.shared
  users : ∀ q, ∀ e ∈ (coloring q).shared, ∀ r ∈ e.shared, ∃ p : Fin n, (p : ℕ) = r ∧ p ≠ q ∧
    ∃ g ∈ (coloring p).ghost, g.id = e.id

-- ---------------------------------------------------------------------------
-- The renumbered coloring
-- ---------------------------------------------------------------------------

/-- The position of an id in the shared list. -/
def sharedPosition (c : IndexColoring) (id : ℕ) : ℕ := c.shared.findIdx (·.id = id)

def remappedShared (c : IndexColoring) : List EntityInfo :=
  c.shared.map fun e => { e with offset := sharedPosition c e.id }

/-- The new offset of a ghost, taken from its owner. -/
def ghostOffset (coloring : Fin n → IndexColoring) (g : EntityInfo) : ℕ :=
  if h : g.rank < n then sharedPosition (coloring ⟨g.rank, h⟩) g.id else 0

def remapped (coloring : Fin n → IndexColoring) (p : Fin n) : IndexColoring where
  exclusive := (coloring p).exclusive
  shared := remappedShared (coloring p)
  ghost := (coloring p).ghost.map fun g =>
    { g with offset := ghostOffset coloring g, shared := {0} }

theorem mem_own_shared {c : IndexColoring} (he : e ∈ c.shared) : e ∈ own c :=
  List.mem_append_right _ he

theorem sharedPosition_eq {c : IndexColoring} (hs : c.shared.Pairwise (·.id < ·.id))
    (h : c.shared[i]? = some e) : sharedPosition c e.id = i := by
  obtain ⟨hi, he⟩ := List.getElem?_eq_some_iff.mp h
  refine (List.findIdx_eq hi).mpr ⟨by simp [he], fun j hj => ?_⟩
  have hlt := List.pairwise_iff_getElem.mp hs j i (by omega) hi hj
  rw [he] at hlt
  simpa using hlt.ne

theorem zipIdx_position {c : IndexColoring} (hs : c.shared.Pairwise (·.id < ·.id))
    {x : EntityInfo × ℕ} (hx : x ∈ c.shared.zipIdx) : x.2 = sharedPosition c x.1.id := by
  have h := List.mem_zipIdx_iff_getElem?.mp hx
  exact (sharedPosition_eq hs h).symm

theorem sendBuffer_eq {c : IndexColoring} (hs : c.shared.Pairwise (·.id < ·.id)) (p : ℕ) :
    sendBuffer c p =
      ((c.shared.filter (p ∈ ·.shared)).map EntityInfo.id).map (sharedPosition c) := by
  have hcongr : sendBuffer c p = c.shared.zipIdx.filterMap fun x =>
      (fun e : EntityInfo => if p ∈ e.shared then some (sharedPosition c e.id) else none) x.1 := by
    refine List.filterMap_congr fun x hx => ?_
    rw [zipIdx_position hs hx]
  have hfst := List.filterMap_map (l := c.shared.zipIdx) (f := Prod.fst)
    (g := fun e : EntityInfo => if p ∈ e.shared then some (sharedPosition c e.id) else none)
  rw [hcongr, List.map_map, ← List.filterMap_eq_map, List.filterMap_filter]
  rw [List.zipIdx_map_fst] at hfst
  simpa [Function.comp_def] using hfst.symm

theorem sharedPosition_lt {c : IndexColoring} (hs : c.shared.Pairwise (·.id < ·.id)) (he : e ∈ c.shared) :
    sharedPosition c e.id < c.shared.length := by
  obtain ⟨i, hi⟩ := List.getElem?_of_mem he
  rw [sharedPosition_eq hs hi]
  exact (List.getElem?_eq_some_iff.mp hi).1

theorem zipIdx_map_shared {c : IndexColoring} (hs : c.shared.Pairwise (·.id < ·.id))
    (f : EntityInfo → ℕ → EntityInfo) :
    (c.shared.zipIdx.map fun x => f x.1 x.2) = c.shared.map fun e => f e (sharedPosition c e.id) := by
  have hfst := List.map_map (l := c.shared.zipIdx) (f := Prod.fst)
    (g := fun e : EntityInfo => f e (sharedPosition c e.id))
  rw [List.zipIdx_map_fst] at hfst
  rw [hfst]
  refine List.map_congr_left fun x hx => ?_
  rw [zipIdx_position hs hx]
  rfl

/-- The loop over the ghosts, when each buffer holds from its counter on what the
ghosts left to unpack are to get. -/
theorem foldlM_unpackGhost (recv : ℕ → Option (List ℕ)) (buf : ℕ → List ℕ) (f : EntityInfo → ℕ)
    (ghosts : List EntityInfo) (hrecv : ∀ g ∈ ghosts, recv g.rank = some (buf g.rank))
    (counts : ℕ → ℕ) (out : List EntityInfo)
    (hf : ∀ r, (ghosts.filter (·.rank = r)).map f = (buf r).drop (counts r)) :
    ∃ counts', ghosts.foldlM (unpackGhost recv) (counts, out) =
      some (counts', out ++ ghosts.map fun g => entityInfo g.id g.rank (f g) {0}) := by
  induction ghosts generalizing counts out with
  | nil => exact ⟨counts, by simp⟩
  | cons g ghosts ih =>
    have hhead : (buf g.rank).drop (counts g.rank) =
        f g :: (ghosts.filter (·.rank = g.rank)).map f := by
      rw [← hf g.rank]
      simp
    have hget : (buf g.rank)[counts g.rank]? = some (f g) := by
      rw [← List.head?_drop, hhead, List.head?_cons]
    have hstep : unpackGhost recv (counts, out) g =
        some (Function.update counts g.rank (counts g.rank + 1),
          out ++ [entityInfo g.id g.rank (f g) {0}]) := by
      simp [unpackGhost, hrecv g (by simp), hget]
    have hrest : ∀ r, (ghosts.filter (·.rank = r)).map f =
        (buf r).drop (Function.update counts g.rank (counts g.rank + 1) r) := by
      intro r
      by_cases hr : r = g.rank
      · subst hr
        rw [Function.update_self, ← List.drop_drop, hhead]
        rfl
      · rw [Function.update_of_ne hr, ← hf r, List.filter_cons_of_neg (by simpa using Ne.symm hr)]
    obtain ⟨counts', hih⟩ := ih (fun g hg => hrecv g (by simp [hg])) _
      (out ++ [entityInfo g.id g.rank (f g) {0}]) hrest
    refine ⟨counts', ?_⟩
    rw [List.foldlM_cons, hstep]
    simpa using hih

-- ---------------------------------------------------------------------------
-- Matched messages
-- ---------------------------------------------------------------------------

/-- The coloring of `p` with every position converted to `id_t`. -/
def renumbered (coloring : Fin n → IndexColoring) (p : Fin n) : IndexColoring where
  exclusive := (coloring p).exclusive
  shared := (coloring p).shared.map fun e =>
    { e with offset := toIndices (sharedPosition (coloring p) e.id) }
  ghost := (coloring p).ghost.map fun g =>
    { g with offset := toIndices (ghostOffset coloring g), shared := {0} }

section
variable {coloring : Fin n → IndexColoring} (h : Dual coloring)
include h

/-- The ghosts of `p` owned by `q` are the entries `q` shares with `p`, in order. -/
theorem Dual.ghost_ids (p q : Fin n) :
    ((coloring p).ghost.filter (·.rank = (q : ℕ))).map EntityInfo.id =
      ((coloring q).shared.filter ((p : ℕ) ∈ ·.shared)).map EntityInfo.id := by
  have hsort {l : List EntityInfo} (hl : l.Pairwise (·.id < ·.id)) (b : EntityInfo → Bool) :
      ((l.filter b).map EntityInfo.id).Pairwise (id · < id ·) :=
    List.pairwise_map.mpr (hl.filter b)
  refine SortUnique.eq_of_pairwise_lt id (hsort (h.sorted p).2 _) (hsort (h.sorted q).1 _) ?_
  intro x
  simp only [List.mem_map, List.mem_filter, decide_eq_true_eq]
  constructor
  · rintro ⟨g, ⟨hg, hrank⟩, rfl⟩
    obtain ⟨q', -, hr, e, he, hid, hp⟩ := h.ghost p g hg
    have hq : q' = q := Fin.ext (hr.symm.trans hrank)
    subst hq
    exact ⟨e, ⟨he, hp⟩, hid⟩
  · rintro ⟨e, ⟨he, hp⟩, rfl⟩
    obtain ⟨p', hp', -, g, hg, hid, hrank⟩ := h.users q e he p hp
    have hpp : p' = p := Fin.ext hp'
    subst hpp
    exact ⟨g, ⟨hg, hrank⟩, hid⟩

theorem Dual.ghost_rank {p : Fin n} (hg : g ∈ (coloring p).ghost) : g.rank < n := by
  obtain ⟨q, -, hr, -⟩ := h.ghost p g hg
  exact hr ▸ q.isLt

theorem Dual.peer_lt {p : Fin n} (he : e ∈ (coloring p).shared) {peer : ℕ} (hpeer : peer ∈ e.shared) :
    peer < n := by
  obtain ⟨q, hq, -⟩ := h.users p e he peer hpeer
  exact hq ▸ q.isLt

/-- The two sides of a message agree on its length. -/
theorem Dual.length_sendBuffer (p q : Fin n) :
    (sendBuffer (coloring q) p).length = ghostCount (coloring p) q := by
  rw [sendBuffer_eq (h.sorted q).1, List.length_map, ← h.ghost_ids, List.length_map,
    ghostCount, List.countP_eq_length_filter]

theorem Dual.sendBuffer_self (p : Fin n) : sendBuffer (coloring p) p = [] := by
  rw [← List.length_eq_zero_iff, h.length_sendBuffer, ghostCount, List.countP_eq_zero]
  intro g hg hrank
  obtain ⟨q, hq, hr, -⟩ := h.ghost p g hg
  exact hq (Fin.ext (hr.symm.trans (of_decide_eq_true hrank)))

theorem Dual.received_eq (p q : Fin n) :
    received coloring p q = some (sendBuffer (coloring q) p) := by
  unfold received
  rw [← h.length_sendBuffer p q]
  by_cases hb : sendBuffer (coloring q) p = []
  · simp [hb]
  · have hpq : p ≠ q := by
      rintro rfl
      exact hb (h.sendBuffer_self p)
    simp [hb, hpq]

theorem Dual.newShared_eq (p : Fin n) : newShared (coloring p) = (renumbered coloring p).shared := by
  have hmap : ((coloring p).shared.map fun e =>
      entityInfo e.id e.rank (sharedPosition (coloring p) e.id) e.shared) = (renumbered coloring p).shared := by
    refine List.map_congr_left fun e he => ?_
    obtain ⟨hr, -, hs⟩ := h.wide p e (List.mem_append_left _ he)
    rw [entityInfo, toIndices_of_lt hr]
    congr 1
    exact (Finset.image_congr fun r hr => toIndices_of_lt (hs r hr)).trans Finset.image_id
  rw [newShared, zipIdx_map_shared (h.sorted p).1 fun e i => entityInfo e.id e.rank i e.shared, hmap]
  exact SortUnique.sortUnique_of_pairwise (List.pairwise_map.mpr (h.sorted p).1)

theorem Dual.newGhost_eq (p : Fin n) :
    newGhost (coloring p) (fun q => sendBuffer (coloring q) p) = some (renumbered coloring p).ghost := by
  have hmap : ((coloring p).ghost.map fun g =>
      entityInfo g.id g.rank (ghostOffset coloring g) {0}) = (renumbered coloring p).ghost := by
    refine List.map_congr_left fun g hg => ?_
    obtain ⟨hr, -, -⟩ := h.wide p g (List.mem_append_right _ hg)
    rw [entityInfo, toIndices_of_lt hr, Finset.image_singleton]
    rfl
  obtain ⟨counts, hloop⟩ := foldlM_unpackGhost
    (fun rank => if hlt : rank < n then some (sendBuffer (coloring ⟨rank, hlt⟩) p) else none)
    (fun rank => if hlt : rank < n then sendBuffer (coloring ⟨rank, hlt⟩) p else [])
    (ghostOffset coloring) (coloring p).ghost (fun g hg => by simp [h.ghost_rank hg]) (fun _ => 0) []
    (fun r => by
      rw [List.drop_zero]
      by_cases hr : r < n
      · rw [dif_pos hr, sendBuffer_eq (h.sorted _).1, ← h.ghost_ids p ⟨r, hr⟩, List.map_map]
        refine List.map_congr_left fun g hg => ?_
        have hg : g.rank = r := by simpa using (List.mem_filter.mp hg).2
        subst hg
        simp [ghostOffset, hr]
      · rw [dif_neg hr, List.map_eq_nil_iff, List.filter_eq_nil_iff]
        intro g hg he
        exact hr (of_decide_eq_true he ▸ h.ghost_rank hg))
  rw [newGhost, hloop, Option.map_some, List.nil_append, hmap]
  exact congrArg some (SortUnique.sortUnique_of_pairwise (List.pairwise_map.mpr (h.sorted p).2))

theorem Dual.remap_eq : remapSharedEntities coloring = some (renumbered coloring) := by
  refine allRanks_eq_some.mpr fun p => ?_
  have hpeers : ¬∃ e ∈ (coloring p).shared, ∃ peer ∈ e.shared, n ≤ peer := by
    rintro ⟨e, he, r, hr, hle⟩
    exact absurd (h.peer_lt he hr) (not_lt.mpr hle)
  have hrecv : allRanks (received coloring p) = some fun q => sendBuffer (coloring q) p :=
    allRanks_eq_some.mpr fun q => h.received_eq p q
  simp only [if_neg hpeers, hrecv, Option.bind_eq_bind, Option.bind_some, h.newGhost_eq p, h.newShared_eq p]
  rfl

end

-- ---------------------------------------------------------------------------
-- Colorings with local offsets
-- ---------------------------------------------------------------------------

section
variable {coloring : Fin n → IndexColoring} (h : DualColoring coloring)
include h

theorem DualColoring.dual : Dual coloring where
  wide p e he := h.wide p e (by
    rcases List.mem_append.mp he with he | he
    · exact List.mem_append_left _ (mem_own_shared he)
    · exact List.mem_append_right _ he)
  sorted := h.sorted
  ghost p g hg := by
    obtain ⟨q, hq, e, he, hid, hr, -, hp⟩ := h.ghost p g hg
    exact ⟨q, hq, hr.trans (h.rank q e (mem_own_shared he)), e, he, hid.symm, hp⟩
  users q e he r hr := by
    obtain ⟨p, hp, hpq, g, hg, hid⟩ := h.users q e he r hr
    obtain ⟨q', -, e', he', hid', hrank, -, -⟩ := h.ghost p g hg
    have hq : q' = q :=
      h.once q' q e' (mem_own_shared he') e (mem_own_shared he) (hid'.symm.trans hid)
    subst hq
    exact ⟨p, hp, hpq, g, hg, hid, hrank.trans (h.rank q' e' (mem_own_shared he'))⟩

theorem DualColoring.length_own (p : Fin n) : (own (coloring p)).length ≤ 2 ^ 32 := by
  by_contra hlt
  have hmem : 2 ^ 32 ∈ (own (coloring p)).map EntityInfo.offset :=
    (h.offsets p).mem_iff.mpr (List.mem_range.mpr (by omega))
  obtain ⟨e, he, hoff⟩ := List.mem_map.mp hmem
  have := (h.wide p e (List.mem_append_left _ he)).2.1
  omega

theorem DualColoring.ghost_rank {p : Fin n} (hg : g ∈ (coloring p).ghost) : g.rank < n :=
  h.dual.ghost_rank hg

/-- The positions fit into an `id_t`. -/
theorem DualColoring.toIndices_position {p : Fin n} (he : e ∈ (coloring p).shared) :
    toIndices (sharedPosition (coloring p) e.id) = sharedPosition (coloring p) e.id := by
  have hpos := sharedPosition_lt (h.sorted p).1 he
  have hlen := h.length_own p
  simp only [own, List.length_append] at hlen
  exact toIndices_of_lt (by omega)

theorem DualColoring.renumbered_eq : renumbered coloring = remapped coloring := by
  funext p
  unfold renumbered remapped remappedShared
  congr 1
  · refine List.map_congr_left fun e he => ?_
    rw [h.toIndices_position he]
  · refine List.map_congr_left fun g hg => ?_
    obtain ⟨q, -, hr, e, he, hid, -⟩ := h.dual.ghost p g hg
    have hq : (⟨g.rank, hr ▸ q.isLt⟩ : Fin n) = q := Fin.ext hr
    rw [ghostOffset, dif_pos (hr ▸ q.isLt), hq, ← hid, h.toIndices_position he]

theorem DualColoring.remap_eq : remapSharedEntities coloring = some (remapped coloring) :=
  h.renumbered_eq ▸ h.dual.remap_eq

end

end Flecsi.Execution
