import Flecsi.Execution.RemapShared
import Flecsi.Lib.PositionMaps

/-!
# Compacted and global indices

The last part of `setup_rank_context_task`: the entities of a rank, in the order
exclusive, shared, ghost, get global indices from the offset of their owner and
their own offset. Only the shared offsets were renumbered, so the indices of
exclusive and shared entities collide unless the exclusive offsets lie above them.
-/

namespace Flecsi.Execution

open Coloring PackedBuffer PositionMaps

/-- `_rank_offsets`, filled in the order of the colors; the last entry stays 0. -/
def rankOffsets (info : Fin n → ColoringInfo) : List ℕ :=
  let filled := (List.ofFn fun c => (info c).exclusive + (info c).shared).foldl
    (fun (s : List ℕ × ℕ) size => (s.1 ++ [s.2], s.2 + size)) ([], 0)
  filled.1 ++ [0]

def globalIndex (rank_offsets : List ℕ) (entity : EntityInfo) : ℕ :=
  rank_offsets.getD entity.rank 0 + entity.offset

/-- `cis_to_gis` and `gis_to_cis` of one rank. -/
def cisGisMaps (info : Fin n → ColoringInfo) (c : IndexColoring) : Maps ℕ :=
  let add := fun (m : Maps ℕ) entity => m.add (globalIndex (rankOffsets info) entity)
  c.ghost.foldl add (c.shared.foldl add (c.exclusive.foldl add empty))

/-- `context_t::local_index_map`. -/
def localIndexMap (c : IndexColoring) : List (ℕ × ℕ) :=
  let add := fun (m : List (ℕ × ℕ)) (entity : EntityInfo) => m ++ [(m.length, entity.offset)]
  c.shared.foldl add (c.exclusive.foldl add [])

/-- The entities of a rank by position. -/
def entries (c : IndexColoring) : List EntityInfo := own c ++ c.ghost

/-- What the maps of all ranks are for. -/
structure ConsistentMaps (info : Fin n → ColoringInfo) (coloring : Fin n → IndexColoring) :
    Prop where
  injective : ∀ (p : Fin n) (k k' g : ℕ), (cisGisMaps info (coloring p)).at_[k]? = some g →
    (cisGisMaps info (coloring p)).at_[k']? = some g → k = k'
  inverse : ∀ (p : Fin n) (k g : ℕ), (cisGisMaps info (coloring p)).position[g]? = some k ↔
    (cisGisMaps info (coloring p)).at_[k]? = some g
  positions : ∀ (p : Fin n) (k : ℕ), (cisGisMaps info (coloring p)).at_[k]?.isSome ↔
    k < (entries (coloring p)).length
  same : ∀ (p q : Fin n) (k l : ℕ) (e e' : EntityInfo), (entries (coloring p))[k]? = some e →
    (entries (coloring q))[l]? = some e' →
    ((cisGisMaps info (coloring p)).at_[k]? = (cisGisMaps info (coloring q)).at_[l]? ↔
      e.id = e'.id)
  onto : ∀ g : ℕ, g < (List.ofFn fun p => (own (coloring p)).length).sum ↔
    ∃ (p : Fin n) (k : ℕ), k < (own (coloring p)).length ∧
      (cisGisMaps info (coloring p)).at_[k]? = some g
  localMap : ∀ p : Fin n,
    (localIndexMap (coloring p)).map Prod.fst = List.range (own (coloring p)).length ∧
      ((localIndexMap (coloring p)).map Prod.snd).Perm (List.range (own (coloring p)).length)

-- ---------------------------------------------------------------------------
-- What the loops compute
-- ---------------------------------------------------------------------------

theorem rankOffsets_getD {info : Fin n → ColoringInfo} (c : Fin n) :
    (rankOffsets info).getD c 0 =
      (displs (List.ofFn fun c => (info c).exclusive + (info c).shared)).getD c 0 := by
  have run (sizes : List ℕ) :
      let s := sizes.foldl (fun (s : List ℕ × ℕ) size => (s.1 ++ [s.2], s.2 + size)) ([], 0)
      s.1.length = sizes.length ∧ s.1 ++ [s.2] = displs sizes := by
    induction sizes using List.reverseRecOn with
    | nil => exact ⟨rfl, rfl⟩
    | append_singleton sizes size ih =>
      obtain ⟨hlen, hdis⟩ := ih
      rw [List.foldl_append]
      refine ⟨by simp [hlen], ?_⟩
      have hlast := congrArg (fun l => l.getD sizes.length 0) hdis
      simp only [← hlen, List.getD_append_right _ _ _ _ le_rfl] at hlast
      rw [displs_concat, ← hdis]
      simp [← hlen]
  obtain ⟨hlen, hdis⟩ := run (List.ofFn fun c => (info c).exclusive + (info c).shared)
  rw [← hdis, rankOffsets, List.getD_append _ _ _ _ (by simp [hlen]),
    List.getD_append _ _ _ _ (by simp [hlen])]

theorem cisGisMaps_eq (info : Fin n → ColoringInfo) (c : IndexColoring) :
    cisGisMaps info c = maps ((entries c).map (globalIndex (rankOffsets info))) := by
  simp [cisGisMaps, maps, entries, own, List.foldl_map]

theorem localIndexMap_eq (c : IndexColoring) :
    localIndexMap c = (List.range (own c).length).zip ((own c).map EntityInfo.offset) := by
  have run (es : List EntityInfo) :
      es.foldl (fun (m : List (ℕ × ℕ)) e => m ++ [(m.length, e.offset)]) [] =
        (List.range es.length).zip (es.map EntityInfo.offset) := by
    induction es using List.reverseRecOn with
    | nil => rfl
    | append_singleton es e ih =>
      rw [List.foldl_append, ih, List.length_append, List.length_singleton, List.range_succ,
        List.map_append, List.zip_append (by simp)]
      simp
  rw [← run, own, List.foldl_append]
  rfl

-- ---------------------------------------------------------------------------
-- Offsets after the renumbering
-- ---------------------------------------------------------------------------

section
variable {coloring : Fin n → IndexColoring} (h : DualColoring coloring)
include h

theorem DualColoring.shared_offsets (p : Fin n) :
    (remappedShared (coloring p)).map EntityInfo.offset =
      List.range (coloring p).shared.length := by
  refine List.ext_getElem (by simp [remappedShared]) fun i h1 h2 => ?_
  have hi : i < (coloring p).shared.length := by simpa using h2
  simp [remappedShared, sharedPosition_eq (h.sorted p).1 (List.getElem?_eq_getElem hi)]

/-- The offsets of a rank stay a numbering exactly if no exclusive offset lies among
the new shared ones. -/
theorem DualColoring.offsets_iff (p : Fin n) :
    ((own (remapped coloring p)).map EntityInfo.offset).Perm
        (List.range (own (coloring p)).length) ↔
      ∀ e ∈ (coloring p).exclusive, (coloring p).shared.length ≤ e.offset := by
  have hmap : (own (remapped coloring p)).map EntityInfo.offset =
      (coloring p).exclusive.map EntityInfo.offset ++ List.range (coloring p).shared.length := by
    rw [← h.shared_offsets p, ← List.map_append]
    rfl
  rw [hmap]
  constructor
  · intro hperm e he
    have hn := hperm.nodup_iff.mpr List.nodup_range
    have hdis := List.disjoint_of_nodup_append hn (List.mem_map_of_mem he)
    simpa using hdis
  · intro hle
    have hold := (h.offsets p).nodup_iff.mpr List.nodup_range
    rw [own, List.map_append] at hold
    have hn : ((coloring p).exclusive.map EntityInfo.offset ++
        List.range (coloring p).shared.length).Nodup := by
      refine hold.of_append_left.append List.nodup_range fun x hx hx' => ?_
      obtain ⟨e, he, rfl⟩ := List.mem_map.mp hx
      have := hle e he
      have := List.mem_range.mp hx'
      omega
    refine (List.subperm_of_subset hn fun x hx => ?_).perm_of_length_le (by simp [own])
    rcases List.mem_append.mp hx with hx | hx
    · refine (h.offsets p).subset ?_
      rw [own, List.map_append]
      exact List.mem_append_left _ hx
    · have := List.mem_range.mp hx
      simp only [own, List.length_append, List.mem_range]
      omega

theorem DualColoring.mem_own_remapped {p : Fin n} {e : EntityInfo}
    (he : e ∈ own (remapped coloring p)) :
    e.rank = p ∧ ∃ e' ∈ own (coloring p), e'.id = e.id := by
  rcases List.mem_append.mp he with he | he
  · have he' : e ∈ own (coloring p) := List.mem_append_left _ he
    exact ⟨h.rank p e he', e, he', rfl⟩
  · obtain ⟨e', he', rfl⟩ := List.mem_map.mp he
    exact ⟨h.rank p e' (mem_own_shared he'), e', mem_own_shared he', rfl⟩

omit h in
theorem own_remapped_ids (coloring : Fin n → IndexColoring) (p : Fin n) :
    (own (remapped coloring p)).map EntityInfo.id = (own (coloring p)).map EntityInfo.id := by
  simp [own, remapped, remappedShared, Function.comp_def]

theorem DualColoring.remapped_unique {p q : Fin n} {e e' : EntityInfo}
    (he : e ∈ own (remapped coloring p)) (he' : e' ∈ own (remapped coloring q))
    (hid : e.id = e'.id) : p = q ∧ e = e' := by
  obtain ⟨-, a, ha, hae⟩ := h.mem_own_remapped he
  obtain ⟨-, b, hb, hbe⟩ := h.mem_own_remapped he'
  have hpq : p = q := h.once p q a ha b hb (by rw [hae, hid, hbe])
  subst hpq
  have hn := h.nodup p
  rw [← own_remapped_ids] at hn
  exact ⟨rfl, List.inj_on_of_nodup_map hn he he' hid⟩

/-- Every entry stands for an entity that some rank owns, at its rank and offset. -/
theorem DualColoring.resolve {p : Fin n} {x : EntityInfo} (hx : x ∈ entries (remapped coloring p)) :
    ∃ q, ∃ e ∈ own (remapped coloring q), e.id = x.id ∧ x.rank = e.rank ∧ x.offset = e.offset := by
  rcases List.mem_append.mp hx with hx | hx
  · exact ⟨p, x, hx, rfl, rfl, rfl⟩
  · obtain ⟨g, hg, rfl⟩ := List.mem_map.mp hx
    obtain ⟨q, -, e, he, hid, hr, -, -⟩ := h.ghost p g hg
    have hlt : g.rank < n := h.ghost_rank hg
    have hq : (⟨g.rank, hlt⟩ : Fin n) = q :=
      Fin.ext (hr.trans (h.rank q e (mem_own_shared he)))
    refine ⟨q, _, List.mem_append_right _ (List.mem_map_of_mem he), hid.symm, hr, ?_⟩
    show ghostOffset coloring g = sharedPosition (coloring q) e.id
    rw [ghostOffset, dif_pos hlt, hq, hid]

theorem DualColoring.entries_ids_nodup (p : Fin n) :
    ((entries (remapped coloring p)).map EntityInfo.id).Nodup := by
  have hghost : ((remapped coloring p).ghost.map EntityInfo.id).Nodup := by
    have : (remapped coloring p).ghost.map EntityInfo.id =
        (coloring p).ghost.map EntityInfo.id := by
      simp [remapped, Function.comp_def]
    rw [this]
    exact (List.pairwise_map.mpr (h.sorted p).2).imp ne_of_lt
  rw [entries, List.map_append, own_remapped_ids]
  refine (h.nodup p).append hghost fun x hx hx' => ?_
  obtain ⟨e, he, rfl⟩ := List.mem_map.mp hx
  obtain ⟨g', hg', hid⟩ := List.mem_map.mp hx'
  obtain ⟨g, hg, rfl⟩ := List.mem_map.mp hg'
  obtain ⟨q, hq, e', he', hid', -, -, -⟩ := h.ghost p g hg
  exact hq (h.once q p e' (mem_own_shared he') e he (hid'.symm.trans hid))

-- ---------------------------------------------------------------------------
-- Global indices
-- ---------------------------------------------------------------------------

variable {info : Fin n → ColoringInfo}
  (hinfo : ∀ p, (info p).exclusive = (coloring p).exclusive.length ∧
    (info p).shared = (coloring p).shared.length)
  (hlow : ∀ p, ∀ e ∈ (coloring p).exclusive, (coloring p).shared.length ≤ e.offset)
include hinfo hlow

/-- The global index of an owned entity lies in the range of its rank. -/
theorem DualColoring.globalIndex_own {p : Fin n} {e : EntityInfo}
    (he : e ∈ own (remapped coloring p)) :
    globalIndex (rankOffsets info) e =
        (displs (List.ofFn fun p => (own (coloring p)).length)).getD p 0 + e.offset ∧
      e.offset < (own (coloring p)).length := by
  have hsizes : (fun c => (info c).exclusive + (info c).shared) =
      fun p => (own (coloring p)).length := by
    funext p
    rw [(hinfo p).1, (hinfo p).2, own, List.length_append]
  refine ⟨?_, ?_⟩
  · rw [globalIndex, (h.mem_own_remapped he).1, rankOffsets_getD, hsizes]
  · have hperm := (h.offsets_iff p).mpr (hlow p)
    exact List.mem_range.mp (hperm.subset (List.mem_map_of_mem he))

theorem DualColoring.globalIndex_own_iff {p q : Fin n} {e e' : EntityInfo}
    (he : e ∈ own (remapped coloring p)) (he' : e' ∈ own (remapped coloring q)) :
    globalIndex (rankOffsets info) e = globalIndex (rankOffsets info) e' ↔ e.id = e'.id := by
  constructor
  · intro hg
    obtain ⟨h1, hlt⟩ := h.globalIndex_own hinfo hlow he
    obtain ⟨h1', hlt'⟩ := h.globalIndex_own hinfo hlow he'
    have hd := displs_distribution fun p => (own (coloring p)).length
    have hp := ownerOf_eq (x := globalIndex (rankOffsets info) e) hd p.isLt (by omega)
      (by rw [displs_ofFn_succ]; omega)
    have hq := ownerOf_eq (x := globalIndex (rankOffsets info) e) hd q.isLt (by omega)
      (by rw [displs_ofFn_succ]; omega)
    have hpq : p = q := Fin.ext (hp.symm.trans hq)
    subst hpq
    have hn := ((h.offsets_iff p).mpr (hlow p)).nodup_iff.mpr List.nodup_range
    rw [List.inj_on_of_nodup_map hn he he' (by omega)]
  · intro hid
    rw [(h.remapped_unique he he' hid).2]

theorem DualColoring.globalIndex_iff {p q : Fin n} {x y : EntityInfo}
    (hx : x ∈ entries (remapped coloring p)) (hy : y ∈ entries (remapped coloring q)) :
    globalIndex (rankOffsets info) x = globalIndex (rankOffsets info) y ↔ x.id = y.id := by
  obtain ⟨p', e, he, hid, hr, ho⟩ := h.resolve hx
  obtain ⟨q', e', he', hid', hr', ho'⟩ := h.resolve hy
  have hiff := h.globalIndex_own_iff hinfo hlow he he'
  rw [globalIndex, globalIndex, hr, ho, hr', ho', ← hid, ← hid']
  exact hiff

theorem DualColoring.globalIndices_nodup (p : Fin n) :
    ((entries (remapped coloring p)).map (globalIndex (rankOffsets info))).Nodup := by
  have hn := h.entries_ids_nodup p
  refine (List.nodup_map_iff_inj_on hn.of_map).mpr fun x hx y hy hxy => ?_
  exact List.inj_on_of_nodup_map hn hx hy ((h.globalIndex_iff hinfo hlow hx hy).mp hxy)

theorem DualColoring.consistentMaps : ConsistentMaps info (remapped coloring) := by
  have hat (p : Fin n) (k : ℕ) : (cisGisMaps info (remapped coloring p)).at_[k]? =
      (entries (remapped coloring p))[k]?.map (globalIndex (rankOffsets info)) := by
    rw [cisGisMaps_eq, at_maps, List.getElem?_map]
  have hlen (p : Fin n) : (own (remapped coloring p)).length = (own (coloring p)).length := by
    simpa using congrArg List.length (own_remapped_ids coloring p)
  refine ⟨fun p k k' g hk hk' => ?_, fun p k g => ?_, fun p k => ?_, ?_, fun g => ?_, fun p => ?_⟩
  · rw [cisGisMaps_eq, at_maps] at hk hk'
    obtain ⟨hlt, -⟩ := List.getElem?_eq_some_iff.mp hk
    exact (List.getElem?_inj hlt (h.globalIndices_nodup hinfo hlow p)).mp (hk.trans hk'.symm)
  · rw [cisGisMaps_eq, position_iff (h.globalIndices_nodup hinfo hlow p), at_maps]
  · rw [hat, Option.isSome_map]
    simp
  · intro p q k l e e' he he'
    rw [hat, hat, he, he', Option.map_some, Option.map_some, Option.some_inj]
    exact h.globalIndex_iff hinfo hlow (List.mem_of_getElem? he) (List.mem_of_getElem? he')
  · have hd := displs_distribution fun p => (own (coloring p)).length
    have htotal : (displs (List.ofFn fun p => (own (coloring p)).length)).getD n 0 =
        (List.ofFn fun p => (own (coloring p)).length).sum := by
      rw [displs_getD (by simp), List.take_of_length_le (by simp)]
    simp only [hlen]
    rw [← htotal]
    constructor
    · intro hg
      obtain ⟨hp, hle, hlt⟩ := ownerOf_spec hd hg
      let p : Fin n := ⟨_, hp⟩
      have hmem : g - (displs (List.ofFn fun p => (own (coloring p)).length)).getD p 0 ∈
          (own (remapped coloring p)).map EntityInfo.offset := by
        refine ((h.offsets_iff p).mpr (hlow p)).mem_iff.mpr (List.mem_range.mpr ?_)
        have := displs_ofFn_succ (fun p => (own (coloring p)).length) p
        have : (displs (List.ofFn fun p => (own (coloring p)).length)).getD p 0 ≤ g := hle
        have : g < (displs (List.ofFn fun p => (own (coloring p)).length)).getD (p + 1) 0 := hlt
        omega
      obtain ⟨e, he, hoff⟩ := List.mem_map.mp hmem
      obtain ⟨k, hk, hke⟩ := List.getElem_of_mem he
      refine ⟨p, k, hlen p ▸ hk, ?_⟩
      rw [hat, entries, List.getElem?_append_left hk, List.getElem?_eq_getElem hk, hke,
        Option.map_some, (h.globalIndex_own hinfo hlow he).1, hoff]
      congr 1
      exact Nat.add_sub_cancel' hle
    · rintro ⟨p, k, hk, hg⟩
      rw [← hlen] at hk
      rw [hat, entries, List.getElem?_append_left hk, List.getElem?_eq_getElem hk,
        Option.map_some, Option.some_inj] at hg
      obtain ⟨h1, hlt⟩ := h.globalIndex_own hinfo hlow (List.getElem_mem hk)
      have := displs_ofFn_succ (fun p => (own (coloring p)).length) p
      have := hd.mono' (i := p + 1) (j := n) (by omega) le_rfl
      omega
  · rw [localIndexMap_eq, List.map_fst_zip (by simp), List.map_snd_zip (by simp), hlen]
    exact ⟨rfl, (h.offsets_iff p).mpr (hlow p)⟩

end

/-- After `remap_shared_entities` on all ranks, the maps are consistent exactly if on
every rank the exclusive offsets lie above the positions of the shared entities. -/
theorem cisToGis_consistent_iff {coloring : Fin n → IndexColoring} {info : Fin n → ColoringInfo}
    (h : DualColoring coloring)
    (hinfo : ∀ p, (info p).exclusive = (coloring p).exclusive.length ∧
      (info p).shared = (coloring p).shared.length) :
    ∃ out, remapSharedEntities coloring = some out ∧
      (ConsistentMaps info out ↔
        ∀ p, ∀ e ∈ (coloring p).exclusive, (coloring p).shared.length ≤ e.offset) := by
  refine ⟨_, h.remap_eq, fun hmaps p => ?_, fun hlow => h.consistentMaps hinfo hlow⟩
  refine (h.offsets_iff p).mp ?_
  have hlocal := (hmaps.localMap p).2
  have hlen : (own (remapped coloring p)).length = (own (coloring p)).length := by
    simpa using congrArg List.length (own_remapped_ids coloring p)
  rwa [localIndexMap_eq, List.map_snd_zip (by simp), hlen] at hlocal

/-- Four cells in a row, two for each rank. -/
def rowColoring : Fin 2 → IndexColoring
  | 0 => ⟨[⟨0, 0, 0, ∅⟩], [⟨1, 0, 1, {1}⟩], [⟨2, 1, 0, ∅⟩]⟩
  | 1 => ⟨[⟨3, 1, 1, ∅⟩], [⟨2, 1, 0, {0}⟩], [⟨1, 0, 1, ∅⟩]⟩

def rowInfo : Fin 2 → ColoringInfo
  | 0 => ⟨1, 1, 1, {1}, {1}⟩
  | 1 => ⟨1, 1, 1, {0}, {0}⟩

theorem rowColoring_dual : DualColoring rowColoring where
  wide := by decide
  sorted := by decide
  nodup := by decide
  once := by decide
  rank := by decide
  offsets := by decide
  ghost := by decide
  users := by decide

theorem cisToGis_consistent_row : ∃ out, remapSharedEntities rowColoring = some out ∧
    (ConsistentMaps rowInfo out ↔
      ∀ p, ∀ e ∈ (rowColoring p).exclusive, (rowColoring p).shared.length ≤ e.offset) :=
  cisToGis_consistent_iff rowColoring_dual (by decide)

/-- Cells 0 and 1 of rank 0 both get the global index 0. -/
theorem cisToGis_collision_row :
    (∀ p, (rowInfo p).exclusive = (rowColoring p).exclusive.length ∧
      (rowInfo p).shared = (rowColoring p).shared.length) ∧
    DualColoring rowColoring ∧
    ∃ out, remapSharedEntities rowColoring = some out ∧
      (cisGisMaps rowInfo (out 0)).at_[0]? = some 0 ∧
      (cisGisMaps rowInfo (out 0)).at_[1]? = some 0 ∧ ¬ConsistentMaps rowInfo out := by
  have hat (k : ℕ) : (cisGisMaps rowInfo (remapped rowColoring 0)).at_[k]? =
      ((entries (remapped rowColoring 0)).map (globalIndex (rankOffsets rowInfo)))[k]? := by
    rw [cisGisMaps_eq, at_maps]
  have h0 : (cisGisMaps rowInfo (remapped rowColoring 0)).at_[0]? = some 0 := by
    rw [hat]
    decide
  have h1 : (cisGisMaps rowInfo (remapped rowColoring 0)).at_[1]? = some 0 := by
    rw [hat]
    decide
  refine ⟨by decide, rowColoring_dual, _, rowColoring_dual.remap_eq, h0, h1, fun hmaps => ?_⟩
  exact absurd (hmaps.injective 0 0 1 0 h0 h1) (by decide)

end Flecsi.Execution
