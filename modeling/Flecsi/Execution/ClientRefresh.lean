import Flecsi.Execution.ClientExchange

/-!
# Refreshed ghost entities

The sender goes through its shared entities and their peers, the receiver through its ghosts with
a running offset for each rank. On colorings of the exchange the two orders agree, and every
ghost gets the bytes of its owner's entity.
-/

namespace Flecsi.Execution

open Coloring PackedBuffer

-- ---------------------------------------------------------------------------
-- Unpacking
-- ---------------------------------------------------------------------------

section
variable (t : EntityType) (first : ℕ) (ghosts : List EntityInfo) (owner : EntityInfo → List UInt8)
  (entities : List (List UInt8))

/-- What a rank is sent for its ghosts, in their order. -/
def ghostMessages : List (ℕ × List UInt8) := ghosts.map fun g => (g.rank, owner g)

/-- The entity of the `i`-th ghost after the exchange. -/
def newEntity (i : ℕ) : Option (List UInt8) := do
  let ghost ← ghosts[i]?
  let old ← entities[first + i]?
  some (t.set_global_id (owner ghost) (t.global_id old))

/-- The state of the loop after some of the ghosts. -/
structure UnpackInv (n : ℕ) (done : List EntityInfo) (u : Unpacked) : Prop where
  counts : u.recvcounts = List.ofFn fun r : Fin n => (segment (ghostMessages done owner) r).length
  position : u.i = done.length
  length : u.entities.length = entities.length
  entity : ∀ k, u.entities[k]? =
    if first ≤ k ∧ k < first + done.length then newEntity t first ghosts owner entities (k - first) else entities[k]?
  reads : u.reads.Perm ((List.finRange n).flatMap fun r : Fin n =>
    List.range' ((pack fun r : Fin n => segment (ghostMessages ghosts owner) r).displs.getD r 0)
      (segment (ghostMessages done owner) r).length)

end

section
variable {n : ℕ} {t : EntityType} {first : ℕ} {ghosts : List EntityInfo} {owner : EntityInfo → List UInt8}
  {entities : List (List UInt8)} {done later : List EntityInfo} {g : EntityInfo} {u : Unpacked}

theorem ghostMessages_append : ghostMessages (done ++ later) owner = ghostMessages done owner ++ ghostMessages later owner :=
  List.map_append

theorem unpackInv_start : UnpackInv t first ghosts owner entities n [] ⟨List.replicate n 0, 0, entities, []⟩ where
  counts := by simp [ghostMessages, PackedBuffer.segment, List.ofFn_const]
  position := rfl
  length := rfl
  entity k := by
    rw [if_neg (by simp)]
  reads := by simp [ghostMessages, PackedBuffer.segment]

theorem flatMap_only {l : List α} (hl : l.Nodup) {a : α} (ha : a ∈ l) [DecidableEq α] (xs : List β) :
    (l.flatMap fun x => if x = a then xs else []) = xs := by
  induction l with
  | nil => simp at ha
  | cons x l ih =>
    obtain ⟨hx, hl⟩ := List.nodup_cons.mp hl
    rw [List.flatMap_cons]
    rcases List.mem_cons.mp ha with rfl | ha
    · have hnone : (l.flatMap fun y => if y = a then xs else []) = [] :=
        List.flatMap_eq_nil_iff.mpr fun y hy => if_neg fun heq : y = a => hx (heq ▸ hy)
      rw [if_pos rfl, hnone, List.append_nil]
    · rw [if_neg (fun heq : x = a => hx (heq ▸ ha)), List.nil_append, ih hl ha]

/-- The positions of one message are added to those of its sender. -/
theorem reads_step (D : ℕ → ℕ) (msgs : List (ℕ × List UInt8)) (msg : ℕ × List UInt8) (h : msg.1 < n) :
    ((List.finRange n).flatMap fun r : Fin n => List.range' (D r) (segment (msgs ++ [msg]) r).length).Perm
      (((List.finRange n).flatMap fun r : Fin n => List.range' (D r) (segment msgs r).length) ++
        List.range' (D msg.1 + (segment msgs msg.1).length) msg.2.length) := by
  have hnew (r : Fin n) : List.range' (D r) (segment (msgs ++ [msg]) r).length =
      List.range' (D r) (segment msgs r).length ++
        if r = ⟨msg.1, h⟩ then List.range' (D msg.1 + (segment msgs msg.1).length) msg.2.length else [] := by
    rw [segment_append, segment_singleton, List.length_append, ← List.range'_append_1]
    by_cases hr : r = ⟨msg.1, h⟩
    · subst hr
      rw [if_pos rfl, if_pos rfl]
    · rw [if_neg fun heq => hr (Fin.ext heq.symm), if_neg hr]
      rfl
  simp only [hnew]
  refine (List.flatMap_append_perm _ _ _).symm.trans ?_
  rw [flatMap_only (List.nodup_finRange n) (List.mem_finRange _)]

theorem UnpackInv.step (hinv : UnpackInv t first ghosts owner entities n done u)
    (hghosts : ghosts = done ++ g :: later) (hg : g.rank < n) (howner : (owner g).length = t.size)
    (hsize : first + ghosts.length ≤ entities.length) :
    ∃ u', unpackEntity t first (pack fun r : Fin n => segment (ghostMessages ghosts owner) r).buf
        (pack fun r : Fin n => segment (ghostMessages ghosts owner) r).displs u g = some u' ∧
      UnpackInv t first ghosts owner entities n (done ++ [g]) u' := by
  have hmessages : ghostMessages ghosts owner = ghostMessages done owner ++ (g.rank, owner g) :: ghostMessages later owner := by
    rw [hghosts, ghostMessages_append]
    rfl
  have hcount : u.recvcounts.getD g.rank 0 = (segment (ghostMessages done owner) g.rank).length := by
    rw [hinv.counts]
    simp [hg]
  have hspan := span_message hmessages hg
  dsimp only at hspan
  rw [howner] at hspan
  have hlt : first + u.i < entities.length := by
    rw [hinv.position]
    rw [hghosts, List.length_append, List.length_cons] at hsize
    omega
  obtain ⟨old, hold⟩ : ∃ old, entities[first + u.i]? = some old := ⟨_, List.getElem?_eq_getElem hlt⟩
  have hsame : u.entities[first + u.i]? = some old := by
    rw [hinv.entity, if_neg (by have := hinv.position; omega), hold]
  let offset := (pack fun r : Fin n => segment (ghostMessages ghosts owner) r).displs.getD g.rank 0 +
    (segment (ghostMessages done owner) g.rank).length
  have hone : unpackEntity t first (pack fun r : Fin n => segment (ghostMessages ghosts owner) r).buf
      (pack fun r : Fin n => segment (ghostMessages ghosts owner) r).displs u g =
        some ⟨u.recvcounts.modify g.rank (· + t.size), u.i + 1,
          u.entities.set (first + u.i) (t.set_global_id (owner g) (t.global_id old)),
          u.reads ++ List.range' offset t.size⟩ := by
    unfold unpackEntity
    simp only [hsame, hcount, hspan, Option.bind_eq_bind, Option.bind_some]
    rfl
  have hdone : ghostMessages (done ++ [g]) owner = ghostMessages done owner ++ [(g.rank, owner g)] := ghostMessages_append
  refine ⟨_, hone, ?_, ?_, ?_, fun k => ?_, ?_⟩
  · rw [hinv.counts, hdone, ← modify_lengths, howner]
  · rw [hinv.position, List.length_append, List.length_singleton]
  · rw [List.length_set, hinv.length]
  · rw [List.getElem?_set, List.length_append, List.length_singleton]
    by_cases hk : first + u.i = k
    · subst hk
      have hghost : ghosts[u.i]? = some g := by
        rw [hghosts, hinv.position]
        simp
      have hnew : newEntity t first ghosts owner entities u.i =
          some (t.set_global_id (owner g) (t.global_id old)) := by
        simp only [newEntity, hghost, hold, Option.bind_eq_bind, Option.bind_some]
      have hin : first + u.i < u.entities.length := (List.getElem?_eq_some_iff.mp hsame).1
      have hpos := hinv.position
      rw [if_pos rfl, if_pos hin, if_pos (by omega), Nat.add_sub_cancel_left, hnew]
    · have hpos := hinv.position
      rw [if_neg hk, hinv.entity]
      by_cases hd : first ≤ k ∧ k < first + done.length
      · rw [if_pos hd, if_pos (by omega)]
      · rw [if_neg hd, if_neg (by omega)]
  · have hstep := reads_step (fun r => (pack fun r : Fin n => segment (ghostMessages ghosts owner) r).displs.getD r 0)
      (ghostMessages done owner) (g.rank, owner g) hg
    rw [← hdone, howner] at hstep
    exact (hinv.reads.append_right _).trans hstep.symm

/-- All ghosts are unpacked, each from its owner's entity. -/
theorem unpack_eq (hrank : ∀ g ∈ ghosts, g.rank < n) (howner : ∀ g ∈ ghosts, (owner g).length = t.size)
    (hsize : first + ghosts.length ≤ entities.length) :
    ∃ u, ghosts.foldlM (unpackEntity t first (pack fun r : Fin n => segment (ghostMessages ghosts owner) r).buf
        (pack fun r : Fin n => segment (ghostMessages ghosts owner) r).displs)
        ⟨List.replicate n 0, 0, entities, []⟩ = some u ∧
      UnpackInv t first ghosts owner entities n ghosts u := by
  have hrun (done later : List EntityInfo) (u : Unpacked) (h : ghosts = done ++ later)
      (hinv : UnpackInv t first ghosts owner entities n done u) :
      ∃ u', later.foldlM (unpackEntity t first (pack fun r : Fin n => segment (ghostMessages ghosts owner) r).buf
        (pack fun r : Fin n => segment (ghostMessages ghosts owner) r).displs) u = some u' ∧
        UnpackInv t first ghosts owner entities n ghosts u' := by
    induction later generalizing done u with
    | nil =>
      rw [List.append_nil] at h
      subst h
      exact ⟨u, rfl, hinv⟩
    | cons g later ih =>
      have hmem : g ∈ ghosts := h ▸ by simp
      obtain ⟨u₁, hone, hinv₁⟩ := hinv.step h (hrank g hmem) (howner g hmem) hsize
      obtain ⟨u', hfold, hinv'⟩ := ih (done ++ [g]) u₁ (by rw [h, List.append_assoc]; rfl) hinv₁
      refine ⟨u', ?_, hinv'⟩
      rw [List.foldlM_cons, hone]
      exact hfold
  exact hrun [] ghosts _ rfl unpackInv_start

end

-- ---------------------------------------------------------------------------
-- One type of entities
-- ---------------------------------------------------------------------------

/-- The colorings and their summaries agree, and no rank shares an entity with itself. -/
structure ClientMesh.Colored (m : ClientMesh n) : Prop where
  coloring : ∀ is, ExchangeColoring (m.coloring is)
  foreign : ∀ is q, ∀ e ∈ (m.coloring is q).shared, (q : ℕ) ∉ e.shared
  exclusive : ∀ is p, (m.coloring_info is p).exclusive = (m.coloring is p).exclusive.length
  shared : ∀ is p, (m.coloring_info is p).shared = (m.coloring is p).shared.length

section
variable (m : ClientMesh n) (is : ℕ)

def firstShared (p : Fin n) : ℕ := (m.coloring is p).exclusive.length
def firstGhost (p : Fin n) : ℕ := firstShared m is p + (m.coloring is p).shared.length

/-- A rank has an entity for each entry of its coloring. -/
structure Sized (p : Fin n) (entities : List (List UInt8)) : Prop where
  count : entities.length = firstGhost m is p + (m.coloring is p).ghost.length
  size : ∀ e ∈ entities, e.length = (m.entity is).size

/-- The ghosts of all ranks have become their owners' entities, under the ids they had; no other
entity has changed. -/
structure Refreshed (s s' : Fin n → List (List UInt8)) : Prop where
  sized : ∀ p, Sized m is p (s' p)
  owned : ∀ p k, k < firstGhost m is p → (s' p)[k]? = (s p)[k]?
  ghost : ∀ (p q : Fin n) (i : ℕ) (g : EntityInfo), (m.coloring is p).ghost[i]? = some g → g.rank = q →
    ∃ old new owner, (s p)[firstGhost m is p + i]? = some old ∧ (s' p)[firstGhost m is p + i]? = some new ∧
      (s q)[firstShared m is q + g.offset]? = some owner ∧
      (m.entity is).rest new = (m.entity is).rest owner ∧ (m.entity is).global_id new = (m.entity is).global_id old

/-- The shared entity that a rank sends for a ghost with this offset. -/
def sharedEntity (s : Fin n → Client) (q : Fin n) (offset : ℕ) : List UInt8 :=
  ((s q).entities is).getD (firstShared m is q + offset) (List.replicate (m.entity is).size 0)

def ownerEntity (s : Fin n → Client) (g : EntityInfo) : List UInt8 :=
  if h : g.rank < n then sharedEntity m is s ⟨g.rank, h⟩ g.offset else []

end

section
variable {m : ClientMesh n} {is : ℕ} {s : Fin n → Client} (hm : m.Colored)
  (hs : ∀ p, Sized m is p ((s p).entities is))

section
include hs

theorem length_sharedEntity (q : Fin n) (offset : ℕ) : (sharedEntity m is s q offset).length = (m.entity is).size := by
  unfold sharedEntity
  rw [List.getD_eq_getElem?_getD]
  cases hget : ((s q).entities is)[firstShared m is q + offset]? with
  | none => exact List.length_replicate
  | some e => exact (hs q).size e (List.mem_of_getElem? hget)

theorem length_ownerEntity {g : EntityInfo} (hg : g.rank < n) :
    (ownerEntity m is s g).length = (m.entity is).size := by
  unfold ownerEntity
  rw [dif_pos hg]
  exact length_sharedEntity hs _ _

/-- The new entity of a ghost has its owner's bytes and the ghost's own id. -/
theorem newEntity_eq {p q : Fin n} {i : ℕ} {g : EntityInfo} {old : List UInt8}
    (hg : (m.coloring is p).ghost[i]? = some g) (hq : g.rank = q)
    (hold : ((s p).entities is)[firstGhost m is p + i]? = some old) :
    ∃ new, newEntity (m.entity is) (firstGhost m is p) (m.coloring is p).ghost (ownerEntity m is s)
        ((s p).entities is) i = some new ∧
      new.length = (m.entity is).size ∧
      (m.entity is).rest new = (m.entity is).rest (sharedEntity m is s q g.offset) ∧
      (m.entity is).global_id new = (m.entity is).global_id old := by
  have howner : ownerEntity m is s g = sharedEntity m is s q g.offset := by
    unfold ownerEntity
    rw [dif_pos (hq ▸ q.isLt)]
    congr 1
    exact Fin.ext hq
  have hlen := length_sharedEntity hs q g.offset
  have hid := (m.entity is).length_global_id ((hs p).size old (List.mem_of_getElem? hold))
  refine ⟨_, ?_, EntityType.length_set_global_id hlen hid, EntityType.rest_set hlen hid,
    EntityType.global_id_set hlen hid⟩
  simp only [newEntity, hg, hold, howner, Option.bind_eq_bind, Option.bind_some]

end

section
include hm

theorem ghost_rank_lt {p : Fin n} {g : EntityInfo} (hg : g ∈ (m.coloring is p).ghost) : g.rank < n := by
  obtain ⟨q, hq, -⟩ := (hm.coloring is).ghost p g hg
  exact hq ▸ q.isLt

theorem first_eq (p : Fin n) : (m.coloring_info is p).exclusive + (m.coloring_info is p).shared = firstGhost m is p := by
  rw [hm.exclusive, hm.shared]
  rfl

end

include hs hm

theorem getElem?_shared {q : Fin n} {e : EntityInfo} (he : e ∈ (m.coloring is q).shared) :
    ((s q).entities is)[firstShared m is q + e.offset]? = some (sharedEntity m is s q e.offset) := by
  have hlt : firstShared m is q + e.offset < ((s q).entities is).length := by
    have hoffset := (hm.coloring is).offset_lt he
    have hcount := (hs q).count
    unfold firstGhost at hcount
    omega
  unfold sharedEntity
  rw [List.getD_eq_getElem?_getD, List.getElem?_eq_getElem hlt]
  rfl

/-- A rank copies its shared entities, and never sends to itself. -/
theorem clientMessages_eq (p : Fin n) :
    clientMessages m is p ((s p).entities is) =
      some ((sharedPeers m is p).map fun x => (x.1, sharedEntity m is s p x.2)) := by
  refine mapM_some fun x hx => ?_
  obtain ⟨e, he, hx⟩ := List.mem_flatMap.mp hx
  obtain ⟨peer, hpeer, rfl⟩ := List.mem_map.mp hx
  have hne : peer ≠ (p : ℕ) := by
    rintro rfl
    exact hm.foreign is p e he ((Finset.mem_sort _).mp hpeer)
  rw [if_neg hne, List.getElem?_drop, hm.exclusive]
  exact congrArg (Option.map _) (getElem?_shared hm hs he)

omit hs in
/-- What rank `p` sends to rank `q` is what `q` expects for its ghosts. -/
theorem sent_eq (p q : Fin n) :
    (itemsFor q (sharedPeers m is p)).flatMap (sharedEntity m is s p) =
      segment (ghostMessages (m.coloring is q).ghost (ownerEntity m is s)) p := by
  have hpeers : itemsFor q (sharedPeers m is p) = (userEntries (m.coloring is p) q).map EntityInfo.offset := by
    unfold sharedPeers
    rw [itemsFor_flatMap fun e _ => e.shared.sort_nodup (· ≤ ·)]
    simp [userEntries]
  have hghosts : segment (ghostMessages (m.coloring is q).ghost (ownerEntity m is s)) p =
      ((m.coloring is q).ghost.filter (·.rank = (p : ℕ))).flatMap (ownerEntity m is s) := by
    simp [PackedBuffer.segment, ghostMessages, List.filter_map, List.flatMap_map, Function.comp_def]
  have howner : ((m.coloring is q).ghost.filter (·.rank = (p : ℕ))).flatMap (ownerEntity m is s) =
      ((m.coloring is q).ghost.filter (·.rank = (p : ℕ))).flatMap (sharedEntity m is s p ·.offset) := by
    refine List.flatMap_congr fun g hg => ?_
    have hrank : g.rank = p := by simpa using (List.mem_filter.mp hg).2
    unfold ownerEntity
    rw [dif_pos (hrank ▸ p.isLt)]
    congr 1
    exact Fin.ext hrank
  rw [hpeers, ← (hm.coloring is).paired q p, hghosts, howner, ← map_fst_ghostEntries, List.flatMap_map,
    List.flatMap_map]

/-- The messages and the counts of the two sides fit together. -/
theorem send_eq (p : Fin n) :
    packMessages n ((sharedPeers m is p).map fun x => (x.1, (m.entity is).size))
      ((sharedPeers m is p).map fun x => (x.1, sharedEntity m is s p x.2)) =
      pack fun q : Fin n => segment (ghostMessages (m.coloring is q).ghost (ownerEntity m is s)) p := by
  rw [packMessages_items fun x => (length_sharedEntity hs p x).symm]
  · exact congrArg pack (funext fun q => sent_eq hm p q)
  · intro x hx
    obtain ⟨e, he, hx⟩ := List.mem_flatMap.mp hx
    obtain ⟨peer, hpeer, rfl⟩ := List.mem_map.mp hx
    obtain ⟨q, hq, -⟩ := (hm.coloring is).users p e he peer ((Finset.mem_sort _).mp hpeer)
    exact hq ▸ q.isLt

theorem recvcounts_eq (p : Fin n) :
    countPass n ((m.coloring is p).ghost.map fun ghost => (ghost.rank, (m.entity is).size)) =
      (pack fun r : Fin n => segment (ghostMessages (m.coloring is p).ghost (ownerEntity m is s)) r).counts := by
  have hlens : (m.coloring is p).ghost.map (fun ghost => (ghost.rank, (m.entity is).size)) =
      (ghostMessages (m.coloring is p).ghost (ownerEntity m is s)).map fun x => (x.1, x.2.length) := by
    unfold ghostMessages
    rw [List.map_map]
    refine List.map_congr_left fun g hg => ?_
    exact Prod.ext rfl (length_ownerEntity hs (ghost_rank_lt hm hg)).symm
  rw [hlens, countPass_eq]
  rfl

theorem refreshed_of_inv {u : Fin n → Unpacked}
    (h : ∀ p, UnpackInv (m.entity is) (firstGhost m is p) (m.coloring is p).ghost (ownerEntity m is s)
      ((s p).entities is) n (m.coloring is p).ghost (u p)) :
    Refreshed m is (fun p => (s p).entities is) fun p => (u p).entities where
  sized p := by
    refine ⟨(h p).length.trans (hs p).count, fun e he => ?_⟩
    obtain ⟨k, hk⟩ := List.getElem?_of_mem he
    rw [(h p).entity] at hk
    split at hk
    · rename_i hin
      obtain ⟨g, hg⟩ : ∃ g, (m.coloring is p).ghost[k - firstGhost m is p]? = some g :=
        ⟨_, List.getElem?_eq_getElem (by omega)⟩
      obtain ⟨old, hold⟩ : ∃ old, ((s p).entities is)[firstGhost m is p + (k - firstGhost m is p)]? = some old :=
        ⟨_, List.getElem?_eq_getElem (by have := (hs p).count; omega)⟩
      obtain ⟨q, hq, -⟩ := (hm.coloring is).ghost p g (List.mem_of_getElem? hg)
      obtain ⟨new, hnew, hlen, -⟩ := newEntity_eq hs hg hq hold
      rw [hnew, Option.some_inj] at hk
      exact hk ▸ hlen
    · exact (hs p).size e (List.mem_of_getElem? hk)
  owned p k hk := by
    rw [(h p).entity, if_neg (by omega)]
  ghost p q i g hg hq := by
    have hi := (List.getElem?_eq_some_iff.mp hg).1
    obtain ⟨old, hold⟩ : ∃ old, ((s p).entities is)[firstGhost m is p + i]? = some old :=
      ⟨_, List.getElem?_eq_getElem (by have := (hs p).count; omega)⟩
    obtain ⟨new, hnew, -, hrest, hid⟩ := newEntity_eq hs hg hq hold
    obtain ⟨e, he, -, hoffset, -⟩ := (hm.coloring is).owner (List.mem_of_getElem? hg) hq
    refine ⟨old, new, sharedEntity m is s q g.offset, hold, ?_, ?_, hrest, hid⟩
    · rw [(h p).entity, if_pos (by omega), Nat.add_sub_cancel_left, hnew]
    · rw [hoffset]
      exact getElem?_shared hm hs he

/-- One exchange leaves the ghosts of all ranks refreshed, and reads every byte received once. -/
theorem exchangeEntities_eq :
    ∃ s', exchangeEntities m is s = some s' ∧
      Refreshed m is (fun p => (s p).entities is) (fun p => (s' p).entities is) ∧
      (∀ p, ∀ is' ≠ is, (s' p).entities is' = (s p).entities is') ∧
      ∀ p, ∃ len reads, (s' p).received = (s p).received ++ [(len, reads)] ∧ reads.Perm (List.range len) := by
  have hrank (p : Fin n) : ∀ g ∈ (m.coloring is p).ghost, g.rank < n := fun g hg => ghost_rank_lt hm hg
  choose u hfold hinv using fun p => unpack_eq (hrank p) (fun g hg => length_ownerEntity hs (hrank p g hg))
    ((hs p).count.ge)
  let seg (r p : Fin n) : List UInt8 := segment (ghostMessages (m.coloring is p).ghost (ownerEntity m is s)) r
  have hall : alltoallv (fun r => pack (seg r)) (fun p => ⟨(pack fun r => seg r p).counts,
      displs (pack fun r => seg r p).counts,
      List.replicate ((displs (pack fun r => seg r p).counts).getD n 0) 0⟩) =
        some fun p => (pack fun r => seg r p).buf := alltoallv_pack seg
  refine ⟨fun p =>
    { entities := Function.update (s p).entities is (u p).entities
      received := (s p).received ++ [((pack fun r => seg r p).buf.length, (u p).reads)] }, ?_, ?_, ?_, ?_⟩
  · unfold exchangeEntities
    simp only [clientMessages_eq hm hs, allRanks_some, Option.bind_eq_bind, Option.bind_some, send_eq hm hs,
      recvcounts_eq hm hs, first_eq hm]
    rw [hall, Option.bind_some]
    exact congrArg (Option.bind · _) (allRanks_eq_some.mpr hfold)
  · simp only [Function.update_self]
    exact refreshed_of_inv hm hs hinv
  · intro p is' hne
    exact Function.update_of_ne hne _ _
  · intro p
    have hreads := (hinv p).reads
    rw [segments_positions] at hreads
    exact ⟨_, _, rfl, hreads⟩

end

-- ---------------------------------------------------------------------------
-- All types
-- ---------------------------------------------------------------------------

section
variable {m : ClientMesh n} {is : ℕ} {s s₁ s' : Fin n → List (List UInt8)}

/-- Entities refreshed once more are the same up to what their owners have. -/
theorem Refreshed.trans (hm : m.Colored) (h : Refreshed m is s s₁) (h' : Refreshed m is s₁ s') : Refreshed m is s s' where
  sized := h'.sized
  owned p k hk := (h'.owned p k hk).trans (h.owned p k hk)
  ghost p q i g hg hq := by
    obtain ⟨old, mid, owner, hold, hmid, howner, -, hid⟩ := h.ghost p q i g hg hq
    obtain ⟨mid', new, owner', hmid', hnew, howner', hrest, hid'⟩ := h'.ghost p q i g hg hq
    obtain rfl : mid' = mid := Option.some_inj.mp (hmid'.symm.trans hmid)
    have hlt : firstShared m is q + g.offset < firstGhost m is q := by
      obtain ⟨e, he, -, hoffset, -⟩ := (hm.coloring is).owner (List.mem_of_getElem? hg) hq
      have := (hm.coloring is).offset_lt he
      unfold firstGhost
      omega
    rw [h.owned q _ hlt, howner, Option.some_inj] at howner'
    subst howner'
    exact ⟨old, new, owner, hold, hnew, howner, hrest, hid'.trans hid⟩

end

/-- The epilog of a mesh refreshes every ghost entity of every type: it gets the bytes its owner
had, but for the global id, which stays its own. Exclusive and shared entities stay as they are, and every byte
that a rank receives is read once. -/
theorem clientHandler_refreshed {m : ClientMesh n} (hm : m.Colored) (types : List ℕ) (s : Fin n → Client)
    (hs : ∀ is ∈ types, ∀ p, Sized m is p ((s p).entities is)) :
    ∃ s', clientHandler m types s = some s' ∧
      (∀ is ∈ types, Refreshed m is (fun p => (s p).entities is) fun p => (s' p).entities is) ∧
      (∀ is ∉ types, ∀ p, (s' p).entities is = (s p).entities is) ∧
      ∀ p, ∃ received, (s' p).received = (s p).received ++ received ∧ received.length = types.length ∧
        ∀ x ∈ received, x.2.Perm (List.range x.1) := by
  induction types generalizing s with
  | nil => exact ⟨s, rfl, by simp, fun _ _ _ => rfl, fun p => ⟨[], by simp, rfl, by simp⟩⟩
  | cons is types ih =>
    obtain ⟨s₁, hone, hrefreshed, hframe, hreceived⟩ := exchangeEntities_eq hm (hs is List.mem_cons_self)
    have hs₁ : ∀ is' ∈ types, ∀ p, Sized m is' p ((s₁ p).entities is') := by
      intro is' his' p
      by_cases heq : is' = is
      · subst heq
        exact hrefreshed.sized p
      · rw [hframe p is' heq]
        exact hs is' (List.mem_cons_of_mem _ his') p
    obtain ⟨s', hrun, hrefreshed', hframe', hreceived'⟩ := ih s₁ hs₁
    have hsame (is' : ℕ) (heq : is' ≠ is) : (fun p => (s₁ p).entities is') = fun p => (s p).entities is' :=
      funext fun p => hframe p is' heq
    refine ⟨s', ?_, fun is' his' => ?_, fun is' his' p => ?_, fun p => ?_⟩
    · rw [clientHandler, hone]
      exact hrun
    · by_cases hlater : is' ∈ types
      · by_cases heq : is' = is
        · subst heq
          exact hrefreshed.trans hm (hrefreshed' is' hlater)
        · rw [← hsame is' heq]
          exact hrefreshed' is' hlater
      · obtain rfl : is' = is := (List.mem_cons.mp his').resolve_right hlater
        simp only [hframe' is' hlater]
        exact hrefreshed
    · rw [List.mem_cons, not_or] at his'
      rw [hframe' is' his'.2, hframe p is' his'.1]
    · obtain ⟨len, reads, heq, hperm⟩ := hreceived p
      obtain ⟨received, heq', hlen, hall⟩ := hreceived' p
      refine ⟨(len, reads) :: received, ?_, by rw [List.length_cons, hlen, List.length_cons], ?_⟩
      · rw [heq', heq, List.append_assoc]
        rfl
      · intro x hx
        cases List.mem_cons.mp hx with
        | inl hx => exact hx ▸ hperm
        | inr hx => exact hall x hx

/-- A mesh with the colorings that `remap_shared_entities` leaves of dual ones. -/
theorem DualColoring.colored {coloring : ℕ → Fin n → IndexColoring} (h : ∀ is, DualColoring (coloring is))
    (entity : ℕ → EntityType) (users owners : Finset ℕ) :
    ClientMesh.Colored
      { entity := entity
        coloring := fun is => remapped (coloring is)
        coloring_info := fun is p => ⟨(coloring is p).exclusive.length, (coloring is p).shared.length,
          (coloring is p).ghost.length, users, owners⟩ } where
  coloring is := (h is).exchangeColoring
  foreign is q e he := by
    obtain ⟨e', he', rfl⟩ := List.mem_map.mp he
    intro hq
    obtain ⟨p, hp, hne, -⟩ := (h is).users q e' he' q hq
    exact hne (Fin.ext hp)
  exclusive _ _ := rfl
  shared _ _ := List.length_map _ |>.symm

/-- Two ranks with one entity each, of one byte and an id. -/
def pairMesh : ClientMesh 2 where
  entity _ := ⟨17, 1, by decide⟩
  coloring _ := pairColoring
  coloring_info _ _ := ⟨0, 1, 1, ∅, ∅⟩

def pairClients (p : Fin 2) : Client where
  entities _ := [List.replicate 17 (UInt8.ofNat p), List.replicate 17 5]
  received := []

theorem clientHandler_refreshed_pair :
    ∃ s', clientHandler pairMesh [0] pairClients = some s' ∧
      Refreshed pairMesh 0 (fun p => (pairClients p).entities 0) fun p => (s' p).entities 0 := by
  have hforeign : ∀ q : Fin 2, ∀ e ∈ (pairColoring q).shared, (q : ℕ) ∉ e.shared := by decide
  have hm : pairMesh.Colored := ⟨fun _ => pairColoring_exchange, fun _ => hforeign, fun _ _ => rfl, fun _ _ => rfl⟩
  have hs : ∀ is ∈ [0], ∀ p, Sized pairMesh is p ((pairClients p).entities is) := fun is _ p =>
    ⟨rfl, fun e he => by
      cases List.mem_cons.mp he with
      | inl h => exact h ▸ rfl
      | inr h => exact List.mem_singleton.mp h ▸ rfl⟩
  obtain ⟨s', hrun, hrefreshed, -⟩ := clientHandler_refreshed hm [0] pairClients hs
  exact ⟨s', hrun, hrefreshed 0 (List.mem_singleton_self 0)⟩

end Flecsi.Execution
