import Flecsi.Coloring.MatchIds

/-!
# The ids `match_ids` assigns

Two entities are the same when their sorted global vertices are. The manager
of a set of vertices is the only rank to number it (`managers_eq`), the
numbers of all managers fill one range (`IdOf`), and every rank gets back the
ids of the sets it asked for (`finished_eq`).
-/

namespace Flecsi.Coloring

open PackedBuffer SortUnique Numbering
open Std (TreeMap)

-- ---------------------------------------------------------------------------
-- Vertex sets and their managers
-- ---------------------------------------------------------------------------

theorem mem_sortVertices {vs : List ℕ} : v ∈ sortVertices vs ↔ v ∈ vs :=
  List.mem_insertionSort _

theorem length_sortVertices (vs : List ℕ) : (sortVertices vs).length = vs.length :=
  List.length_insertionSort _ _

theorem sortVertices_sortVertices (vs : List ℕ) :
    sortVertices (sortVertices vs) = sortVertices vs :=
  (List.pairwise_insertionSort _ vs).insertionSort_eq

/-- The owner of an entity depends on its vertex set alone. -/
theorem entityOwner_sortVertices (d vs : List ℕ) :
    entityOwner d (sortVertices vs) = entityOwner d vs := by
  have hmin : (sortVertices vs).min? = vs.min? := by
    cases hm : vs.min? with
    | none => rw [List.min?_eq_none_iff] at hm; rw [hm]; rfl
    | some v =>
      rw [List.min?_eq_some_iff] at hm ⊢
      simpa only [mem_sortVertices] using hm
  rw [entityOwner, hmin, entityOwner]

/-- The sorted global vertices of an entity. -/
def vertexSet (vertexLocal2global vs : List ℕ) : List ℕ :=
  sortVertices (vs.map fun v => vertexLocal2global.getD v 0)

theorem globalVertices_eq {l2g vs : List ℕ} (h : ∀ v ∈ vs, v < l2g.length) :
    globalVertices l2g vs = some (vs.map fun v => l2g.getD v 0) :=
  mapM_some fun v hv => by rw [List.getElem?_eq_getElem (h v hv), List.getD_eq_getElem _ _ (h v hv)]

/-- Every entity has a manager. -/
theorem ownedEntities_eq (hd : Distribution d n total) {l2g : List ℕ} {rows : List (List ℕ)}
    (hne : ∀ vs ∈ rows, vs ≠ []) (hin : ∀ vs ∈ rows, ∀ v ∈ vs, v < l2g.length)
    (hlt : ∀ v ∈ l2g, v < total) :
    ∃ items, ownedEntities d l2g rows = some items ∧
      (∀ it ∈ items, entityOwner d it.2 = some it.1 ∧ it.1 < n) ∧
      ∀ k, (∃ it ∈ items, sortVertices it.2 = k) ↔ ∃ vs ∈ rows, vertexSet l2g vs = k := by
  have hown : ∀ vs ∈ rows, ∃ r < n, entityOwner d (vs.map fun v => l2g.getD v 0) = some r := by
    intro vs hvs
    cases hm : (vs.map fun v => l2g.getD v 0).min? with
    | none =>
      rw [List.min?_eq_none_iff, List.map_eq_nil_iff] at hm
      exact absurd hm (hne vs hvs)
    | some v =>
      obtain ⟨w, hw, rfl⟩ := List.mem_map.mp (List.min?_mem hm)
      have hlen := hin vs hvs w hw
      obtain ⟨r, hr, ho⟩ := exists_rankOwner hd (i := l2g.getD w 0) (hlt _ (by
        rw [List.getD_eq_getElem _ _ hlen]
        exact List.getElem_mem hlen))
      exact ⟨r, hr, by rw [entityOwner, hm]; exact ho⟩
  refine ⟨rows.map fun vs => ((entityOwner d (vs.map fun v => l2g.getD v 0)).getD 0,
    vs.map fun v => l2g.getD v 0), mapM_some fun vs hvs => ?_, ?_, ?_⟩
  · obtain ⟨r, -, ho⟩ := hown vs hvs
    rw [globalVertices_eq (hin vs hvs), ho]
    simp only [Option.bind_eq_bind, Option.bind_some, ho, Option.getD_some]
  · intro it hit
    obtain ⟨vs, hvs, rfl⟩ := List.mem_map.mp hit
    obtain ⟨r, hr, ho⟩ := hown vs hvs
    exact ⟨by simp only [ho, Option.getD_some], by simpa only [ho, Option.getD_some] using hr⟩
  · intro k
    simp only [List.mem_map]
    constructor
    · rintro ⟨_, ⟨vs, hvs, rfl⟩, rfl⟩
      exact ⟨vs, hvs, rfl⟩
    · rintro ⟨vs, hvs, rfl⟩
      exact ⟨_, ⟨vs, hvs, rfl⟩, rfl⟩

-- ---------------------------------------------------------------------------
-- The managers
-- ---------------------------------------------------------------------------

theorem addOwn_eq (p : ℕ) (items : List (ℕ × List ℕ)) :
    addOwn p items = numberAll ∅ ((itemsFor p items).map sortVertices) := by
  rw [addOwn, itemsFor, numberAll, List.map_map, List.foldl_map, List.foldl_filter]
  congr 1
  funext m it
  by_cases h : it.1 = p
  · simp [h, addToMap, number]
  · simp [h]

/-- What one entity record changes. -/
def addEntity (_r : ℕ) (s : ManagerState) (vs : List ℕ) : ManagerState :=
  { s with
    entities := number s.entities (sortVertices vs)
    rankData := s.rankData ++ [sortVertices vs] }

theorem readEntity_reads (buf : List ℕ) (r stop : ℕ) (vs : List ℕ) :
    Reads buf stop entityRecord (addEntity r) (readEntity buf r stop) vs := by
  intro i s hbuf hstop
  obtain ⟨hn, hbuf⟩ := drop_prefix_cons hbuf
  rw [readEntity, hn]
  simp only [Option.bind_eq_bind, Option.bind_some, span_eq hbuf]
  rfl

theorem foldl_addEntity (r : ℕ) (recs : List (List ℕ)) (s : ManagerState) :
    recs.foldl (addEntity r) s =
      ⟨numberAll s.entities (recs.map sortVertices), s.rankData ++ recs.map sortVertices,
        s.rankEdges⟩ := by
  induction recs generalizing s with
  | nil => simp [numberAll]
  | cons vs recs ih =>
    rw [List.foldl_cons, ih]
    simp [addEntity, numberAll]

/-- All senders, one after another: each is remembered with the sets it sent. -/
theorem foldl_senders (recs : Fin n → List (List ℕ)) (senders : List (Fin n)) (s : ManagerState)
    (hs : s.rankData = []) :
    ∃ edges, List.Forall₂ (fun r es => ∀ k, k ∈ es ↔ k ∈ (recs r).map sortVertices) senders edges ∧
      senders.foldl (fun s r => finishSender ((recs r).foldl (addEntity r) s)) s =
        ⟨numberAll s.entities (senders.flatMap fun r => (recs r).map sortVertices), [],
          s.rankEdges ++ edges⟩ := by
  induction senders generalizing s with
  | nil => exact ⟨[], .nil, by cases s; simp_all [numberAll]⟩
  | cons r senders ih =>
    rw [List.foldl_cons, foldl_addEntity, hs]
    obtain ⟨edges, hedges, hfold⟩ := ih (finishSender
      ⟨numberAll s.entities ((recs r).map sortVertices), [] ++ (recs r).map sortVertices,
        s.rankEdges⟩) rfl
    refine ⟨sortUnique (fun it => (numberAll s.entities ((recs r).map sortVertices)).getD it 0)
      ((recs r).map sortVertices) :: edges, .cons (fun k => ?_) hedges, hfold.trans ?_⟩
    · rw [mem_sortUnique]
    · simp [finishSender, numberAll_append]

/-- What the managers know: the sets they number, and who asked for which. -/
structure Managed (items : Fin n → List (ℕ × List ℕ)) (managers : Fin n → ManagerState) :
    Prop where
  numbered : ∀ p, Numbered (managers p).entities
  entities : ∀ (p : Fin n) (k : List ℕ), k ∈ (managers p).entities ↔
    ∃ q, ∃ vs, ((p : ℕ), vs) ∈ items q ∧ sortVertices vs = k
  length : ∀ p, (managers p).rankEdges.length = n
  edges : ∀ (p r : Fin n) k, k ∈ (managers p).rankEdges.getD r [] ↔
    r ≠ p ∧ ∃ vs, ((p : ℕ), vs) ∈ items r ∧ sortVertices vs = k

theorem managers_eq {items : Fin n → List (ℕ × List ℕ)} (hd : ∀ r, ∀ it ∈ items r, it.1 < n) :
    ∃ recv managers, exchange (fun p : Fin n => packEntities n p (items p)) = some recv ∧
      allRanks (fun p : Fin n => readSegmentsThen n (readEntity (recv p).buf) finishSender
        (recv p).displs ⟨addOwn p (items p), [], []⟩) = some managers ∧
      Managed items managers := by
  have hsent : ∀ (p r : Fin n) vs, vs ∈ itemsFor p ((items r).filter (·.1 ≠ r)) ↔
      r ≠ p ∧ ((p : ℕ), vs) ∈ items r := by
    intro p r vs
    rw [mem_itemsFor, List.mem_filter, decide_eq_true_eq, and_comm, ne_comm]
    simp only [ne_eq, Fin.val_inj]
  choose edges hedges hfold using fun p : Fin n => foldl_senders
    (fun r => itemsFor p ((items r).filter (·.1 ≠ r))) (List.finRange n)
    ⟨addOwn p (items p), [], []⟩ rfl
  refine ⟨_, _, exchange_items entityRecord (fun vs => 1 + vs.length)
      (fun vs => by simp [entityRecord, Nat.add_comm])
      (fun r it hit => hd r it (List.mem_filter.mp hit).1),
    allRanks_eq_some.mpr fun p => (readSegmentsThen_eq (fun r vs _ stop => readEntity_reads _ _ _ _)
      (fun _ _ _ => by simp [entityRecord])).trans (congrArg some (hfold p)), ?_⟩
  constructor
  · intro p
    rw [addOwn_eq, numberAll_append]
    exact numbered_empty.numberAll _
  · intro p k
    rw [addOwn_eq, numberAll_append, mem_numberAll]
    simp only [TreeMap.not_mem_emptyc, false_or, List.mem_append, List.mem_flatMap,
      List.mem_finRange, true_and, List.mem_map, hsent, mem_itemsFor]
    constructor
    · rintro (⟨vs, h, rfl⟩ | ⟨r, vs, ⟨-, h⟩, rfl⟩)
      · exact ⟨p, vs, h, rfl⟩
      · exact ⟨r, vs, h, rfl⟩
    · rintro ⟨q, vs, h, rfl⟩
      by_cases hq : q = p
      · exact .inl ⟨vs, hq ▸ h, rfl⟩
      · exact .inr ⟨q, vs, ⟨hq, h⟩, rfl⟩
  · intro p
    simpa using (hedges p).length_eq.symm
  · intro p r k
    have hr : (r : ℕ) < (edges p).length := by
      rw [← (hedges p).length_eq, List.length_finRange]
      exact r.isLt
    have hget := (hedges p).get (by simp) hr
    rw [List.nil_append, List.getD_eq_getElem _ _ hr]
    simp only [List.get_eq_getElem, List.getElem_finRange] at hget
    rw [hget]
    simp only [Fin.cast_mk, Fin.eta, List.mem_map, hsent, and_assoc]
    constructor
    · rintro ⟨vs, hne, h, rfl⟩
      exact ⟨hne, vs, h, rfl⟩
    · rintro ⟨hne, vs, h, rfl⟩
      exact ⟨vs, hne, h, rfl⟩

-- ---------------------------------------------------------------------------
-- The numbers of all managers
-- ---------------------------------------------------------------------------

def edgeDist (managers : Fin n → ManagerState) : List ℕ :=
  displs (mpiAllgather fun p => (managers p).entities.size)

/-- Some manager numbers the set, and this is the number shifted. -/
def IdOf (managers : Fin n → ManagerState) (k : List ℕ) (x : ℕ) : Prop :=
  ∃ p : Fin n, ∃ i, (managers p).entities[k]? = some i ∧ x = i + (edgeDist managers).getD p 0

section
variable {items : Fin n → List (ℕ × List ℕ)} {managers : Fin n → ManagerState}
variable (hm : Managed items managers)
  (hown : ∀ q, ∀ it ∈ items q, entityOwner d it.2 = some it.1)

theorem edgeDist_distribution (managers : Fin n → ManagerState) :
    Distribution (edgeDist managers) n ((edgeDist managers).getD n 0) :=
  displs_distribution _

theorem edgeDist_succ (managers : Fin n → ManagerState) (p : Fin n) :
    (edgeDist managers).getD (p + 1) 0 =
      (edgeDist managers).getD p 0 + (managers p).entities.size :=
  displs_ofFn_succ _ p

include hm hown in
/-- A set is numbered by its manager only. -/
theorem manager_eq {p q : Fin n} (hp : k ∈ (managers p).entities) (hq : k ∈ (managers q).entities) :
    p = q := by
  obtain ⟨_, vs, hvs, rfl⟩ := (hm.entities p k).mp hp
  obtain ⟨_, ws, hws, hk⟩ := (hm.entities q _).mp hq
  have ho := hown _ _ hvs
  rw [← entityOwner_sortVertices, ← hk, entityOwner_sortVertices, hown _ _ hws] at ho
  exact (Fin.ext (Option.some.inj ho)).symm

include hm in
theorem manager_range {p : Fin n} {k : List ℕ} {x : ℕ} (h : (managers p).entities[k]? = some i)
    (hx : x = i + (edgeDist managers).getD p 0) :
    (edgeDist managers).getD p 0 ≤ x ∧ x < (edgeDist managers).getD (p + 1) 0 := by
  have := (hm.numbered p).bound k i h
  rw [edgeDist_succ]
  omega

include hm hown in
theorem IdOf.unique (hx : IdOf managers k x) (hy : IdOf managers k y) : x = y := by
  obtain ⟨p, i, hi, rfl⟩ := hx
  obtain ⟨q, j, hj, rfl⟩ := hy
  obtain rfl := manager_eq hm hown (mem_of_getElem?_eq_some hi)
    (mem_of_getElem?_eq_some hj)
  rw [hi] at hj
  cases hj
  rfl

include hm in
/-- Different sets have different numbers. -/
theorem IdOf.inj (hk : IdOf managers k x) (hk' : IdOf managers k' x) : k = k' := by
  obtain ⟨p, i, hi, hx⟩ := hk
  obtain ⟨q, j, hj, hy⟩ := hk'
  have hp := (rankOwner_eq_some (edgeDist_distribution managers)).mpr
    ⟨p.isLt, manager_range hm hi hx⟩
  have hq := (rankOwner_eq_some (edgeDist_distribution managers)).mpr
    ⟨q.isLt, manager_range hm hj hy⟩
  rw [hp] at hq
  obtain rfl := Fin.ext (Option.some.inj hq)
  obtain rfl : i = j := by omega
  exact (hm.numbered p).inj _ _ _ hi hj

include hm in
/-- The numbers have no gap. -/
theorem exists_idOf_iff : (∃ k, IdOf managers k x) ↔ x < (edgeDist managers).getD n 0 := by
  have hd := edgeDist_distribution managers
  constructor
  · rintro ⟨k, p, i, hi, hx⟩
    exact (manager_range hm hi hx).2.trans_le (hd.mono' p.isLt le_rfl)
  · intro hlt
    obtain ⟨r, hr, ho⟩ := exists_rankOwner hd hlt
    obtain ⟨-, hl, hu⟩ := (rankOwner_eq_some hd).mp ho
    have hs : (edgeDist managers).getD (r + 1) 0 = (edgeDist managers).getD r 0 +
      (managers ⟨r, hr⟩).entities.size := edgeDist_succ managers ⟨r, hr⟩
    obtain ⟨k, hk⟩ := (hm.numbered ⟨r, hr⟩).onto (x - (edgeDist managers).getD r 0) (by omega)
    exact ⟨k, ⟨r, hr⟩, _, hk, (Nat.sub_add_cancel hl).symm⟩

-- ---------------------------------------------------------------------------
-- The finished ids
-- ---------------------------------------------------------------------------

/-- The map of a manager after the shift. -/
def shifted (managers : Fin n → ManagerState) (p : Fin n) : EntityMap :=
  (managers p).entities.map fun _ id => id + (edgeDist managers).getD p 0

theorem shifted_getElem? (p : Fin n) (k : List ℕ) : (shifted managers p)[k]? =
    (managers p).entities[k]?.map (· + (edgeDist managers).getD p 0) :=
  TreeMap.getElem?_map

theorem mem_shifted {p : Fin n} : k ∈ shifted managers p ↔ k ∈ (managers p).entities :=
  TreeMap.mem_map

theorem idOf_of_shifted {p : Fin n} (h : (shifted managers p)[k]? = some x) : IdOf managers k x := by
  rw [shifted_getElem?] at h
  obtain ⟨i, hi, rfl⟩ := Option.map_eq_some_iff.mp h
  exact ⟨p, i, hi, rfl⟩

/-- What rank `p` sends back to rank `r`. -/
def finishedFor (managers : Fin n → ManagerState) (p r : Fin n) : List (ℕ × List ℕ) :=
  if r = p then [] else
    ((managers p).rankEdges.getD r []).map fun it => ((shifted managers p).getD it 0, it)

theorem length_finishedRecord (edge : ℕ × List ℕ) :
    (finishedRecord edge).length = 2 + edge.2.length := by
  simp only [finishedRecord, List.length_cons]
  omega

theorem sendBack_eq (p : Fin n) (hlen : (managers p).rankEdges.length = n)
    (hmem : ∀ r : Fin n, ∀ it ∈ (managers p).rankEdges.getD r [], it ∈ shifted managers p) :
    sendBack n p (shifted managers p) (managers p).rankEdges =
      some (pack fun r => (finishedFor managers p r).flatMap finishedRecord) := by
  have hits : ∀ r : Fin n, (managers p).rankEdges[(r : ℕ)]? =
      some ((managers p).rankEdges.getD r []) := fun r => by
    have hr : (r : ℕ) < (managers p).rankEdges.length := by rw [hlen]; exact r.isLt
    rw [List.getElem?_eq_getElem hr, List.getD_eq_getElem _ _ hr]
  have hids : ∀ r : Fin n, (((managers p).rankEdges.getD r []).mapM fun it => do
      let globalId ← (shifted managers p)[it]?
      some (globalId, it)) =
      some (((managers p).rankEdges.getD r []).map fun it => ((shifted managers p).getD it 0, it)) :=
    fun r => mapM_some fun it hit => by
      rw [TreeMap.getD_eq_getD_getElem?, TreeMap.getElem?_eq_some_getElem (hmem r it hit)]
      rfl
  rw [sendBack, ← List.map_coe_finRange_eq_range, List.mapM_map]
  rw [mapM_some (g := finishedFor managers p) fun r _ => ?_]
  · simp only [Option.bind_eq_bind, Option.bind_some, pack, Option.some.injEq, Buffer.mk.injEq]
    have hcounts : ((List.finRange n).map (finishedFor managers p)).map
        (fun es => (es.map fun edge => 2 + edge.2.length).sum) =
        List.ofFn fun r => ((finishedFor managers p r).flatMap finishedRecord).length := by
      rw [List.map_map, ← List.ofFn_eq_map]
      congr 1
      funext r
      simp only [Function.comp_apply, List.length_flatMap, length_finishedRecord]
    refine ⟨hcounts, by rw [hcounts], ?_⟩
    rw [List.flatMap_map, List.flatMap_def, ← List.ofFn_eq_map]
  · by_cases hr : r = p
    · simp [hr, finishedFor]
    · simp only [Function.comp_apply, Fin.val_inj, finishedFor, hr, ↓reduceIte, hits]
      exact hids r

/-- What one finished record changes. -/
def addFinished (_r : ℕ) (m : EntityMap) (edge : ℕ × List ℕ) : EntityMap :=
  m.insertIfNew (sortVertices edge.2) edge.1

theorem readFinished_reads (buf : List ℕ) (r stop : ℕ) (edge : ℕ × List ℕ) :
    Reads buf stop finishedRecord (addFinished r) (readFinished buf r stop) edge := by
  intro i m hbuf hstop
  obtain ⟨hid, hbuf⟩ := drop_prefix_cons hbuf
  obtain ⟨hn, hbuf⟩ := drop_prefix_cons hbuf
  rw [readFinished, hid, hn]
  simp only [Option.bind_eq_bind, Option.bind_some, span_eq hbuf]
  rfl

include hm hown in
/-- Every rank ends with the ids of its own sets. -/
theorem finished_eq (hd : ∀ q, ∀ it ∈ items q, it.1 < n) : ∃ send recv entities,
    allRanks (fun p => sendBack n p (shifted managers p) (managers p).rankEdges) = some send ∧
      exchange send = some recv ∧
      allRanks (fun p => readSegments n (readFinished (recv p).buf) (recv p).displs
        (shifted managers p)) = some entities ∧
      ∀ q, ∀ it ∈ items q, ∃ x, IdOf managers (sortVertices it.2) x ∧
        (entities q)[sortVertices it.2]? = some x := by
  have hedge : ∀ p (r : Fin n), ∀ k ∈ (managers p).rankEdges.getD r [], k ∈ shifted managers p := by
    intro p r k hk
    obtain ⟨-, hsent⟩ := (hm.edges p r k).mp hk
    exact mem_shifted.mpr ((hm.entities p k).mpr ⟨r, hsent⟩)
  refine ⟨_, _, _, allRanks_eq_some.mpr fun p => sendBack_eq p (hm.length p) (hedge p),
    exchange_pack _, allRanks_eq_some.mpr fun q =>
      readSegments_eq addFinished (fun r edge _ stop => readFinished_reads _ r _ _)
        (fun _ _ _ => by simp [finishedRecord]), fun q it hit => ?_⟩
  obtain ⟨p, hp⟩ : ∃ p : Fin n, it.1 = p := ⟨⟨it.1, hd q it hit⟩, rfl⟩
  have hmem : sortVertices it.2 ∈ (managers p).entities :=
    (hm.entities p _).mpr ⟨q, it.2, hp ▸ hit, rfl⟩
  obtain ⟨i, hi⟩ := Option.isSome_iff_exists.mp (TreeMap.isSome_getElem?_iff_mem.mpr hmem)
  refine ⟨_, ⟨p, i, hi, rfl⟩, ?_⟩
  -- the records received hold the right ids, and one of them is for this set
  have hfold : (allRecords fun r => finishedFor managers r q).foldl
      (fun m x => addFinished x.1 m x.2) (shifted managers q) =
      ((allRecords fun r => finishedFor managers r q).map fun x =>
        (sortVertices x.2.2, x.2.1)).foldl (fun m p => m.insertIfNew p.1 p.2)
          (shifted managers q) := by
    rw [List.foldl_map]
    rfl
  rw [hfold]
  refine (emplaceAll_spec (P := IdOf managers) (fun k x y => IdOf.unique hm hown) (fun k x => idOf_of_shifted) ?_).2 _ _
    ⟨p, i, hi, rfl⟩ ?_
  · intro pair hpair
    obtain ⟨⟨_, edge⟩, hx, rfl⟩ := List.mem_map.mp hpair
    obtain ⟨r, -, hedge'⟩ := mem_allRecords.mp hx
    simp only [finishedFor] at hedge'
    split at hedge'
    · cases hedge'
    · obtain ⟨k, hk, rfl⟩ := List.mem_map.mp hedge'
      obtain ⟨-, vs, -, rfl⟩ := (hm.edges r q k).mp hk
      rw [sortVertices_sortVertices]
      refine idOf_of_shifted (p := r) ?_
      rw [TreeMap.getD_eq_getD_getElem?, TreeMap.getElem?_eq_some_getElem (hedge r q _ hk)]
      rfl
  · by_cases hqp : q = p
    · exact .inl (mem_shifted.mpr (hqp ▸ hmem))
    · refine .inr ⟨(shifted managers p).getD (sortVertices it.2) 0, List.mem_map.mpr
        ⟨(p, (shifted managers p).getD (sortVertices it.2) 0, sortVertices it.2),
          mem_allRecords.mpr ⟨p, rfl, ?_⟩, by rw [sortVertices_sortVertices]⟩⟩
      simp only [finishedFor, if_neg hqp]
      exact List.mem_map.mpr ⟨_, (hm.edges p q _).mpr ⟨hqp, it.2, hp ▸ hit, rfl⟩, rfl⟩

end

-- ---------------------------------------------------------------------------
-- Local and global ids
-- ---------------------------------------------------------------------------

/-- The map holds the first place of every member of the list. -/
def FirstIndex (l : List ℕ) (m : TreeMap ℕ ℕ) : Prop :=
  ∀ id, m[id]? = if id ∈ l then some (l.idxOf id) else none

theorem FirstIndex.concat (h : FirstIndex l m) (x : ℕ) :
    FirstIndex (l ++ [x]) (m.insertIfNew x l.length) := by
  intro id
  have hmem : x ∈ m ↔ x ∈ l := by
    rw [← TreeMap.isSome_getElem?_iff_mem, h x]
    by_cases hx : x ∈ l <;> simp [hx]
  rw [getElem?_emplace, h id]
  by_cases hid : id ∈ l
  · have hnot : ¬(id = x ∧ x ∉ m) := fun hc => hc.2 (hmem.mpr (hc.1 ▸ hid))
    rw [if_neg hnot, if_pos hid, if_pos (List.mem_append_left _ hid), List.idxOf_append_of_mem hid]
  · by_cases hx : id = x
    · subst hx
      rw [if_pos ⟨rfl, mt hmem.mp hid⟩, if_pos (by simp), List.idxOf_append_of_notMem hid]
      simp
    · rw [if_neg fun hc => hx hc.1, if_neg hid, if_neg (by simp [hid, hx])]

theorem addLocals_eq {l2g : List ℕ} {entities : EntityMap} {rows : List (List ℕ)}
    {gid : List ℕ → ℕ} (hin : ∀ vs ∈ rows, ∀ v ∈ vs, v < l2g.length)
    (hgid : ∀ vs ∈ rows, entities[vertexSet l2g vs]? = some (gid (vertexSet l2g vs)))
    {s : List ℕ × TreeMap ℕ ℕ} (hs : FirstIndex s.1 s.2) :
    ∃ m, rows.foldlM (addLocal l2g entities) s =
        some (s.1 ++ rows.map fun vs => gid (vertexSet l2g vs), m) ∧
      FirstIndex (s.1 ++ rows.map fun vs => gid (vertexSet l2g vs)) m := by
  induction rows generalizing s with
  | nil => exact ⟨s.2, by simp, by simpa using hs⟩
  | cons vs rows ih =>
    have hstep : addLocal l2g entities s vs = some (s.1 ++ [gid (vertexSet l2g vs)],
        s.2.insertIfNew (gid (vertexSet l2g vs)) s.1.length) := by
      rw [addLocal, globalVertices_eq (hin vs (by simp))]
      simp only [Option.bind_eq_bind, Option.bind_some]
      rw [← vertexSet, hgid vs (by simp)]
      rfl
    obtain ⟨m, hm, hfirst⟩ := ih (fun ws h => hin ws (by simp [h]))
      (fun ws h => hgid ws (by simp [h])) (s := (_, _)) (hs.concat (gid (vertexSet l2g vs)))
    rw [List.append_assoc] at hm hfirst
    refine ⟨m, ?_, hfirst⟩
    rw [List.foldlM_cons, hstep]
    exact hm

-- ---------------------------------------------------------------------------
-- All together
-- ---------------------------------------------------------------------------

/-- Entities have vertices, and these are in range. -/
structure ValidEntities (entities2vertex : Fin n → Crs) (l2g : Fin n → List ℕ) : Prop where
  nonempty : ∀ p, ∀ vs ∈ (entities2vertex p).rows, vs ≠ []
  inRange : ∀ p, ∀ vs ∈ (entities2vertex p).rows, ∀ v ∈ vs, v < (l2g p).length

/-- The vertex sets of the entities of all ranks. -/
def vertexSets (entities2vertex : Fin n → Crs) (l2g : Fin n → List ℕ) : Finset (List ℕ) :=
  Finset.univ.biUnion fun p => ((entities2vertex p).rows.map (vertexSet (l2g p))).toFinset

theorem mem_vertexSets {e : Fin n → Crs} : k ∈ vertexSets e l2g ↔
    ∃ p, ∃ vs ∈ (e p).rows, vertexSet (l2g p) vs = k := by
  simp [vertexSets]

/-- What the ids of all ranks say about the entities. -/
structure MatchedIds (entities2vertex : Fin n → Crs) (l2g : Fin n → List ℕ)
    (out : Fin n → List ℕ × TreeMap ℕ ℕ) : Prop where
  local2global : ∀ p, (out p).1.length = (entities2vertex p).rows.length
  same : ∀ p q, ∀ i < (entities2vertex p).rows.length, ∀ j < (entities2vertex q).rows.length,
    (out p).1.getD i 0 = (out q).1.getD j 0 ↔
      vertexSet (l2g p) ((entities2vertex p).row i) = vertexSet (l2g q) ((entities2vertex q).row j)
  dense : ∀ x, (∃ p, x ∈ (out p).1) ↔ x < (vertexSets entities2vertex l2g).card
  global2local : ∀ p, FirstIndex (out p).1 (out p).2

/-- Ids that tell vertex sets apart and have no gap number the sets. -/
theorem matchedIds_of_ids {e : Fin n → Crs} {l2g : Fin n → List ℕ} (gid : List ℕ → ℕ) {N : ℕ}
    {m : Fin n → TreeMap ℕ ℕ}
    (hinj : ∀ k ∈ vertexSets e l2g, ∀ k' ∈ vertexSets e l2g, gid k = gid k' → k = k')
    (hdense : ∀ x, (∃ k ∈ vertexSets e l2g, gid k = x) ↔ x < N)
    (hm : ∀ p, FirstIndex ((e p).rows.map fun vs => gid (vertexSet (l2g p) vs)) (m p)) :
    MatchedIds e l2g fun p => ((e p).rows.map fun vs => gid (vertexSet (l2g p) vs), m p) := by
  have hcard : (vertexSets e l2g).card = N := by
    rw [← Finset.card_image_of_injOn (f := gid) fun k hk k' hk' => hinj k hk k' hk',
      ← Finset.card_range N]
    congr 1
    ext x
    rw [Finset.mem_image, hdense, Finset.mem_range]
  have hmem : ∀ p, ∀ i, (hi : i < (e p).rows.length) →
      vertexSet (l2g p) ((e p).row i) ∈ vertexSets e l2g := fun p i hi =>
    mem_vertexSets.mpr ⟨p, _, Crs.getElem_rows _ hi ▸ List.getElem_mem hi, rfl⟩
  have hget : ∀ p, ∀ i, (hi : i < (e p).rows.length) →
      ((e p).rows.map fun vs => gid (vertexSet (l2g p) vs)).getD i 0 =
        gid (vertexSet (l2g p) ((e p).row i)) := fun p i hi => by
    rw [List.getD_eq_getElem _ _ (by simpa using hi), List.getElem_map, Crs.getElem_rows _ hi]
  constructor
  · intro p
    simp
  · intro p q i hi j hj
    rw [hget p i hi, hget q j hj]
    exact ⟨hinj _ (hmem p i hi) _ (hmem q j hj), congrArg gid⟩
  · intro x
    rw [hcard, ← hdense]
    simp only [List.mem_map, mem_vertexSets]
    constructor
    · rintro ⟨p, vs, hvs, rfl⟩
      exact ⟨_, ⟨p, vs, hvs, rfl⟩, rfl⟩
    · rintro ⟨_, ⟨p, vs, hvs, rfl⟩, rfl⟩
      exact ⟨p, vs, hvs, rfl⟩
  · exact hm

/-- `match_ids` runs through on all ranks and numbers the vertex sets of the
machine. -/
theorem matchIds_consistent {entities2vertex : Fin n → Crs} {l2g : Fin n → List ℕ}
    (hv : ValidEntities entities2vertex l2g) :
    ∃ out, matchIds entities2vertex l2g (fun _ => ([], ∅)) = some out ∧
      MatchedIds entities2vertex l2g out := by
  obtain ⟨total, hd, hlt⟩ : ∃ total, Distribution (subdivide (mpiAllreduceMax
      (fun p => (l2g p).foldl max 0) + 1) n) n total ∧ ∀ p, ∀ v ∈ l2g p, v < total := by
    obtain rfl | hn := Nat.eq_zero_or_pos n
    · exact ⟨0, ⟨rfl, rfl, by simp, rfl⟩, fun p => p.elim0⟩
    · refine ⟨_, subdivide_distribution _ hn, fun p v hmem => ?_⟩
      have hmax : v ≤ (l2g p).foldl max 0 := le_foldl_max (.inr hmem)
      exact Nat.lt_succ_of_le (hmax.trans (le_mpiAllreduceMax (fun p => (l2g p).foldl max 0) p))
  choose items hitems hown hsets using fun p =>
    ownedEntities_eq hd (hv.nonempty p) (hv.inRange p) (hlt p)
  have hdest : ∀ q, ∀ it ∈ items q, it.1 < n := fun q it hit => (hown q it hit).2
  obtain ⟨recv₁, managers, hrecv₁, hmanagers, hm⟩ := managers_eq hdest
  obtain ⟨send, recv₂, entities, hsend, hrecv₂, hentities, hids⟩ :=
    finished_eq hm (fun q it hit => (hown q it hit).1) hdest
  -- one id for every vertex set
  have hsome : ∀ p, ∀ vs ∈ (entities2vertex p).rows, ∃ x,
      IdOf managers (vertexSet (l2g p) vs) x ∧ (entities p)[vertexSet (l2g p) vs]? = some x := by
    intro p vs hvs
    obtain ⟨it, hit, hk⟩ := (hsets p _).mpr ⟨vs, hvs, rfl⟩
    exact hk ▸ hids p it hit
  have hid : ∀ k, ∃ x, k ∈ vertexSets entities2vertex l2g → IdOf managers k x := by
    intro k
    by_cases hk : k ∈ vertexSets entities2vertex l2g
    · obtain ⟨p, vs, hvs, rfl⟩ := mem_vertexSets.mp hk
      obtain ⟨x, hx, -⟩ := hsome p vs hvs
      exact ⟨x, fun _ => hx⟩
    · exact ⟨0, fun h => absurd h hk⟩
  choose gid hgid using hid
  have hvset : ∀ p, ∀ vs ∈ (entities2vertex p).rows,
      vertexSet (l2g p) vs ∈ vertexSets entities2vertex l2g := fun p vs hvs =>
    mem_vertexSets.mpr ⟨p, vs, hvs, rfl⟩
  have hlocal : ∀ p, ∃ m, (entities2vertex p).rows.foldlM (addLocal (l2g p) (entities p))
      ([], ∅) = some ([] ++ (entities2vertex p).rows.map fun vs => gid (vertexSet (l2g p) vs), m) ∧
        FirstIndex ([] ++ (entities2vertex p).rows.map fun vs => gid (vertexSet (l2g p) vs)) m := by
    intro p
    refine addLocals_eq (hv.inRange p) (fun vs hvs => ?_) fun id => by simp
    obtain ⟨x, hx, hget⟩ := hsome p vs hvs
    rw [hget, hx.unique hm (fun q it hit => (hown q it hit).1) (hgid _ (hvset p vs hvs))]
  choose m hfold hfirst using hlocal
  refine ⟨_, ?_, matchedIds_of_ids gid (N := (edgeDist managers).getD n 0) (m := m)
    (fun k hk k' hk' h => ?_) (fun x => ?_) ?_⟩
  · rw [matchIds]
    simp only [Option.bind_eq_bind, allRanks_eq_some.mpr hitems, Option.bind_some, hrecv₁,
      hmanagers]
    change (allRanks fun p => sendBack n p (shifted managers p) (managers p).rankEdges).bind _ = _
    simp only [hsend, Option.bind_some, hrecv₂]
    change (allRanks fun p => readSegments n (readFinished (recv₂ p).buf) (recv₂ p).displs
      (shifted managers p)).bind _ = _
    simp only [hentities, Option.bind_some]
    exact allRanks_eq_some.mpr hfold
  · exact (hgid k hk).inj hm (h ▸ hgid k' hk')
  · rw [← exists_idOf_iff hm]
    constructor
    · rintro ⟨k, hk, rfl⟩
      exact ⟨k, hgid k hk⟩
    · rintro ⟨k, hk⟩
      obtain ⟨p, i, hi, -⟩ := id hk
      obtain ⟨q, vs, hit, rfl⟩ := (hm.entities p k).mp (mem_of_getElem?_eq_some hi)
      have hk' : sortVertices vs ∈ vertexSets entities2vertex l2g := by
        obtain ⟨ws, hws, heq⟩ := (hsets q _).mp ⟨_, hit, rfl⟩
        exact mem_vertexSets.mpr ⟨q, ws, hws, heq⟩
      exact ⟨_, hk', (hgid _ hk').unique hm (fun q it hit => (hown q it hit).1) hk⟩
  · simpa using hfirst

/-- Two triangles of two ranks, in edges: the edge both have gets one id. -/
theorem matchIds_triangles : ∃ out,
    matchIds (fun _ : Fin 2 => Crs.ofRows [[0, 1], [1, 2], [2, 0]])
      (fun p => if p = 0 then [0, 1, 2] else [1, 3, 2]) (fun _ => ([], ∅)) = some out ∧
      (out 0).1.getD 1 0 = (out 1).1.getD 2 0 := by
  have hv : ValidEntities (fun _ : Fin 2 => Crs.ofRows [[0, 1], [1, 2], [2, 0]])
      (fun p => if p = 0 then [0, 1, 2] else [1, 3, 2]) := ⟨by decide, by decide⟩
  obtain ⟨out, hout, h⟩ := matchIds_consistent hv
  exact ⟨out, hout, (h.same 0 1 1 (by decide) 2 (by decide)).mpr (by decide)⟩

end Flecsi.Coloring
