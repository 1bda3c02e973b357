import Flecsi.Coloring.EntityManagers

/-!
# One owner for every entity

What the lists of one rank hold follows from its map (`ColoredBy`). Since the
maps hold decisions only, the lists of all ranks fit together: every entity is
exclusive or shared on one rank, and the ghost entries and shared sets name
each other.
-/

namespace Flecsi.Coloring

open PackedBuffer SortUnique Numbering
open Std (TreeMap)

-- ---------------------------------------------------------------------------
-- The lists of one rank
-- ---------------------------------------------------------------------------

def exclusiveEntity (p : ℕ) (inp : ColorInput) (l : ℕ) : EntityInfo :=
  entityInfo (inp.local2global.getD l 0) p l ∅

def sharedEntity (x : ℕ × Owner) : EntityInfo :=
  entityInfo x.1 x.2.rank x.2.localId x.2.ghostRanks.toFinset

def ghostEntity (x : ℕ × Owner) : EntityInfo := entityInfo x.1 x.2.rank x.2.localId ∅

/-- The loop over the map. -/
theorem foldlM_setSharedGhost (p : ℕ) (pg : List ℕ) (xs : List (ℕ × Owner))
    (hne : ∀ x ∈ xs, x.2.rank = p → x.2.ghostRanks ≠ []) (s : IndexColoring × ColoringInfo) :
    ∃ s', xs.foldlM (setSharedGhost p pg) s = some s' ∧
      s'.1.exclusive = s.1.exclusive ∧
      s'.1.shared = s.1.shared ++ (xs.filter (·.2.rank = p)).map sharedEntity ∧
      s'.1.ghost = s.1.ghost ++ (xs.filter fun x => x.2.rank ≠ p ∧ x.1 ∈ pg).map ghostEntity ∧
      (∀ r, r ∈ s'.2.sharedUsers ↔
        r ∈ s.2.sharedUsers ∨ ∃ x ∈ xs, x.2.rank = p ∧ r ∈ x.2.ghostRanks) ∧
      ∀ r, r ∈ s'.2.ghostOwners ↔
        r ∈ s.2.ghostOwners ∨ ∃ x ∈ xs, (x.2.rank ≠ p ∧ x.1 ∈ pg) ∧ x.2.rank = r := by
  induction xs generalizing s with
  | nil => exact ⟨s, rfl, rfl, by simp, by simp, by simp, by simp⟩
  | cons x xs ih =>
    obtain ⟨g, o⟩ := x
    obtain ⟨entities, info⟩ := s
    have ih := fun s => ih (fun x hx => hne x (by simp [hx])) s
    by_cases hown : o.rank = p
    · have hghosts := hne (g, o) (by simp) hown
      obtain ⟨s', hs', hexcl, hshared, hghost, husers, howners⟩ := ih
        ({ entities with shared := entities.shared ++ [sharedEntity (g, o)] },
          { info with sharedUsers := info.sharedUsers ∪ o.ghostRanks.toFinset })
      refine ⟨s', ?_, hexcl, ?_, ?_, fun r => ?_, fun r => ?_⟩
      · rw [List.foldlM_cons, setSharedGhost, if_pos hown, if_neg hghosts]
        exact hs'
      · simpa [hown] using hshared
      · simpa [hown] using hghost
      · simp [husers, hown, or_assoc]
      · simp [howners, hown]
    · by_cases hpg : g ∈ pg
      · obtain ⟨s', hs', hexcl, hshared, hghost, husers, howners⟩ := ih
          ({ entities with ghost := entities.ghost ++ [ghostEntity (g, o)] },
            { info with ghostOwners := insert o.rank info.ghostOwners })
        refine ⟨s', ?_, hexcl, ?_, ?_, fun r => ?_, fun r => ?_⟩
        · rw [List.foldlM_cons, setSharedGhost, if_neg hown, if_pos hpg]
          exact hs'
        · simpa [hown] using hshared
        · simpa [hown, hpg] using hghost
        · simp [husers, hown]
        · simp [howners, hown, hpg, eq_comm (a := r), or_assoc, or_left_comm]
      · obtain ⟨s', hs', hexcl, hshared, hghost, husers, howners⟩ := ih (entities, info)
        refine ⟨s', ?_, hexcl, ?_, ?_, fun r => ?_, fun r => ?_⟩
        · rw [List.foldlM_cons, setSharedGhost, if_neg hown, if_neg hpg]
          exact hs'
        · simpa [hown] using hshared
        · simpa [hown, hpg] using hghost
        · simp [husers, hown]
        · simp [howners, hown, hpg]

/-- The lists of rank `p` for its map `m`. -/
structure ColoredBy (p : ℕ) (inp : ColorInput) (pg : List ℕ) (m : OwnerMap)
    (out : IndexColoring × ColoringInfo) : Prop where
  exclusive : ∀ e, e ∈ out.1.exclusive ↔ ∃ l g, inp.local2global[l]? = some g ∧
    ¬ Claims inp g l ∧ e = entityInfo g p l ∅
  shared : ∀ e, e ∈ out.1.shared ↔
    ∃ (g : ℕ) (o : Owner), m[g]? = some o ∧ o.rank = p ∧ e = sharedEntity (g, o)
  ghost : ∀ e, e ∈ out.1.ghost ↔
    ∃ (g : ℕ) (o : Owner), m[g]? = some o ∧ (o.rank ≠ p ∧ g ∈ pg) ∧ e = ghostEntity (g, o)
  sorted : out.1.exclusive.Pairwise (·.id < ·.id) ∧ out.1.shared.Pairwise (·.id < ·.id) ∧
    out.1.ghost.Pairwise (·.id < ·.id)
  sharedUsers : ∀ r, r ∈ out.2.sharedUsers ↔
    ∃ (g : ℕ) (o : Owner), m[g]? = some o ∧ o.rank = p ∧ r ∈ o.ghostRanks
  ghostOwners : ∀ r, r ∈ out.2.ghostOwners ↔
    ∃ (g : ℕ) (o : Owner), m[g]? = some o ∧ (o.rank ≠ p ∧ g ∈ pg) ∧ o.rank = r
  counts : out.2.exclusive = out.1.exclusive.length ∧ out.2.shared = out.1.shared.length ∧
    out.2.ghost = out.1.ghost.length

/-- The exclusive entries, before they are sorted. -/
def exclusiveEntities (p : ℕ) (inp : ColorInput) : List EntityInfo :=
  ((List.range inp.local2global.length).filter ((markShared inp).1.getD · false)).map
    (exclusiveEntity p inp)

theorem mem_exclusiveEntities {inp : ColorInput} : e ∈ exclusiveEntities p inp ↔
    ∃ l g, inp.local2global[l]? = some g ∧ ¬ Claims inp g l ∧ e = entityInfo g p l ∅ := by
  have hentry : ∀ {l g : ℕ}, inp.local2global[l]? = some g →
      exclusiveEntity p inp l = entityInfo g p l ∅ := fun hg => by
    rw [exclusiveEntity, List.getD_eq_getElem?_getD, hg]
    rfl
  simp only [exclusiveEntities, List.mem_map, List.mem_filter, List.mem_range]
  constructor
  · rintro ⟨l, ⟨hl, hflag⟩, rfl⟩
    have hg := List.getElem?_eq_getElem hl
    exact ⟨l, _, hg, (exclusive_iff hg).mp hflag, hentry hg⟩
  · rintro ⟨l, g, hg, hclaim, rfl⟩
    obtain ⟨hl, -⟩ := List.getElem?_eq_some_iff.mp hg
    exact ⟨l, ⟨hl, (exclusive_iff hg).mpr hclaim⟩, hentry hg⟩

theorem exclusiveEntities_inj {inp : ColorInput} (hinp : inp.local2global.Nodup) :
    ∀ a ∈ exclusiveEntities p inp, ∀ b ∈ exclusiveEntities p inp, a.id = b.id → a = b := by
  intro a ha b hb hab
  obtain ⟨l, g, hl, -, rfl⟩ := mem_exclusiveEntities.mp ha
  obtain ⟨l', g', hl', -, rfl⟩ := mem_exclusiveEntities.mp hb
  obtain rfl : g = g' := hab
  obtain ⟨hlt, rfl⟩ := List.getElem?_eq_some_iff.mp hl
  obtain ⟨hlt', heq⟩ := List.getElem?_eq_some_iff.mp hl'
  rw [hinp.getElem_inj_iff.mp heq]

/-- Entries of a part of the map, each with the id of its key. -/
theorem mapEntities_inj {m : OwnerMap} {P : ℕ × Owner → Bool} {f : ℕ × Owner → EntityInfo}
    (hf : ∀ x, (f x).id = x.1) :
    ∀ a ∈ (m.toList.filter P).map f, ∀ b ∈ (m.toList.filter P).map f, a.id = b.id → a = b := by
  intro a ha b hb hab
  obtain ⟨⟨g, o⟩, hx, rfl⟩ := List.mem_map.mp ha
  obtain ⟨⟨g', o'⟩, hy, rfl⟩ := List.mem_map.mp hb
  have hx := TreeMap.mem_toList_iff_getElem?_eq_some.mp (List.mem_filter.mp hx).1
  have hy := TreeMap.mem_toList_iff_getElem?_eq_some.mp (List.mem_filter.mp hy).1
  rw [hf, hf] at hab
  obtain rfl : g = g' := hab
  rw [Option.some.inj (hx.symm.trans hy)]

theorem exists_mem_toList {m : OwnerMap} {P : ℕ × Owner → Prop} :
    (∃ x ∈ m.toList, P x) ↔ ∃ (g : ℕ) (o : Owner), m[g]? = some o ∧ P (g, o) := by
  simp only [Prod.exists, TreeMap.mem_toList_iff_getElem?_eq_some]

theorem mem_mapEntities {m : OwnerMap} {P : ℕ × Owner → Prop} [DecidablePred P]
    {f : ℕ × Owner → EntityInfo} : e ∈ (m.toList.filter P).map f ↔
      ∃ (g : ℕ) (o : Owner), m[g]? = some o ∧ P (g, o) ∧ e = f (g, o) := by
  rw [List.mem_map]
  simp only [List.mem_filter, decide_eq_true_eq, and_assoc, exists_mem_toList, eq_comm (a := e)]

theorem setColoring_eq (p : ℕ) {inp : ColorInput} (hinp : inp.local2global.Nodup) (pg : List ℕ)
    {m : OwnerMap} (hne : ∀ (g : ℕ) o, m[g]? = some o → o.rank = p → o.ghostRanks ≠ []) :
    ∃ out, setColoring p inp (markShared inp).1 pg m (noColoring, noColoringInfo) = some out ∧
      ColoredBy p inp pg m out := by
  obtain ⟨s, hs, hexcl, hshared, hghost, husers, howners⟩ := foldlM_setSharedGhost p pg m.toList
    (fun x hx => hne x.1 x.2 (TreeMap.mem_toList_iff_getElem?_eq_some.mp hx))
    (setExclusive p inp (markShared inp).1 noColoring, noColoringInfo)
  replace hexcl : s.1.exclusive = removeUniqueEntities (exclusiveEntities p inp) := hexcl
  replace hshared : s.1.shared = (m.toList.filter (·.2.rank = p)).map sharedEntity := hshared
  replace hghost : s.1.ghost =
    (m.toList.filter fun x => x.2.rank ≠ p ∧ x.1 ∈ pg).map ghostEntity := hghost
  have hlists : setColoring p inp (markShared inp).1 pg m (noColoring, noColoringInfo) =
      some (⟨s.1.exclusive, removeUniqueEntities s.1.shared, removeUniqueEntities s.1.ghost⟩,
        ⟨s.1.exclusive.length, (removeUniqueEntities s.1.shared).length,
          (removeUniqueEntities s.1.ghost).length, s.2.sharedUsers, s.2.ghostOwners⟩) := by
    rw [setColoring, hs]
    rfl
  refine ⟨_, hlists, ⟨fun e => ?_, fun e => ?_, fun e => ?_, ⟨?_, ?_, ?_⟩, fun r => ?_, fun r => ?_,
    rfl, rfl, rfl⟩⟩
  · rw [hexcl]
    exact (mem_sortUnique _).trans mem_exclusiveEntities
  · refine (mem_sortUnique _).trans ?_
    rw [hshared, mem_mapEntities]
  · refine (mem_sortUnique _).trans ?_
    rw [hghost, mem_mapEntities]
  · exact hexcl ▸ sortUnique_pairwise (exclusiveEntities_inj hinp)
  · exact sortUnique_pairwise (hshared ▸ mapEntities_inj fun _ => rfl)
  · exact sortUnique_pairwise (hghost ▸ mapEntities_inj fun _ => rfl)
  · rw [husers, ← exists_mem_toList (P := fun x => x.2.rank = p ∧ r ∈ x.2.ghostRanks)]
    exact or_iff_right (Finset.notMem_empty r)
  · rw [howners, ← exists_mem_toList (P := fun x => (x.2.rank ≠ p ∧ x.1 ∈ pg) ∧ x.2.rank = r)]
    exact or_iff_right (Finset.notMem_empty r)

-- ---------------------------------------------------------------------------
-- The lists of all ranks
-- ---------------------------------------------------------------------------

def ids (l : List EntityInfo) : List ℕ := l.map EntityInfo.id

/-- The ownership of the entities is consistent over the whole machine. Offsets
are local ids as an `entity_info_t` stores them. -/
structure ConsistentOwnership (inp : Fin n → ColorInput)
    (out : Fin n → (IndexColoring × ColoringInfo) × ℕ) : Prop where
  disjoint : ∀ p,
    (ids ((out p).1.1.exclusive ++ (out p).1.1.shared ++ (out p).1.1.ghost)).Nodup
  covered : ∀ (p : Fin n) g,
    g ∈ ids ((out p).1.1.exclusive ++ (out p).1.1.shared ++ (out p).1.1.ghost) ↔
      HasEntity (inp p) g ∨ Receives inp p g
  oneOwner : ∀ g, (∃ p, HasEntity (inp p) g) →
    ∃! p, g ∈ ids ((out p).1.1.exclusive ++ (out p).1.1.shared)
  own : ∀ p, ∀ e ∈ (out p).1.1.exclusive ++ (out p).1.1.shared, e.rank = p ∧
    ∃ l : ℕ, (inp p).local2global[l]? = some e.id ∧ e.offset = toIndices l
  ghosts : ∀ p, ∀ e ∈ (out p).1.1.ghost, ∃ q : Fin n, e.rank = q ∧ e.id ∈ ids (out q).1.1.shared ∧
    ∃ l : ℕ, (inp q).local2global[l]? = some e.id ∧ e.offset = toIndices l
  users : ∀ p, ∀ e ∈ (out p).1.1.shared, e.shared.Nonempty ∧
    ∀ r, r ∈ e.shared ↔ ∃ q : Fin n, r = q ∧ e.id ∈ ids (out q).1.1.ghost
  sorted : ∀ p, (out p).1.1.exclusive.Pairwise (·.id < ·.id) ∧
    (out p).1.1.shared.Pairwise (·.id < ·.id) ∧ (out p).1.1.ghost.Pairwise (·.id < ·.id)
  sharedUsers : ∀ p r, r ∈ (out p).1.2.sharedUsers ↔ ∃ e ∈ (out p).1.1.shared, r ∈ e.shared
  ghostOwners : ∀ p r, r ∈ (out p).1.2.ghostOwners ↔ ∃ e ∈ (out p).1.1.ghost, e.rank = r
  counts : ∀ p, (out p).1.2.exclusive = (out p).1.1.exclusive.length ∧
    (out p).1.2.shared = (out p).1.1.shared.length ∧ (out p).1.2.ghost = (out p).1.1.ghost.length
  connectivity : ∀ p : Fin n,
    (out p).2 = (inp p).cells2entity.indices.length + receivedCounts inp p

section
variable {inp : Fin n → ColorInput} (h : DistributedMesh inp) {m : Fin n → OwnerMap}
  (hm : Informed inp m)

include h in
/-- An entity received belongs to another rank, and is claimed where it is local. -/
theorem DistributedMesh.claims_of_local {p : Fin n} (hr : Receives inp p g)
    (hl : (inp p).local2global[l]? = some g) : Claims (inp p) g l := by
  obtain ⟨q, c, hc, hp, l', -, hl'⟩ := h.receives_iff.mp hr
  have hqp : p ≠ q := fun hpq => (h.others q c hc p hp).2 (congrArg Fin.val hpq)
  exact (h.claims_of_two hqp hl (h.hasEntity_iff.mpr ⟨l', hl'⟩)).1

include hm in
theorem Informed.rank_lt {p : Fin n} {g : ℕ} (ho : (m p)[g]? = some o) : o.rank < n := by
  obtain ⟨q, hq, -⟩ := (hm.sound p g o ho).owner
  exact hq ▸ q.isLt

include hm in
/-- A claimed entity is decided, and its owner knows. -/
theorem Informed.owner_of_claims {p : Fin n} (hc : Claims (inp p) g l) :
    ∃ (q : Fin n) (o : Owner), o.rank = q ∧ Decided inp g o ∧ (m q)[g]? = some o := by
  obtain ⟨o, ho, hq⟩ := hm.owner p g l hc
  obtain ⟨q, hrank, -⟩ := ho.owner
  exact ⟨q, o, hrank, ho, hq q hrank⟩

include h hm in
/-- A rank that has or receives an entity of two ranks has it in its map. -/
theorem Informed.mem_of_claims {p : Fin n} (hc : Claims (inp p) g l) :
    ∃ o : Owner, (m p)[g]? = some o ∧ (o.rank = p ∨ o.rank ≠ p ∧ Receives inp p g) := by
  obtain ⟨q, o, hrank, ho, hq⟩ := hm.owner_of_claims hc
  by_cases hqp : q = p
  · subst hqp
    exact ⟨o, hq, .inl hrank⟩
  · obtain ⟨q', hq', hclaim, -⟩ := ho.owner
    obtain rfl : q = q' := Fin.ext (hrank.symm.trans hq')
    have hrecv := (h.claims_of_two hqp hclaim.1 (h.hasEntity_iff.mpr ⟨l, hc.1⟩)).2
    obtain ⟨o', ho'⟩ := hm.ghost p g hrecv
    obtain rfl := hm.unique q p g o o' hq ho'
    exact ⟨o, ho', .inr ⟨fun heq => hqp (Fin.ext (hrank.symm.trans heq)), hrecv⟩⟩

include h hm in
/-- The owner of a shared entity has a ghost rank when no shared set is empty. -/
theorem Informed.ghostRanks_ne_nil (hne : ∀ p, ∀ c ∈ (inp p).shared, c.shared.Nonempty)
    {p q : Fin n} {g : ℕ} (ho : (m p)[g]? = some o) (hrank : o.rank = q) :
    ∃ r < n, r ∈ o.ghostRanks := by
  have hdec := hm.sound p g o ho
  obtain ⟨q', hq', ⟨hl, c, hc, hrow⟩, -⟩ := hdec.owner
  obtain rfl : q = q' := Fin.ext (hrank.symm.trans hq')
  obtain ⟨r, hr⟩ := hne q c hc
  obtain ⟨hrn, hrq⟩ := h.others q c hc r hr
  refine ⟨r, hrn, (hdec.ghosts r).mpr ⟨?_, fun heq => hrq (heq.trans hrank)⟩⟩
  exact h.receives_iff.mpr ⟨q, c, hc, hr, o.localId, hrow, hl⟩

end

section
variable {inp : ColorInput} {pg : List ℕ} {m : OwnerMap} {out : IndexColoring × ColoringInfo}
  (hout : ColoredBy p inp pg m out)

include hout in
theorem ColoredBy.mem_ids_exclusive : g ∈ ids out.1.exclusive ↔
    ∃ l : ℕ, inp.local2global[l]? = some g ∧ ¬ Claims inp g l := by
  simp only [ids, List.mem_map, hout.exclusive]
  constructor
  · rintro ⟨_, ⟨l, g, hl, hc, rfl⟩, rfl⟩
    exact ⟨l, hl, hc⟩
  · rintro ⟨l, hl, hc⟩
    exact ⟨_, ⟨l, g, hl, hc, rfl⟩, rfl⟩

include hout in
theorem ColoredBy.mem_ids_shared :
    g ∈ ids out.1.shared ↔ ∃ o : Owner, m[g]? = some o ∧ o.rank = p := by
  simp only [ids, List.mem_map, hout.shared]
  constructor
  · rintro ⟨_, ⟨g, o, ho, hrank, rfl⟩, rfl⟩
    exact ⟨o, ho, hrank⟩
  · rintro ⟨o, ho, hrank⟩
    exact ⟨_, ⟨g, o, ho, hrank, rfl⟩, rfl⟩

include hout in
theorem ColoredBy.mem_ids_ghost :
    g ∈ ids out.1.ghost ↔ ∃ o : Owner, m[g]? = some o ∧ o.rank ≠ p ∧ g ∈ pg := by
  simp only [ids, List.mem_map, hout.ghost]
  constructor
  · rintro ⟨_, ⟨g, o, ho, hrank, rfl⟩, rfl⟩
    exact ⟨o, ho, hrank⟩
  · rintro ⟨o, ho, hrank⟩
    exact ⟨_, ⟨g, o, ho, hrank, rfl⟩, rfl⟩

end

section
variable {inp : Fin n → ColorInput} (h : DistributedMesh inp) {m : Fin n → OwnerMap}
  (hm : Informed inp m) {pg : Fin n → List ℕ}
  (hpg : ∀ (p : Fin n) g, g ∈ pg p ↔ Receives inp p g)
  {out : Fin n → (IndexColoring × ColoringInfo) × ℕ}
  (hout : ∀ p : Fin n, ColoredBy p (inp p) (pg p) (m p) (out p).1)

include h hm hpg hout in
theorem disjoint_of_colored (p : Fin n) :
    (ids ((out p).1.1.exclusive ++ (out p).1.1.shared ++ (out p).1.1.ghost)).Nodup := by
  obtain ⟨hexcl, hshared, hghost⟩ := (hout p).sorted
  have hnodup : ∀ {l : List EntityInfo}, l.Pairwise (·.id < ·.id) → (ids l).Nodup := fun hl =>
    (List.pairwise_map.mpr hl).imp ne_of_lt
  have hclaims : ∀ g, g ∈ ids (out p).1.1.shared ∨ g ∈ ids (out p).1.1.ghost →
      ∀ l : ℕ, (inp p).local2global[l]? = some g → Claims (inp p) g l := by
    rintro g (hg | hg) l hl
    · obtain ⟨o, ho, hrank⟩ := (hout p).mem_ids_shared.mp hg
      obtain ⟨q, hq, hc, -⟩ := (hm.sound p g o ho).owner
      obtain rfl : p = q := Fin.ext (hrank.symm.trans hq)
      rwa [h.local_unique hl hc.1]
    · obtain ⟨o, -, -, hg⟩ := (hout p).mem_ids_ghost.mp hg
      exact h.claims_of_local ((hpg p g).mp hg) hl
  rw [ids, List.map_append, List.map_append, List.append_assoc]
  refine List.nodup_append.mpr ⟨hnodup hexcl, List.nodup_append.mpr ⟨hnodup hshared, hnodup hghost,
    ?_⟩, ?_⟩
  · rintro g hs _ hg rfl
    obtain ⟨o, ho, hrank⟩ := (hout p).mem_ids_shared.mp hs
    obtain ⟨o', ho', hrank', -⟩ := (hout p).mem_ids_ghost.mp hg
    cases ho.symm.trans ho'
    exact hrank' hrank
  · rintro g he _ hg rfl
    obtain ⟨l, hl, hc⟩ := (hout p).mem_ids_exclusive.mp he
    exact hc (hclaims g (List.mem_append.mp hg) l hl)

include h hm hpg hout in
theorem covered_of_colored (p : Fin n) (g : ℕ) :
    g ∈ ids ((out p).1.1.exclusive ++ (out p).1.1.shared ++ (out p).1.1.ghost) ↔
      HasEntity (inp p) g ∨ Receives inp p g := by
  rw [ids, List.map_append, List.map_append, List.mem_append, List.mem_append]
  change (g ∈ ids _ ∨ g ∈ ids _) ∨ g ∈ ids _ ↔ _
  rw [(hout p).mem_ids_exclusive, (hout p).mem_ids_shared, (hout p).mem_ids_ghost, hpg]
  constructor
  · rintro ((⟨l, hl, -⟩ | ⟨o, ho, hrank⟩) | ⟨o, -, -, hr⟩)
    · exact .inl (h.hasEntity_iff.mpr ⟨l, hl⟩)
    · obtain ⟨q, hq, hc, -⟩ := (hm.sound p g o ho).owner
      obtain rfl : p = q := Fin.ext (hrank.symm.trans hq)
      exact .inl (h.hasEntity_iff.mpr ⟨_, hc.1⟩)
    · exact .inr hr
  · rintro (hg | hr)
    · obtain ⟨l, hl⟩ := h.hasEntity_iff.mp hg
      by_cases hc : Claims (inp p) g l
      · obtain ⟨o, ho, hrank | ⟨hrank, hr⟩⟩ := hm.mem_of_claims h hc
        · exact .inl (.inr ⟨o, ho, hrank⟩)
        · exact .inr ⟨o, ho, hrank, hr⟩
      · exact .inl (.inl ⟨l, hl, hc⟩)
    · obtain ⟨o, ho⟩ := hm.ghost p g hr
      by_cases hrank : o.rank = p
      · exact .inl (.inr ⟨o, ho, hrank⟩)
      · exact .inr ⟨o, ho, hrank, hr⟩

include h hm hout in
theorem oneOwner_of_colored (g : ℕ) (hg : ∃ p, HasEntity (inp p) g) :
    ∃! p, g ∈ ids ((out p).1.1.exclusive ++ (out p).1.1.shared) := by
  have hmem : ∀ p : Fin n, g ∈ ids ((out p).1.1.exclusive ++ (out p).1.1.shared) ↔
      (∃ l : ℕ, (inp p).local2global[l]? = some g ∧ ¬ Claims (inp p) g l) ∨
        ∃ o : Owner, (m p)[g]? = some o ∧ o.rank = p := fun p => by
    rw [← (hout p).mem_ids_exclusive, ← (hout p).mem_ids_shared, ids, List.map_append,
      List.mem_append]
    rfl
  -- a rank on which the entity is exclusive is the only one that has it
  have halone : ∀ p q : Fin n, (∃ l : ℕ, (inp p).local2global[l]? = some g ∧
      ¬ Claims (inp p) g l) → HasEntity (inp q) g → p = q := by
    rintro p q ⟨l, hl, hc⟩ hq
    by_contra hpq
    exact hc (h.claims_of_two hpq hl hq).1
  have hhas : ∀ q : Fin n, g ∈ ids ((out q).1.1.exclusive ++ (out q).1.1.shared) →
      HasEntity (inp q) g := by
    intro q hq
    rcases (hmem q).mp hq with ⟨l, hl, -⟩ | ⟨o, ho, hrank⟩
    · exact h.hasEntity_iff.mpr ⟨l, hl⟩
    · obtain ⟨q', hq', hc, -⟩ := (hm.sound q g o ho).owner
      obtain rfl : q = q' := Fin.ext (hrank.symm.trans hq')
      exact h.hasEntity_iff.mpr ⟨_, hc.1⟩
  refine existsUnique_of_exists_of_unique ?_ fun p q hp hq => ?_
  · obtain ⟨p, hg⟩ := hg
    obtain ⟨l, hl⟩ := h.hasEntity_iff.mp hg
    by_cases hc : Claims (inp p) g l
    · obtain ⟨q, o, hrank, -, ho⟩ := hm.owner_of_claims hc
      exact ⟨q, (hmem q).mpr (.inr ⟨o, ho, hrank⟩)⟩
    · exact ⟨p, (hmem p).mpr (.inl ⟨l, hl, hc⟩)⟩
  · rcases (hmem p).mp hp with hp' | ⟨o, ho, hrank⟩
    · exact halone p q hp' (hhas q hq)
    · rcases (hmem q).mp hq with hq' | ⟨o', ho', hrank'⟩
      · exact (halone q p hq' (hhas p hp)).symm
      · obtain rfl := hm.unique p q g o o' ho ho'
        exact Fin.ext (hrank.symm.trans hrank')

section
variable (hn : n < 2 ^ 31)

include hn in
theorem toIndices_rank (hr : r < n) : toIndices r = r :=
  toIndices_of_lt (by omega)

include hm hout hn in
theorem own_of_colored (p : Fin n) : ∀ e ∈ (out p).1.1.exclusive ++ (out p).1.1.shared,
    e.rank = p ∧ ∃ l : ℕ, (inp p).local2global[l]? = some e.id ∧ e.offset = toIndices l := by
  intro e he
  rcases List.mem_append.mp he with he | he
  · obtain ⟨l, g, hl, -, rfl⟩ := ((hout p).exclusive e).mp he
    exact ⟨toIndices_rank hn p.isLt, l, hl, rfl⟩
  · obtain ⟨g, o, ho, hrank, rfl⟩ := ((hout p).shared e).mp he
    obtain ⟨q, hq, hc, -⟩ := (hm.sound p g o ho).owner
    obtain rfl : p = q := Fin.ext (hrank.symm.trans hq)
    refine ⟨?_, o.localId, hc.1, rfl⟩
    exact (toIndices_rank hn (hm.rank_lt ho)).trans hrank

include hm hout hn in
theorem ghosts_of_colored (p : Fin n) : ∀ e ∈ (out p).1.1.ghost, ∃ q : Fin n, e.rank = q ∧
    e.id ∈ ids (out q).1.1.shared ∧
    ∃ l : ℕ, (inp q).local2global[l]? = some e.id ∧ e.offset = toIndices l := by
  intro e he
  obtain ⟨g, o, ho, -, rfl⟩ := ((hout p).ghost e).mp he
  obtain ⟨q, hq, hc, -⟩ := (hm.sound p g o ho).owner
  obtain ⟨q', o', hrank, -, ho'⟩ := hm.owner_of_claims hc
  obtain rfl := hm.unique p q' g o o' ho ho'
  obtain rfl : q = q' := Fin.ext (hq.symm.trans hrank)
  refine ⟨q, ?_, (hout q).mem_ids_shared.mpr ⟨o, ho', hrank⟩, o.localId, hc.1, rfl⟩
  exact (toIndices_rank hn (hm.rank_lt ho)).trans hq

include h hm hn in
theorem mem_sharedEntity {p : Fin n} {g : ℕ} (ho : (m p)[g]? = some o) :
    r ∈ (sharedEntity (g, o)).shared ↔ r ∈ o.ghostRanks := by
  have hlt : ∀ r ∈ o.ghostRanks, r < n := fun r hr => by
    obtain ⟨q, c, hc, hrc, -⟩ := (((hm.sound p g o ho).ghosts r).mp hr).1
    exact (h.others q c hc r hrc).1
  simp only [sharedEntity, entityInfo, Finset.mem_image, List.mem_toFinset]
  constructor
  · rintro ⟨r', hr', rfl⟩
    rwa [toIndices_rank hn (hlt r' hr')]
  · exact fun hr => ⟨r, hr, toIndices_rank hn (hlt r hr)⟩

include h hm hpg hout hn in
theorem users_of_colored (hne : ∀ p, ∀ c ∈ (inp p).shared, c.shared.Nonempty) (p : Fin n) :
    ∀ e ∈ (out p).1.1.shared, e.shared.Nonempty ∧
      ∀ r, r ∈ e.shared ↔ ∃ q : Fin n, r = q ∧ e.id ∈ ids (out q).1.1.ghost := by
  intro e he
  obtain ⟨g, o, ho, hrank, rfl⟩ := ((hout p).shared e).mp he
  have hdec := hm.sound p g o ho
  constructor
  · obtain ⟨r, -, hr⟩ := hm.ghostRanks_ne_nil h hne ho hrank
    exact ⟨r, (mem_sharedEntity h hm hn ho).mpr hr⟩
  · intro r
    rw [mem_sharedEntity h hm hn ho, hdec.ghosts]
    constructor
    · rintro ⟨hr, hrne⟩
      obtain ⟨q, c, hc, hrc, -⟩ := id hr
      refine ⟨⟨r, (h.others q c hc r hrc).1⟩, rfl, (hout _).mem_ids_ghost.mpr ?_⟩
      obtain ⟨o', ho'⟩ := hm.ghost ⟨r, (h.others q c hc r hrc).1⟩ g hr
      obtain rfl := hm.unique _ _ g o o' ho ho'
      exact ⟨o, ho', Ne.symm hrne, (hpg _ g).mpr hr⟩
    · rintro ⟨q, rfl, hq⟩
      obtain ⟨o', ho', hrank', hg⟩ := (hout q).mem_ids_ghost.mp hq
      obtain rfl := hm.unique _ _ g o o' ho ho'
      exact ⟨(hpg q g).mp hg, Ne.symm hrank'⟩

end

end

-- ---------------------------------------------------------------------------
-- The whole coloring
-- ---------------------------------------------------------------------------

/-- All rounds succeed on every distributed mesh; what is left is to set the
lists of every rank. -/
theorem colorEntities_rounds {inp : Fin n → ColorInput} (h : DistributedMesh inp) :
    ∃ (m : Fin n → OwnerMap) (pg : Fin n → List ℕ) (counts : Fin n → ℕ), Informed inp m ∧
      (∀ (p : Fin n) g, g ∈ pg p ↔ Receives inp p g) ∧
      (∀ p, counts p = (inp p).cells2entity.indices.length + receivedCounts inp p) ∧
      ∀ out, colorEntities inp out = (allRanks fun p : Fin n =>
        setColoring p (inp p) (markShared (inp p)).1 (pg p) (m p) (out p)).map
          fun colored p => (colored p, counts p) := by
  obtain ⟨received, hreceived, hspec⟩ := receiveCells_eq h
  let totEnts := mpiAllreduceMax (fun p => (inp p).local2global.foldl max 0) + 1
  have hlt : ∀ p, ∀ g ∈ (inp p).local2global, g < totEnts := fun p g hg =>
    Nat.lt_succ_of_le ((le_foldl_max (.inr hg)).trans
      (le_mpiAllreduceMax (fun p => (inp p).local2global.foldl max 0) p))
  obtain ⟨total, hd, hlt⟩ : ∃ total, Distribution (subdivide totEnts n) n total ∧
      ∀ p, ∀ g ∈ (inp p).local2global, g < total := by
    cases n with
    | zero => exact ⟨0, ⟨rfl, rfl, by simp, rfl⟩, fun p => p.elim0⟩
    | succ n => exact ⟨_, subdivide_distribution _ n.succ_pos, hlt⟩
  let pg : Fin n → List ℕ := fun p => removeUnique (received p).potentialGhost
  have hpg : ∀ (p : Fin n) g, g ∈ pg p ↔ Receives inp p g := fun p g =>
    (mem_sortUnique _).trans ((hspec p).1 g)
  obtain ⟨m, hm, hinf⟩ := decideOwners_eq h hd hlt
    (show ∀ p, (pg p).Nodup from fun p => sortUnique_id_nodup) hpg
  refine ⟨m, pg, fun p => (received p).connectivityCounts, hinf, hpg, fun p => (hspec p).2,
    fun out => ?_⟩
  have hrun : colorEntities inp out = (decideOwners (subdivide totEnts n) inp
      (fun p => removeUnique (markShared (inp p)).2) pg).bind fun m => (allRanks fun p : Fin n =>
        setColoring p (inp p) (markShared (inp p)).1 (pg p) (m p) (out p)).bind fun colored =>
          some fun p => (colored p, (received p).connectivityCounts) := by
    rw [colorEntities, hreceived]
    rfl
  rw [hrun, hm, Option.bind_some]
  cases allRanks fun p : Fin n =>
    setColoring p (inp p) (markShared (inp p)).1 (pg p) (m p) (out p) <;> rfl

theorem colorEntities_eq {inp : Fin n → ColorInput} (h : DistributedMesh inp)
    (hne : ∀ p, ∀ c ∈ (inp p).shared, c.shared.Nonempty) :
    ∃ (m : Fin n → OwnerMap) (pg : Fin n → List ℕ) (out : _),
      Informed inp m ∧ (∀ (p : Fin n) g, g ∈ pg p ↔ Receives inp p g) ∧
      colorEntities inp (fun _ => (noColoring, noColoringInfo)) = some out ∧
      ∀ p : Fin n, ColoredBy p (inp p) (pg p) (m p) (out p).1 ∧
        (out p).2 = (inp p).cells2entity.indices.length + receivedCounts inp p := by
  obtain ⟨m, pg, counts, hm, hpg, hcounts, hrun⟩ := colorEntities_rounds h
  choose colored hcolored hlists using fun p : Fin n =>
    setColoring_eq p (h.distinct p) (pg p) (m := m p) fun g o ho hrank => by
      obtain ⟨r, -, hr⟩ := hm.ghostRanks_ne_nil h hne ho hrank
      exact List.ne_nil_of_mem hr
  refine ⟨m, pg, fun p => (colored p, counts p), hm, hpg, ?_, fun p => ⟨hlists p, hcounts p⟩⟩
  rw [hrun, allRanks_eq_some.mpr hcolored]
  rfl

theorem colorEntities_consistent {inp : Fin n → ColorInput} (hn : n < 2 ^ 31)
    (h : DistributedMesh inp) (hne : ∀ p, ∀ c ∈ (inp p).shared, c.shared.Nonempty) :
    ∃ out, colorEntities inp (fun _ => (noColoring, noColoringInfo)) = some out ∧
      ConsistentOwnership inp out := by
  obtain ⟨m, pg, out, hm, hpg, hout, hspec⟩ := colorEntities_eq h hne
  have hcol : ∀ p : Fin n, ColoredBy p (inp p) (pg p) (m p) (out p).1 := fun p => (hspec p).1
  refine ⟨out, hout, ⟨disjoint_of_colored h hm hpg hcol, covered_of_colored h hm hpg hcol,
    oneOwner_of_colored h hm hcol, own_of_colored hm hcol hn, ghosts_of_colored hm hcol hn,
    users_of_colored h hm hpg hcol hn hne, fun p => (hcol p).sorted, fun p r => ?_, fun p r => ?_,
    fun p => (hcol p).counts, fun p => (hspec p).2⟩⟩
  · rw [(hcol p).sharedUsers]
    constructor
    · rintro ⟨g, o, ho, hrank, hr⟩
      exact ⟨_, ((hcol p).shared _).mpr ⟨g, o, ho, hrank, rfl⟩, (mem_sharedEntity h hm hn ho).mpr hr⟩
    · rintro ⟨e, he, hr⟩
      obtain ⟨g, o, ho, hrank, rfl⟩ := ((hcol p).shared e).mp he
      exact ⟨g, o, ho, hrank, (mem_sharedEntity h hm hn ho).mp hr⟩
  · have hrank : ∀ {g : ℕ} {o : Owner}, (m p)[g]? = some o → (ghostEntity (g, o)).rank = o.rank :=
      fun ho => toIndices_rank hn (hm.rank_lt ho)
    rw [(hcol p).ghostOwners]
    constructor
    · rintro ⟨g, o, ho, hghost, rfl⟩
      exact ⟨_, ((hcol p).ghost _).mpr ⟨g, o, ho, hghost, rfl⟩, hrank ho⟩
    · rintro ⟨e, he, rfl⟩
      obtain ⟨g, o, ho, hghost, rfl⟩ := ((hcol p).ghost e).mp he
      exact ⟨g, o, ho, hghost, (hrank ho).symm⟩

/-- A line of four segments on two ranks, and its vertices as entities. -/
def fourSegments : Fin 2 → ColorInput
  | 0 => ⟨Crs.ofRows [[0, 1], [1, 2]], [0, 1, 2], [⟨1, 0, 1, {1}⟩]⟩
  | 1 => ⟨Crs.ofRows [[0, 1], [1, 2]], [2, 3, 4], [⟨2, 1, 0, {0}⟩]⟩

theorem colorEntities_fourSegments :
    ∃ out, colorEntities fourSegments (fun _ => (noColoring, noColoringInfo)) = some out ∧
      ConsistentOwnership fourSegments out :=
  colorEntities_consistent (by decide)
    ⟨by decide, by decide, by decide, by decide, by decide,
      Fin.forall_fin_two.mpr ⟨Fin.forall_fin_two.mpr ⟨by decide, by decide⟩,
        Fin.forall_fin_two.mpr ⟨by decide, by decide⟩⟩⟩ (by decide)

-- ---------------------------------------------------------------------------
-- Empty shared sets and wide local ids
-- ---------------------------------------------------------------------------

/-- The loop over the map fails at an owner without ghost ranks. -/
theorem foldlM_setSharedGhost_none (pg : List ℕ) {xs : List (ℕ × Owner)} {x : ℕ × Owner}
    (hx : x ∈ xs) (hrank : x.2.rank = p) (hnil : x.2.ghostRanks = [])
    (s : IndexColoring × ColoringInfo) : xs.foldlM (setSharedGhost p pg) s = none := by
  induction xs generalizing s with
  | nil => cases hx
  | cons y xs ih =>
    rw [List.foldlM_cons]
    rcases List.mem_cons.mp hx with rfl | hx
    · rw [setSharedGhost, if_pos hrank, if_pos hnil]
      rfl
    · cases setSharedGhost p pg s y with
      | none => rfl
      | some s' => exact ih hx s'

/-- A single cell that is listed as shared, but with nobody. -/
def loneCell : Fin 1 → ColorInput := fun _ => ⟨Crs.ofRows [[0]], [0], [⟨0, 0, 0, ∅⟩]⟩

/-- The first rank has `N + 1` entities, of which it shares the last one. -/
def wideMesh (N : ℕ) : Fin 2 → ColorInput
  | 0 => ⟨Crs.ofRows ([N] :: (List.range N).map fun k => [k]), List.range (N + 1),
      [⟨0, 0, 0, {1}⟩]⟩
  | 1 => ⟨Crs.ofRows [[0]], [N], [⟨N + 1, 1, 0, {0}⟩]⟩

theorem wideMesh_local (N : ℕ) : (wideMesh N 0).local2global[N]? = some N :=
  List.getElem?_range (Nat.lt_succ_self N)

theorem wideMesh_row (hk : k < N + 1) : (wideMesh N 0).cells2entity.row k =
    if k = 0 then [N] else [k - 1] := by
  have hlen : k < ([N] :: (List.range N).map fun k => [k]).length := by simpa using hk
  refine (Crs.row_ofRows hlen).trans ?_
  cases k with
  | zero => rfl
  | succ k => simp

theorem wideMesh_globalIds (hk : k < N + 1) :
    globalIds (wideMesh N 0) ((wideMesh N 0).cells2entity.row k) =
      if k = 0 then [N] else [k - 1] := by
  have hget : ∀ l < N + 1, (wideMesh N 0).local2global.getD l 0 = l := fun l hl => by
    rw [List.getD_eq_getElem _ _ (by simpa [wideMesh] using hl)]
    simp [wideMesh]
  rw [wideMesh_row hk, globalIds]
  split
  · rw [List.map_singleton, hget N (by omega)]
  · rw [List.map_singleton, hget (k - 1) (by omega)]

theorem wideMesh_row_one (hk : k < (wideMesh N 1).cells2entity.size) :
    (wideMesh N 1).cells2entity.row k = [0] ∧
      globalIds (wideMesh N 1) ((wideMesh N 1).cells2entity.row k) = [N] := by
  obtain rfl : k = 0 := Nat.lt_one_iff.mp hk
  exact ⟨rfl, rfl⟩

theorem wideMesh_distributed (N : ℕ) : DistributedMesh (wideMesh N) := by
  have hsize : (wideMesh N 0).cells2entity.size = N + 1 := by simp [wideMesh]
  have hlen : (wideMesh N 0).local2global.length = N + 1 := by simp [wideMesh]
  constructor
  · refine Fin.forall_fin_two.mpr ⟨fun k hk l hl => ?_, fun k hk l hl => ?_⟩
    · rw [hsize] at hk
      rw [wideMesh_row hk] at hl
      rw [hlen]
      split at hl <;> cases List.mem_singleton.mp hl <;> omega
    · rw [(wideMesh_row_one hk).1] at hl
      cases List.mem_singleton.mp hl
      exact Nat.one_pos
  · refine Fin.forall_fin_two.mpr ⟨fun l hl => ?_, fun l hl => ?_⟩
    · rw [hlen] at hl
      rw [hsize]
      obtain hl | rfl := Nat.lt_succ_iff_lt_or_eq.mp hl
      · exact ⟨l + 1, by omega, by rw [wideMesh_row (by omega)]; simp⟩
      · exact ⟨0, by omega, by rw [wideMesh_row (by omega)]; simp⟩
    · obtain rfl : l = 0 := Nat.lt_one_iff.mp hl
      exact ⟨0, Nat.one_pos, List.mem_singleton.mpr rfl⟩
  · exact Fin.forall_fin_two.mpr ⟨List.nodup_range, List.nodup_singleton _⟩
  · refine Fin.forall_fin_two.mpr ⟨fun c hc => ?_, fun c hc => ?_⟩
    · rw [hsize]
      cases List.mem_singleton.mp hc
      exact Nat.succ_pos _
    · cases List.mem_singleton.mp hc
      exact Nat.one_pos
  · refine Fin.forall_fin_two.mpr ⟨fun c hc r hr => ?_, fun c hc r hr => ?_⟩
    · cases List.mem_singleton.mp hc
      cases Finset.mem_singleton.mp hr
      decide
    · cases List.mem_singleton.mp hc
      cases Finset.mem_singleton.mp hr
      decide
  · -- only cell 0 of rank 0 and the cell of rank 1 have an entity in common
    have hzero : ∀ k < (wideMesh N 0).cells2entity.size,
        N ∈ globalIds (wideMesh N 0) ((wideMesh N 0).cells2entity.row k) → k = 0 := by
      intro k hk hg
      rw [hsize] at hk
      rw [wideMesh_globalIds hk] at hg
      split at hg
      · assumption
      · have := List.mem_singleton.mp hg
        omega
    refine Fin.forall_fin_two.mpr ⟨Fin.forall_fin_two.mpr ⟨fun hne => absurd rfl hne, ?_⟩,
      Fin.forall_fin_two.mpr ⟨?_, fun hne => absurd rfl hne⟩⟩
    · rintro - k hk j hj ⟨g, hgk, hgj⟩
      rw [(wideMesh_row_one hj).2] at hgj
      cases List.mem_singleton.mp hgj
      exact ⟨_, List.mem_singleton.mpr rfl, (hzero k hk hgk).symm, by decide⟩
    · rintro - k hk j hj -
      obtain rfl : k = 0 := Nat.lt_one_iff.mp hk
      exact ⟨_, List.mem_singleton.mpr rfl, rfl, Finset.mem_singleton.mpr rfl⟩

/-- A cell listed as shared with nobody fails the assertion on ghost ranks, and
a wide local id does not fit into a ghost entry. -/
theorem colorEntities_unshared_wide :
    (DistributedMesh loneCell ∧
      colorEntities loneCell (fun _ => (noColoring, noColoringInfo)) = none) ∧
    DistributedMesh (wideMesh (2 ^ 32)) ∧
      (wideMesh (2 ^ 32) 0).local2global[2 ^ 32]? = some (2 ^ 32) ∧
      ∃ out, colorEntities (wideMesh (2 ^ 32)) (fun _ => (noColoring, noColoringInfo)) = some out ∧
        ∃ e ∈ (out 1).1.1.ghost, e.id = 2 ^ 32 ∧ e.rank = 0 ∧ e.offset ≠ 2 ^ 32 := by
  have hlone : DistributedMesh loneCell :=
    ⟨by decide, by decide, by decide, by decide, by decide, fun p q hpq =>
      absurd (Subsingleton.elim p q) hpq⟩
  have hwide := wideMesh_distributed (2 ^ 32)
  have hlocal : (wideMesh (2 ^ 32) 0).local2global[2 ^ 32]? = some (2 ^ 32) :=
    wideMesh_local (2 ^ 32)
  refine ⟨⟨hlone, ?_⟩, hwide, hlocal, ?_⟩
  · obtain ⟨m, pg, counts, hm, -, -, hrun⟩ := colorEntities_rounds hlone
    have hclaim : Claims (loneCell 0) 0 0 := ⟨rfl, _, List.mem_singleton.mpr rfl, by decide⟩
    obtain ⟨q, o, hrank, hdec, ho⟩ := hm.owner_of_claims hclaim
    have hnil : o.ghostRanks = [] := by
      refine List.eq_nil_iff_forall_not_mem.mpr fun r hr => ?_
      obtain ⟨p, c, hc, hrc, -⟩ := ((hdec.ghosts r).mp hr).1
      cases List.mem_singleton.mp hc
      exact Finset.notMem_empty r hrc
    have hfail : setColoring q (loneCell q) (markShared (loneCell q)).1 (pg q) (m q)
        (noColoring, noColoringInfo) = none := by
      rw [setColoring, foldlM_setSharedGhost_none (pg q)
        (TreeMap.mem_toList_iff_getElem?_eq_some.mpr ho) hrank hnil]
      rfl
    rw [hrun]
    cases hall : allRanks fun p : Fin 1 => setColoring p (loneCell p) (markShared (loneCell p)).1
      (pg p) (m p) (noColoring, noColoringInfo) with
    | none => rfl
    | some colored =>
      rw [allRanks_eq_some] at hall
      cases hfail.symm.trans (hall q)
  · have hne : ∀ p, ∀ c ∈ (wideMesh (2 ^ 32) p).shared, c.shared.Nonempty :=
      Fin.forall_fin_two.mpr ⟨fun c hc => List.mem_singleton.mp hc ▸ Finset.singleton_nonempty 1,
        fun c hc => List.mem_singleton.mp hc ▸ Finset.singleton_nonempty 0⟩
    obtain ⟨m, pg, out, hm, hpg, hout, hspec⟩ := colorEntities_eq hwide hne
    -- rank 0 sends its shared entity to rank 1, and owns it
    have hrecv : Receives (wideMesh (2 ^ 32)) 1 (2 ^ 32) := by
      refine ⟨0, _, List.mem_singleton.mpr rfl, Finset.mem_singleton.mpr rfl, ?_⟩
      rw [wideMesh_globalIds (Nat.succ_pos _), if_pos rfl]
      exact List.mem_singleton.mpr rfl
    have hclaim : Claims (wideMesh (2 ^ 32) 0) (2 ^ 32) (2 ^ 32) := by
      refine ⟨hlocal, _, List.mem_singleton.mpr rfl, ?_⟩
      rw [wideMesh_row (Nat.succ_pos _), if_pos rfl]
      exact List.mem_singleton.mpr rfl
    obtain ⟨o, ho⟩ := hm.ghost 1 (2 ^ 32) hrecv
    obtain ⟨q, hq, hc, hleast⟩ := (hm.sound 1 (2 ^ 32) o ho).owner
    obtain rfl : q = 0 := Fin.le_zero_iff.mp (hleast 0 _ hclaim)
    have hwideId : o.localId = 2 ^ 32 := hwide.local_unique hc.1 hlocal
    refine ⟨out, hout, ghostEntity (2 ^ 32, o), ((hspec 1).1.ghost _).mpr ⟨2 ^ 32, o, ho, ⟨?_, ?_⟩,
      rfl⟩, rfl, ?_, ?_⟩
    · rw [hq]
      decide
    · exact (hpg 1 _).mpr hrecv
    · simp only [ghostEntity, entityInfo, hq]
      rfl
    · simp only [ghostEntity, entityInfo, hwideId]
      decide

end Flecsi.Coloring
