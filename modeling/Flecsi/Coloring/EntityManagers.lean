import Flecsi.Coloring.SharedEntities
import Flecsi.Lib.Numbering

/-!
# Managers of shared entities

The manager of an entity sees all ranks that claim it and all ranks that
receive it, so its decision does not depend on the order of the messages: the
owner is the lowest rank that claims the entity, and the ghost ranks are the
other ranks that receive it (`Decided`). After the last round the map of a rank
holds what it manages itself, what it owns and what it is a ghost of
(`Informed`).
-/

namespace Flecsi.Coloring

open PackedBuffer SortUnique Numbering
open Std (TreeMap)

-- ---------------------------------------------------------------------------
-- Claims: the lowest rank wins
-- ---------------------------------------------------------------------------

/-- The map after the claims `(rank, global id, local id)` of `L`. -/
structure Claimed (L : List (ℕ × ℕ × ℕ)) (m : OwnerMap) : Prop where
  sound : ∀ (g : ℕ) o, m[g]? = some o → (o.rank, g, o.localId) ∈ L ∧ o.ghostRanks = []
  least : ∀ (g : ℕ) o, m[g]? = some o → ∀ r l, (r, g, l) ∈ L → o.rank ≤ r
  complete : ∀ r g l, (r, g, l) ∈ L → ∃ o, m[g]? = some o

section
variable {L : List (ℕ × ℕ × ℕ)} {m m' : OwnerMap} {r g l : ℕ}

theorem claimed_empty : Claimed [] ∅ := by
  constructor <;> simp

/-- A claim that beats the claims so far, if there are any. -/
theorem Claimed.replace (h : Claimed L m) (hlow : ∀ r' l', (r', g, l') ∈ L → r ≤ r')
    (hm : ∀ g' : ℕ, m'[g']? = if g' = g then some ⟨r, l, []⟩ else m[g']?) :
    Claimed (L ++ [(r, g, l)]) m' := by
  constructor
  · intro g' o ho
    rw [hm] at ho
    split at ho
    · rename_i hg
      cases ho
      exact ⟨by simp [hg], rfl⟩
    · obtain ⟨hmem, hghosts⟩ := h.sound g' o ho
      exact ⟨List.mem_append_left _ hmem, hghosts⟩
  · intro g' o ho r' l' hmem
    rw [hm] at ho
    rcases List.mem_append.mp hmem with hmem | hmem
    · split at ho
      · rename_i hg
        cases ho
        exact hlow r' l' (hg ▸ hmem)
      · exact h.least g' o ho r' l' hmem
    · cases List.mem_singleton.mp hmem
      rw [if_pos rfl] at ho
      cases ho
      exact le_rfl
  · intro r' g' l' hmem
    rw [hm]
    split
    · exact ⟨_, rfl⟩
    · rename_i hg
      rcases List.mem_append.mp hmem with hmem | hmem
      · exact h.complete r' g' l' hmem
      · cases List.mem_singleton.mp hmem
        exact absurd rfl hg

/-- A claim that does not beat the owner so far. -/
theorem Claimed.keep (h : Claimed L m) (ho : m[g]? = some o) (hr : o.rank ≤ r)
    (hm : ∀ g' : ℕ, m'[g']? = m[g']?) : Claimed (L ++ [(r, g, l)]) m' := by
  constructor
  · intro g' o' ho'
    obtain ⟨hmem, hghosts⟩ := h.sound g' o' (hm g' ▸ ho')
    exact ⟨List.mem_append_left _ hmem, hghosts⟩
  · intro g' o' ho' r' l' hmem
    rw [hm] at ho'
    rcases List.mem_append.mp hmem with hmem | hmem
    · exact h.least g' o' ho' r' l' hmem
    · cases List.mem_singleton.mp hmem
      cases ho.symm.trans ho'
      exact hr
  · intro r' g' l' hmem
    rw [hm]
    rcases List.mem_append.mp hmem with hmem | hmem
    · exact h.complete r' g' l' hmem
    · cases List.mem_singleton.mp hmem
      exact ⟨o, ho⟩

theorem getElem?_insert (m : OwnerMap) (g g' : ℕ) (o : Owner) :
    (m.insert g o)[g']? = if g' = g then some o else m[g']? := by
  rw [TreeMap.getElem?_insert]
  simp only [Std.compare_eq_iff_eq, eq_comm (a := g)]

theorem Claimed.addShared (h : Claimed L m) (r g l : ℕ) :
    Claimed (L ++ [(r, g, l)]) (addShared r m (g, l)) := by
  rw [Coloring.addShared]
  cases ho : m[g]? with
  | none =>
    refine h.replace (fun r' l' hmem => ?_) (getElem?_insert m g · _)
    obtain ⟨o, ho'⟩ := h.complete r' g l' hmem
    cases ho.symm.trans ho'
  | some o =>
    simp only
    split
    · rename_i hlt
      refine h.replace (fun r' l' hmem => ?_) (getElem?_insert m g · _)
      exact hlt.le.trans (h.least g o ho r' l' hmem)
    · rename_i hlt
      exact h.keep ho (not_lt.mp hlt) fun _ => rfl

/-- The claims of the manager itself come first, so the first of them stays. -/
theorem Claimed.emplace (h : Claimed L m) (hL : ∀ x ∈ L, x.1 = r) :
    Claimed (L ++ [(r, g, l)]) (m.insertIfNew g ⟨r, l, []⟩) := by
  cases ho : m[g]? with
  | none =>
    have hg : g ∉ m := fun hmem => by
      rw [TreeMap.mem_iff_isSome_getElem?, ho] at hmem
      cases hmem
    refine h.replace (fun r' l' hmem => (hL _ hmem).ge) fun g' => ?_
    rw [getElem?_emplace]
    simp only [hg, not_false_eq_true, and_true]
  | some o =>
    refine h.keep ho (hL _ (h.sound g o ho).1).le fun g' => ?_
    rw [getElem?_emplace, if_neg fun hg => hg.2 (mem_of_getElem?_eq_some ho)]

end

theorem addOwnShared_claimed (p : ℕ) (items : List (ℕ × ℕ × ℕ)) :
    Claimed ((itemsFor p items).map fun x => (p, x)) (addOwnShared p items) := by
  have hfold : addOwnShared p items =
      (itemsFor p items).foldl (fun m x => m.insertIfNew x.1 ⟨p, x.2, []⟩) ∅ := by
    rw [addOwnShared, itemsFor, List.foldl_map, List.foldl_filter]
    congr 1
    funext m it
    by_cases h : it.1 = p
    · simp [h]
    · simp [h]
  rw [hfold]
  have run : ∀ (xs : List (ℕ × ℕ)) L m, Claimed L m → (∀ x ∈ L, x.1 = p) →
      Claimed (L ++ xs.map fun x => (p, x))
        (xs.foldl (fun m x => m.insertIfNew x.1 ⟨p, x.2, []⟩) m) := by
    intro xs
    induction xs with
    | nil => exact fun L m h _ => by simpa using h
    | cons x xs ih =>
      intro L m h hL
      have := ih _ _ (h.emplace (g := x.1) (l := x.2) hL) fun y hy => by
        rcases List.mem_append.mp hy with hy | hy
        · exact hL y hy
        · cases List.mem_singleton.mp hy
          rfl
      simpa using this
  simpa using run (itemsFor p items) [] ∅ claimed_empty (by simp)

/-- The second round: claims. -/
theorem managers_claimed (items : Fin n → List (ℕ × ℕ × ℕ))
    (hlt : ∀ p, ∀ it ∈ items p, it.1 < n) :
    ∃ recv m, exchange (fun p : Fin n => packMessages n
        (((items p).filter (·.1 ≠ (p : ℕ))).map fun it => (it.1, 2))
        (((items p).filter (·.1 ≠ (p : ℕ))).map fun it => (it.1, sharedRecord it.2))) = some recv ∧
      allRanks (fun p : Fin n => readSegments n (readShared (recv p).buf) (recv p).displs
        (addOwnShared p (items p))) = some m ∧
      ∀ p, Claimed (handled items p) (m p) := by
  refine exchange_run _ sharedRecord (fun _ => 2) readShared
    (fun p recs m => Claimed ((itemsFor p (items p)).map (fun x => ((p : ℕ), x)) ++ recs) m)
    (fun p => addOwnShared p (items p)) (fun _ => rfl) (fun _ => List.cons_ne_nil _ _)
    (fun p it hit => hlt p it (List.mem_filter.mp hit).1)
    (fun p => by simpa using addOwnShared_claimed p (items p))
    fun p buf l r x stop _ i m hm hbuf _ => ?_
  obtain ⟨hg, hbuf⟩ := drop_prefix_cons hbuf
  obtain ⟨hl, -⟩ := drop_prefix_cons hbuf
  refine ⟨addShared r m x, ?_, ?_⟩
  · rw [readShared, hg, Option.bind_eq_bind, Option.bind_some, hl]
    rfl
  · change Claimed (_ ++ (l ++ [((r : ℕ), x)])) _
    rw [← List.append_assoc]
    exact hm.addShared r x.1 x.2

-- ---------------------------------------------------------------------------
-- Requests: every rank that is not the owner becomes a ghost rank
-- ---------------------------------------------------------------------------

/-- The ranks of `Q` that ask for `g`. -/
def requesters (Q : List (ℕ × ℕ)) (g : ℕ) : List ℕ := (Q.filter (·.2 = g)).map (·.1)

/-- The map after the requests `(rank, global id)` of `Q`. -/
def Requested (m₀ : OwnerMap) (Q : List (ℕ × ℕ)) (m : OwnerMap) : Prop :=
  ∀ g : ℕ, m[g]? = m₀[g]?.map fun o =>
    { o with ghostRanks := o.ghostRanks ++ (requesters Q g).filter (· ≠ o.rank) }

theorem requesters_append (Q : List (ℕ × ℕ)) (r g g' : ℕ) :
    requesters (Q ++ [(r, g)]) g' = requesters Q g' ++ if g' = g then [r] else [] := by
  rw [requesters, List.filter_append, List.map_append, ← requesters]
  by_cases hg : g = g'
  · simp [hg]
  · simp [hg, Ne.symm hg]

theorem requested_nil (m : OwnerMap) : Requested m [] m := by
  intro g
  cases hm : m[g]? with
  | none => rfl
  | some o => simp [requesters]

theorem Requested.addGhost {m₀ m : OwnerMap} (h : Requested m₀ Q m) (r : ℕ) {g : ℕ} (hg : g ∈ m₀) :
    ∃ m', addGhost r m g = some m' ∧ Requested m₀ (Q ++ [(r, g)]) m' := by
  obtain ⟨o₀, ho₀⟩ := Option.isSome_iff_exists.mp (TreeMap.mem_iff_isSome_getElem?.mp hg)
  have ho := h g
  rw [ho₀, Option.map_some] at ho
  -- entries of other ids stay, and the entry of `g` gets the rank unless it is the owner
  have hother : ∀ g' ≠ g, m[g']? = m₀[g']?.map fun o =>
      { o with ghostRanks := o.ghostRanks ++ (requesters (Q ++ [(r, g)]) g').filter (· ≠ o.rank) } :=
    fun g' hne => by rw [h g', requesters_append, if_neg hne, List.append_nil]
  rw [Coloring.addGhost, ho, Option.bind_eq_bind, Option.bind_some]
  refine ⟨_, rfl, fun g' => ?_⟩
  by_cases hr : o₀.rank = r
  · rw [if_neg (not_not.mpr hr)]
    cases eq_or_ne g' g with
    | inl hg' =>
      rw [hg', ho, ho₀, Option.map_some, requesters_append, if_pos rfl, List.filter_append]
      simp [hr]
    | inr hg' => exact hother g' hg'
  · rw [if_pos hr, getElem?_insert]
    cases eq_or_ne g' g with
    | inl hg' =>
      rw [if_pos hg', hg', ho₀, Option.map_some, requesters_append, if_pos rfl, List.filter_append]
      simp [Ne.symm hr]
    | inr hg' =>
      rw [if_neg hg']
      exact hother g' hg'

theorem addOwnGhosts_requested (p : ℕ) (items : List (ℕ × ℕ)) {m : OwnerMap}
    (hin : ∀ g ∈ itemsFor p items, g ∈ m) :
    ∃ m', addOwnGhosts p items m = some m' ∧
      Requested m ((itemsFor p items).map fun g => (p, g)) m' := by
  have run : ∀ (its : List (ℕ × ℕ)) Q m', (∀ g ∈ itemsFor p its, g ∈ m) → Requested m Q m' →
      ∃ m'', addOwnGhosts p its m' = some m'' ∧
        Requested m (Q ++ (itemsFor p its).map fun g => (p, g)) m'' := by
    intro its
    induction its with
    | nil => exact fun Q m' _ h => ⟨m', rfl, by simpa [itemsFor] using h⟩
    | cons it its ih =>
      intro Q m' hits h
      rw [← List.singleton_append, itemsFor_append] at hits
      rw [← List.singleton_append, itemsFor_append, List.singleton_append, addOwnGhosts,
        List.foldlM_cons]
      by_cases hp : it.1 = p
      · have hone : itemsFor p [it] = [it.2] := by simp [itemsFor, hp]
        rw [hone] at hits ⊢
        obtain ⟨m₁, hm₁, h₁⟩ := h.addGhost p (hits it.2 (by simp))
        obtain ⟨m'', hm'', h''⟩ := ih _ m₁ (fun g hg => hits g (by simp [hg])) h₁
        refine ⟨m'', ?_, by simpa using h''⟩
        rw [if_neg (not_not.mpr hp), hp, hm₁]
        exact hm''
      · have hone : itemsFor p [it] = [] := by simp [itemsFor, hp]
        rw [hone] at hits ⊢
        rw [if_pos hp]
        exact ih Q m' hits h
  simpa using run items [] m hin (requested_nil m)

/-- The third round: requests. -/
theorem managers_requested {ghosts : Fin n → List (ℕ × ℕ)} {m : Fin n → OwnerMap}
    (hlt : ∀ p, ∀ it ∈ ghosts p, it.1 < n) (hin : ∀ p : Fin n, ∀ x ∈ handled ghosts p, x.2 ∈ m p) :
    ∃ m₁ recv m₂, allRanks (fun p : Fin n => addOwnGhosts p (ghosts p) (m p)) = some m₁ ∧
      exchange (fun p : Fin n => packMessages n
        (((ghosts p).filter (·.1 ≠ (p : ℕ))).map fun it => (it.1, 1))
        (((ghosts p).filter (·.1 ≠ (p : ℕ))).map fun it => (it.1, [it.2]))) = some recv ∧
      allRanks (fun p => readSegments n (readGhost (recv p).buf) (recv p).displs (m₁ p)) = some m₂ ∧
      ∀ p, Requested (m p) (handled ghosts p) (m₂ p) := by
  choose m₁ hm₁ hown using fun p : Fin n => addOwnGhosts_requested p (ghosts p)
    fun g hg => hin p (p, g) (List.mem_append_left _ (List.mem_map.mpr ⟨g, hg, rfl⟩))
  obtain ⟨recv, m₂, hrecv, hm₂, h₂⟩ := exchange_run _ (fun g => [g]) (fun _ => 1) readGhost
    (fun p recs m' => Requested (m p)
      ((itemsFor p (ghosts p)).map (fun x => ((p : ℕ), x)) ++ recs) m')
    m₁ (fun _ => rfl) (fun _ => List.cons_ne_nil _ _)
    (fun p it hit => hlt p it (List.mem_filter.mp hit).1)
    (fun p => by simpa using hown p)
    fun p buf l r g stop hpre i m' hm' hbuf _ => by
      obtain ⟨hg, -⟩ := drop_prefix_cons hbuf
      obtain ⟨m'', hm'', h''⟩ := Requested.addGhost hm' r
        (hin p (r, g) (List.mem_append_right _ (hpre.subset (by simp))))
      refine ⟨m'', ?_, by simpa using h''⟩
      rw [readGhost, hg, Option.bind_eq_bind, Option.bind_some, hm'']
      rfl
  exact ⟨m₁, recv, m₂, allRanks_eq_some.mpr hm₁, hrecv, hm₂, h₂⟩

-- ---------------------------------------------------------------------------
-- Answers
-- ---------------------------------------------------------------------------

theorem toList_nodup (m : OwnerMap) : m.toList.Nodup := by
  refine (TreeMap.distinct_keys_toList (t := m)).imp fun {a b} hne hab => hne ?_
  rw [hab, Std.compare_eq_iff_eq]

theorem mem_itemsFor_sendOwners {m : OwnerMap} {q p : Fin n}
    (hn : ∀ (g : ℕ) o, m[g]? = some o → (o.ghostRanks ++ [o.rank]).Nodup) :
    (itemsFor p (sendOwners q m)).Nodup ∧ ∀ (g : ℕ) o, (g, o) ∈ itemsFor p (sendOwners q m) ↔
      m[g]? = some o ∧ (p : ℕ) ∈ o.ghostRanks ++ [o.rank] ∧ p ≠ q := by
  have hsend : itemsFor p (sendOwners q m) = m.toList.filter fun pair =>
      (p : ℕ) ∈ (pair.2.ghostRanks ++ [pair.2.rank]).filter (· ≠ (q : ℕ)) := by
    refine (itemsFor_flatMap (fun pair hpair => ?_) p fun pair => pair).trans (List.map_id' _)
    exact (hn _ _ (TreeMap.mem_toList_iff_getElem?_eq_some.mp hpair)).filter _
  rw [hsend]
  refine ⟨(toList_nodup m).filter _, fun g o => ?_⟩
  rw [List.mem_filter, TreeMap.mem_toList_iff_getElem?_eq_some, decide_eq_true_eq, List.mem_filter,
    decide_eq_true_eq, ne_eq, Fin.val_inj]

/-- The last round: answers. No id is sent to a rank twice, since it has one
manager, whose answer goes once to every rank. -/
theorem owners_sent {m : Fin n → OwnerMap}
    (hm : ∀ (p : Fin n) (g : ℕ) o, (m p)[g]? = some o → rankOwner d g = some (p : ℕ))
    (hn : ∀ (p : Fin n) (g : ℕ) o, (m p)[g]? = some o → (o.ghostRanks ++ [o.rank]).Nodup)
    (hlt : ∀ (p : Fin n) (g : ℕ) o, (m p)[g]? = some o → ∀ r ∈ o.ghostRanks ++ [o.rank], r < n) :
    ∃ recv m', exchange (fun p : Fin n => packMessages n
        ((sendOwners p (m p)).map fun it => (it.1, 4 + it.2.2.ghostRanks.length))
        ((sendOwners p (m p)).map fun it => (it.1, ownerRecord it.2))) = some recv ∧
      allRanks (fun p => readSegments n (readOwner (recv p).buf) (recv p).displs (m p)) = some m' ∧
      ∀ (p : Fin n) (g : ℕ) o, (m' p)[g]? = some o ↔ (m p)[g]? = some o ∨
        ∃ q : Fin n, (m q)[g]? = some o ∧ (p : ℕ) ∈ o.ghostRanks ++ [o.rank] := by
  let recs : Fin n → Fin n → List (ℕ × Owner) := fun p r => itemsFor p (sendOwners r (m r))
  have hrecs : ∀ (p r : Fin n) (g : ℕ) o, (g, o) ∈ recs p r ↔
      (m r)[g]? = some o ∧ (p : ℕ) ∈ o.ghostRanks ++ [o.rank] ∧ p ≠ r := fun p r =>
    (mem_itemsFor_sendOwners (hn r)).2
  have hnodup : ∀ p, (allRecords (recs p)).Nodup := fun p =>
    allRecords_nodup fun r => (mem_itemsFor_sendOwners (hn r)).1
  obtain ⟨recv, m', hrecv, hm', h'⟩ := exchange_run (fun p => sendOwners p (m p))
    ownerRecord (fun pair => 4 + pair.2.ghostRanks.length) readOwner
    (fun p l m' => ∀ (g : ℕ) o, m'[g]? = some o ↔ (m p)[g]? = some o ∨ ∃ r, (r, g, o) ∈ l)
    m (fun pair => by simp [ownerRecord]; omega) (fun _ => List.cons_ne_nil _ _)
    (fun p it hit => by
      obtain ⟨pair, hpair, hit⟩ := List.mem_flatMap.mp hit
      obtain ⟨r, hr, rfl⟩ := List.mem_map.mp hit
      exact hlt p _ _ (TreeMap.mem_toList_iff_getElem?_eq_some.mp hpair) r (List.mem_filter.mp hr).1)
    (fun p g o => by simp)
    fun p buf l r pair stop hpre i s hs hbuf _ => by
      obtain ⟨g, o⟩ := pair
      obtain ⟨hid, hbuf⟩ := drop_prefix_cons hbuf
      obtain ⟨hrank, hbuf⟩ := drop_prefix_cons hbuf
      obtain ⟨hlocal, hbuf⟩ := drop_prefix_cons hbuf
      obtain ⟨hnum, hbuf⟩ := drop_prefix_cons hbuf
      obtain ⟨hown, hdest, hpr⟩ := (hrecs p r g o).mp
        (mk_mem_allRecords.mp (hpre.subset (List.mem_append_right _ (.head _))))
      -- a second answer would come from the same manager
      have hnew : g ∉ s := fun hmem => by
        obtain ⟨o', ho'⟩ := Option.isSome_iff_exists.mp (TreeMap.mem_iff_isSome_getElem?.mp hmem)
        rcases (hs g o').mp ho' with ho' | ⟨r', hr'⟩
        · have := (hm p g o' ho').symm.trans (hm r g o hown)
          exact hpr (Fin.ext (Option.some.inj this))
        · obtain ⟨q, rfl, hq⟩ := mem_allRecords.mp (hpre.subset (List.mem_append_left _ hr'))
          obtain ⟨hown', -, -⟩ := (hrecs p q g o').mp hq
          obtain rfl := Fin.ext (Option.some.inj ((hm q g o' hown').symm.trans (hm r g o hown)))
          cases hown'.symm.trans hown
          have := List.nodup_append.mp ((hnodup p).sublist hpre.sublist)
          exact this.2.2 _ hr' _ (.head _) rfl
      refine ⟨s.insert g o, ?_, fun g' o' => ?_⟩
      · rw [readOwner, hid]
        simp only [Option.bind_eq_bind, Option.bind_some, hrank, hlocal, hnum, span_eq hbuf, hnew,
          if_false]
        rfl
      · rw [getElem?_insert]
        split
        · rename_i hg
          subst hg
          rw [Option.some_inj]
          constructor
          · rintro rfl
            exact .inr ⟨r, by simp⟩
          · rintro (ho' | ⟨r', hr'⟩)
            · exact absurd (mem_of_getElem?_eq_some ((hs g' o').mpr (.inl ho'))) hnew
            · rcases List.mem_append.mp hr' with hr' | hr'
              · exact absurd (mem_of_getElem?_eq_some ((hs g' o').mpr (.inr ⟨r', hr'⟩))) hnew
              · cases List.mem_singleton.mp hr'
                rfl
        · rename_i hg
          rw [hs]
          simp [hg]
  refine ⟨recv, m', hrecv, hm', fun p g o => (h' p g o).trans (or_congr_right' fun hp => ?_)⟩
  constructor
  · rintro ⟨r, hr⟩
    obtain ⟨q, -, hq⟩ := mem_allRecords.mp hr
    obtain ⟨hown, hdest, -⟩ := (hrecs p q g o).mp hq
    exact ⟨q, hown, hdest⟩
  · rintro ⟨q, hown, hdest⟩
    refine ⟨q, mk_mem_allRecords.mpr ((hrecs p q g o).mpr ⟨hown, hdest, ?_⟩)⟩
    rintro rfl
    exact hp hown

-- ---------------------------------------------------------------------------
-- The three rounds
-- ---------------------------------------------------------------------------

/-- The decision about an entity: its owner and its ghost ranks. -/
structure Decided (inp : Fin n → ColorInput) (g : ℕ) (o : Owner) : Prop where
  owner : ∃ p : Fin n, o.rank = p ∧ Claims (inp p) g o.localId ∧
    ∀ q l, Claims (inp q) g l → p ≤ q
  ghosts : ∀ r, r ∈ o.ghostRanks ↔ Receives inp r g ∧ r ≠ o.rank
  nodup : o.ghostRanks.Nodup

/-- What the maps of all ranks hold: decisions only, and every decision that a
rank takes part in as owner or ghost. -/
structure Informed (inp : Fin n → ColorInput) (m : Fin n → OwnerMap) : Prop where
  sound : ∀ p (g : ℕ) o, (m p)[g]? = some o → Decided inp g o
  unique : ∀ p q (g : ℕ) o o', (m p)[g]? = some o → (m q)[g]? = some o' → o = o'
  ghost : ∀ (p : Fin n) g, Receives inp p g → ∃ o, (m p)[g]? = some o
  owner : ∀ (p : Fin n) g l, Claims (inp p) g l → ∃ o : Owner, Decided inp g o ∧
    ∀ q : Fin n, o.rank = q → (m q)[g]? = some o

section
variable {inp : Fin n → ColorInput} (h : DistributedMesh inp) (hd : Distribution d n total)
  (hlt : ∀ p, ∀ g ∈ (inp p).local2global, g < total)

include h hd hlt in
theorem managedShared_eq (p : Fin n) :
    ∃ items, managedShared d (inp p) (removeUnique (markShared (inp p)).2) = some items ∧
      ∀ r g l, (r, g, l) ∈ items ↔ Claims (inp p) g l ∧ rankOwner d g = some r := by
  obtain ⟨items, hitems, hmem⟩ := mem_mapM (l := removeUnique (markShared (inp p)).2)
    (f := fun localId => do
      let globalId ← (inp p).local2global[localId]?
      let rank ← rankOwner d globalId
      some (rank, globalId, localId)) fun l hl => by
    obtain ⟨c, hc, hrow⟩ := mem_potentialShared.mp hl
    have hlen := h.localIds p _ (h.primary p c hc) l hrow
    obtain ⟨r, -, hr⟩ := exists_rankOwner hd (hlt p _ (List.getElem_mem hlen))
    rw [List.getElem?_eq_getElem hlen, Option.bind_eq_bind, Option.bind_some, hr]
    exact ⟨_, rfl⟩
  refine ⟨items, hitems, fun r g l => (hmem _).trans ?_⟩
  simp only [Option.bind_eq_bind, Option.bind_eq_some_iff, Option.some_inj, Prod.mk.injEq, Claims,
    mem_potentialShared]
  constructor
  · rintro ⟨l, hc, g, hg, r, hr, rfl, rfl, rfl⟩
    exact ⟨⟨hg, hc⟩, hr⟩
  · rintro ⟨⟨hg, hc⟩, hr⟩
    exact ⟨l, hc, g, hg, r, hr, rfl, rfl, rfl⟩

include h hlt in
theorem DistributedMesh.lt_of_receives (hr : Receives inp r g) : g < total := by
  obtain ⟨p, l, hl, -⟩ := h.claims_of_receives hr
  exact hlt p g (List.mem_of_getElem? hl)

include h hd hlt in
theorem managedGhosts_eq {ghost : List ℕ} (hn : ghost.Nodup)
    (hg : ∀ g, g ∈ ghost ↔ Receives inp p g) :
    ∃ ghosts, managedGhosts d ghost = some ghosts ∧ ghosts.Nodup ∧
      ∀ r g, (r, g) ∈ ghosts ↔ Receives inp p g ∧ rankOwner d g = some r := by
  have hown : ∀ g, Receives inp p g → rankOwner d g = some (ownerOf d g) := fun g hr =>
    rankOwner_ownerOf hd (h.lt_of_receives hlt hr)
  refine ⟨ghost.map fun g => (ownerOf d g, g), mapM_some fun g hmem => ?_,
    hn.map fun _ _ hab => (Prod.mk.inj hab).2, fun r g => ?_⟩
  · rw [hown g ((hg g).mp hmem)]
    rfl
  · simp only [List.mem_map, Prod.mk.injEq, hg]
    constructor
    · rintro ⟨g, hr, rfl, rfl⟩
      exact ⟨hr, hown g hr⟩
    · rintro ⟨hr, ho⟩
      exact ⟨g, hr, Option.some.inj ((hown g hr).symm.trans ho), rfl⟩

end

section
variable {inp : Fin n → ColorInput} (h : DistributedMesh inp) {d : List ℕ}
  {items : Fin n → List (ℕ × ℕ × ℕ)} {ghosts : Fin n → List (ℕ × ℕ)} {m m' : Fin n → OwnerMap}
  (hitems : ∀ p r g l, (r, g, l) ∈ items p ↔ Claims (inp p) g l ∧ rankOwner d g = some r)
  (hghosts : ∀ (p : Fin n) r g, (r, g) ∈ ghosts p ↔ Receives inp p g ∧ rankOwner d g = some r)
  (hclaimed : ∀ p, Claimed (handled items p) (m p))
  (hrequested : ∀ p, Requested (m p) (handled ghosts p) (m' p))

include h hghosts in
/-- Those that request an entity from its manager. -/
theorem mem_requesters {p : Fin n} (hp : rankOwner d g = some (p : ℕ)) :
    r ∈ requesters (handled ghosts p) g ↔ Receives inp r g := by
  have hrank : Receives inp r g → r < n := by
    rintro ⟨q, c, hc, hr, -⟩
    exact (h.others q c hc r hr).1
  simp only [requesters, List.mem_map, List.mem_filter, decide_eq_true_eq, mem_handled, hghosts]
  constructor
  · rintro ⟨x, ⟨⟨q, hq, hx, -⟩, rfl⟩, rfl⟩
    exact hq ▸ hx
  · intro hr
    exact ⟨(r, g), ⟨⟨⟨r, hrank hr⟩, rfl, hr, hp⟩, rfl⟩, rfl⟩

include h hitems hghosts hclaimed hrequested in
/-- After the requests a manager has decided about all its entities. -/
theorem managers_decided (hn : ∀ p, (ghosts p).Nodup) :
    (∀ (p : Fin n) (g : ℕ) o, (m' p)[g]? = some o →
      rankOwner d g = some (p : ℕ) ∧ Decided inp g o) ∧
    ∀ (p q : Fin n) g l, Claims (inp q) g l → rankOwner d g = some (p : ℕ) →
      ∃ o, (m' p)[g]? = some o := by
  constructor
  · intro p g o' ho'
    rw [hrequested p g] at ho'
    obtain ⟨o, ho, rfl⟩ := Option.map_eq_some_iff.mp ho'
    obtain ⟨hmem, hnil⟩ := (hclaimed p).sound g o ho
    obtain ⟨q, hq, hclaim⟩ := mem_handled.mp hmem
    obtain ⟨hclaim, hp⟩ := (hitems q p g o.localId).mp hclaim
    refine ⟨hp, ⟨q, hq, hclaim, fun q' l' hclaim' => ?_⟩, fun r => ?_, ?_⟩
    · have := (hclaimed p).least g o ho q' l'
        (mem_handled.mpr ⟨q', rfl, (hitems q' p g l').mpr ⟨hclaim', hp⟩⟩)
      exact Fin.le_def.mpr (hq ▸ this)
    · rw [hnil, List.nil_append, List.mem_filter, decide_eq_true_eq, mem_requesters h hghosts hp]
    · rw [hnil, List.nil_append]
      refine (List.Nodup.map_on (fun x hx y hy hxy => Prod.ext hxy ?_)
        ((handled_nodup hn).filter _)).filter _
      exact (of_decide_eq_true (List.mem_filter.mp hx).2).trans
        (of_decide_eq_true (List.mem_filter.mp hy).2).symm
  · intro p q g l hclaim hp
    obtain ⟨o, ho⟩ := (hclaimed p).complete q g l
      (mem_handled.mpr ⟨q, rfl, (hitems q p g l).mpr ⟨hclaim, hp⟩⟩)
    exact ⟨_, by rw [hrequested p g, ho]; rfl⟩

/-- What the managers decided, told to all ranks it is about. -/
theorem informed_of_decided (hr : ∀ p g, Receives inp p g → ∃ (q : Fin n) (l : ℕ), Claims (inp q) g l)
    (hown : ∀ (q : Fin n) g l, Claims (inp q) g l → ∃ p : Fin n, rankOwner d g = some (p : ℕ))
    (hsound : ∀ (p : Fin n) (g : ℕ) o, (m p)[g]? = some o →
      rankOwner d g = some (p : ℕ) ∧ Decided inp g o)
    (hcomplete : ∀ (p q : Fin n) g l, Claims (inp q) g l → rankOwner d g = some (p : ℕ) →
      ∃ o, (m p)[g]? = some o)
    (hm' : ∀ (p : Fin n) (g : ℕ) o, (m' p)[g]? = some o ↔ (m p)[g]? = some o ∨
      ∃ q : Fin n, (m q)[g]? = some o ∧ (p : ℕ) ∈ o.ghostRanks ++ [o.rank]) :
    Informed inp m' := by
  have hfrom : ∀ (p : Fin n) (g : ℕ) o, (m' p)[g]? = some o → ∃ q : Fin n, (m q)[g]? = some o := by
    intro p g o ho
    rcases (hm' p g o).mp ho with ho | ⟨q, ho, -⟩
    · exact ⟨p, ho⟩
    · exact ⟨q, ho⟩
  have hdecided : ∀ (q : Fin n) g l, Claims (inp q) g l →
      ∃ (p : Fin n) (o : Owner), (m p)[g]? = some o := by
    intro q g l hclaim
    obtain ⟨p, hp⟩ := hown q g l hclaim
    exact ⟨p, hcomplete p q g l hclaim hp⟩
  constructor
  · intro p g o ho
    obtain ⟨q, ho⟩ := hfrom p g o ho
    exact (hsound q g o ho).2
  · intro p q g o o' ho ho'
    obtain ⟨k, hk⟩ := hfrom p g o ho
    obtain ⟨k', hk'⟩ := hfrom q g o' ho'
    obtain rfl := Fin.ext (Option.some.inj ((hsound k g o hk).1.symm.trans (hsound k' g o' hk').1))
    exact Option.some.inj (hk.symm.trans hk')
  · intro p g hrecv
    obtain ⟨q, l, hclaim⟩ := hr p g hrecv
    obtain ⟨k, o, ho⟩ := hdecided q g l hclaim
    refine ⟨o, (hm' p g o).mpr (.inr ⟨k, ho, ?_⟩)⟩
    rw [List.mem_append, List.mem_singleton, (hsound k g o ho).2.ghosts]
    by_cases hp : (p : ℕ) = o.rank
    · exact .inr hp
    · exact .inl ⟨hrecv, hp⟩
  · intro p g l hclaim
    obtain ⟨k, o, ho⟩ := hdecided p g l hclaim
    refine ⟨o, (hsound k g o ho).2, fun q hq => (hm' q g o).mpr (.inr ⟨k, ho, ?_⟩)⟩
    simp [hq]

end

/-- All three rounds with the managers succeed, and every rank is informed. -/
theorem decideOwners_eq {inp : Fin n → ColorInput} (h : DistributedMesh inp)
    (hd : Distribution d n total) (hlt : ∀ p, ∀ g ∈ (inp p).local2global, g < total)
    {ghost : Fin n → List ℕ} (hn : ∀ p, (ghost p).Nodup)
    (hghost : ∀ (p : Fin n) g, g ∈ ghost p ↔ Receives inp p g) :
    ∃ m, decideOwners d inp (fun p => removeUnique (markShared (inp p)).2) ghost = some m ∧
      Informed inp m := by
  choose items hitems hclaims using managedShared_eq h hd hlt
  choose ghosts hghosts hgnodup hreqs using fun p : Fin n =>
    managedGhosts_eq h hd hlt (hn p) (hghost p)
  have hrank : ∀ {g r}, rankOwner d g = some r → r < n := fun ho =>
    ((rankOwner_eq_some hd).mp ho).1
  obtain ⟨recv₁, m₁, hrecv₁, hm₁, hclaimed⟩ := managers_claimed items fun p it hit =>
    hrank ((hclaims p it.1 it.2.1 it.2.2).mp hit).2
  have hin : ∀ p : Fin n, ∀ x ∈ handled ghosts p, x.2 ∈ m₁ p := by
    intro p x hx
    obtain ⟨q, -, hx⟩ := mem_handled.mp hx
    obtain ⟨hrecv, hp⟩ := (hreqs q p x.2).mp hx
    obtain ⟨q', l, hclaim⟩ := h.claims_of_receives hrecv
    obtain ⟨o, ho⟩ := (hclaimed p).complete q' x.2 l
      (mem_handled.mpr ⟨q', rfl, (hclaims q' p x.2 l).mpr ⟨hclaim, hp⟩⟩)
    exact mem_of_getElem?_eq_some ho
  obtain ⟨m₂, recv₂, m₃, hm₂, hrecv₂, hm₃, hrequested⟩ := managers_requested
    (fun p it hit => hrank ((hreqs p it.1 it.2).mp hit).2) hin
  obtain ⟨hsound, hcomplete⟩ := managers_decided h hclaims hreqs hclaimed hrequested hgnodup
  have hdest : ∀ (p : Fin n) (g : ℕ) o, (m₃ p)[g]? = some o →
      (o.ghostRanks ++ [o.rank]).Nodup ∧ ∀ r ∈ o.ghostRanks ++ [o.rank], r < n := by
    intro p g o ho
    obtain ⟨-, ⟨q, hq, -⟩, hghosts, hnodup⟩ := hsound p g o ho
    constructor
    · refine List.nodup_append.mpr ⟨hnodup, List.nodup_singleton _, fun r hr r' hr' heq => ?_⟩
      exact ((hghosts r).mp hr).2 (heq.trans (List.mem_singleton.mp hr'))
    · intro r hr
      rcases List.mem_append.mp hr with hr | hr
      · obtain ⟨q', c, hc, hr, -⟩ := ((hghosts r).mp hr).1
        exact (h.others q' c hc r hr).1
      · exact List.mem_singleton.mp hr ▸ hq ▸ q.isLt
  obtain ⟨recv₃, m₄, hrecv₃, hm₄, hspec⟩ := owners_sent (fun p g o ho => (hsound p g o ho).1)
    (fun p g o ho => (hdest p g o ho).1) fun p g o ho => (hdest p g o ho).2
  refine ⟨m₄, ?_, informed_of_decided (fun _ _ => h.claims_of_receives) (fun q g l hclaim => ?_)
    hsound hcomplete hspec⟩
  · rw [decideOwners, allRanks_eq_some.mpr hitems, allRanks_eq_some.mpr hghosts]
    simp only [Option.bind_eq_bind, Option.bind_some, hrecv₁, hm₁, hm₂, hrecv₂, hm₃, hrecv₃]
    exact hm₄
  · obtain ⟨r, hr, ho⟩ := exists_rankOwner hd (hlt q g (List.mem_of_getElem? hclaim.1))
    exact ⟨⟨r, hr⟩, ho⟩

end Flecsi.Coloring
