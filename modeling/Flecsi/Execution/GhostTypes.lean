import Flecsi.Coloring.Types
import Flecsi.Lib.ConsecutiveRuns

/-!
# Datatypes for the ghost copy

`register_field_metadata_`, which computes the lengths and displacements of the indexed types
that the ghosts are fetched with, one pair of types for each owner.
-/

namespace Flecsi.Execution

open Coloring ConsecutiveRuns
open Std (TreeMap)

-- ---------------------------------------------------------------------------
-- Lists of ghosts
-- ---------------------------------------------------------------------------

/-- Conversion of a `uint32_t` to `int`, where it wraps. -/
def asInt (x : ℕ) : ℤ := (x : ℤ).bmod (2 ^ 32)

/-- The result of an operation on `int`; there is none after an overflow. -/
def checkInt (x : ℤ) : Option ℤ := if -2 ^ 31 ≤ x ∧ x < 2 ^ 31 then some x else none

/-- `std::map<int, std::vector<int>>`, by ranks. -/
abbrev RankLists := TreeMap ℕ (List ℤ)

/-- `m[rank]` -/
def RankLists.at_ (m : RankLists) (rank : ℕ) : List ℤ := m.getD rank []

def RankLists.push (m : RankLists) (rank : ℕ) (x : ℤ) : RankLists := m.insert rank (m.at_ rank ++ [x])

/-- One pass of the loop over the ghosts, with `origin_index` and the two maps of displacements. -/
def pushGhost (s : ℤ × RankLists × RankLists) (ghost : EntityInfo) : Option (ℤ × RankLists × RankLists) := do
  let next ← checkInt (s.1 + 1)
  some (next, s.2.1.push ghost.rank s.1, s.2.2.push ghost.rank (asInt ghost.offset))

/-- `origin_disps` and `target_disps`, with a list for each owner. -/
def ghostDisps (owners : List ℕ) (ghosts : List EntityInfo) : Option (RankLists × RankLists) :=
  let start : RankLists := owners.foldl (fun m owner => m.insertIfNew owner []) ∅
  (ghosts.foldlM pushGhost (0, start, start)).map (·.2)

-- ---------------------------------------------------------------------------
-- Compaction
-- ---------------------------------------------------------------------------

/-- The lengths and displacements so far, and a displacement after the one before it. -/
def compactStep (s : List ℤ × List ℤ) (x : ℤ × ℤ) : Option (List ℤ × List ℤ) := do
  let step ← checkInt (x.2 - x.1)
  if step = 1 then
    let len ← checkInt (s.1.getLastD 0 + 1)
    some (s.1.dropLast ++ [len], s.2)
  else some (s.1 ++ [1], s.2 ++ [x.2])

/-- The compaction for one owner, which reads the first displacement. -/
def compact (disps : List ℤ) : Option (List ℤ × List ℤ) :=
  match disps with
  | [] => none
  | first :: rest => ((first :: rest).zip rest).foldlM compactStep ([1], [first])

/-- One pass of the loop over the owners. -/
def compactOwner (disps : RankLists) (m : RankLists × RankLists) (owner : ℕ) : Option (RankLists × RankLists) := do
  let (lens, starts) ← compact (disps.at_ owner)
  some (m.1.insert owner lens, m.2.insert owner starts)

def compactAll (owners : List ℕ) (disps : RankLists) : Option (RankLists × RankLists) :=
  if disps.size = 0 then some (∅, ∅)
  else owners.foldlM (compactOwner disps) (∅, ∅)

structure CompactTypes where
  origin_lengs : RankLists
  origin_disps : RankLists
  target_lengs : RankLists
  target_disps : RankLists

/-- `register_field_metadata_` -/
def registerFieldMetadata_ (info : ColoringInfo) (c : IndexColoring) : Option CompactTypes := do
  let owners := info.ghostOwners.sort (· ≤ ·)
  let (origin, target) ← ghostDisps owners c.ghost
  let (origin_lengs, origin_disps) ← compactAll owners origin
  let (target_lengs, target_disps) ← compactAll owners target
  some { origin_lengs, origin_disps, target_lengs, target_disps }

-- ---------------------------------------------------------------------------
-- What the types describe
-- ---------------------------------------------------------------------------

/-- The elements of the type for an owner, in order. -/
def CompactTypes.origin (t : CompactTypes) (owner : ℕ) : List ℤ :=
  expand (t.origin_lengs.at_ owner) (t.origin_disps.at_ owner)

def CompactTypes.target (t : CompactTypes) (owner : ℕ) : List ℤ :=
  expand (t.target_lengs.at_ owner) (t.target_disps.at_ owner)

/-- The ghosts of an owner with their indices, in list order. -/
def ownedGhosts (ghosts : List EntityInfo) (owner : ℕ) : List (EntityInfo × ℕ) :=
  ghosts.zipIdx.filter (·.1.rank = owner)

/-- Every ghost is paired with the element of its owner that it copies. -/
structure CompactTypes.PairsGhosts (t : CompactTypes) (owners : Finset ℕ) (ghosts : List EntityInfo) : Prop where
  pairs : ∀ owner ∈ owners, (t.origin owner).zip (t.target owner) =
    (ownedGhosts ghosts owner).map fun x => ((x.2 : ℤ), (x.1.offset : ℤ))
  once : ∀ i : ℕ, i < ghosts.length → ∃! owner, owner ∈ owners ∧ (i : ℤ) ∈ t.origin owner
  lengths : ∀ owner, (t.origin owner).length = (t.target owner).length
  positive : ∀ owner, ∀ len ∈ t.origin_lengs.at_ owner ++ t.target_lengs.at_ owner, 0 < len

-- ---------------------------------------------------------------------------
-- The loops
-- ---------------------------------------------------------------------------

theorem checkInt_eq_some {x y : ℤ} : checkInt x = some y ↔ (-2 ^ 31 ≤ x ∧ x < 2 ^ 31) ∧ y = x := by
  unfold checkInt
  split
  · simp_all [eq_comm]
  · simp_all

theorem asInt_eq_iff {x : ℕ} : asInt x = x ↔ x < 2 ^ 31 := by
  unfold asInt
  constructor
  · intro h
    have hlt := Int.bmod_lt (x := x) (m := 2 ^ 32) (by decide)
    rw [h] at hlt
    exact_mod_cast hlt
  · intro h
    exact Int.bmod_eq_of_le (by omega) (by omega)

@[simp] theorem RankLists.at_push (m : RankLists) (rank owner : ℕ) (x : ℤ) :
    (m.push rank x).at_ owner = if rank = owner then m.at_ owner ++ [x] else m.at_ owner := by
  simp only [push, at_, TreeMap.getD_insert, Nat.compare_eq_eq]
  split
  · rename_i h
    rw [h]
  · rfl

theorem at_insertIfNew (owners : List ℕ) (m : RankLists) (hm : ∀ owner, m.at_ owner = []) (owner : ℕ) :
    RankLists.at_ (owners.foldl (fun m owner => m.insertIfNew owner []) m) owner = [] := by
  induction owners generalizing m with
  | nil => exact hm owner
  | cons first owners ih =>
    refine ih _ fun owner => ?_
    rw [RankLists.at_, TreeMap.getD_insertIfNew]
    split
    · rfl
    · exact hm owner

theorem ownedGhosts_concat (ghosts : List EntityInfo) (ghost : EntityInfo) (owner : ℕ) :
    ownedGhosts (ghosts ++ [ghost]) owner =
      if ghost.rank = owner then ownedGhosts ghosts owner ++ [(ghost, ghosts.length)] else ownedGhosts ghosts owner := by
  unfold ownedGhosts
  rw [List.zipIdx_append, List.filter_append]
  split
  · rename_i h
    simp [h]
  · rename_i h
    simp [h]

/-- What the loop over the ghosts has stored. -/
structure Stores (ghosts : List EntityInfo) (s : ℤ × RankLists × RankLists) : Prop where
  index : s.1 = ghosts.length
  origin : ∀ owner, s.2.1.at_ owner = (ownedGhosts ghosts owner).map fun x => (x.2 : ℤ)
  target : ∀ owner, s.2.2.at_ owner = (ownedGhosts ghosts owner).map fun x => asInt x.1.offset

theorem foldlM_pushGhost {start : RankLists} (hstart : ∀ owner, start.at_ owner = []) (ghosts : List EntityInfo) :
    (∀ s, ghosts.foldlM pushGhost (0, start, start) = some s → ghosts.length < 2 ^ 31 ∧ Stores ghosts s) ∧
    (ghosts.length < 2 ^ 31 → ∃ s, ghosts.foldlM pushGhost (0, start, start) = some s) := by
  induction ghosts using List.reverseRecOn with
  | nil =>
    refine ⟨fun s hs => ?_, fun _ => ⟨_, rfl⟩⟩
    cases hs
    exact ⟨by decide, rfl, hstart, hstart⟩
  | append_singleton ghosts ghost ih =>
    obtain ⟨hstores, hsome⟩ := ih
    rw [List.foldlM_append, List.length_append, List.length_singleton]
    refine ⟨fun s hs => ?_, fun hlen => ?_⟩
    · obtain ⟨s', hs', hlast⟩ := Option.bind_eq_some_iff.mp hs
      rw [List.foldlM_cons] at hlast
      obtain ⟨_, hlast, hnil⟩ := Option.bind_eq_some_iff.mp hlast
      cases hnil
      obtain ⟨next, hnext, hpushed⟩ := Option.bind_eq_some_iff.mp hlast
      cases hpushed
      obtain ⟨hlen, hindex, horigin, htarget⟩ := hstores s' hs'
      obtain ⟨⟨_, hlt⟩, rfl⟩ := checkInt_eq_some.mp hnext
      rw [hindex] at hlt
      refine ⟨by omega, by simp [hindex], fun owner => ?_, fun owner => ?_⟩
      · simp only [RankLists.at_push, ownedGhosts_concat, horigin, hindex]
        split <;> simp
      · simp only [RankLists.at_push, ownedGhosts_concat, htarget]
        split <;> simp
    · obtain ⟨s', hs'⟩ := hsome (by omega)
      have hindex := (hstores s' hs').2.index
      have hnext : checkInt (s'.1 + 1) = some (s'.1 + 1) :=
        checkInt_eq_some.mpr ⟨by rw [hindex]; omega, rfl⟩
      refine ⟨(s'.1 + 1, s'.2.1.push ghost.rank s'.1, s'.2.2.push ghost.rank (asInt ghost.offset)), ?_⟩
      simp [hs', pushGhost, hnext]

theorem ghostDisps_spec (owners : List ℕ) (ghosts : List EntityInfo) :
    (∀ m, ghostDisps owners ghosts = some m → ghosts.length < 2 ^ 31 ∧ ∃ index, Stores ghosts (index, m)) ∧
    (ghosts.length < 2 ^ 31 → ∃ m, ghostDisps owners ghosts = some m) := by
  obtain ⟨hstores, hsome⟩ := foldlM_pushGhost (at_insertIfNew owners ∅ fun _ => rfl) ghosts
  refine ⟨fun m hm => ?_, fun hlen => ?_⟩
  · obtain ⟨s, hs, rfl⟩ := Option.map_eq_some_iff.mp hm
    exact ⟨(hstores s hs).1, s.1, (hstores s hs).2⟩
  · obtain ⟨s, hs⟩ := hsome hlen
    exact ⟨s.2, Option.map_eq_some_iff.mpr ⟨s, hs, rfl⟩⟩

theorem Encodes.concat_cases {lens starts l : List ℤ} (h : Encodes lens starts l) (hl : l ≠ []) :
    ∃ lens' len, lens = lens' ++ [len] := by
  cases lens using List.reverseRecOn with
  | nil => exact absurd h.expand.symm (by simpa [expand] using hl)
  | append_singleton lens len => exact ⟨lens, len, rfl⟩

/-- The loop over the displacements after `l`, whose last one is `prev`. -/
theorem foldlM_compactStep {lens starts l : List ℤ} {prev : ℤ} (rest : List ℤ) (h : Encodes lens starts l)
    (hprev : l.getLast? = some prev) :
    (∀ out, ((prev :: rest).zip rest).foldlM compactStep (lens, starts) = some out → Encodes out.1 out.2 (l ++ rest)) ∧
    ((∀ x ∈ prev :: rest, 0 ≤ x ∧ x < 2 ^ 31) → l.length + rest.length < 2 ^ 31 →
      ∃ out, ((prev :: rest).zip rest).foldlM compactStep (lens, starts) = some out) := by
  induction rest generalizing lens starts l prev with
  | nil =>
    refine ⟨fun out hout => ?_, fun _ _ => ⟨_, rfl⟩⟩
    cases hout
    rw [List.append_nil]
    exact h
  | cons x rest ih =>
    have hl : l ≠ [] := fun hnil => by simp [hnil] at hprev
    obtain ⟨lens', len, rfl⟩ := Encodes.concat_cases h hl
    have hlast (l : List ℤ) (x : ℤ) : (l ++ [x]).getLast? = some x := List.getLast?_concat
    have hsplit : l ++ x :: rest = l ++ [x] ++ rest := by simp
    rw [List.zip_cons_cons, List.foldlM_cons, hsplit, List.length_cons]
    by_cases hstep : x - prev = 1
    · have hx : x = prev + 1 := by omega
      have hnext := h.extend hprev
      rw [← hx] at hnext
      obtain ⟨hspec, hsome⟩ := ih hnext (hlast l x)
      refine ⟨fun out hout => ?_, fun hrange hlen => ?_⟩
      · obtain ⟨s, hs, hout⟩ := Option.bind_eq_some_iff.mp hout
        obtain ⟨step, hcheck, hs⟩ := Option.bind_eq_some_iff.mp hs
        obtain ⟨_, rfl⟩ := checkInt_eq_some.mp hcheck
        rw [if_pos hstep] at hs
        obtain ⟨_, hlen, hs⟩ := Option.bind_eq_some_iff.mp hs
        obtain ⟨_, rfl⟩ := checkInt_eq_some.mp hlen
        cases hs
        refine hspec out ?_
        simpa using hout
      · have hle := h.len_le (List.mem_append_right _ (List.mem_singleton_self len))
        have hpos := h.positive len (List.mem_append_right _ (List.mem_singleton_self len))
        obtain ⟨out, hout⟩ := hsome (fun y hy => hrange y (List.mem_cons_of_mem _ hy))
          (by rw [List.length_append, List.length_singleton]; omega)
        refine ⟨out, Option.bind_eq_some_iff.mpr ⟨_, ?_, hout⟩⟩
        have hone : checkInt 1 = some 1 := by decide
        have hcheck : checkInt (len + 1) = some (len + 1) := checkInt_eq_some.mpr ⟨by omega, rfl⟩
        simp [compactStep, hstep, hone, hcheck]
    · have hnext := h.start x
      obtain ⟨hspec, hsome⟩ := ih hnext (hlast l x)
      refine ⟨fun out hout => ?_, fun hrange hlen => ?_⟩
      · obtain ⟨s, hs, hout⟩ := Option.bind_eq_some_iff.mp hout
        obtain ⟨step, hcheck, hs⟩ := Option.bind_eq_some_iff.mp hs
        obtain ⟨_, rfl⟩ := checkInt_eq_some.mp hcheck
        rw [if_neg hstep] at hs
        cases hs
        exact hspec out hout
      · obtain ⟨out, hout⟩ := hsome (fun y hy => hrange y (List.mem_cons_of_mem _ hy))
          (by rw [List.length_append, List.length_singleton]; omega)
        refine ⟨out, Option.bind_eq_some_iff.mpr ⟨_, ?_, hout⟩⟩
        have h₁ := hrange prev List.mem_cons_self
        have h₂ := hrange x (List.mem_cons_of_mem _ List.mem_cons_self)
        have hcheck : checkInt (x - prev) = some (x - prev) := checkInt_eq_some.mpr ⟨by omega, rfl⟩
        simp [compactStep, hcheck, hstep]

theorem compact_spec {disps : List ℤ} :
    (∀ out, compact disps = some out → Encodes out.1 out.2 disps) ∧
    (disps ≠ [] → (∀ x ∈ disps, 0 ≤ x ∧ x < 2 ^ 31) → disps.length < 2 ^ 31 → ∃ out, compact disps = some out) := by
  cases disps with
  | nil => exact ⟨fun _ hout => by simp [compact] at hout, fun h => absurd rfl h⟩
  | cons first rest =>
    obtain ⟨hspec, hsome⟩ := foldlM_compactStep rest (encodes_single first) (List.getLast?_singleton)
    refine ⟨fun out hout => hspec out hout, fun _ hrange hlen => hsome hrange ?_⟩
    rw [List.length_cons] at hlen
    rw [List.length_singleton]
    omega

theorem at_insert (m : RankLists) (rank owner : ℕ) (l : List ℤ) :
    RankLists.at_ (m.insert rank l) owner = if rank = owner then l else m.at_ owner := by
  simp only [RankLists.at_, TreeMap.getD_insert, Nat.compare_eq_eq]

theorem foldlM_compactOwner (disps : RankLists) (owners : List ℕ) (hn : owners.Nodup) (m : RankLists × RankLists) :
    (∀ out, owners.foldlM (compactOwner disps) m = some out →
      (∀ owner ∈ owners, compact (disps.at_ owner) = some (out.1.at_ owner, out.2.at_ owner)) ∧
      ∀ owner ∉ owners, out.1.at_ owner = m.1.at_ owner ∧ out.2.at_ owner = m.2.at_ owner) ∧
    ((∀ owner ∈ owners, (compact (disps.at_ owner)).isSome) →
      ∃ out, owners.foldlM (compactOwner disps) m = some out) := by
  induction owners generalizing m with
  | nil =>
    refine ⟨fun out hout => ?_, fun _ => ⟨m, rfl⟩⟩
    cases hout
    exact ⟨fun _ h => absurd h List.not_mem_nil, fun _ _ => ⟨rfl, rfl⟩⟩
  | cons first owners ih =>
    obtain ⟨hfirst, hn⟩ := List.nodup_cons.mp hn
    rw [List.foldlM_cons]
    refine ⟨fun out hout => ?_, fun hsome => ?_⟩
    · obtain ⟨next, hnext, hout⟩ := Option.bind_eq_some_iff.mp hout
      obtain ⟨lists, hlists, hnext⟩ := Option.bind_eq_some_iff.mp hnext
      cases hnext
      obtain ⟨hall, hframe⟩ := (ih hn _).1 out hout
      refine ⟨List.forall_mem_cons.mpr ⟨?_, hall⟩, fun owner howner => ?_⟩
      · obtain ⟨hlens, hstarts⟩ := hframe first hfirst
        simp only [at_insert, if_true] at hlens hstarts
        rw [hlens, hstarts, hlists]
      · obtain ⟨hne, howner⟩ := List.ne_and_not_mem_of_not_mem_cons howner
        have hframe := hframe owner howner
        simpa only [at_insert, if_neg (Ne.symm hne)] using hframe
    · obtain ⟨lists, hlists⟩ := Option.isSome_iff_exists.mp (hsome first List.mem_cons_self)
      obtain ⟨out, hout⟩ := (ih hn (m.1.insert first lists.1, m.2.insert first lists.2)).2
        fun owner howner => hsome owner (List.mem_cons_of_mem _ howner)
      refine ⟨out, Option.bind_eq_some_iff.mpr ⟨_, ?_, hout⟩⟩
      simp [compactOwner, hlists]

/-- The break of the loop is never taken. -/
theorem compactAll_eq {owners : List ℕ} {disps : RankLists} (h : ∀ owner ∈ owners, disps.at_ owner ≠ []) :
    compactAll owners disps = owners.foldlM (compactOwner disps) (∅, ∅) := by
  unfold compactAll
  split
  · rename_i hsize
    cases owners with
    | nil => rfl
    | cons owner owners =>
      refine absurd ?_ (h owner List.mem_cons_self)
      exact TreeMap.getD_of_isEmpty (by rw [TreeMap.isEmpty_eq_size_eq_zero, hsize]; rfl)
  · rfl

/-- The types that the two compactions give, for lists with the owners' ghosts. -/
theorem compactAll_spec {owners : List ℕ} (hn : owners.Nodup) {disps : RankLists}
    (h : ∀ owner ∈ owners, disps.at_ owner ≠ []) :
    (∀ out, compactAll owners disps = some out →
      (∀ owner ∈ owners, Encodes (out.1.at_ owner) (out.2.at_ owner) (disps.at_ owner)) ∧
      ∀ owner ∉ owners, out.1.at_ owner = [] ∧ out.2.at_ owner = []) ∧
    ((∀ owner ∈ owners, (∀ x ∈ disps.at_ owner, 0 ≤ x ∧ x < 2 ^ 31) ∧ (disps.at_ owner).length < 2 ^ 31) →
      ∃ out, compactAll owners disps = some out) := by
  rw [compactAll_eq h]
  obtain ⟨hspec, hsome⟩ := foldlM_compactOwner disps owners hn (∅, ∅)
  refine ⟨fun out hout => ?_, fun hrange => hsome fun owner howner => ?_⟩
  · obtain ⟨hall, hframe⟩ := hspec out hout
    exact ⟨fun owner howner => compact_spec.1 _ (hall owner howner), hframe⟩
  · obtain ⟨hrange, hlen⟩ := hrange owner howner
    exact Option.isSome_iff_exists.mpr (compact_spec.2 (h owner howner) hrange hlen)

-- ---------------------------------------------------------------------------
-- Paired ghosts
-- ---------------------------------------------------------------------------

theorem mem_ownedGhosts {ghosts : List EntityInfo} {owner : ℕ} {x : EntityInfo × ℕ} :
    x ∈ ownedGhosts ghosts owner ↔ ghosts[x.2]? = some x.1 ∧ x.1.rank = owner := by
  unfold ownedGhosts
  rw [List.mem_filter, List.mem_zipIdx_iff_getElem?, decide_eq_true_eq]

/-- The elements of the types, with the offsets as they are stored. -/
structure CompactTypes.Describes (t : CompactTypes) (owners : Finset ℕ) (ghosts : List EntityInfo) : Prop where
  origin : ∀ owner ∈ owners, Encodes (t.origin_lengs.at_ owner) (t.origin_disps.at_ owner)
    ((ownedGhosts ghosts owner).map fun x => (x.2 : ℤ))
  target : ∀ owner ∈ owners, Encodes (t.target_lengs.at_ owner) (t.target_disps.at_ owner)
    ((ownedGhosts ghosts owner).map fun x => asInt x.1.offset)
  other : ∀ owner ∉ owners, t.origin_lengs.at_ owner = [] ∧ t.target_lengs.at_ owner = []

section
variable {info : ColoringInfo} {c : IndexColoring}

theorem registerFieldMetadata_spec (h : ∀ r, r ∈ info.ghostOwners ↔ ∃ g ∈ c.ghost, g.rank = r) :
    (∀ t, registerFieldMetadata_ info c = some t → c.ghost.length < 2 ^ 31 ∧ t.Describes info.ghostOwners c.ghost) ∧
    (c.ghost.length < 2 ^ 31 → (∀ g ∈ c.ghost, g.offset < 2 ^ 31) → ∃ t, registerFieldMetadata_ info c = some t) := by
  have hn : (info.ghostOwners.sort (· ≤ ·)).Nodup := Finset.sort_nodup _ _
  have howned : ∀ owner ∈ info.ghostOwners.sort (· ≤ ·), ownedGhosts c.ghost owner ≠ [] := by
    intro owner howner
    obtain ⟨g, hg, hrank⟩ := (h owner).mp ((Finset.mem_sort _).mp howner)
    obtain ⟨i, hi⟩ := List.getElem?_of_mem hg
    exact List.ne_nil_of_mem ((mem_ownedGhosts (x := (g, i))).mpr ⟨hi, hrank⟩)
  obtain ⟨hstores, hdisps⟩ := ghostDisps_spec (info.ghostOwners.sort (· ≤ ·)) c.ghost
  refine ⟨fun t ht => ?_, fun hlen hoffsets => ?_⟩
  · obtain ⟨disps, hd, ht⟩ := Option.bind_eq_some_iff.mp ht
    obtain ⟨origin, ho, ht⟩ := Option.bind_eq_some_iff.mp ht
    obtain ⟨target, htarget, ht⟩ := Option.bind_eq_some_iff.mp ht
    cases ht
    obtain ⟨hlen, index, hs⟩ := hstores disps hd
    obtain ⟨hos, hor⟩ := (compactAll_spec hn fun owner howner => by
      rw [hs.origin]
      simpa using howned owner howner).1 origin ho
    obtain ⟨hts, htr⟩ := (compactAll_spec hn fun owner howner => by
      rw [hs.target]
      simpa using howned owner howner).1 target htarget
    refine ⟨hlen, fun owner howner => ?_, fun owner howner => ?_, fun owner howner => ?_⟩
    · exact hs.origin owner ▸ hos owner ((Finset.mem_sort _).mpr howner)
    · exact hs.target owner ▸ hts owner ((Finset.mem_sort _).mpr howner)
    · have hnot := mt (Finset.mem_sort (· ≤ ·)).mp howner
      exact ⟨(hor owner hnot).1, (htr owner hnot).1⟩
  · obtain ⟨disps, hd⟩ := hdisps hlen
    obtain ⟨-, index, hs⟩ := hstores disps hd
    have hshort (owner : ℕ) : (ownedGhosts c.ghost owner).length < 2 ^ 31 := by
      refine (List.length_filter_le _ _).trans_lt ?_
      rwa [List.length_zipIdx]
    obtain ⟨origin, ho⟩ := (compactAll_spec hn fun owner howner => by
      rw [hs.origin]
      simpa using howned owner howner).2 fun owner _ => by
        rw [hs.origin, List.length_map]
        refine ⟨fun x hx => ?_, hshort owner⟩
        obtain ⟨y, hy, rfl⟩ := List.mem_map.mp hx
        have hlt := (List.getElem?_eq_some_iff.mp (mem_ownedGhosts.mp hy).1).1
        omega
    obtain ⟨target, htarget⟩ := (compactAll_spec hn fun owner howner => by
      rw [hs.target]
      simpa using howned owner howner).2 fun owner _ => by
        rw [hs.target, List.length_map]
        refine ⟨fun x hx => ?_, hshort owner⟩
        obtain ⟨y, hy, rfl⟩ := List.mem_map.mp hx
        have hlt := hoffsets y.1 (List.mem_of_getElem? (mem_ownedGhosts.mp hy).1)
        rw [asInt_eq_iff.mpr hlt]
        omega
    refine ⟨⟨origin.1, origin.2, target.1, target.2⟩, ?_⟩
    unfold registerFieldMetadata_
    simp only [hd, ho, htarget, Option.bind_eq_bind, Option.bind_some]

/-- The types pair the ghosts exactly if the conversion to `int` keeps their offsets. -/
theorem CompactTypes.Describes.pairsGhosts_iff {t : CompactTypes} (ht : t.Describes info.ghostOwners c.ghost)
    (h : ∀ r, r ∈ info.ghostOwners ↔ ∃ g ∈ c.ghost, g.rank = r) :
    t.PairsGhosts info.ghostOwners c.ghost ↔ ∀ g ∈ c.ghost, g.offset < 2 ^ 31 := by
  have hpairs : ∀ owner ∈ info.ghostOwners, (t.origin owner).zip (t.target owner) =
      (ownedGhosts c.ghost owner).map fun x => ((x.2 : ℤ), asInt x.1.offset) := by
    intro owner howner
    rw [CompactTypes.origin, CompactTypes.target, (ht.origin owner howner).expand, (ht.target owner howner).expand,
      List.zip_map']
  have hiff : ∀ owner ∈ info.ghostOwners, (t.origin owner).zip (t.target owner) =
      ((ownedGhosts c.ghost owner).map fun x => ((x.2 : ℤ), (x.1.offset : ℤ))) ↔
      ∀ x ∈ ownedGhosts c.ghost owner, x.1.offset < 2 ^ 31 := by
    intro owner howner
    rw [hpairs owner howner, List.map_inj_left]
    exact forall₂_congr fun x _ => by rw [Prod.mk.injEq, asInt_eq_iff, eq_self, true_and]
  constructor
  · intro hp g hg
    have howner := (h g.rank).mpr ⟨g, hg, rfl⟩
    obtain ⟨i, hi⟩ := List.getElem?_of_mem hg
    exact (hiff _ howner).mp (hp.pairs _ howner) (g, i) (mem_ownedGhosts.mpr ⟨hi, rfl⟩)
  · intro hoffsets
    refine ⟨fun owner howner => (hiff owner howner).mpr fun x hx =>
      hoffsets x.1 (List.mem_of_getElem? (mem_ownedGhosts.mp hx).1), fun i hi => ?_, fun owner => ?_, fun owner => ?_⟩
    · have hmem : c.ghost[i] ∈ c.ghost := List.getElem_mem hi
      have howner := (h c.ghost[i].rank).mpr ⟨_, hmem, rfl⟩
      refine ⟨c.ghost[i].rank, ⟨howner, ?_⟩, ?_⟩
      · rw [CompactTypes.origin, (ht.origin _ howner).expand]
        exact List.mem_map.mpr ⟨(c.ghost[i], i), mem_ownedGhosts.mpr ⟨List.getElem?_eq_getElem hi, rfl⟩, rfl⟩
      · rintro owner ⟨howner', hi'⟩
        rw [CompactTypes.origin, (ht.origin owner howner').expand] at hi'
        obtain ⟨x, hx, hxi⟩ := List.mem_map.mp hi'
        obtain ⟨hget, hrank⟩ := mem_ownedGhosts.mp hx
        rw [Nat.cast_inj.mp hxi, List.getElem?_eq_getElem hi] at hget
        rw [← hrank, Option.some.inj hget]
    · by_cases howner : owner ∈ info.ghostOwners
      · rw [CompactTypes.origin, CompactTypes.target, (ht.origin owner howner).expand,
          (ht.target owner howner).expand, List.length_map, List.length_map]
      · rw [CompactTypes.origin, CompactTypes.target, (ht.other owner howner).1, (ht.other owner howner).2]
        rfl
    · by_cases howner : owner ∈ info.ghostOwners
      · exact List.forall_mem_append.mpr ⟨(ht.origin owner howner).positive, (ht.target owner howner).positive⟩
      · rw [(ht.other owner howner).1, (ht.other owner howner).2]
        exact fun _ hlen => absurd hlen List.not_mem_nil

end

/-- The types are built and pair each ghost with its owner's element exactly if the ghosts'
indices and offsets are in the range of `int`. -/
theorem registerFieldMetadata_pairs_iff (info : ColoringInfo) (c : IndexColoring)
    (h : ∀ r, r ∈ info.ghostOwners ↔ ∃ g ∈ c.ghost, g.rank = r) :
    (∃ t, registerFieldMetadata_ info c = some t ∧ t.PairsGhosts info.ghostOwners c.ghost) ↔
      c.ghost.length < 2 ^ 31 ∧ ∀ g ∈ c.ghost, g.offset < 2 ^ 31 := by
  obtain ⟨hspec, hsome⟩ := registerFieldMetadata_spec h
  constructor
  · rintro ⟨t, ht, hpairs⟩
    obtain ⟨hlen, hdescribes⟩ := hspec t ht
    exact ⟨hlen, (hdescribes.pairsGhosts_iff h).mp hpairs⟩
  · rintro ⟨hlen, hoffsets⟩
    obtain ⟨t, ht⟩ := hsome hlen hoffsets
    exact ⟨t, ht, ((hspec t ht).2.pairsGhosts_iff h).mpr hoffsets⟩

/-- Ghosts of two owners in turn, with runs that differ on the two sides. -/
def turnsColoring : IndexColoring :=
  ⟨[], [], [⟨3, 1, 7, ∅⟩, ⟨4, 1, 2, ∅⟩, ⟨5, 2, 0, ∅⟩, ⟨6, 1, 3, ∅⟩, ⟨8, 2, 1, ∅⟩]⟩

def turnsInfo : ColoringInfo := ⟨0, 0, 5, ∅, {1, 2}⟩

theorem registerFieldMetadata_pairs_turns :
    ∃ t, registerFieldMetadata_ turnsInfo turnsColoring = some t ∧
      t.PairsGhosts turnsInfo.ghostOwners turnsColoring.ghost := by
  refine (registerFieldMetadata_pairs_iff turnsInfo turnsColoring fun r => ?_).mpr ⟨by decide, by decide⟩
  simp only [turnsInfo, turnsColoring, Finset.mem_insert, Finset.mem_singleton, List.mem_cons,
    List.not_mem_nil, or_false, exists_eq_or_imp, exists_eq_left]
  omega

/-- A ghost whose offset has the sign bit of `int`. -/
def farColoring : IndexColoring := ⟨[], [], [⟨0, 1, 2 ^ 31, ∅⟩]⟩

def farInfo : ColoringInfo := ⟨0, 0, 1, ∅, {1}⟩

/-- The target type points in front of the window. -/
theorem far_offset_negative : (∀ r, r ∈ farInfo.ghostOwners ↔ ∃ g ∈ farColoring.ghost, g.rank = r) ∧
    ∃ t, registerFieldMetadata_ farInfo farColoring = some t ∧ t.target 1 = [-2 ^ 31] ∧
      ¬t.PairsGhosts farInfo.ghostOwners farColoring.ghost := by
  have h : ∀ r, r ∈ farInfo.ghostOwners ↔ ∃ g ∈ farColoring.ghost, g.rank = r := by
    simp [farInfo, farColoring, eq_comm]
  have hsort : farInfo.ghostOwners.sort (· ≤ ·) = [1] := Finset.sort_singleton _ _
  have htarget : (registerFieldMetadata_ farInfo farColoring).map (fun t => t.target 1) = some [-2 ^ 31] := by
    unfold registerFieldMetadata_
    rw [hsort]
    decide
  obtain ⟨t, ht, hfar⟩ := Option.map_eq_some_iff.mp htarget
  refine ⟨h, t, ht, hfar, fun hpairs => ?_⟩
  exact absurd (((registerFieldMetadata_spec h).1 t ht).2.pairsGhosts_iff h |>.mp hpairs) (by decide)

end Flecsi.Execution
