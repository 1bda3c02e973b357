import Flecsi.Coloring.Types

/-!
# Erasing rows

`crs_t::erase` takes sorted row numbers and rebuilds the storage without them.
-/

namespace Flecsi.Coloring

open PackedBuffer SortUnique

/-- The elements at the positions that satisfy a predicate. -/
def atPositions (P : ℕ → Bool) (l : List α) : List α := (l.zipIdx.filter fun x => P x.2).map (·.1)

theorem atPositions_map_range (P : ℕ → Bool) (f : ℕ → α) (k : ℕ) :
    atPositions P ((List.range k).map f) = ((List.range k).filter P).map f := by
  have hzip : ((List.range k).map f).zipIdx = (List.range k).map fun i => (f i, i) := by
    apply List.ext_getElem
    · simp
    · intro i h1 h2
      simp
  rw [atPositions, hzip, List.filter_map, List.map_map]
  rfl

theorem atPositions_map (P : ℕ → Bool) (f : α → β) (l : List α) :
    atPositions P (l.map f) = (atPositions P l).map f := by
  rw [atPositions, List.zipIdx_map, List.filter_map, List.map_map, atPositions, List.map_map]
  rfl

/-- The elements looked up one by one. -/
theorem atPositions_map_some (P : ℕ → Bool) (l : List α) :
    (atPositions P l).map some = ((List.range l.length).filter P).map fun i => l[i]? := by
  have hsome : l.map some = (List.range l.length).map fun i => l[i]? := by
    apply List.ext_getElem
    · simp
    · intro i h1 h2
      simp
  rw [← atPositions_map, hsome, atPositions_map_range]

theorem atPositions_eq_flatMap (P : ℕ → Bool) (l : List α) :
    atPositions P l = ((List.range l.length).filter P).flatMap fun i => l[i]?.toList := by
  have hflat := congrArg (List.flatMap Option.toList) (atPositions_map_some P l)
  rw [List.flatMap_map, List.flatMap_map] at hflat
  rw [← hflat]
  simp

theorem length_atPositions (P : ℕ → Bool) (l : List α) :
    (atPositions P l).length = ((List.range l.length).filter P).length := by
  simpa using congrArg List.length (atPositions_map_some P l)

theorem atPositions_congr {P Q : ℕ → Bool} {l : List α} (h : ∀ i < l.length, P i = Q i) :
    atPositions P l = atPositions Q l := by
  rw [atPositions, atPositions]
  congr 1
  refine List.filter_congr fun x hx => ?_
  exact h _ (by simpa using List.snd_lt_of_mem_zipIdx hx)

theorem atPositions_of_forall {P : ℕ → Bool} {l : List α} (h : ∀ i < l.length, P i = true) :
    atPositions P l = l := by
  rw [atPositions_congr (Q := fun _ => true) h, atPositions]
  simp

namespace Crs

/-- The iterator into the ids, the next row to fill, and the new storage. -/
structure EraseState where
  deleteIt : List ℕ
  inew : ℕ
  newOffsets : List ℕ
  newIndices : List ℕ

def keepRow (c : Crs) (s : EraseState) (iold : ℕ) : EraseState :=
  let newIndices := s.newIndices ++ c.row iold
  { s with
    newIndices := newIndices
    newOffsets := s.newOffsets.set (s.inew + 1) newIndices.length
    inew := s.inew + 1 }

def eraseStep (c : Crs) (s : EraseState) (iold : ℕ) : EraseState :=
  match s.deleteIt with
  | [] => c.keepRow s iold
  | d :: rest => if d = iold then { s with deleteIt := rest } else c.keepRow s iold

def erase (c : Crs) (ids : List ℕ) : Option Crs :=
  if ids = [] then some c else do
    guard (ids.Pairwise (· ≤ ·))
    let numRemove := ids.length
    let newOffsets := (List.replicate (c.offsets.length - numRemove) 0).set 0 0
    let s := (List.range c.size).foldl c.eraseStep ⟨ids, 0, newOffsets, []⟩
    guard (s.newOffsets.length = c.offsets.length - numRemove)
    some ⟨s.newOffsets, s.newIndices⟩

-- ---------------------------------------------------------------------------
-- The rows that stay
-- ---------------------------------------------------------------------------

/-- The rows kept among the first `k`. -/
def kept (c : Crs) (ids : List ℕ) (k : ℕ) : List (List ℕ) :=
  ((List.range k).filter (· ∉ ids)).map c.row

theorem kept_succ (c : Crs) (ids : List ℕ) (k : ℕ) :
    c.kept ids (k + 1) = c.kept ids k ++ if k ∈ ids then [] else [c.row k] := by
  rw [kept, List.range_succ, List.filter_append, List.map_append, ← kept, List.filter_singleton]
  by_cases hk : k ∈ ids <;> simp [hk]

/-- The rows that stay are those at the other positions. -/
theorem kept_size (c : Crs) (ids : List ℕ) : c.kept ids c.size = atPositions (· ∉ ids) c.rows :=
  (atPositions_map_range _ _ _).symm

theorem length_kept_mono (c : Crs) (ids : List ℕ) (h : k ≤ k') :
    (c.kept ids k).length ≤ (c.kept ids k').length := by
  induction k', h using Nat.le_induction with
  | base => exact le_rfl
  | succ k' _ ih =>
    rw [kept_succ, List.length_append]
    exact ih.trans (Nat.le_add_right _ _)

/-- Increasing row numbers are those found among all rows. -/
theorem filter_range_mem {ids : List ℕ} (hs : ids.Pairwise (· < ·)) (hlt : ∀ i ∈ ids, i < k) :
    (List.range k).filter (· ∈ ids) = ids :=
  eq_of_pairwise_lt id (List.pairwise_lt_range.filter _) hs fun i => by simpa using hlt i

theorem length_kept (c : Crs) {ids : List ℕ} (hs : ids.Pairwise (· < ·)) (hlt : ∀ i ∈ ids, i < k) :
    (c.kept ids k).length = k - ids.length := by
  have hsplit := List.length_eq_length_filter_add (l := List.range k) (· ∈ ids)
  rw [filter_range_mem hs hlt, List.length_range] at hsplit
  rw [kept, List.length_map]
  simp only [decide_not]
  omega

/-- The ids still ahead of row `k`. -/
theorem filter_ahead {ids : List ℕ} (hs : ids.Pairwise (· < ·)) (k : ℕ) :
    ids.filter (k ≤ ·) = (if k ∈ ids then [k] else []) ++ ids.filter (k + 1 ≤ ·) := by
  refine eq_of_pairwise_lt id (hs.filter _) ?_ fun i => ?_
  · refine List.pairwise_append.mpr ⟨by split <;> simp, hs.filter _, fun i hi j hj => ?_⟩
    split at hi
    · obtain rfl := List.mem_singleton.mp hi
      simpa using (List.mem_filter.mp hj).2
    · cases hi
  · simp only [List.mem_filter, decide_eq_true_eq, List.mem_append]
    by_cases hk : k ∈ ids
    · rw [if_pos hk, List.mem_singleton]
      constructor
      · rintro ⟨hi, hle⟩
        obtain rfl | hlt := Nat.eq_or_lt_of_le hle
        · exact .inl rfl
        · exact .inr ⟨hi, hlt⟩
      · rintro (rfl | ⟨hi, hlt⟩)
        · exact ⟨hk, le_rfl⟩
        · exact ⟨hi, by omega⟩
    · rw [if_neg hk]
      constructor
      · rintro ⟨hi, hle⟩
        exact .inr ⟨hi, Nat.lt_of_le_of_ne hle fun h => hk (h ▸ hi)⟩
      · rintro (hi | ⟨hi, hlt⟩)
        · cases hi
        · exact ⟨hi, by omega⟩

/-- The loop after `k` rows, with room for `m` more. -/
def erased (c : Crs) (ids : List ℕ) (k m : ℕ) : EraseState :=
  ⟨ids.filter (k ≤ ·), (c.kept ids k).length,
    (ofRows (c.kept ids k)).offsets ++ List.replicate m 0, (c.kept ids k).flatten⟩

theorem keepRow_erased (c : Crs) {ids : List ℕ} (hs : ids.Pairwise (· < ·)) (hk : k ∉ ids) (m : ℕ) :
    c.keepRow (c.erased ids k (m + 1)) k = c.erased ids (k + 1) m := by
  have hkept : c.kept ids (k + 1) = c.kept ids k ++ [c.row k] := by rw [kept_succ, if_neg hk]
  have hahead : ids.filter (k ≤ ·) = ids.filter (k + 1 ≤ ·) := by
    rw [filter_ahead hs, if_neg hk, List.nil_append]
  have hlen : (ofRows (c.kept ids k)).offsets.length = (c.kept ids k).length + 1 := by
    simp [ofRows]
  have hlast : (displs ((c.kept ids k).map List.length)).getD ((c.kept ids k).map List.length).length 0 =
      (c.kept ids k).flatten.length := by
    rw [displs_getD le_rfl, List.take_length, List.length_flatten]
  simp only [keepRow, erased, hkept, hahead, List.length_append, List.length_singleton,
    List.flatten_append, List.flatten_singleton, EraseState.mk.injEq, true_and, and_true]
  rw [List.set_append_right _ _ (by rw [hlen]), hlen, Nat.sub_self, List.replicate_succ,
    List.set_cons_zero, ofRows, ofRows, List.map_append, List.map_cons, List.map_nil, displs_concat,
    hlast, List.append_assoc]
  rfl

theorem eraseStep_erased (c : Crs) {ids : List ℕ} (hs : ids.Pairwise (· < ·))
    (hm : (if k ∈ ids then 0 else 1) + m = m') :
    c.eraseStep (c.erased ids k m') k = c.erased ids (k + 1) m := by
  by_cases hk : k ∈ ids
  · rw [if_pos hk, Nat.zero_add] at hm
    subst hm
    have hkept : c.kept ids (k + 1) = c.kept ids k := by rw [kept_succ, if_pos hk, List.append_nil]
    have hahead := filter_ahead hs k
    rw [if_pos hk, List.singleton_append] at hahead
    simp only [eraseStep, erased, hahead, hkept, ↓reduceIte]
  · rw [if_neg hk, Nat.add_comm] at hm
    subst hm
    rw [← keepRow_erased c hs hk]
    cases hd : (c.erased ids k (m + 1)).deleteIt with
    | nil => simp only [eraseStep, hd]
    | cons d rest =>
      have hmem : d ∈ ids := (List.mem_filter.mp (hd ▸ List.mem_cons_self (l := rest))).1
      have hne : d ≠ k := fun h => hk (h ▸ hmem)
      simp only [eraseStep, hd, if_neg hne]

/-- The rows that stay, in their order. -/
theorem erase_eq {c : Crs} (hc : c.WellFormed) {ids : List ℕ} (hs : ids.Pairwise (· < ·))
    (hlt : ∀ i ∈ ids, i < c.size) :
    c.erase ids = some (ofRows (atPositions (· ∉ ids) c.rows)) := by
  have hrows := (kept_size c ids).symm
  by_cases hnil : ids = []
  · subst hnil
    have hall : atPositions (· ∉ ([] : List ℕ)) c.rows = c.rows := by
      simp [atPositions]
    rw [erase, if_pos rfl, hall]
    exact congrArg some hc
  · have hlen : c.offsets.length = c.size + 1 := by
      have := congrArg (fun c => c.offsets.length) hc
      simpa [ofRows] using this
    have hids : ids.length ≤ c.size := by
      have := List.length_filter_le (· ∈ ids) (List.range c.size)
      rwa [filter_range_mem hs hlt, List.length_range] at this
    have hstart : (⟨ids, 0, (List.replicate (c.offsets.length - ids.length) 0).set 0 0, []⟩ :
        EraseState) = c.erased ids 0 (c.size - ids.length) := by
      have hroom : c.offsets.length - ids.length = c.size - ids.length + 1 := by omega
      rw [hroom, List.replicate_succ, List.set_cons_zero]
      simp [erased, kept, ofRows, displs]
    have run : ∀ k ≤ c.size, (List.range k).foldl c.eraseStep
        (c.erased ids 0 (c.size - ids.length)) =
        c.erased ids k (c.size - ids.length - (c.kept ids k).length) := by
      intro k hk
      induction k with
      | zero => rfl
      | succ k ih =>
        rw [List.range_succ, List.foldl_append, ih (by omega)]
        refine eraseStep_erased c hs ?_
        have hle := length_kept_mono c ids hk
        rw [length_kept c hs hlt] at hle
        rw [kept_succ] at hle ⊢
        split
        · simp_all
        · simp_all
          omega
    have hend : (List.range c.size).foldl c.eraseStep (c.erased ids 0 (c.size - ids.length)) =
        c.erased ids c.size 0 := by
      rw [run c.size le_rfl, length_kept c hs hlt, Nat.sub_self]
    have hsorted : ids.Pairwise (· ≤ ·) := hs.imp le_of_lt
    have hnew : (c.erased ids c.size 0).newOffsets.length = c.offsets.length - ids.length := by
      simp [erased, ofRows, length_kept c hs hlt]
      omega
    rw [erase, if_neg hnil]
    simp only [guard, hsorted, ↓reduceIte, Option.pure_def, Option.bind_eq_bind, Option.bind_some,
      hstart, hend, hnew]
    rw [hrows]
    simp [erased, ofRows]

end Crs

end Flecsi.Coloring
