import Flecsi.Coloring.Types
import Flecsi.Lib.PairExchange
import Flecsi.Lib.SetLoops

/-!
# The ParMETIS colorer

What `color` does with the part vector: every rank sends the ids of its rows to the ranks the
vector names, itself included. The ranks go on in any order after the exchange of the counts.
-/

namespace Flecsi.Coloring.ParmetisColorer

open PairExchange
open Relation (ReflTransGen)

-- ---------------------------------------------------------------------------
-- Buckets
-- ---------------------------------------------------------------------------

/-- Row `i` in the loop over the rows: the indices to send to rank `r`, and the ids that are
just added. -/
def addRow (part : List ℕ) (offset rank r : ℕ) (s : List ℕ × Finset ℕ) (i : ℕ) : List ℕ × Finset ℕ :=
  if part.getD i 0 = r then (s.1 ++ [offset + i], s.2)
  else if part.getD i 0 = rank then (s.1, insert (offset + i) s.2)
  else s

def addRank (dcrs : Dcrs) (part : List ℕ) (rank : ℕ) (s : List (List ℕ) × Finset ℕ) (r : ℕ) :
    List (List ℕ) × Finset ℕ :=
  let indices := (List.range dcrs.size).foldl
    (addRow part (dcrs.distribution.getD rank 0) rank r) ([], s.2)
  (s.1 ++ [indices.1], indices.2)

/-- `sbuffers` and `primary` before the exchange. -/
def findIndices (size : ℕ) (dcrs : Dcrs) (part : List ℕ) (rank : ℕ) : List (List ℕ) × Finset ℕ :=
  (List.range size).foldl (addRank dcrs part rank) ([], ∅)

-- ---------------------------------------------------------------------------
-- Exchange
-- ---------------------------------------------------------------------------

section
variable (dcrs : Fin n → Dcrs) (part : Fin n → List ℕ)

def sbuffers (p : Fin n) : List (List ℕ) := (findIndices n (dcrs p) (part p) p).1

def send_cnts (p : Fin n) : List ℕ := (sbuffers dcrs part p).map List.length

def recv_cnts (r : Fin n) : List ℕ := mpiAlltoall (send_cnts dcrs part) r

/-- The messages of `MPI_Irecv` and `MPI_Send`; calls with a count of zero are skipped. -/
def messages : Exchange n ℕ where
  message p r := (sbuffers dcrs part p).getD r []
  announced p r := (recv_cnts dcrs part r).getD p 0

/-- The receive buffer, of zeros until its message is there. -/
def rbuffer (s : State n ℕ) (r p : Fin n) : List ℕ :=
  (s.received (p, r)).getD (List.replicate ((recv_cnts dcrs part r).getD p 0) 0)

/-- `primary` after the exchange. -/
def primary (s : State n ℕ) (r : Fin n) : Finset ℕ :=
  (List.finRange n).foldl (fun primary (p : Fin n) =>
    if (recv_cnts dcrs part r).getD p 0 ≠ 0 then
      (rbuffer dcrs part s r p).foldl (fun primary i => insert i primary) primary
    else primary) (findIndices n (dcrs r) (part r) r).2

/-- `color` with the last assertion. -/
def color (s : State n ℕ) (r : Fin n) : Option (Finset ℕ) :=
  if (primary dcrs part s r).card > 0 then some (primary dcrs part s r) else none

end

/-- Rows as the distribution says, and a part for each row. -/
structure ValidParts (dcrs : Fin n → Dcrs) (part : Fin n → List ℕ) (d : List ℕ) (total : ℕ) :
    Prop where
  distribution : Distribution d n total
  same : ∀ p, (dcrs p).distribution = d
  size : ∀ p : Fin n, (dcrs p).size = d.getD (p + 1) 0 - d.getD p 0
  parts : ∀ p, (part p).length = (dcrs p).size
  lt : ∀ p, ∀ r ∈ part p, r < n

-- ---------------------------------------------------------------------------
-- What the loops compute
-- ---------------------------------------------------------------------------

/-- The ids of the rows the part vector gives to rank `r`. -/
def bucket (part : List ℕ) (offset rows r : ℕ) : List ℕ :=
  ((List.range rows).filter fun i => part.getD i 0 = r).map (offset + ·)

section
variable {part : List ℕ} {offset rank r rows x : ℕ}

theorem mem_bucket : x ∈ bucket part offset rows r ↔
    ∃ i < rows, part.getD i 0 = r ∧ x = offset + i := by
  simp [bucket, and_assoc, eq_comm (a := x)]

theorem foldl_addRow (l : List ℕ) (s : List ℕ × Finset ℕ) :
    (l.foldl (addRow part offset rank r) s).1 =
      s.1 ++ (l.filter fun i => part.getD i 0 = r).map (offset + ·) := by
  induction l generalizing s with
  | nil => simp
  | cons i l ih =>
    rw [List.foldl_cons, ih, addRow]
    by_cases hr : part.getD i 0 = r
    · rw [if_pos hr, List.filter_cons_of_pos (by simpa using hr), List.map_cons, List.append_assoc,
        List.singleton_append]
    · rw [if_neg hr, List.filter_cons_of_neg (by simpa using hr)]
      split_ifs <;> rfl

/-- The ids added on the side are a rank's own. -/
theorem mem_foldl_addRow {l : List ℕ} {s : List ℕ × Finset ℕ}
    (h : x ∈ (l.foldl (addRow part offset rank r) s).2) :
    x ∈ s.2 ∨ ∃ i ∈ l, part.getD i 0 = rank ∧ x = offset + i := by
  induction l generalizing s with
  | nil => exact .inl h
  | cons i l ih =>
    rcases ih h with h | ⟨j, hj, hx⟩
    · unfold addRow at h
      split_ifs at h with hr hrank
      · exact .inl h
      · rcases Finset.mem_insert.mp h with hx | h
        · exact .inr ⟨i, List.mem_cons_self .., hrank, hx⟩
        · exact .inl h
      · exact .inl h
    · exact .inr ⟨j, List.mem_cons_of_mem _ hj, hx⟩

end

theorem findIndices_fst (size : ℕ) (dcrs : Dcrs) (part : List ℕ) (rank : ℕ) :
    (findIndices size dcrs part rank).1 =
      (List.range size).map (bucket part (dcrs.distribution.getD rank 0) dcrs.size) := by
  have hloop : ∀ (l : List ℕ) s, (l.foldl (addRank dcrs part rank) s).1 =
      s.1 ++ l.map (bucket part (dcrs.distribution.getD rank 0) dcrs.size) := by
    intro l
    induction l with
    | nil => simp
    | cons r l ih =>
      intro s
      rw [List.foldl_cons, ih, addRank]
      simp only [foldl_addRow, List.nil_append, bucket, List.append_assoc, List.singleton_append,
        List.map_cons]
  rw [findIndices, hloop, List.nil_append]

theorem mem_findIndices_snd (h : x ∈ (findIndices size dcrs part rank).2) :
    x ∈ bucket part (dcrs.distribution.getD rank 0) dcrs.size rank := by
  have hloop : ∀ (l : List ℕ) s, x ∈ (l.foldl (addRank dcrs part rank) s).2 → x ∈ s.2 ∨
      x ∈ bucket part (dcrs.distribution.getD rank 0) dcrs.size rank := by
    intro l
    induction l with
    | nil => exact fun s h => .inl h
    | cons r l ih =>
      intro s h
      rcases ih _ h with h | h
      · refine (mem_foldl_addRow h).imp_right fun ⟨i, hi, hx⟩ => ?_
        exact mem_bucket.mpr ⟨i, List.mem_range.mp hi, hx⟩
      · exact .inr h
  exact (hloop _ _ h).resolve_left (Finset.notMem_empty x)

section
variable (dcrs : Fin n → Dcrs) (part : Fin n → List ℕ)

theorem message_eq (p r : Fin n) : (messages dcrs part).message p r =
    bucket (part p) ((dcrs p).distribution.getD p 0) (dcrs p).size r := by
  simp [messages, sbuffers, findIndices_fst]

/-- The counts of the two ends agree. -/
theorem announced_eq (p r : Fin n) :
    (messages dcrs part).announced p r = ((messages dcrs part).message p r).length := by
  have hcount : (messages dcrs part).announced p r = (send_cnts dcrs part p).getD r 0 := by
    simp [messages, recv_cnts, mpiAlltoall]
  rw [hcount, send_cnts, messages]
  cases hr : (sbuffers dcrs part p)[(r : ℕ)]? with
  | none => simp [List.getD_eq_getElem?_getD, hr]
  | some buf => simp [List.getD_eq_getElem?_getD, hr]

theorem mem_rows (s : State n ℕ) (r : Fin n) : x ∈ primary dcrs part s r ↔
    x ∈ (findIndices n (dcrs r) (part r) r).2 ∨ ∃ p, (messages dcrs part).announced p r ≠ 0 ∧
      x ∈ rbuffer dcrs part s r p := by
  have hpass : ∀ (s' : Finset ℕ) (p : Fin n) (x : ℕ),
      x ∈ (if (messages dcrs part).announced p r ≠ 0 then
        (rbuffer dcrs part s r p).foldl (fun primary i => insert i primary) s' else s') ↔
        x ∈ s' ∨ (messages dcrs part).announced p r ≠ 0 ∧ x ∈ rbuffer dcrs part s r p := by
    intro s' p x
    by_cases hcount : (messages dcrs part).announced p r = 0
    · simp [hcount]
    · rw [if_pos hcount, SetLoops.mem_foldl_insert (fun i => i)]
      simp [hcount]
  exact (SetLoops.mem_foldl hpass _ _ _).trans (by simp)

/-- In a final state the primary set is what the part vectors say. -/
theorem mem_primary {s : State n ℕ} (h : (messages dcrs part).Inv s) (hfinal : s.Final)
    (r : Fin n) : x ∈ primary dcrs part s r ↔
      ∃ p, x ∈ bucket (part p) ((dcrs p).distribution.getD p 0) (dcrs p).size r := by
  have hbuffer : ∀ p, (messages dcrs part).announced p r ≠ 0 →
      rbuffer dcrs part s r p = bucket (part p) ((dcrs p).distribution.getD p 0) (dcrs p).size r := by
    intro p hcount
    have hne : (messages dcrs part).message p r ≠ [] := by
      intro hnil
      rw [announced_eq, hnil] at hcount
      exact hcount rfl
    rw [rbuffer, (h.final hfinal p r).2, if_neg hne, message_eq]
    rfl
  rw [mem_rows]
  constructor
  · rintro (hx | ⟨p, hcount, hx⟩)
    · exact ⟨r, mem_findIndices_snd hx⟩
    · exact ⟨p, hbuffer p hcount ▸ hx⟩
  · rintro ⟨p, hx⟩
    have hcount : (messages dcrs part).announced p r ≠ 0 := by
      rw [announced_eq, message_eq]
      exact mt List.length_eq_zero_iff.mp (List.ne_nil_of_mem hx)
    exact .inr ⟨p, hcount, hbuffer p hcount ▸ hx⟩

/-- What the exchange does for every part vector. -/
structure Partitioned (d : List ℕ) (total : ℕ) (s : State n ℕ) : Prop where
  received : ∀ p r, s.flight (p, r) = none ∧ s.received (p, r) =
    if (recv_cnts dcrs part r).getD p 0 = 0 then none else some ((sbuffers dcrs part p).getD r [])
  length : ∀ p r m, s.received (p, r) = some m → m.length = (recv_cnts dcrs part r).getD p 0
  fails : ∀ r, color dcrs part s r = none ↔ ∀ p, (r : ℕ) ∉ part p
  colored : ∀ p, ∀ k < (dcrs p).size, ∀ r,
    (∃ ids, color dcrs part s r = some ids ∧ d.getD p 0 + k ∈ ids) ↔ (part p).getD k 0 = r
  only : ∀ r ids, color dcrs part s r = some ids → ∀ i ∈ ids, i < total

end

theorem Distribution.row_unique (h : Distribution d n total) {p q : Fin n}
    (hk : k < d.getD (p + 1) 0 - d.getD p 0) (hj : j < d.getD (q + 1) 0 - d.getD q 0)
    (heq : d.getD p 0 + k = d.getD q 0 + j) : p = q ∧ k = j := by
  have hp := ownerOf_eq h p.isLt (x := d.getD p 0 + k) (by omega) (by omega)
  have hq := ownerOf_eq h q.isLt (x := d.getD p 0 + k) (by omega) (by omega)
  obtain rfl : p = q := Fin.ext (hp.symm.trans hq)
  exact ⟨rfl, by omega⟩

section
variable {dcrs : Fin n → Dcrs} {part : Fin n → List ℕ}

theorem partitioned_of_final (hv : ValidParts dcrs part d total) {s : State n ℕ}
    (h : (messages dcrs part).Inv s) (hfinal : s.Final) : Partitioned dcrs part d total s := by
  have hmem : ∀ r x, x ∈ primary dcrs part s r ↔
      ∃ p, ∃ k < (dcrs p).size, (part p).getD k 0 = r ∧ x = d.getD p 0 + k := by
    intro r x
    simp only [mem_primary dcrs part h hfinal, mem_bucket, hv.same]
  have hcolor : ∀ r ids, color dcrs part s r = some ids ↔
      0 < (primary dcrs part s r).card ∧ primary dcrs part s r = ids := by
    intro r ids
    simp [color]
  have hreceived : ∀ p r, s.flight (p, r) = none ∧ s.received (p, r) =
      if (recv_cnts dcrs part r).getD p 0 = 0 then none
      else some ((sbuffers dcrs part p).getD r []) := by
    intro p r
    have hcount : (recv_cnts dcrs part r).getD p 0 = 0 ↔ (sbuffers dcrs part p).getD r [] = [] :=
      (announced_eq dcrs part p r ▸ List.length_eq_zero_iff :
        (messages dcrs part).announced p r = 0 ↔ (messages dcrs part).message p r = [])
    simp only [hcount]
    exact h.final hfinal p r
  constructor
  · exact hreceived
  · intro p r m hm
    rw [(hreceived p r).2] at hm
    split_ifs at hm
    obtain rfl := Option.some.inj hm
    exact (announced_eq dcrs part p r).symm
  · intro r
    have hnone : color dcrs part s r = none ↔ ∀ x, x ∉ primary dcrs part s r := by
      simp [color, Finset.eq_empty_iff_forall_notMem]
    rw [hnone]
    constructor
    · intro hempty p hr
      obtain ⟨k, hk, hget⟩ := List.getElem_of_mem hr
      refine hempty (d.getD p 0 + k) ((hmem r _).mpr ⟨p, k, hv.parts p ▸ hk, ?_, rfl⟩)
      rw [List.getD_eq_getElem _ _ hk, hget]
    · intro hno x hx
      obtain ⟨p, k, hk, hget, -⟩ := (hmem r x).mp hx
      rw [List.getD_eq_getElem _ _ (hv.parts p ▸ hk)] at hget
      exact hno p (hget ▸ List.getElem_mem _)
  · intro p k hk r
    constructor
    · rintro ⟨ids, hids, hx⟩
      obtain ⟨-, rfl⟩ := (hcolor r ids).mp hids
      obtain ⟨q, j, hj, hget, heq⟩ := (hmem r _).mp hx
      obtain ⟨rfl, rfl⟩ := Distribution.row_unique hv.distribution (hv.size p ▸ hk) (hv.size q ▸ hj) heq
      exact hget
    · intro hget
      have hx := (hmem r _).mpr ⟨p, k, hk, hget, rfl⟩
      exact ⟨_, (hcolor r _).mpr ⟨Finset.card_pos.mpr ⟨_, hx⟩, rfl⟩, hx⟩
  · intro r ids hids i hi
    obtain ⟨-, rfl⟩ := (hcolor r ids).mp hids
    obtain ⟨p, k, hk, -, rfl⟩ := (hmem r _).mp hi
    have hle := hv.distribution.mono' (i := p + 1) (j := n) (by omega) le_rfl
    rw [hv.distribution.last] at hle
    have := hv.size p
    omega

/-- In every run the messages have the announced lengths, some rank can go on until all are done,
and then the primary sets are what the part vectors say. The last assertion fails on the ranks
that no vector names. -/
theorem parmetis_color (dcrs : Fin n → Dcrs) (part : Fin n → List ℕ) (d : List ℕ) (total : ℕ)
    (hv : ValidParts dcrs part d total) (buffered : State n ℕ → Fin n → Fin n → Prop) :
    (∀ run : ℕ → State n ℕ, ¬∀ i, (messages dcrs part).Step buffered (run i) (run (i + 1))) ∧
    ∀ s, ReflTransGen ((messages dcrs part).Step buffered) .initial s →
      (∀ p r m, s.flight (p, r) = some m → m.length = (recv_cnts dcrs part r).getD p 0) ∧
      (s.Final ∨ ∃ t, (messages dcrs part).Step buffered s t) ∧
      (s.Final → Partitioned dcrs part d total s) := by
  refine ⟨Runs.terminates fun _ _ => Exchange.weight_step, fun s hs => ?_⟩
  have hann := announced_eq dcrs part
  have hinv := Exchange.inv_reachable hann hs
  refine ⟨fun p r m => Exchange.length_flight hann hinv, ?_, partitioned_of_final hv hinv⟩
  by_cases hfinal : s.Final
  · exact .inl hfinal
  · exact .inr (Exchange.progress hann hinv hfinal)

end

/-- Two ranks with a row each. -/
def twoRows (_ : Fin 2) : Dcrs := ⟨⟨[0, 0], []⟩, [0, 1, 2]⟩

theorem twoRows_valid (part : Fin 2 → List ℕ) (hlen : ∀ p, (part p).length = 1)
    (hlt : ∀ p, ∀ r ∈ part p, r < 2) : ValidParts twoRows part [0, 1, 2] 2 where
  distribution := ⟨rfl, rfl, by decide, rfl⟩
  same _ := rfl
  size := by decide
  parts := hlen
  lt := hlt

/-- The ranks exchange their rows. -/
theorem parmetis_color_exchanged :
    (∀ run : ℕ → State 2 ℕ, ¬∀ i, (messages twoRows fun p => [1 - p]).Step (fun _ _ _ => False)
      (run i) (run (i + 1))) ∧
    ∀ s, ReflTransGen ((messages twoRows fun p => [1 - p]).Step fun _ _ _ => False) .initial s →
      (∀ p r m, s.flight (p, r) = some m →
        m.length = (recv_cnts twoRows (fun p => [1 - p]) r).getD p 0) ∧
      (s.Final ∨ ∃ t, (messages twoRows fun p => [1 - p]).Step (fun _ _ _ => False) s t) ∧
      (s.Final → Partitioned twoRows (fun p => [1 - p]) [0, 1, 2] 2 s) :=
  parmetis_color twoRows (fun p => [1 - p]) [0, 1, 2] 2
    (twoRows_valid _ (by decide) (by decide)) fun _ _ _ => False

/-- All rows go to the first rank: on the other one there is no primary set. -/
theorem not_colored_everywhere : ValidParts twoRows (fun _ => [0]) [0, 1, 2] 2 ∧
    ¬∀ s, ReflTransGen ((messages twoRows fun _ => [0]).Step fun _ _ _ => False) .initial s →
      s.Final → ∀ r : Fin 2, ∃ ids, color twoRows (fun _ => [0]) s r = some ids ∧
        ∀ i, i ∈ ids ↔ ∃ p, ∃ k < (twoRows p).size, ([0] : List ℕ).getD k 0 = r ∧
          i = [0, 1, 2].getD p 0 + k := by
  have hv := twoRows_valid (fun _ => [0]) (by decide) (by decide)
  have hann := announced_eq twoRows fun _ => [0]
  refine ⟨hv, fun h => ?_⟩
  obtain ⟨s, hs, hfinal⟩ : ∃ s, ReflTransGen ((messages twoRows fun _ => [0]).Step fun _ _ _ => False)
      .initial s ∧ s.Final :=
    Runs.exists_final (fun _ _ => Exchange.inv_step hann) (fun _ _ => Exchange.weight_step)
      (fun _ => Exchange.progress hann) Exchange.inv_initial
  obtain ⟨ids, hids, -⟩ := h s hs hfinal 1
  have hnone := ((partitioned_of_final hv (Exchange.inv_reachable hann hs) hfinal).fails 1).mpr (by decide)
  exact absurd (hids.symm.trans hnone) nofun

end Flecsi.Coloring.ParmetisColorer
