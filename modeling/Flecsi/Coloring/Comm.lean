import Flecsi.Lib.PackedBuffer

/-!
# Ranks and the exchange of packed buffers

The state of a program on `n` ranks is a function of the rank; a collective
call takes the arguments of all ranks and gives the results of all ranks.
`exchange` is the block the coloring functions repeat: an `MPI_Alltoall` of
the counts, the displacements, a receive buffer, `alltoallv`. On packed buffers
it transposes the segments (`exchange_pack`).
-/

namespace Flecsi.Coloring

open PackedBuffer

-- ---------------------------------------------------------------------------
-- All ranks
-- ---------------------------------------------------------------------------

/-- A step every rank takes; it fails when some rank fails an assertion. -/
def allRanks (f : Fin n → Option α) : Option (Fin n → α) :=
  if h : ∀ r, (f r).isSome then some fun r => (f r).get (h r) else none

theorem allRanks_eq_some {f : Fin n → Option α} {g : Fin n → α} :
    allRanks f = some g ↔ ∀ r, f r = some (g r) := by
  unfold allRanks
  split
  · rename_i h
    simp only [Option.some.injEq, funext_iff]
    refine forall_congr' fun r => ?_
    rw [← Option.some_inj, Option.some_get]
  · rename_i h
    simp only [reduceCtorEq, false_iff]
    intro hg
    exact h fun r => by simp [hg r]

theorem allRanks_some (g : Fin n → α) : allRanks (fun r => some (g r)) = some g :=
  allRanks_eq_some.mpr fun _ => rfl

/-- A loop whose steps all succeed. -/
theorem mapM_some {f : α → Option β} {g : α → β} {l : List α} (h : ∀ x ∈ l, f x = some (g x)) :
    l.mapM f = some (l.map g) := by
  induction l with
  | nil => rfl
  | cons x l ih =>
    rw [List.mapM_cons, h x (by simp), ih fun y hy => h y (by simp [hy])]
    rfl

theorem mem_mapM {f : α → Option β} {l : List α} (h : ∀ x ∈ l, ∃ y, f x = some y) :
    ∃ ys, l.mapM f = some ys ∧ ∀ y, y ∈ ys ↔ ∃ x ∈ l, f x = some y := by
  induction l with
  | nil => exact ⟨[], rfl, by simp⟩
  | cons x l ih =>
    obtain ⟨y, hy⟩ := h x (by simp)
    obtain ⟨ys, hys, hmem⟩ := ih fun z hz => h z (by simp [hz])
    refine ⟨y :: ys, by rw [List.mapM_cons, hy, hys]; rfl, fun z => ?_⟩
    simp only [List.mem_cons, exists_eq_or_imp, hmem, hy, Option.some_inj, eq_comm (a := z)]

/-- `MPI_Alltoall` of one element per pair of ranks. -/
def mpiAlltoall (sendcounts : Fin n → List ℕ) : Fin n → List ℕ :=
  fun p => List.ofFn fun r => (sendcounts r).getD p 0

/-- `MPI_Allgather` of one element per rank. -/
def mpiAllgather (x : Fin n → α) : List α := List.ofFn x

/-- `MPI_Allreduce` with `MPI_MAX`. -/
def mpiAllreduceMax (x : Fin n → ℕ) : ℕ := (List.ofFn x).foldl max 0

theorem le_foldl_max {l : List ℕ} {a x : ℕ} (h : x = a ∨ x ∈ l) : x ≤ l.foldl max a := by
  induction l generalizing a x with
  | nil => simp_all
  | cons y l ih =>
    rcases h with rfl | h
    · exact (le_max_left x y).trans (ih (.inl rfl))
    · rcases List.mem_cons.mp h with rfl | h
      · exact (le_max_right a x).trans (ih (.inl rfl))
      · exact ih (.inr h)

theorem le_mpiAllreduceMax (x : Fin n → ℕ) (r : Fin n) : x r ≤ mpiAllreduceMax x :=
  le_foldl_max (.inr (List.mem_ofFn.mpr ⟨r, rfl⟩))

-- ---------------------------------------------------------------------------
-- alltoallv
-- ---------------------------------------------------------------------------

/-- `std::numeric_limits<int>::max() - 1`, the most elements one call takes. -/
def intmax : ℕ := 2147483646

/-- The pieces `(start, sz)` that one peer's elements are posted in. -/
def pieces (count start : ℕ) : List (ℕ × ℕ) :=
  if count = 0 then [] else
    let sz := min count intmax
    (start, sz) :: pieces (count - sz) (start + sz)
termination_by count
decreasing_by simp only [intmax]; omega

/-- The messages of one sender: its k-th send goes to the k-th receive posted
for it, and must fit there. Calls left without a partner never complete. -/
def deliver (sendbuf : List α) :
    List (ℕ × ℕ) → List (ℕ × ℕ) → List α → Option (List α)
  | [], [], recvbuf => some recvbuf
  | (sstart, ssz) :: sends, (rstart, rsz) :: recvs, recvbuf =>
    if ssz ≤ rsz then
      deliver sendbuf sends recvs (writeAt recvbuf rstart ((sendbuf.drop sstart).take ssz))
    else none
  | _, _, _ => none

/-- What rank `p` receives from rank `r`. -/
def receive (p : Fin n) (send : Fin n → Buffer α) (counts displs : List ℕ) (recvbuf : List α)
    (r : Fin n) : Option (List α) :=
  deliver (send r).buf (pieces ((send r).counts.getD p 0) ((send r).displs.getD p 0))
    (pieces (counts.getD r 0) (displs.getD r 0)) recvbuf

/-- `alltoallv`: receives and sends are posted piece by piece, then waited for. -/
def alltoallv (send recv : Fin n → Buffer α) : Option (Fin n → List α) :=
  allRanks fun p =>
    (List.finRange n).foldlM (receive p send (recv p).counts (recv p).displs) (recv p).buf

/-- The counts, the displacements and the receive buffer, then `alltoallv`. -/
def exchange [Inhabited α] (send : Fin n → Buffer α) : Option (Fin n → Buffer α) := do
  let recvcounts := mpiAlltoall fun r => (send r).counts
  let recv := fun p => Buffer.mk (recvcounts p) (displs (recvcounts p))
    (List.replicate ((displs (recvcounts p)).getD n 0) default)
  let recvbuf ← alltoallv send recv
  some fun p => { recv p with buf := recvbuf p }

/-- Pieces of equal counts put the whole slice in place. -/
theorem deliver_pieces (sendbuf recvbuf : List α) (count sstart rstart : ℕ)
    (h : sstart + count ≤ sendbuf.length) :
    deliver sendbuf (pieces count sstart) (pieces count rstart) recvbuf =
      some (writeAt recvbuf rstart ((sendbuf.drop sstart).take count)) := by
  induction count using Nat.strong_induction_on generalizing recvbuf sstart rstart with
  | _ count ih =>
    by_cases hc : count = 0
    · subst hc
      rw [pieces, pieces]
      simp [deliver, writeAt]
    · have hpos : 0 < min count intmax := by simp only [intmax]; omega
      have hlen : ((sendbuf.drop sstart).take (min count intmax)).length = min count intmax := by
        simp; omega
      have hjoin : (sendbuf.drop sstart).take (min count intmax) ++
          (sendbuf.drop (sstart + min count intmax)).take (count - min count intmax) =
          (sendbuf.drop sstart).take count := by
        rw [← List.drop_drop, ← List.take_add, Nat.add_sub_cancel' (min_le_left _ _)]
      rw [pieces, pieces, if_neg hc, if_neg hc]
      simp only [deliver, le_refl, ↓reduceIte]
      rw [ih _ (by omega) _ _ _ (by omega), ← hjoin, ← writeAt_writeAt, hlen]

section
variable (seg : Fin n → Fin n → List α) (p : Fin n)

/-- One sender's segment replaces the receiver's block for it. -/
theorem receive_pack (r : Fin n) (f : Fin n → List α) (hf : ∀ q, (f q).length = (seg q p).length) :
    receive p (fun r => pack (seg r)) (pack fun q => seg q p).counts (pack fun q => seg q p).displs
      (List.ofFn f).flatten r = some (List.ofFn (Function.update f r (seg r p))).flatten := by
  obtain ⟨pre, post, hb, hl⟩ := pack_split (seg r) p
  have hdis : (pack fun q => seg q p).displs.getD r 0 = (((List.ofFn f).take r).flatten).length := by
    rw [pack_displs_getD _ r.isLt.le]
    simp only [List.length_flatten, List.map_take, List.map_ofFn, Function.comp_def, hf]
  have hcnt : (pack fun q => seg q p).counts.getD r 0 = (pack (seg r)).counts.getD p 0 := by
    rw [pack_counts_getD, pack_counts_getD]
  have hin : (pack (seg r)).displs.getD p 0 + (pack (seg r)).counts.getD p 0 ≤
      (pack (seg r)).buf.length := by
    rw [pack_counts_getD, ← hl, hb]
    simp
  have hblock : writeAt (f r) 0 (seg r p) = seg r p := by
    have := writeAt_fill [] (f r) (seg r p) (by simp [hf])
    rw [List.drop_eq_nil_of_le (by simp [hf])] at this
    simpa using this
  have hwrite := writeAt_flatten f r 0 (seg r p) (by simp [hf])
  rw [Nat.add_zero, hblock] at hwrite
  rw [receive, hcnt, deliver_pieces _ _ _ _ _ hin, pack_slice, hdis, hwrite]

/-- After the ranks of `l` are received from, their blocks hold their segments. -/
theorem foldlM_receive (l : List (Fin n)) (f : Fin n → List α)
    (hf : ∀ q, (f q).length = (seg q p).length) :
    l.foldlM (receive p (fun r => pack (seg r)) (pack fun q => seg q p).counts
      (pack fun q => seg q p).displs) (List.ofFn f).flatten =
      some (List.ofFn fun q => if q ∈ l then seg q p else f q).flatten := by
  induction l generalizing f with
  | nil => simp
  | cons r l ih =>
    rw [List.foldlM_cons, receive_pack seg p r f hf]
    refine (ih (Function.update f r (seg r p)) fun q => ?_).trans ?_
    · by_cases hq : q = r
      · subst hq; simp
      · simp [hq, hf]
    · congr 3
      funext q
      by_cases hq : q = r
      · subst hq; simp
      · simp [hq]

/-- The receive buffer has one block for each sender. -/
theorem replicate_blocks [Inhabited α] :
    List.replicate ((pack fun r => seg r p).displs.getD n 0) (default : α) =
      (List.ofFn fun q => List.replicate (seg q p).length default).flatten := by
  rw [pack_displs_last, eq_comm, List.eq_replicate_iff]
  constructor
  · simp [pack, List.length_flatten, List.map_ofFn, Function.comp_def]
  · simp [List.mem_ofFn]

end

/-- Receivers that expect the lengths of the segments get the segments meant for them. -/
theorem alltoallv_pack [Inhabited α] (seg : Fin n → Fin n → List α) :
    alltoallv (fun r => pack (seg r)) (fun p => Buffer.mk (pack fun r => seg r p).counts
      (pack fun r => seg r p).displs
      (List.replicate ((pack fun r => seg r p).displs.getD n 0) default)) =
      some fun p => (pack fun r => seg r p).buf := by
  refine allRanks_eq_some.mpr fun p => ?_
  dsimp only
  rw [replicate_blocks, foldlM_receive _ _ _ _ (by simp)]
  simp [pack]

/-- The exchange of packed buffers gives every rank the buffer of the segments
meant for it, in rank order. -/
theorem exchange_pack [Inhabited α] (seg : Fin n → Fin n → List α) :
    exchange (fun r => pack (seg r)) = some fun p => pack fun r => seg r p := by
  have hcounts : ∀ p, mpiAlltoall (fun r => (pack (seg r)).counts) p =
      (pack fun r => seg r p).counts := fun p => by
    simp [mpiAlltoall, pack]
  have hdispls : ∀ p, displs (pack fun r => seg r p).counts = (pack fun r => seg r p).displs :=
    fun _ => rfl
  simp only [exchange, hcounts, hdispls]
  rw [alltoallv_pack]
  rfl

/-- A round: every rank packs its records, and gets those meant for it. -/
theorem exchange_items [Inhabited α] {items : Fin n → List (ℕ × ρ)} (enc : ρ → List α)
    (len : ρ → ℕ) (hl : ∀ x, len x = (enc x).length) (hd : ∀ r, ∀ it ∈ items r, it.1 < n) :
    exchange (fun r => packMessages n ((items r).map fun it => (it.1, len it.2))
      ((items r).map fun it => (it.1, enc it.2))) =
      some fun p : Fin n => pack fun r => (itemsFor p (items r)).flatMap enc := by
  simp only [packMessages_items hl (hd _)]
  exact exchange_pack fun r p => (itemsFor p (items r)).flatMap enc

/-- A round whose records are read with an invariant of those read so far. -/
theorem exchange_run [Inhabited α] (items : Fin n → List (ℕ × ρ)) (enc : ρ → List α)
    (len : ρ → ℕ) (record : List α → ℕ → ℕ → ℕ → σ → Option (ℕ × σ))
    (J : Fin n → List (ℕ × ρ) → σ → Prop) (s : Fin n → σ)
    (hl : ∀ x, len x = (enc x).length) (hpos : ∀ x, enc x ≠ [])
    (hd : ∀ r, ∀ it ∈ items r, it.1 < n) (hJ : ∀ p, J p [] (s p))
    (hr : ∀ (p : Fin n) buf l (r : Fin n) rec stop,
      l ++ [((r : ℕ), rec)] <+: allRecords (fun r => itemsFor p (items r)) →
      ReadsTo (J p) buf stop (enc ∘ Prod.snd) (record buf r stop) l (r, rec)) :
    ∃ recv out, exchange (fun r => packMessages n ((items r).map fun it => (it.1, len it.2))
        ((items r).map fun it => (it.1, enc it.2))) = some recv ∧
      allRanks (fun p => readSegments n (record (recv p).buf) (recv p).displs (s p)) = some out ∧
      ∀ p : Fin n, J p (allRecords fun r => itemsFor p (items r)) (out p) := by
  choose out hout hJout using fun p : Fin n => readSegments_run (s := s p)
    (fun l r rec h stop => hr p _ l r rec stop h) (fun _ _ _ => hpos _) (hJ p)
  exact ⟨_, out, exchange_items enc len hl hd, allRanks_eq_some.mpr hout, hJout⟩

end Flecsi.Coloring
