import Flecsi.Execution.DenseExchange

/-!
# Dense ghosts are coherent when a task reads them

A set flag says that the ghosts of the field are up to date. Every task keeps this: the
exchange stores, element by element, what the owners hold, and a task that may change
shared elements clears the flag.
-/

namespace Flecsi.Execution

open Coloring PackedBuffer SlotCopy

-- ---------------------------------------------------------------------------
-- Metadata
-- ---------------------------------------------------------------------------

theorem metadata_ghost (size : ℕ) (c : IndexColoring) (rank : ℕ) :
    addresses ((registerFieldMetadata size c).ghost_indices rank) =
      (ghostEntries c rank).flatMap fun x => List.range' (x.2 * size) size := by
  have hitems : itemsFor rank (c.ghost.zipIdx.map fun x => (x.1.rank, x.2 * size)) =
      (ghostEntries c rank).map fun x => x.2 * size := by
    simp [itemsFor, ghostEntries, List.filter_map, Function.comp_def]
  rw [registerFieldMetadata, addresses_collectRanges, hitems, List.flatMap_map]

theorem metadata_shared (size : ℕ) (c : IndexColoring) (rank : ℕ) :
    addresses ((registerFieldMetadata size c).shared_indices rank) =
      (userEntries c rank).flatMap fun e => List.range' (e.offset * size) size := by
  rw [registerFieldMetadata, addresses_collectRanges,
    itemsFor_flatMap (fun e _ => e.shared.sort_nodup (· ≤ ·)), List.flatMap_map]
  simp [userEntries]

section
variable {r : Registry n}

theorem cells_ghostSlots (modified_fields : Fin n → List ℕ) (p q : Fin n) :
    cells (ghostSlots r modified_fields p q) =
      (exchanged r.fieldColoring (modified_fields p) p q).flatMap fun x =>
        (List.range' (x.2.2 * r.size x.1) (r.size x.1)).map fun a => (x.1, r.ghostData x.1 p + a) := by
  simp only [ghostSlots, cells_flatMap, cells_map, Registry.metadata, metadata_ghost,
    List.map_flatMap, exchanged, List.flatMap_assoc, List.flatMap_map]

/-- The shared elements in the message are those the ghosts stand for, in their order. -/
theorem cells_sharedSlots (hr : ∀ i, ExchangeColoring (r.coloring i)) {modified_fields : Fin n → List ℕ}
    (p q : Fin n) (hm : modified_fields q = modified_fields p) :
    cells (sharedSlots r modified_fields q p) =
      (exchanged r.fieldColoring (modified_fields p) p q).flatMap fun x =>
        (List.range' (x.2.1.offset * r.size x.1) (r.size x.1)).map
          fun a => (x.1, r.sharedData x.1 q + a) := by
  simp only [sharedSlots, cells_flatMap, cells_map, Registry.metadata, metadata_shared,
    List.map_flatMap, hm]
  exact flatMap_userEntries (fun f => hr (r.fields f).index_space) _ p q fun f offset =>
    (List.range' (offset * r.size f) (r.size f)).map fun a => (f, r.sharedData f q + a)

theorem ghost_size_eq (f : ℕ) (p q : Fin n) :
    (r.metadata f p).ghost_field_sizes q = (ghostEntries (r.fieldColoring f p) q).length * r.size f := by
  have hsum := sum_lengths ((r.metadata f p).ghost_indices q)
  rw [Registry.metadata, metadata_ghost] at hsum
  refine hsum.trans ?_
  simp [List.length_flatMap]

theorem shared_size_eq (hr : ∀ i, ExchangeColoring (r.coloring i)) (f : ℕ) (p q : Fin n) :
    (r.metadata f q).shared_field_sizes p = (r.metadata f p).ghost_field_sizes q := by
  have hsum := sum_lengths ((r.metadata f q).shared_indices p)
  rw [Registry.metadata, metadata_shared] at hsum
  refine hsum.trans ?_
  have hlen : (ghostEntries (r.fieldColoring f p) q).length =
      (userEntries (r.fieldColoring f q) p).length :=
    (hr (r.fields f).index_space).length_ghostEntries p q
  rw [ghost_size_eq, hlen]
  simp [List.length_flatMap]

theorem toInt_eq_some : toInt x = some y ↔ x < 2 ^ 31 ∧ x = y := by
  simp [toInt]

theorem messageSize_from {sizes : ℕ → ℕ} {fs : List ℕ} (k : ℕ)
    (h : fs.foldlM (fun size f => toInt (size + sizes f)) k = some m) :
    m = k + (fs.map sizes).sum := by
  induction fs generalizing k with
  | nil => simpa using h.symm
  | cons f fs ih =>
    obtain ⟨size, hsize, hfold⟩ := Option.bind_eq_some_iff.mp h
    obtain ⟨-, rfl⟩ := toInt_eq_some.mp hsize
    rw [ih _ hfold, List.map_cons, List.sum_cons, Nat.add_assoc]

theorem messageSize_eq {sizes : ℕ → ℕ} {fs : List ℕ} (h : messageSize sizes fs = some m) :
    m = (fs.map sizes).sum := by
  rw [messageSize_from 0 h, Nat.zero_add]

theorem messageSize_fits (sizes : ℕ → ℕ) (fs : List ℕ) (k : ℕ)
    (h : k + (fs.map sizes).sum < 2 ^ 31) :
    fs.foldlM (fun size f => toInt (size + sizes f)) k = some (k + (fs.map sizes).sum) := by
  induction fs generalizing k with
  | nil => rfl
  | cons f fs ih =>
    rw [List.map_cons, List.sum_cons, ← Nat.add_assoc] at h ⊢
    have hsize : toInt (k + sizes f) = some (k + sizes f) :=
      toInt_eq_some.mpr ⟨by omega, rfl⟩
    rw [List.foldlM_cons, hsize]
    exact ih _ h

theorem messageSize_some {sizes : ℕ → ℕ} {fs : List ℕ} (h : (fs.map sizes).sum < 2 ^ 31) :
    messageSize sizes fs = some (fs.map sizes).sum := by
  have hfits := messageSize_fits sizes fs 0
  rw [Nat.zero_add] at hfits
  exact hfits h

-- ---------------------------------------------------------------------------
-- The exchange
-- ---------------------------------------------------------------------------

/-- What the owner holds for a ghost byte. -/
def ownerByte (r : Registry n) (data : Fin n → ℕ → List UInt8) (p : Fin n) (c : ℕ × ℕ) :
    Option UInt8 := do
  let address := c.2 - r.ghostData c.1 p
  let ghost ← (r.fieldColoring c.1 p).ghost[address / r.size c.1]?
  if h : ghost.rank < n then
    (data ⟨ghost.rank, h⟩ c.1)[r.sharedData c.1 ⟨ghost.rank, h⟩ +
      (ghost.offset * r.size c.1 + address % r.size c.1)]?
  else none

theorem ownerByte_eq {data : Fin n → ℕ → List UInt8} {x : ℕ × EntityInfo × ℕ}
    (hx : x ∈ exchanged r.fieldColoring fs p q) (hb : b < r.size x.1) :
    ownerByte r data p (x.1, r.ghostData x.1 p + (x.2.2 * r.size x.1 + b)) =
      (data q x.1)[r.sharedData x.1 q + (x.2.1.offset * r.size x.1 + b)]? := by
  obtain ⟨-, hghost, hrank⟩ := mem_exchanged.mp hx
  have hdiv : (x.2.2 * r.size x.1 + b) / r.size x.1 = x.2.2 := by
    rw [Nat.mul_comm, Nat.mul_add_div (by omega), Nat.div_eq_of_lt hb, Nat.add_zero]
  have hmod : (x.2.2 * r.size x.1 + b) % r.size x.1 = b := by
    rw [Nat.mul_comm, Nat.mul_add_mod, Nat.mod_eq_of_lt hb]
  have hq : (⟨x.2.1.rank, hrank ▸ q.isLt⟩ : Fin n) = q := Fin.ext hrank
  simp only [ownerByte, Nat.add_sub_cancel_left, hdiv, hmod, hghost, Option.bind_eq_bind,
    Option.bind_some, dif_pos (hrank ▸ q.isLt : x.2.1.rank < n), hq]

/-- What an exchange of the fields `fs` does to the buffers. -/
structure Exchanged (r : Registry n) (fs : List ℕ) (data data' : Fin n → ℕ → List UInt8) : Prop where
  length : ∀ p f, (data' p f).length = (data p f).length
  frame : ∀ p f i, (f ∉ fs ∨ i < r.ghostData f p) → (data' p f)[i]? = (data p f)[i]?
  ghosts : ∀ p q, ∀ x ∈ exchanged r.fieldColoring fs p q, ∀ b < r.size x.1,
    (data' p x.1)[r.ghostData x.1 p + (x.2.2 * r.size x.1 + b)]? =
      (data q x.1)[r.sharedData x.1 q + (x.2.1.offset * r.size x.1 + b)]?

section
variable (hr : ∀ i, ExchangeColoring (r.coloring i)) {fs : List ℕ}
  {data : Fin n → ℕ → List UInt8} (hdata : ∀ p f, (data p f).length = r.dataSize f p)
  {ghostSize sharedSize : Fin n → Fin n → ℕ}
  (hghost : ∀ p q : Fin n, ghostSize p q = (fs.map fun f => (r.metadata f p).ghost_field_sizes q).sum)
  (hshared : ∀ p q : Fin n, sharedSize p q = (fs.map fun f => (r.metadata f p).shared_field_sizes q).sum)

include hr hdata hghost hshared in
theorem densePlan_matched :
    (densePlan r (fun _ => fs) ghostSize sharedSize).Matched data data (ownerByte r data) := by
  have hlen (p q : Fin n) : (cells (ghostSlots r (fun _ => fs) p q)).length = ghostSize p q := by
    rw [cells_ghostSlots, hghost, exchanged, List.flatMap_assoc, List.length_flatMap]
    congr 1
    refine List.map_congr_left fun f _ => ?_
    rw [ghost_size_eq]
    simp [List.flatMap_map, List.length_flatMap]
  have hsize (p q : Fin n) : ghostSize p q = sharedSize q p := by
    rw [hghost, hshared]
    simp only [shared_size_eq hr]
  refine ⟨fun p q => ?_, fun p q h => ?_, fun p q k h => ?_, fun p q s hs => ?_,
    fun p q s hs => ?_, fun p q => ?_⟩
  · exact congrArg posted (hsize p q)
  · have hzero : ghostSize p q = 0 := by
      by_contra hne
      simp [densePlan, posted, hne] at h
    exact List.length_eq_zero_iff.mp ((hlen p q).trans hzero)
  · have hk : ghostSize p q = k := by
      by_cases hne : ghostSize p q = 0
      · simp [densePlan, posted, hne] at h
      · simpa [densePlan, posted, hne] using h
    exact (hlen p q).trans hk
  · obtain ⟨f, -, hs⟩ := List.mem_flatMap.mp hs
    obtain ⟨ind, hind, rfl⟩ := List.mem_map.mp hs
    have hle := collectRanges_le ((r.fieldColoring f q).shared.length * r.size f)
      (fun e he => ?_) p ind hind
    · have hd := hdata q f
      simp only [Registry.dataSize, Registry.ghostData] at hd ⊢
      omega
    · obtain ⟨shared, hshared, he⟩ := List.mem_flatMap.mp he
      obtain ⟨s, -, rfl⟩ := List.mem_map.mp he
      have hoff := (hr (r.fields f).index_space).offset_lt hshared
      rw [← Nat.succ_mul]
      exact Nat.mul_le_mul_right _ hoff
  · obtain ⟨f, -, hs⟩ := List.mem_flatMap.mp hs
    obtain ⟨ind, hind, rfl⟩ := List.mem_map.mp hs
    have hle := collectRanges_le ((r.fieldColoring f p).ghost.length * r.size f)
      (fun e he => ?_) q ind hind
    · have hd := hdata p f
      simp only [Registry.dataSize] at hd ⊢
      omega
    · obtain ⟨x, hx, rfl⟩ := List.mem_map.mp he
      have hlt := (List.getElem?_eq_some_iff.mp (List.mem_zipIdx_iff_getElem?.mp hx)).1
      simp only
      rw [← Nat.succ_mul]
      exact Nat.mul_le_mul_right _ hlt
  · simp only [densePlan]
    rw [cells_ghostSlots, cells_sharedSlots hr p q rfl, List.map_flatMap, List.map_flatMap]
    refine List.flatMap_congr fun x hx => ?_
    rw [List.range'_eq_map_range, List.range'_eq_map_range]
    simp only [List.map_map]
    refine List.map_congr_left fun b hb => ?_
    exact ownerByte_eq hx (List.mem_range.mp hb)

include hr hdata hghost hshared in
theorem densePlan_exchange :
    ∃ data', (densePlan r (fun _ => fs) ghostSize sharedSize).exchange data data = some data' ∧
      Exchanged r fs data data' := by
  obtain ⟨data', hex, hspec⟩ := (densePlan_matched hr hdata hghost hshared).exchange_eq
  refine ⟨data', hex, fun p f => (hspec p).1.length f, fun p f i hout => ?_, fun p q x hx b hb => ?_⟩
  · refine (hspec p).1.frame (f, i) fun hmem => ?_
    obtain ⟨q, -, hmem⟩ := List.mem_flatMap.mp hmem
    simp only [densePlan, cells_ghostSlots] at hmem
    obtain ⟨x, hx, hmem⟩ := List.mem_flatMap.mp hmem
    obtain ⟨a, -, heq⟩ := List.mem_map.mp hmem
    obtain ⟨rfl, rfl⟩ := Prod.ext_iff.mp heq
    rcases hout with hout | hout
    · exact hout (mem_exchanged.mp hx).1
    · simp only at hout
      omega
  · rw [← ownerByte_eq hx hb]
    refine (hspec p).2 q (x.1, r.ghostData x.1 p + (x.2.2 * r.size x.1 + b)) ?_
    simp only [densePlan, cells_ghostSlots]
    refine List.mem_flatMap.mpr ⟨x, hx, List.mem_map.mpr ⟨x.2.2 * r.size x.1 + b, ?_, rfl⟩⟩
    exact List.mem_range'_1.mpr ⟨by omega, by omega⟩

include hr hdata in
omit hghost hshared in
theorem launch_exchanged {data' : Fin n → ℕ → List UInt8}
    (h : launchDenseExchange r (fun _ => fs) data = some data') : Exchanged r fs data data' := by
  obtain ⟨ghostSize, hg, h⟩ := Option.bind_eq_some_iff.mp h
  obtain ⟨sharedSize, hs, h⟩ := Option.bind_eq_some_iff.mp h
  have hghost (p q : Fin n) := messageSize_eq (allRanks_eq_some.mp (allRanks_eq_some.mp hg p) q)
  have hshared (p q : Fin n) := messageSize_eq (allRanks_eq_some.mp (allRanks_eq_some.mp hs p) q)
  obtain ⟨data₁, hex, hdata₁⟩ := densePlan_exchange hr hdata hghost hshared
  obtain rfl : data₁ = data' := Option.some.inj (hex.symm.trans h)
  exact hdata₁

include hr hdata in
omit hghost hshared in
theorem launch_some (h : ∀ p q : Fin n,
    (fs.map fun f => (r.metadata f p).ghost_field_sizes q).sum < 2 ^ 31) :
    ∃ data', launchDenseExchange r (fun _ => fs) data = some data' := by
  obtain ⟨data', hex, -⟩ := densePlan_exchange hr hdata (fun _ _ => rfl) (fun _ _ => rfl)
  have hshared (p q : Fin n) : (fs.map fun f => (r.metadata f p).shared_field_sizes q).sum < 2 ^ 31 := by
    simp only [shared_size_eq hr]
    exact h q p
  refine ⟨data', ?_⟩
  simp only [launchDenseExchange, fun p q : Fin n => messageSize_some (h p q),
    fun p q : Fin n => messageSize_some (hshared p q), allRanks_some, Option.bind_eq_bind,
    Option.bind_some]
  exact hex

end

-- ---------------------------------------------------------------------------
-- Flags
-- ---------------------------------------------------------------------------

/-- The flags set after the walk are those set before and those of the collected fields. -/
theorem walk_flag (args : List DenseAccessor) (readable : ℕ → Bool) (st : (ℕ → Bool) × List ℕ)
    (h : ∀ f, st.1 f = true ↔ readable f = true ∨ f ∈ st.2) :
    ∀ f, (args.foldl prologDense st).1 f = true ↔
      readable f = true ∨ f ∈ (args.foldl prologDense st).2 := by
  induction args generalizing st with
  | nil => exact h
  | cons a args ih =>
    refine ih _ fun f => ?_
    unfold prologDense
    split
    · exact h f
    · by_cases hf : f = a.fid <;> simp [h, hf]

theorem prologDense_mono (st : (ℕ → Bool) × List ℕ) (a : DenseAccessor) (h : st.1 f = true) :
    (prologDense st a).1 f = true := by
  unfold prologDense
  split
  · exact h
  · by_cases hf : f = a.fid
    · simp [hf]
    · simpa [Function.update_of_ne hf] using h

/-- After the prolog the flag of every field whose ghosts the task reads is set. -/
theorem walk_readable {args : List DenseAccessor} {a : DenseAccessor} (ha : a ∈ args)
    (hro : a.ghost = .ro) (st : (ℕ → Bool) × List ℕ) :
    (args.foldl prologDense st).1 a.fid = true := by
  have hmono (args : List DenseAccessor) (st : (ℕ → Bool) × List ℕ) (h : st.1 a.fid = true) :
      (args.foldl prologDense st).1 a.fid = true := by
    induction args generalizing st with
    | nil => exact h
    | cons b args ih => exact ih _ (prologDense_mono st b h)
  induction args generalizing st with
  | nil => cases ha
  | cons b args ih =>
    cases ha with
    | head =>
      refine hmono args _ ?_
      unfold prologDense
      split
      · rename_i h
        simpa [hro] using h
      · simp
    | tail _ ha => exact ih ha _

theorem epilogDense_eq (readable : ℕ → Bool) {a : DenseAccessor} (ha : a.ghost = .na ∨ a.ghost = .ro) :
    epilogDense readable a =
      if a.shared.Writes then Function.update readable a.fid false else readable := by
  have hghost : ¬(a.ghost = .rw ∨ a.ghost = .wo) := by
    rcases ha with ha | ha <;> simp [ha]
  rw [epilogDense, if_neg hghost]
  exact if_congr or_comm rfl rfl

/-- A flag set after the epilog was set before, and nobody wrote the shared elements. -/
theorem epilog_readable {args : List DenseAccessor} (hargs : ∀ a ∈ args, a.ghost = .na ∨ a.ghost = .ro)
    (readable : ℕ → Bool) (h : args.foldl epilogDense readable f = true) :
    readable f = true ∧ ∀ a ∈ args, a.fid = f → ¬a.shared.Writes := by
  induction args generalizing readable with
  | nil => exact ⟨h, by simp⟩
  | cons a args ih =>
    obtain ⟨hread, hrest⟩ := ih (fun b hb => hargs b (by simp [hb])) _ h
    rw [epilogDense_eq readable (hargs a (by simp))] at hread
    split at hread
    · by_cases hf : f = a.fid
      · simp [hf] at hread
      · rw [Function.update_of_ne hf] at hread
        refine ⟨hread, fun b hb hbf => ?_⟩
        cases hb with
        | head => exact absurd hbf.symm hf
        | tail _ hb => exact hrest b hb hbf
    · rename_i hwrites
      refine ⟨hread, fun b hb hbf => ?_⟩
      cases hb with
      | head => exact hwrites
      | tail _ hb => exact hrest b hb hbf

-- ---------------------------------------------------------------------------
-- Coherence
-- ---------------------------------------------------------------------------

theorem element_congr {d d' : List UInt8} (h : ∀ b < size, d[i * size + b]? = d'[j * size + b]?) :
    element size d i = element size d' j := by
  refine List.ext_getElem? fun b => ?_
  simp only [element, List.getElem?_take, List.getElem?_drop]
  split
  · exact h b ‹_›
  · rfl

theorem getElem?_of_element {d d' : List UInt8} (h : element size d i = element size d' j)
    (hb : b < size) : d[i * size + b]? = d'[j * size + b]? := by
  have hb' := congrArg (·[b]?) h
  simpa [element, List.getElem?_take, List.getElem?_drop, hb] using hb'

theorem ghost_index (f : ℕ) (p : Fin n) (i b : ℕ) :
    ((r.fieldColoring f p).exclusive.length + (r.fieldColoring f p).shared.length + i) * r.size f + b =
      r.ghostData f p + (i * r.size f + b) := by
  simp only [Registry.ghostData, Registry.sharedData]
  ring

theorem shared_index (f : ℕ) (p : Fin n) (i b : ℕ) :
    ((r.fieldColoring f p).exclusive.length + i) * r.size f + b =
      r.sharedData f p + (i * r.size f + b) := by
  simp only [Registry.sharedData]
  ring

/-- A byte of a shared element lies before the ghosts. -/
theorem shared_lt {f : ℕ} {p : Fin n} (hi : i < (r.fieldColoring f p).shared.length)
    (hb : b < r.size f) : r.sharedData f p + (i * r.size f + b) < r.ghostData f p := by
  have hle : (i + 1) * r.size f ≤ (r.fieldColoring f p).shared.length * r.size f :=
    Nat.mul_le_mul_right _ hi
  rw [Nat.succ_mul] at hle
  simp only [Registry.ghostData]
  omega

theorem Coherent.congr {s s' : Fin n → DenseContext} (h : Coherent r s f)
    (hsame : ∀ p i, r.sharedData f p ≤ i →
      ((s' p).field_data f)[i]? = ((s p).field_data f)[i]?) : Coherent r s' f := by
  intro p i ghost hghost q hq
  have hold := h p i ghost hghost q hq
  refine element_congr fun b hb => ?_
  have hbyte := getElem?_of_element hold hb
  rw [ghost_index, shared_index] at hbyte ⊢
  rw [hsame p _ (by simp only [Registry.ghostData]; omega), hsame q _ (by omega), hbyte]

theorem Exchanged.coherent (hr : ∀ i, ExchangeColoring (r.coloring i)) {fs : List ℕ}
    {data : Fin n → ℕ → List UInt8} {s : Fin n → DenseContext}
    (h : Exchanged r fs data fun p => (s p).field_data) (hf : f ∈ fs) : Coherent r s f := by
  intro p i ghost hghost q hq
  refine element_congr fun b hb => ?_
  have hbyte := h.ghosts p q (f, ghost, i) (mem_exchanged.mpr ⟨hf, hghost, hq⟩) b hb
  obtain ⟨e, he, -, hoff, -⟩ :=
    (hr (r.fields f).index_space).owner (List.mem_of_getElem? hghost) hq
  have hlt := (hr (r.fields f).index_space).offset_lt he
  rw [← hoff] at hlt
  rw [ghost_index, shared_index, hbyte, h.frame q f _ (.inr (shared_lt hlt hb))]

/-- The state between two tasks. -/
structure DenseInv (r : Registry n) (s : Fin n → DenseContext) : Prop where
  length : ∀ p f, ((s p).field_data f).length = r.dataSize f p
  agree : ∃ readable, ∀ p, (s p).ghost_is_readable = readable
  coherent : ∀ p f, (s p).ghost_is_readable f = true → Coherent r s f

theorem initial_inv (hr : ∀ i, ExchangeColoring (r.coloring i)) : DenseInv r (initialContext r) where
  length p f := List.length_replicate
  agree := ⟨_, fun _ => rfl⟩
  coherent p f _ := by
    intro p i ghost hghost q hq
    refine element_congr fun b hb => ?_
    obtain ⟨e, he, -, hoff, -⟩ :=
      (hr (r.fields f).index_space).owner (List.mem_of_getElem? hghost) hq
    have hlt := shared_lt (hoff ▸ (hr (r.fields f).index_space).offset_lt he) hb
    have hi : (i + 1) * r.size f ≤ (r.fieldColoring f p).ghost.length * r.size f :=
      Nat.mul_le_mul_right _ (List.getElem?_eq_some_iff.mp hghost).1
    rw [Nat.succ_mul] at hi
    rw [ghost_index, shared_index]
    simp only [initialContext, Registry.dataSize, List.getElem?_replicate]
    rw [if_pos (by omega), if_pos (by omega)]

-- ---------------------------------------------------------------------------
-- Tasks
-- ---------------------------------------------------------------------------

theorem startTask_eq {s : Fin n → DenseContext} {readable : ℕ → Bool}
    (hread : ∀ p, (s p).ghost_is_readable = readable) (args : List DenseAccessor) :
    startTask r args s =
      (launchDenseExchange r (fun _ => modifiedFields args readable) fun p => (s p).field_data).map
        fun field_data p => ⟨field_data p, (args.foldl prologDense (readable, [])).1⟩ := by
  simp only [startTask, hread, modifiedFields, Option.bind_eq_bind, Option.map_eq_bind]
  rfl

section
variable (hr : ∀ i, ExchangeColoring (r.coloring i)) {s : Fin n → DenseContext} (h : DenseInv r s)
  {args : List DenseAccessor}
include hr h

theorem DenseInv.startTask_some (hfit : ∀ p, MessagesFit r args (s p).ghost_is_readable) :
    ∃ b, startTask r args s = some b := by
  obtain ⟨readable, hread⟩ := h.agree
  have hfit' : MessagesFit r args readable := fun p => hread p ▸ hfit p p
  obtain ⟨data, hdata⟩ := launch_some hr h.length hfit'
  refine ⟨fun p => ⟨data p, (args.foldl prologDense (readable, [])).1⟩, ?_⟩
  rw [startTask_eq hread, hdata]
  rfl

/-- When the task starts, the invariant holds with the flags of the fields it reads set. -/
theorem DenseInv.start (hb : startTask r args s = some b) : DenseInv r b ∧
    ∀ p, ∀ a ∈ args, a.ghost = .ro → (b p).ghost_is_readable a.fid = true := by
  obtain ⟨readable, hread⟩ := h.agree
  rw [startTask_eq hread] at hb
  obtain ⟨data, hlaunch, rfl⟩ := Option.map_eq_some_iff.mp hb
  have hex := launch_exchanged hr h.length hlaunch
  refine ⟨⟨fun p f => ?_, ⟨_, fun _ => rfl⟩, fun p f hf => ?_⟩,
    fun p a ha hro => walk_readable ha hro _⟩
  · rw [hex.length, h.length]
  · by_cases hmem : f ∈ modifiedFields args readable
    · exact hex.coherent hr hmem
    · have hold := ((walk_flag args readable (readable, []) (by simp) f).mp hf).resolve_right hmem
      rw [← hread p] at hold
      exact (h.coherent p f hold).congr fun p i _ => hex.frame p f i (.inl hmem)

omit hr in
theorem DenseInv.performs (hargs : ∀ a ∈ args, a.ghost = .na ∨ a.ghost = .ro)
    (hs : Performs r args s s') : DenseInv r (finishTask args s') where
  length p f := (hs.length p f).trans (h.length p f)
  agree := by
    obtain ⟨readable, hread⟩ := h.agree
    refine ⟨args.foldl epilogDense readable, fun p => ?_⟩
    simp only [finishTask, hs.flags, hread]
  coherent p f hf := by
    obtain ⟨hread, hwrites⟩ := epilog_readable hargs _ hf
    rw [hs.flags] at hread
    refine (h.coherent p f hread).congr fun p i hi => hs.frame p f i ?_
    rintro ⟨a, ha, hfid, hw | hw | hw⟩
    · exact absurd hw.1 (by omega)
    · exact hwrites a ha hfid hw.2.2
    · rcases hargs a ha with hg | hg <;> simp [hg, Privilege.Writes] at hw

theorem DenseInv.step (hargs : ∀ a ∈ args, a.ghost = .na ∨ a.ghost = .ro)
    (hs : TaskStep r args s s') : DenseInv r s' := by
  obtain ⟨b, b', hb, hrun, rfl⟩ := hs
  exact (h.start hr hb).1.performs hargs hrun

end

end

theorem dense_ghosts_coherent (r : Registry n) (hr : ∀ i, ExchangeColoring (r.coloring i))
    (s : Fin n → DenseContext) (hs : Reachable r s) (args : List DenseAccessor) :
    (∀ b, startTask r args s = some b →
      ∀ a ∈ args, a.ghost = .ro → Coherent r b a.fid) ∧
    ((∀ p, MessagesFit r args (s p).ghost_is_readable) → ∃ b, startTask r args s = some b) := by
  have hinv : DenseInv r s := Runs.invariant
    (fun a b ha ⟨args, hargs, hstep⟩ => ha.step hr hargs hstep) (initial_inv hr) hs
  refine ⟨fun b hb a ha hro p => ?_, hinv.startTask_some hr⟩
  obtain ⟨hinv, hread⟩ := hinv.start hr hb
  exact hinv.coherent p _ (hread p a ha hro) p

/-- One field of single bytes. -/
def pairRegistry : Registry 2 := ⟨fun _ => ⟨0, 1⟩, fun _ => pairColoring⟩

/-- Rank 0 has changed its shared byte. -/
def pairChanged (p : Fin 2) : DenseContext where
  field_data f := if p.val = 0 ∧ f = 0 then [7, 0] else [0, 0]
  ghost_is_readable f := f ≠ 0

theorem launch_nil (hr : ∀ i, ExchangeColoring (r.coloring i)) {data : Fin n → ℕ → List UInt8}
    (hdata : ∀ p f, (data p f).length = r.dataSize f p) :
    launchDenseExchange r (fun _ => []) data = some data := by
  have hfit (p q : Fin n) : (([] : List ℕ).map fun f => (r.metadata f p).ghost_field_sizes q).sum < 2 ^ 31 :=
    by simp
  obtain ⟨data', h⟩ := launch_some hr hdata hfit
  have hex := launch_exchanged hr hdata h
  have hsame : data' = data := funext fun p => funext fun f =>
    List.ext_getElem? fun i => hex.frame p f i (.inl List.not_mem_nil)
  rw [h, hsame]

theorem pairChanged_reachable : Reachable pairRegistry pairChanged := by
  refine Relation.ReflTransGen.single ⟨[⟨0, .rw, .rw, .na⟩], by simp, initialContext pairRegistry,
    fun p => ⟨(pairChanged p).field_data, fun _ => true⟩, ?_, ⟨fun p => rfl, ?_, ?_⟩, ?_⟩
  · have hstart := startTask_eq (r := pairRegistry) (s := initialContext pairRegistry)
      (fun _ => rfl) [⟨0, .rw, .rw, .na⟩]
    have hnil : modifiedFields [⟨0, .rw, .rw, .na⟩] (fun _ => true) = [] := rfl
    rw [hstart, hnil, launch_nil (fun _ => pairColoring_exchange)
      (initial_inv fun _ => pairColoring_exchange).length]
    rfl
  · intro p f
    simp only [pairChanged]
    split <;> rfl
  · intro p f i hw
    by_cases hpf : p = 0 ∧ f = 0
    · obtain ⟨rfl, rfl⟩ := hpf
      cases i with
      | zero =>
        refine absurd ⟨⟨0, .rw, .rw, .na⟩, by simp, rfl, .inr (.inl ⟨by decide, by decide, ?_⟩)⟩ hw
        exact .inr rfl
      | succ i => rfl
    · have hval : ¬(p.val = 0 ∧ f = 0) := fun h => hpf ⟨Fin.ext h.1, h.2⟩
      simp only [pairChanged, if_neg hval]
      rfl
  · funext p
    have hflags : (fun f => decide (f ≠ 0)) = Function.update (fun _ : ℕ => true) 0 false := by
      funext f
      by_cases hf : f = 0 <;> simp [hf]
    simp only [pairChanged, hflags]
    rfl

theorem dense_ghosts_coherent_pair : ∃ b,
    startTask pairRegistry [⟨0, .na, .na, .ro⟩] pairChanged = some b ∧ Coherent pairRegistry b 0 := by
  have h := dense_ghosts_coherent pairRegistry (fun _ => pairColoring_exchange) pairChanged
    pairChanged_reachable [⟨0, .na, .na, .ro⟩]
  obtain ⟨b, hb⟩ := h.2 (by unfold MessagesFit; decide)
  exact ⟨b, hb, h.1 b hb ⟨0, .na, .na, .ro⟩ (by simp) rfl⟩

end Flecsi.Execution
