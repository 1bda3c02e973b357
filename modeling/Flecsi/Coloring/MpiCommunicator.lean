import Flecsi.Coloring.Types
import Flecsi.Lib.ArrayLoops
import Flecsi.Lib.KeyedSet
import Flecsi.Lib.SetLoops
import Flecsi.Lib.SetPositions

/-!
# The communicator of the coloring functions

Every rank sends its request to all ranks, in blocks of the length of the longest request. What a
rank does not ask for is padded with the largest `size_t`, and so are the answers.
-/

namespace Flecsi.Coloring.MpiCommunicator

open SetPositions ArrayLoops

-- ---------------------------------------------------------------------------
-- Requests
-- ---------------------------------------------------------------------------

/-- `std::numeric_limits<size_t>::max()`. -/
def sizeMax : ℕ := 2 ^ 64 - 1

/-- `MPI_Alltoall` of `count` elements per pair of ranks. -/
def mpiAlltoallOf (count : ℕ) (sendbuf : Fin n → List ℕ) (p : Fin n) : List ℕ :=
  (List.ofFn fun r : Fin n => ((sendbuf r).drop (p * count)).take count).flatten

def get_max_request_size (request_indices : Fin n → ℕ) : ℕ := mpiAllreduceMax request_indices

/-- `input_indices`, with a copy of the request for each color. -/
def inputIndices (request_indices : Finset ℕ) (max_request_indices colors : ℕ) : List ℕ :=
  (List.range colors).foldl (fun input_indices c =>
    (request_indices.sort.foldl (fun (s : List ℕ × ℕ) i =>
      (s.1.set (c * max_request_indices + s.2) i, s.2 + 1)) (input_indices, 0)).1)
    (List.replicate (colors * max_request_indices) sizeMax)

def get_info_indices (request_indices : Fin n → Finset ℕ) (max_request_indices : ℕ) : Fin n → List ℕ :=
  mpiAlltoallOf max_request_indices fun r => inputIndices (request_indices r) max_request_indices n

-- ---------------------------------------------------------------------------
-- get_primary_info
-- ---------------------------------------------------------------------------

/-- What a rank sends back, and the ranks that ask for each of its primary indices. -/
structure Answers where
  input_indices : List ℕ
  input_offsets : List ℕ
  local_ranks : List (Finset ℕ)

/-- The slots of the requests of the other ranks, in the order they are gone through. -/
def slots (color colors max_request_indices : ℕ) : List (ℕ × ℕ) :=
  (List.range colors).flatMap fun r =>
    if r = color then [] else (List.range max_request_indices).map fun i => (r, i)

def place (max_request_indices : ℕ) (slot : ℕ × ℕ) : ℕ := slot.1 * max_request_indices + slot.2

def fulfill (primary : Finset ℕ) (color max_request_indices : ℕ) (info_indices : List ℕ) (s : Answers)
    (slot : ℕ × ℕ) : Answers :=
  let k := place max_request_indices slot
  let index := info_indices.getD k 0
  if index ∈ primary then
    let offset := position primary index
    ⟨s.input_indices.set k color, s.input_offsets.set k offset, s.local_ranks.modify offset (insert slot.1)⟩
  else s

def fulfillAll (primary : Finset ℕ) (color colors max_request_indices : ℕ) (info_indices : List ℕ) : Answers :=
  (slots color colors max_request_indices).foldl (fulfill primary color max_request_indices info_indices)
    ⟨List.replicate (colors * max_request_indices) sizeMax, List.replicate (colors * max_request_indices) 0,
      List.replicate primary.card ∅⟩

/-- `std::set<entity_info_t>`. -/
abbrev EntitySet := KeyedSet EntityInfo.id

/-- The empty braces construct an `id_t`, so the shared set of a remote entity is that of rank zero. -/
def collect (request_indices_vector : List ℕ) (max_request_indices : ℕ) (ranks offsets : List ℕ)
    (remote : EntitySet) (slot : ℕ × ℕ) : EntitySet :=
  let k := place max_request_indices slot
  if ranks.getD k 0 ≠ sizeMax then
    remote.insert (entityInfo (request_indices_vector.getD slot.2 0) (ranks.getD k 0) (offsets.getD k 0) {0})
  else remote

section
variable (primary request_indices : Fin n → Finset ℕ) (max_request_indices : ℕ)

def answers (r : Fin n) : Answers :=
  fulfillAll (primary r) r n max_request_indices (get_info_indices request_indices max_request_indices r)

def infoRanks : Fin n → List ℕ :=
  mpiAlltoallOf max_request_indices fun r => (answers primary request_indices max_request_indices r).input_indices

def infoOffsets : Fin n → List ℕ :=
  mpiAlltoallOf max_request_indices fun r => (answers primary request_indices max_request_indices r).input_offsets

end

/-- `get_primary_info` on all ranks. -/
def get_primary_info (primary request_indices : Fin n → Finset ℕ) (p : Fin n) :
    List (Finset ℕ) × EntitySet :=
  let max_request_indices := get_max_request_size fun r => (request_indices r).card
  ((answers primary request_indices max_request_indices p).local_ranks,
    (slots p n max_request_indices).foldl (collect (request_indices p).sort max_request_indices
      (infoRanks primary request_indices max_request_indices p)
      (infoOffsets primary request_indices max_request_indices p)) (KeyedSet.empty _))

-- ---------------------------------------------------------------------------
-- get_intersection_info and get_entity_reduction
-- ---------------------------------------------------------------------------

/-- The indices of one rank's slice that are not padding. -/
def indexSet (info_indices : List ℕ) (max_request_indices r : ℕ) : Finset ℕ :=
  (List.range max_request_indices).foldl (fun s i =>
    let index := info_indices.getD (r * max_request_indices + i) 0
    if index ≠ sizeMax then insert index s else s) ∅

/-- `get_intersection_info` on all ranks; the map as its pairs. -/
def get_intersection_info (request_indices : Fin n → Finset ℕ) (p : Fin n) : List (ℕ × Finset ℕ) :=
  let max_request_indices := get_max_request_size fun r => (request_indices r).card
  let info_indices := get_info_indices request_indices max_request_indices p
  (List.range n).foldl (fun intersection_map (r : ℕ) =>
    if r = p then intersection_map
    else
      let intersection := indexSet info_indices max_request_indices r ∩ request_indices p
      if intersection.card ≠ 0 then intersection_map ++ [(r, intersection)] else intersection_map) []

/-- `get_entity_reduction` on all ranks; the map as the sets of the colors in turn. -/
def get_entity_reduction (local_indices : Fin n → Finset ℕ) (p : Fin n) : List (Finset ℕ) :=
  let max_request_indices := get_max_request_size fun r => (local_indices r).card
  let info_indices := get_info_indices local_indices max_request_indices p
  (List.range n).map (indexSet info_indices max_request_indices)

-- ---------------------------------------------------------------------------
-- What is in the buffers
-- ---------------------------------------------------------------------------

theorem length_inputIndices (request : Finset ℕ) (m colors : ℕ) :
    (inputIndices request m colors).length = colors * m := by
  have hloop : ∀ (l : List ℕ) (buf : List ℕ), (l.foldl (fun input_indices c =>
      (request.sort.foldl (fun (s : List ℕ × ℕ) i => (s.1.set (c * m + s.2) i, s.2 + 1))
        (input_indices, 0)).1) buf).length = buf.length := by
    intro l
    induction l with
    | nil => exact fun _ => rfl
    | cons c l ih => exact fun buf => (ih _).trans (length_foldl_write ..)
  rw [inputIndices, hloop, List.length_replicate]

/-- A block of a request. -/
def padded (request : Finset ℕ) (i : ℕ) : ℕ := request.sort.getD i sizeMax

theorem getElem?_inputIndices {request : Finset ℕ} {m colors c i : ℕ} (hcard : request.card ≤ m) (hc : c < colors)
    (hi : i < m) : (inputIndices request m colors)[c * m + i]? = some (padded request i) := by
  have hwrite : ∀ (buf : List ℕ) (c' : ℕ), buf.length = colors * m → (request.sort.foldl
      (fun (s : List ℕ × ℕ) i => (s.1.set (c' * m + s.2) i, s.2 + 1)) (buf, 0)).1[c * m + i]? =
        if c = c' ∧ i < request.card then request.sort[i]? else buf[c * m + i]? := by
    intro buf c' hbuf
    have hlt := block_lt hc hi
    rw [getElem?_foldl_write, Finset.length_sort, Nat.add_zero, hbuf]
    by_cases hcc : c = c' ∧ i < request.card
    · obtain ⟨rfl, hcard⟩ := hcc
      rw [if_pos (by omega), if_pos ⟨rfl, hcard⟩, Nat.add_sub_cancel_left]
    · rw [if_neg hcc, if_neg]
      rintro ⟨hle, hlt', -⟩
      obtain ⟨k, hk⟩ := Nat.exists_eq_add_of_le hle
      have hinj := block_inj hi (by omega : k < m) hk
      exact hcc ⟨hinj.1, by omega⟩
  have hloop : ∀ (l buf : List ℕ), buf.length = colors * m → (l.foldl (fun input_indices c =>
      (request.sort.foldl (fun (s : List ℕ × ℕ) i => (s.1.set (c * m + s.2) i, s.2 + 1))
        (input_indices, 0)).1) buf)[c * m + i]? =
          if c ∈ l ∧ i < request.card then request.sort[i]? else buf[c * m + i]? := by
    intro l
    induction l with
    | nil => simp
    | cons c' l ih =>
      intro buf hbuf
      rw [List.foldl_cons, ih _ ((length_foldl_write ..).trans hbuf), hwrite buf c' hbuf]
      by_cases hl : c ∈ l ∧ i < request.card
      · rw [if_pos hl, if_pos ⟨List.mem_cons_of_mem _ hl.1, hl.2⟩]
      · rw [if_neg hl]
        refine if_congr ?_ rfl rfl
        rw [List.mem_cons, or_and_right, or_iff_left hl]
  have hlt := block_lt hc hi
  rw [inputIndices, hloop _ _ (by simp)]
  by_cases hcard' : i < request.card
  · rw [if_pos ⟨List.mem_range.mpr hc, hcard'⟩, padded]
    have hget := List.getElem?_eq_getElem (by simpa using hcard' : i < request.sort.length)
    rw [List.getD_eq_getElem?_getD, hget]
    rfl
  · have hnone : request.sort[i]? = none := List.getElem?_eq_none (by simpa using hcard')
    rw [if_neg fun h => hcard' h.2, padded, List.getD_eq_getElem?_getD, hnone, List.getElem?_replicate, if_pos hlt]
    rfl

/-- A rank receives the blocks meant for it. -/
theorem getElem?_mpiAlltoallOf {m i : ℕ} {sendbuf : Fin n → List ℕ} (hlength : ∀ r, (sendbuf r).length = n * m)
    (p r : Fin n) (hi : i < m) : (mpiAlltoallOf m sendbuf p)[(r : ℕ) * m + i]? = (sendbuf r)[(p : ℕ) * m + i]? := by
  have hblocks : ∀ b ∈ List.ofFn fun r : Fin n => ((sendbuf r).drop (p * m)).take m, b.length = m := by
    intro b hb
    obtain ⟨q, rfl⟩ := List.mem_ofFn.mp hb
    have hle : (p : ℕ) * m + m ≤ n * m := by
      rw [← Nat.succ_mul]
      exact Nat.mul_le_mul_right m p.isLt
    rw [List.length_take, List.length_drop, hlength]
    omega
  rw [mpiAlltoallOf, getElem?_flatten_blocks hi hblocks]
  simp [hi]

section
variable {request : Fin n → Finset ℕ} {m : ℕ} (hm : ∀ r, (request r).card ≤ m)
include hm

theorem getD_info_indices (p r : Fin n) (hi : i < m) (d : ℕ) :
    (get_info_indices request m p).getD ((r : ℕ) * m + i) d = padded (request r) i := by
  rw [List.getD_eq_getElem?_getD, get_info_indices,
    getElem?_mpiAlltoallOf (fun r => length_inputIndices (request r) m n) p r hi,
    getElem?_inputIndices (hm r) p.isLt hi]
  rfl

/-- What is asked for stands in a block. -/
theorem exists_padded {r : Fin n} {x : ℕ} (hx : x ≠ sizeMax) : (∃ i < m, padded (request r) i = x) ↔ x ∈ request r := by
  rw [← Finset.mem_sort (· ≤ ·)]
  constructor
  · rintro ⟨i, -, rfl⟩
    unfold padded at hx ⊢
    by_cases hlt : i < (request r).sort.length
    · rw [List.getD_eq_getElem _ _ hlt]
      exact List.getElem_mem hlt
    · exact absurd (List.getD_eq_default _ _ (by omega)) hx
  · intro hmem
    obtain ⟨i, hi, rfl⟩ := List.getElem_of_mem hmem
    refine ⟨i, hi.trans_le ?_, List.getD_eq_getElem _ _ hi⟩
    rw [Finset.length_sort]
    exact hm r

theorem mem_indexSet (hmax : sizeMax ∉ request r) (p : Fin n) :
    x ∈ indexSet (get_info_indices request m p) m r ↔ x ∈ request r := by
  have hstep : ∀ (s : Finset ℕ) (i x : ℕ), x ∈ (if (get_info_indices request m p).getD ((r : ℕ) * m + i) 0 ≠ sizeMax
      then insert ((get_info_indices request m p).getD ((r : ℕ) * m + i) 0) s else s) ↔ x ∈ s ∨
        (x ≠ sizeMax ∧ (get_info_indices request m p).getD ((r : ℕ) * m + i) 0 = x) := by
    intro s i x
    split_ifs with h
    · rw [Finset.mem_insert, or_comm]
      refine or_congr_right ⟨fun hx => ⟨hx ▸ h, hx.symm⟩, fun hx => hx.2.symm⟩
    · refine (or_iff_left ?_).symm
      rintro ⟨hx, rfl⟩
      exact h hx
  rw [indexSet, SetLoops.mem_foldl hstep]
  simp only [Finset.notMem_empty, false_or, List.mem_range]
  constructor
  · rintro ⟨i, hi, hne, hx⟩
    rw [getD_info_indices hm p r hi] at hx
    exact (exists_padded hm hne).mp ⟨i, hi, hx⟩
  · intro hx
    have hne : x ≠ sizeMax := fun h => hmax (h ▸ hx)
    obtain ⟨i, hi, hpad⟩ := (exists_padded hm hne).mpr hx
    exact ⟨i, hi, hne, (getD_info_indices hm p r hi 0).trans hpad⟩

end

theorem indexSet_eq {request : Fin n → Finset ℕ} {m : ℕ} (hm : ∀ r, (request r).card ≤ m) {r : Fin n}
    (hmax : sizeMax ∉ request r) (p : Fin n) : indexSet (get_info_indices request m p) m r = request r := by
  ext x
  exact mem_indexSet hm hmax p

-- ---------------------------------------------------------------------------
-- Answers
-- ---------------------------------------------------------------------------

theorem mem_slots {slot : ℕ × ℕ} : slot ∈ slots color colors m ↔
    slot.1 < colors ∧ slot.1 ≠ color ∧ slot.2 < m := by
  obtain ⟨r, i⟩ := slot
  simp only [slots, List.mem_flatMap, List.mem_range]
  constructor
  · rintro ⟨r', hr', hmem⟩
    split_ifs at hmem with hcolor
    · exact absurd hmem List.not_mem_nil
    · obtain ⟨i', hi', heq⟩ := List.mem_map.mp hmem
      obtain ⟨rfl, rfl⟩ := Prod.mk.inj heq
      exact ⟨hr', hcolor, List.mem_range.mp hi'⟩
  · rintro ⟨hr, hcolor, hi⟩
    refine ⟨r, hr, ?_⟩
    rw [if_neg hcolor]
    exact List.mem_map.mpr ⟨i, List.mem_range.mpr hi, rfl⟩

theorem mem_getD_modify {l : List (Finset ℕ)} {k j r y : ℕ} (hk : k < l.length) :
    y ∈ (l.modify j (insert r)).getD k ∅ ↔ y ∈ l.getD k ∅ ∨ j = k ∧ r = y := by
  have hget := List.getElem?_eq_getElem hk
  rw [List.getD_eq_getElem?_getD, List.getD_eq_getElem?_getD, List.getElem?_modify, hget]
  by_cases hj : j = k
  · simp [hj, or_comm, eq_comm]
  · simp [hj]

section
variable (primary : Finset ℕ) (color m : ℕ) (info : List ℕ)

theorem input_fulfill (s : Answers) (slot : ℕ × ℕ) : (fulfill primary color m info s slot).input_indices =
    if info.getD (place m slot) 0 ∈ primary then s.input_indices.set (place m slot) color
    else s.input_indices :=
  apply_ite Answers.input_indices _ _ _

theorem offset_fulfill (s : Answers) (slot : ℕ × ℕ) : (fulfill primary color m info s slot).input_offsets =
    if info.getD (place m slot) 0 ∈ primary then
      s.input_offsets.set (place m slot) (position primary (info.getD (place m slot) 0))
    else s.input_offsets :=
  apply_ite Answers.input_offsets _ _ _

theorem local_fulfill (s : Answers) (slot : ℕ × ℕ) : (fulfill primary color m info s slot).local_ranks =
    if info.getD (place m slot) 0 ∈ primary then
      s.local_ranks.modify (position primary (info.getD (place m slot) 0)) (insert slot.1)
    else s.local_ranks :=
  apply_ite Answers.local_ranks _ _ _

theorem input_foldl_fulfill (l : List (ℕ × ℕ)) (s : Answers) :
    (l.foldl (fulfill primary color m info) s).input_indices = l.foldl (fun buf slot =>
      if info.getD (place m slot) 0 ∈ primary then buf.set (place m slot) color else buf) s.input_indices := by
  induction l generalizing s with
  | nil => rfl
  | cons slot l ih => rw [List.foldl_cons, ih, input_fulfill, List.foldl_cons]

theorem offset_foldl_fulfill (l : List (ℕ × ℕ)) (s : Answers) :
    (l.foldl (fulfill primary color m info) s).input_offsets = l.foldl (fun buf slot =>
      if info.getD (place m slot) 0 ∈ primary then
        buf.set (place m slot) (position primary (info.getD (place m slot) 0))
      else buf) s.input_offsets := by
  induction l generalizing s with
  | nil => rfl
  | cons slot l ih => rw [List.foldl_cons, ih, offset_fulfill, List.foldl_cons]

theorem length_input_fulfillAll (colors : ℕ) :
    (fulfillAll primary color colors m info).input_indices.length = colors * m := by
  have hloop : ∀ (l : List (ℕ × ℕ)) (s : Answers), (l.foldl (fulfill primary color m info) s).input_indices.length =
      s.input_indices.length := by
    intro l
    induction l with
    | nil => exact fun _ => rfl
    | cons slot l ih =>
      intro s
      rw [List.foldl_cons, ih, input_fulfill]
      split_ifs <;> simp
  rw [fulfillAll, hloop, List.length_replicate]

theorem length_offset_fulfillAll (colors : ℕ) :
    (fulfillAll primary color colors m info).input_offsets.length = colors * m := by
  have hloop : ∀ (l : List (ℕ × ℕ)) (s : Answers), (l.foldl (fulfill primary color m info) s).input_offsets.length =
      s.input_offsets.length := by
    intro l
    induction l with
    | nil => exact fun _ => rfl
    | cons slot l ih =>
      intro s
      rw [List.foldl_cons, ih, offset_fulfill]
      split_ifs <;> simp
  rw [fulfillAll, hloop, List.length_replicate]

variable {primary color m info} {colors : ℕ}

/-- The answer in a slot. -/
theorem exists_slot {r i : ℕ} (hr : r < colors) (hcolor : r ≠ color) (hi : i < m) (q : ℕ → Prop) :
    (∃ slot ∈ slots color colors m, q (place m slot) ∧ place m slot = r * m + i) ↔ q (r * m + i) := by
  constructor
  · rintro ⟨slot, -, hq, hplace⟩
    exact hplace ▸ hq
  · exact fun hq => ⟨(r, i), mem_slots.mpr ⟨hr, hcolor, hi⟩, hq, rfl⟩

theorem getElem?_input_fulfillAll {r i : ℕ} (hr : r < colors) (hcolor : r ≠ color) (hi : i < m) :
    (fulfillAll primary color colors m info).input_indices[r * m + i]? =
      some (if info.getD (r * m + i) 0 ∈ primary then color else sizeMax) := by
  classical
  have hlt := block_lt hr hi
  rw [fulfillAll, input_foldl_fulfill,
    getElem?_foldl_set (place m) (fun slot => info.getD (place m slot) 0 ∈ primary) (fun _ => color)]
  simp only [exists_slot hr hcolor hi fun k => info.getD k 0 ∈ primary, List.length_replicate, hlt, and_true,
    List.getElem?_replicate, if_true]
  split_ifs <;> rfl

theorem getElem?_offset_fulfillAll {r i : ℕ} (hr : r < colors) (hcolor : r ≠ color) (hi : i < m)
    (hmem : info.getD (r * m + i) 0 ∈ primary) :
    (fulfillAll primary color colors m info).input_offsets[r * m + i]? =
      some (position primary (info.getD (r * m + i) 0)) := by
  classical
  have hlt := block_lt hr hi
  rw [fulfillAll, offset_foldl_fulfill,
    getElem?_foldl_set (place m) (fun slot => info.getD (place m slot) 0 ∈ primary)
      (fun k => position primary (info.getD k 0))]
  simp only [exists_slot hr hcolor hi fun k => info.getD k 0 ∈ primary, List.length_replicate, hlt, and_true]
  rw [if_pos hmem]

theorem length_local_fulfillAll : (fulfillAll primary color colors m info).local_ranks.length = primary.card := by
  have hloop : ∀ (l : List (ℕ × ℕ)) (s : Answers), (l.foldl (fulfill primary color m info) s).local_ranks.length =
      s.local_ranks.length := by
    intro l
    induction l with
    | nil => exact fun _ => rfl
    | cons slot l ih =>
      intro s
      rw [List.foldl_cons, ih, local_fulfill]
      split_ifs <;> simp
  rw [fulfillAll, hloop, List.length_replicate]

theorem mem_local_fulfillAll {k y : ℕ} (hk : k < primary.card) :
    y ∈ (fulfillAll primary color colors m info).local_ranks.getD k ∅ ↔
      ∃ slot ∈ slots color colors m, info.getD (place m slot) 0 ∈ primary ∧
        position primary (info.getD (place m slot) 0) = k ∧ slot.1 = y := by
  have hloop : ∀ (l : List (ℕ × ℕ)) (s : Answers), s.local_ranks.length = primary.card →
      (y ∈ (l.foldl (fulfill primary color m info) s).local_ranks.getD k ∅ ↔ y ∈ s.local_ranks.getD k ∅ ∨
        ∃ slot ∈ l, info.getD (place m slot) 0 ∈ primary ∧
          position primary (info.getD (place m slot) 0) = k ∧ slot.1 = y) := by
    intro l
    induction l with
    | nil => simp
    | cons slot l ih =>
      intro s hs
      have hlength : (fulfill primary color m info s slot).local_ranks.length = primary.card := by
        rw [local_fulfill]
        split_ifs <;> simp [hs]
      have hstep : y ∈ (fulfill primary color m info s slot).local_ranks.getD k ∅ ↔ y ∈ s.local_ranks.getD k ∅ ∨
          info.getD (place m slot) 0 ∈ primary ∧ position primary (info.getD (place m slot) 0) = k ∧ slot.1 = y := by
        rw [local_fulfill]
        split_ifs with hmem
        · rw [mem_getD_modify (hs ▸ hk), and_iff_right hmem]
        · exact (or_iff_left fun h => hmem h.1).symm
      rw [List.foldl_cons, ih _ hlength, hstep, or_assoc]
      simp only [List.mem_cons, exists_eq_or_imp]
  rw [fulfillAll, hloop _ _ (by simp)]
  simp

end

-- ---------------------------------------------------------------------------
-- Results
-- ---------------------------------------------------------------------------

/-- What the ranks learn of the indices they ask for: the ranks that ask for an index of theirs, and
for an index of another rank its owner and its position there. -/
structure Answered (primary request : Fin n → Finset ℕ)
    (info : Fin n → List (Finset ℕ) × EntitySet) : Prop where
  length : ∀ p, (info p).1.length = (primary p).card
  asked : ∀ p, ∀ x ∈ primary p, ∀ r, r ∈ (info p).1.getD (position (primary p) x) ∅ ↔
    ∃ q : Fin n, q ≠ p ∧ x ∈ request q ∧ (q : ℕ) = r
  remote : ∀ p e, e ∈ (info p).2.elems ↔ ∃ q, q ≠ p ∧ ∃ x ∈ request p, x ∈ primary q ∧
    e = ⟨x, q, position (primary q) x, {0}⟩

theorem card_le_max_request_size (request : Fin n → Finset ℕ) (r : Fin n) :
    (request r).card ≤ get_max_request_size fun r => (request r).card :=
  le_mpiAllreduceMax (fun r => (request r).card) r

theorem padded_of_mem {request primary : Finset ℕ} (hmax : sizeMax ∉ primary) (h : padded request i ∈ primary) :
    request.sort.getD i 0 = padded request i ∧ padded request i ∈ request := by
  unfold padded at h ⊢
  by_cases hi : i < request.sort.length
  · rw [List.getD_eq_getElem _ _ hi, List.getD_eq_getElem _ _ hi]
    exact ⟨rfl, (request.mem_sort _).mp (List.getElem_mem hi)⟩
  · rw [List.getD_eq_default _ _ (by omega)] at h
    exact absurd h hmax

/-- A loop that inserts some elements. -/
theorem foldl_collect (vector : List ℕ) (m : ℕ) (ranks offsets : List ℕ) (l : List (ℕ × ℕ)) (s : EntitySet) :
    l.foldl (collect vector m ranks offsets) s = s.insertAll ((l.filter fun slot =>
      ranks.getD (place m slot) 0 ≠ sizeMax).map fun slot => entityInfo (vector.getD slot.2 0)
        (ranks.getD (place m slot) 0) (offsets.getD (place m slot) 0) {0}) := by
  induction l generalizing s with
  | nil => rfl
  | cons slot l ih =>
    rw [List.foldl_cons, ih, collect]
    by_cases h : ranks.getD (place m slot) 0 ≠ sizeMax
    · rw [if_pos h, List.filter_cons_of_pos (by simpa using h)]
      rfl
    · rw [if_neg h, List.filter_cons_of_neg (by simpa using h)]

section
variable {primary request : Fin n → Finset ℕ} {m : ℕ} (hm : ∀ r, (request r).card ≤ m) {p r : Fin n} {i : ℕ}
  (hr : r ≠ p) (hi : i < m)
include hm hr hi

variable (primary) in
theorem getD_infoRanks : (infoRanks primary request m p).getD ((r : ℕ) * m + i) 0 =
    if padded (request p) i ∈ primary r then (r : ℕ) else sizeMax := by
  have hlength : ∀ r, (answers primary request m r).input_indices.length = n * m := fun _ => length_input_fulfillAll ..
  rw [List.getD_eq_getElem?_getD, infoRanks, getElem?_mpiAlltoallOf hlength p r hi, answers,
    getElem?_input_fulfillAll p.isLt (fun h => hr (Fin.ext h.symm)) hi, getD_info_indices hm r p hi]
  rfl

theorem getD_infoOffsets (hmem : padded (request p) i ∈ primary r) :
    (infoOffsets primary request m p).getD ((r : ℕ) * m + i) 0 = position (primary r) (padded (request p) i) := by
  have hlength : ∀ r, (answers primary request m r).input_offsets.length = n * m := fun _ => length_offset_fulfillAll ..
  rw [List.getD_eq_getElem?_getD, infoOffsets, getElem?_mpiAlltoallOf hlength p r hi, answers,
    getElem?_offset_fulfillAll p.isLt (fun h => hr (Fin.ext h.symm)) hi (by rwa [getD_info_indices hm r p hi]),
    getD_info_indices hm r p hi]
  rfl

/-- The entity of a slot with an answer. -/
theorem entityInfo_slot (hn : n < 2 ^ 31) (hmax : sizeMax ∉ primary r) (hcard : (primary r).card ≤ 2 ^ 32)
    (hmem : padded (request p) i ∈ primary r) :
    entityInfo ((request p).sort.getD i 0) ((infoRanks primary request m p).getD ((r : ℕ) * m + i) 0)
      ((infoOffsets primary request m p).getD ((r : ℕ) * m + i) 0) {0} =
      ⟨padded (request p) i, r, position (primary r) (padded (request p) i), {0}⟩ := by
  have hlt := (position_lt hmem).trans_le hcard
  rw [getD_infoRanks primary hm hr hi, if_pos hmem, getD_infoOffsets hm hr hi hmem, (padded_of_mem hmax hmem).1,
    entityInfo, toIndices_of_lt (by omega), toIndices_of_lt hlt]
  rfl

end

section
variable {primary request : Fin n → Finset ℕ} (hn : n < 2 ^ 31) (hmax : ∀ p, sizeMax ∉ primary p)
  (hcard : ∀ p, (primary p).card ≤ 2 ^ 32)
include hn hmax hcard

/-- What a rank collects from the answers. -/
theorem mem_answered {m : ℕ} (hm : ∀ r, (request r).card ≤ m) (p : Fin n) (e : EntityInfo) :
    e ∈ ((slots p n m).filter fun slot => (infoRanks primary request m p).getD (place m slot) 0 ≠ sizeMax).map
      (fun slot => entityInfo ((request p).sort.getD slot.2 0) ((infoRanks primary request m p).getD (place m slot) 0)
        ((infoOffsets primary request m p).getD (place m slot) 0) {0}) ↔
      ∃ q, q ≠ p ∧ ∃ x ∈ request p, x ∈ primary q ∧ e = ⟨x, q, position (primary q) x, {0}⟩ := by
  simp only [List.mem_map, List.mem_filter, decide_eq_true_eq]
  constructor
  · rintro ⟨⟨r, i⟩, ⟨hslot, hne⟩, rfl⟩
    obtain ⟨hr, hrp, hi⟩ := mem_slots.mp hslot
    have hrp' : (⟨r, hr⟩ : Fin n) ≠ p := fun h => hrp (congrArg Fin.val h)
    have hmem : padded (request p) i ∈ primary ⟨r, hr⟩ := by
      by_contra hnot
      have hval := getD_infoRanks primary hm hrp' hi
      rw [if_neg hnot] at hval
      exact hne hval
    exact ⟨⟨r, hr⟩, hrp', _, (padded_of_mem (hmax _) hmem).2, hmem,
      entityInfo_slot hm hrp' hi hn (hmax _) (hcard _) hmem⟩
  · rintro ⟨r, hrp, x, hx, hmem, rfl⟩
    obtain ⟨i, hi, rfl⟩ := (exists_padded hm fun h => hmax r (h ▸ hmem)).mpr hx
    refine ⟨(r, i), ⟨mem_slots.mpr ⟨r.isLt, fun h => hrp (Fin.ext h), hi⟩, ?_⟩,
      entityInfo_slot hm hrp hi hn (hmax r) (hcard r) hmem⟩
    have hval := getD_infoRanks primary hm hrp hi
    rw [if_pos hmem] at hval
    have hr := r.isLt
    refine ne_of_eq_of_ne hval ?_
    unfold sizeMax
    omega

theorem get_primary_info_answered (hdisjoint : ∀ p q x, x ∈ primary p → x ∈ primary q → p = q) :
    Answered primary request (get_primary_info primary request) := by
  have hm := card_le_max_request_size request
  constructor
  · exact fun p => length_local_fulfillAll
  · intro p x hx r
    unfold get_primary_info answers
    simp only
    set m := get_max_request_size fun r => (request r).card
    rw [mem_local_fulfillAll (position_lt hx)]
    constructor
    · rintro ⟨⟨q, i⟩, hslot, hmem, hpos, rfl⟩
      obtain ⟨hq, hqp, hi⟩ := mem_slots.mp hslot
      have hval := getD_info_indices hm p ⟨q, hq⟩ hi 0
      refine ⟨⟨q, hq⟩, fun h => hqp (congrArg Fin.val h), ?_, rfl⟩
      rw [← position_inj hmem hx hpos]
      exact (exists_padded hm (r := ⟨q, hq⟩) fun h => hmax p (h ▸ hmem)).mp ⟨i, hi, hval.symm⟩
    · rintro ⟨q, hqp, hq, rfl⟩
      obtain ⟨i, hi, hpad⟩ := (exists_padded hm fun h => hmax p (h ▸ hx)).mpr hq
      have hval : (get_info_indices request m p).getD (place m (q, i)) 0 = x :=
        (getD_info_indices hm p q hi 0).trans hpad
      refine ⟨(q, i), mem_slots.mpr ⟨q.isLt, fun h => hqp (Fin.ext h), hi⟩, ?_, ?_, rfl⟩
      · rw [hval]
        exact hx
      · rw [hval]
  · intro p e
    have hfound := mem_answered hn hmax hcard hm p
    unfold get_primary_info
    simp only
    rw [foldl_collect, KeyedSet.mem_insertAll]
    · rw [KeyedSet.elems_empty, hfound]
      simp
    · intro a ha b hb hid
      obtain hb | hb := hb
      · exact absurd hb List.not_mem_nil
      · obtain ⟨q, -, x, -, hx, rfl⟩ := (hfound a).mp ha
        obtain ⟨q', -, x', -, hx', rfl⟩ := (hfound b).mp hb
        obtain rfl : x' = x := hid
        obtain rfl := hdisjoint q q' x' hx hx'
        rfl

end

theorem get_primary_info_answered_pair : Answered (fun p : Fin 2 => {p.val}) (fun p => {1 - p.val})
    (get_primary_info (fun p : Fin 2 => {p.val}) fun p => {1 - p.val}) :=
  get_primary_info_answered (by decide) (by decide) (by decide) fun p q x hp hq => by
    rw [Finset.mem_singleton] at hp hq
    exact Fin.ext (hp.symm.trans hq)

-- ---------------------------------------------------------------------------
-- Sets of indices
-- ---------------------------------------------------------------------------

section
variable {request : Fin n → Finset ℕ} (hmax : ∀ p, sizeMax ∉ request p)
include hmax

theorem get_intersection_info_eq (p : Fin n) : get_intersection_info request p =
    ((List.finRange n).filter fun q => q ≠ p ∧ (request q ∩ request p).Nonempty).map
      fun q : Fin n => ((q : ℕ), request q ∩ request p) := by
  have hm := card_le_max_request_size request
  unfold get_intersection_info
  simp only
  set m := get_max_request_size fun r => (request r).card
  have hloop : ∀ (l : List (Fin n)) (s : List (ℕ × Finset ℕ)), (l.map Fin.val).foldl
      (fun intersection_map (r : ℕ) => if r = p then intersection_map
        else if (indexSet (get_info_indices request m p) m r ∩ request p).card ≠ 0 then
          intersection_map ++ [(r, indexSet (get_info_indices request m p) m r ∩ request p)]
        else intersection_map) s =
      s ++ (l.filter fun q => q ≠ p ∧ (request q ∩ request p).Nonempty).map
        fun q : Fin n => ((q : ℕ), request q ∩ request p) := by
    intro l
    induction l with
    | nil => simp
    | cons q l ih =>
      intro s
      rw [List.map_cons, List.foldl_cons, ih, indexSet_eq hm (hmax q) p]
      by_cases hq : q = p
      · simp [hq]
      · by_cases hne : (request q ∩ request p).Nonempty
        · simp [hq, hne, Fin.val_inj, Finset.nonempty_iff_ne_empty.mp hne]
        · simp [hq, Fin.val_inj, Finset.not_nonempty_iff_eq_empty.mp hne]
  rw [← List.map_coe_finRange_eq_range]
  exact (hloop (List.finRange n) []).trans (List.nil_append _)

theorem mem_intersection_info {p : Fin n} {ci : ℕ × Finset ℕ} : ci ∈ get_intersection_info request p ↔
    ∃ q, q ≠ p ∧ ci = ((q : ℕ), request q ∩ request p) ∧ ci.2.Nonempty := by
  rw [get_intersection_info_eq hmax]
  simp only [List.mem_map, List.mem_filter, List.mem_finRange, true_and, decide_eq_true_eq]
  constructor
  · rintro ⟨q, ⟨hne, hsome⟩, rfl⟩
    exact ⟨q, hne, rfl, hsome⟩
  · rintro ⟨q, hne, rfl, hsome⟩
    exact ⟨q, ⟨hne, hsome⟩, rfl⟩

theorem get_entity_reduction_eq (p : Fin n) : get_entity_reduction request p = List.ofFn request := by
  have hm := card_le_max_request_size request
  unfold get_entity_reduction
  simp only
  refine List.ext_getElem (by simp) fun r hr _ => ?_
  rw [List.length_map, List.length_range] at hr
  rw [List.getElem_map, List.getElem_range, List.getElem_ofFn]
  exact indexSet_eq hm (hmax ⟨r, hr⟩) p

end

/-- Any two ranks find the same intersection, each under the other's rank and once, and all ranks have
the same sets of all ranks. -/
theorem index_sets_agree (request : Fin n → Finset ℕ) (hmax : ∀ p, sizeMax ∉ request p) :
    (∀ p ci, ci ∈ get_intersection_info request p ↔
      ∃ q, q ≠ p ∧ ci = ((q : ℕ), request q ∩ request p) ∧ ci.2.Nonempty) ∧
    (∀ (p q : Fin n) (s : Finset ℕ), ((q : ℕ), s) ∈ get_intersection_info request p ↔
      ((p : ℕ), s) ∈ get_intersection_info request q) ∧
    (∀ p, ((get_intersection_info request p).map Prod.fst).Nodup) ∧
    ∀ p, get_entity_reduction request p = List.ofFn request := by
  have hpair : ∀ (p q : Fin n) (s : Finset ℕ), ((q : ℕ), s) ∈ get_intersection_info request p ↔
      q ≠ p ∧ s = request q ∩ request p ∧ s.Nonempty := by
    intro p q s
    rw [mem_intersection_info hmax]
    constructor
    · rintro ⟨q', hne, heq, hsome⟩
      obtain ⟨hq, rfl⟩ := Prod.mk.inj heq
      obtain rfl := Fin.ext hq
      exact ⟨hne, rfl, hsome⟩
    · rintro ⟨hne, rfl, hsome⟩
      exact ⟨q, hne, rfl, hsome⟩
  refine ⟨fun p ci => mem_intersection_info hmax, fun p q s => ?_, fun p => ?_, get_entity_reduction_eq hmax⟩
  · rw [hpair, hpair, ne_comm, Finset.inter_comm]
  · rw [get_intersection_info_eq hmax, List.map_map]
    exact ((List.nodup_finRange n).filter _).map Fin.val_injective

/-- Two ranks that ask for each other's index, and one that they share. -/
theorem index_sets_agree_pair :
    let request : Fin 2 → Finset ℕ := fun p => {p.val, 2}
    (∀ p ci, ci ∈ get_intersection_info request p ↔
      ∃ q, q ≠ p ∧ ci = ((q : ℕ), request q ∩ request p) ∧ ci.2.Nonempty) ∧
    (∀ (p q : Fin 2) (s : Finset ℕ), ((q : ℕ), s) ∈ get_intersection_info request p ↔
      ((p : ℕ), s) ∈ get_intersection_info request q) ∧
    (∀ p, ((get_intersection_info request p).map Prod.fst).Nodup) ∧
    ∀ p, get_entity_reduction request p = List.ofFn request :=
  index_sets_agree (fun p => {p.val, 2}) (by decide)

end Flecsi.Coloring.MpiCommunicator
