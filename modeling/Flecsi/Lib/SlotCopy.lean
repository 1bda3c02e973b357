import Flecsi.Lib.PackedBuffer

/-!
# Copies between buffers and a message

A slot is a range of cells of one of several buffers. `pack` collects the contents of
slots in a message, `unpack` stores a message into slots. What arrives depends only on
the cells the slots cover, one after another, not on how they are cut into ranges.
-/

namespace SlotCopy

open PackedBuffer

variable {κ β : Type u}

structure Slot (κ : Type u) where
  key : κ
  start : ℕ
  len : ℕ
  deriving DecidableEq, Repr

-- ---------------------------------------------------------------------------
-- Ranges of addresses
-- ---------------------------------------------------------------------------

def addresses (ranges : List (ℕ × ℕ)) : List ℕ := ranges.flatMap fun r => List.range' r.1 r.2

/-- A range that starts where the last one ends is joined to it. -/
def pushRange (ranges : List (ℕ × ℕ)) (start len : ℕ) : List (ℕ × ℕ) :=
  match ranges.getLast? with
  | none => [(start, len)]
  | some last =>
    if start = last.1 + last.2 then ranges.dropLast ++ [(last.1, last.2 + len)]
    else ranges ++ [(start, len)]

theorem addresses_append (xs ys : List (ℕ × ℕ)) :
    addresses (xs ++ ys) = addresses xs ++ addresses ys := List.flatMap_append

@[simp] theorem addresses_singleton (start len : ℕ) :
    addresses [(start, len)] = List.range' start len := by
  simp [addresses]

theorem addresses_pushRange (ranges : List (ℕ × ℕ)) (start len : ℕ) :
    addresses (pushRange ranges start len) = addresses ranges ++ List.range' start len := by
  cases h : ranges.getLast? with
  | none =>
    rw [List.getLast?_eq_none_iff.mp h]
    simp [pushRange, addresses]
  | some last =>
    unfold pushRange
    simp only [h]
    split
    · rename_i hstart
      obtain ⟨init, rfl⟩ := List.getLast?_eq_some_iff.mp h
      have hlast : addresses [last] = List.range' last.1 last.2 := addresses_singleton _ _
      rw [List.dropLast_concat, addresses_append, addresses_append, List.append_assoc, hlast,
        addresses_singleton, hstart, List.range'_append_1]
    · rw [addresses_append, addresses_singleton]

theorem addresses_foldl_pushRange (starts : List ℕ) (len : ℕ) (ranges : List (ℕ × ℕ)) :
    addresses (starts.foldl (pushRange · · len) ranges) =
      addresses ranges ++ starts.flatMap (List.range' · len) := by
  induction starts generalizing ranges with
  | nil => simp
  | cons start starts ih =>
    rw [List.foldl_cons, ih, addresses_pushRange, List.append_assoc, List.flatMap_cons]

/-- Ranges of one length kept for each peer; the entries name a peer and a start. -/
def collectRanges (entries : List (ℕ × ℕ)) (len : ℕ) : ℕ → List (ℕ × ℕ) :=
  entries.foldl (fun m e => Function.update m e.1 (pushRange (m e.1) e.2 len)) fun _ => []

theorem collectRanges_from (entries : List (ℕ × ℕ)) (len peer : ℕ) (m : ℕ → List (ℕ × ℕ)) :
    entries.foldl (fun m e => Function.update m e.1 (pushRange (m e.1) e.2 len)) m peer =
      (itemsFor peer entries).foldl (pushRange · · len) (m peer) := by
  induction entries generalizing m with
  | nil => rfl
  | cons e entries ih =>
    rw [List.foldl_cons, ih]
    by_cases he : e.1 = peer
    · subst he
      simp [itemsFor]
    · rw [Function.update_of_ne (Ne.symm he)]
      simp [itemsFor, he]

theorem addresses_collectRanges (entries : List (ℕ × ℕ)) (len peer : ℕ) :
    addresses (collectRanges entries len peer) =
      (itemsFor peer entries).flatMap (List.range' · len) := by
  rw [collectRanges, collectRanges_from, addresses_foldl_pushRange]
  rfl

theorem pushRange_le {ranges : List (ℕ × ℕ)} {start len bound : ℕ} (h : start + len ≤ bound)
    (hr : ∀ r ∈ ranges, r.1 + r.2 ≤ bound) : ∀ r ∈ pushRange ranges start len, r.1 + r.2 ≤ bound := by
  cases hlast : ranges.getLast? with
  | none => simpa [pushRange, hlast] using h
  | some last =>
    simp only [pushRange, hlast]
    intro r hr'
    split at hr' <;> rcases List.mem_append.mp hr' with hmem | hmem
    · exact hr r (List.dropLast_subset _ hmem)
    · rename_i hstart
      obtain rfl := List.mem_singleton.mp hmem
      simp only
      omega
    · exact hr r hmem
    · obtain rfl := List.mem_singleton.mp hmem
      exact h

theorem collectRanges_le {entries : List (ℕ × ℕ)} {len : ℕ} (bound : ℕ)
    (h : ∀ e ∈ entries, e.2 + len ≤ bound) (peer : ℕ) :
    ∀ r ∈ collectRanges entries len peer, r.1 + r.2 ≤ bound := by
  have hfold (starts : List ℕ) (hs : ∀ s ∈ starts, s + len ≤ bound) (ranges : List (ℕ × ℕ))
      (hr : ∀ r ∈ ranges, r.1 + r.2 ≤ bound) :
      ∀ r ∈ starts.foldl (pushRange · · len) ranges, r.1 + r.2 ≤ bound := by
    induction starts generalizing ranges with
    | nil => exact hr
    | cons s starts ih =>
      exact ih (fun t ht => hs t (by simp [ht])) _ (pushRange_le (hs s (by simp)) hr)
  rw [collectRanges, collectRanges_from]
  exact hfold _ (fun s hs => h _ (mem_itemsFor.mp hs)) [] (by simp)

theorem sum_lengths (ranges : List (ℕ × ℕ)) :
    (ranges.map Prod.snd).sum = (addresses ranges).length := by
  simp [addresses, List.length_flatMap]

-- ---------------------------------------------------------------------------
-- Cells
-- ---------------------------------------------------------------------------

/-- The cells of slots, in the order in which they are copied. -/
def cells (slots : List (Slot κ)) : List (κ × ℕ) :=
  slots.flatMap fun s => (List.range' s.start s.len).map (s.key, ·)

def readCell (data : κ → List β) (c : κ × ℕ) : Option β := (data c.1)[c.2]?

/-- The slots lie inside their buffers. -/
def Fits (data : κ → List β) (slots : List (Slot κ)) : Prop :=
  ∀ s ∈ slots, s.start + s.len ≤ (data s.key).length

@[simp] theorem cells_nil : cells ([] : List (Slot κ)) = [] := rfl

theorem cells_cons (s : Slot κ) (slots : List (Slot κ)) :
    cells (s :: slots) = (List.range' s.start s.len).map (s.key, ·) ++ cells slots :=
  List.flatMap_cons

theorem cells_append (xs ys : List (Slot κ)) : cells (xs ++ ys) = cells xs ++ cells ys :=
  List.flatMap_append

theorem cells_flatMap (l : List ι) (slots : ι → List (Slot κ)) :
    cells (l.flatMap slots) = l.flatMap fun x => cells (slots x) := by
  simp [cells, List.flatMap_assoc]

/-- The ranges of one buffer, behind a base address. -/
theorem cells_map (k : κ) (base : ℕ) (ranges : List (ℕ × ℕ)) :
    cells (ranges.map fun r => ⟨k, base + r.1, r.2⟩) =
      (addresses ranges).map fun a => (k, base + a) := by
  induction ranges with
  | nil => rfl
  | cons r ranges ih =>
    rw [List.map_cons, cells_cons, ih]
    simp [addresses, List.range'_eq_map_range, Nat.add_assoc]

/-- Two concatenations of pieces of the same lengths are equal piece by piece. -/
theorem eq_of_flatMap_eq {f g : ι → List β} {l : List ι} (h : l.flatMap f = l.flatMap g)
    (hlen : ∀ x ∈ l, (f x).length = (g x).length) : ∀ x ∈ l, f x = g x := by
  induction l with
  | nil => simp
  | cons y l ih =>
    rw [List.flatMap_cons, List.flatMap_cons] at h
    obtain ⟨hy, hl⟩ := List.append_inj h (hlen y (by simp))
    intro x hx
    cases hx with
    | head => exact hy
    | tail _ hx => exact ih hl (fun z hz => hlen z (by simp [hz])) x hx

theorem map_some_take_drop {xs : List β} {i len : ℕ} (h : i + len ≤ xs.length) :
    ((xs.drop i).take len).map some = (List.range' i len).map (xs[·]?) := by
  refine List.ext_getElem? fun k => ?_
  by_cases hk : k < len
  · have : i + k < xs.length := by omega
    simp [hk, this]
  · simp [hk]

-- ---------------------------------------------------------------------------
-- Packing
-- ---------------------------------------------------------------------------

/-- The contents of the slots one after another; reading outside a buffer fails. -/
def pack (data : κ → List β) (slots : List (Slot κ)) : Option (List β) :=
  slots.foldlM (fun msg s => do some (msg ++ (← span (data s.key) s.start s.len))) []

theorem pack_from {data : κ → List β} {slots : List (Slot κ)} (h : Fits data slots) (msg : List β) :
    ∃ new, slots.foldlM (fun msg s => do some (msg ++ (← span (data s.key) s.start s.len))) msg =
      some (msg ++ new) ∧ new.map some = (cells slots).map (readCell data) := by
  induction slots generalizing msg with
  | nil => exact ⟨[], by simp, rfl⟩
  | cons s slots ih =>
    have hs := h s (by simp)
    let xs := ((data s.key).drop s.start).take s.len
    have hspan : span (data s.key) s.start s.len = some xs := by
      rw [span, if_pos (by rw [List.length_drop]; omega)]
    obtain ⟨new, hfold, hnew⟩ := ih (fun t ht => h t (by simp [ht])) (msg ++ xs)
    refine ⟨xs ++ new, ?_, ?_⟩
    · rw [List.foldlM_cons, hspan]
      simpa using hfold
    · rw [cells_cons, List.map_append, List.map_append, hnew, map_some_take_drop hs, List.map_map]
      rfl

theorem pack_eq {data : κ → List β} {slots : List (Slot κ)} (h : Fits data slots) :
    ∃ msg, pack data slots = some msg ∧ msg.map some = (cells slots).map (readCell data) := by
  obtain ⟨msg, hpack, hmsg⟩ := pack_from h []
  exact ⟨msg, hpack, hmsg⟩

-- ---------------------------------------------------------------------------
-- Unpacking
-- ---------------------------------------------------------------------------

theorem getElem?_writeAt {buf xs : List β} {i : ℕ} (h : i + xs.length ≤ buf.length) (k : ℕ) :
    (writeAt buf i xs)[k]? = if i ≤ k ∧ k < i + xs.length then xs[k - i]? else buf[k]? := by
  induction xs generalizing buf i with
  | nil =>
    rw [if_neg (by simp)]
    rfl
  | cons x xs ih =>
    simp only [List.length_cons] at h ⊢
    rw [writeAt, ih (by simp; omega)]
    split
    · rename_i hk
      rw [if_pos (by omega), show k - i = k - (i + 1) + 1 by omega, List.getElem?_cons_succ]
    · rename_i hk
      rw [List.getElem?_set]
      split
      · rename_i hik
        subst hik
        simp [show i < buf.length by omega]
      · rw [if_neg (by omega)]

/-- What a store does: the cells of the slot hold the new contents, the others theirs. -/
structure Stored (data data' : κ → List β) (cs : List (κ × ℕ)) : Prop where
  length : ∀ k, (data' k).length = (data k).length
  frame : ∀ c ∉ cs, readCell data' c = readCell data c

theorem Stored.refl (data : κ → List β) : Stored data data [] := ⟨fun _ => rfl, fun _ _ => rfl⟩

theorem Stored.trans {a b c : κ → List β} {xs ys : List (κ × ℕ)} (h : Stored a b xs)
    (h' : Stored b c ys) : Stored a c (xs ++ ys) where
  length k := (h'.length k).trans (h.length k)
  frame d hd := by
    rw [List.mem_append, not_or] at hd
    rw [h'.frame d hd.2, h.frame d hd.1]

theorem Stored.fits {data data' : κ → List β} {cs : List (κ × ℕ)} {slots : List (Slot κ)}
    (h : Stored data data' cs) (hf : Fits data slots) : Fits data' slots := by
  intro s hs
  rw [h.length]
  exact hf s hs

section
variable [DecidableEq κ]

/-- `memcpy` into a slot; writing outside the buffer fails. -/
def store (data : κ → List β) (k : κ) (start : ℕ) (xs : List β) : Option (κ → List β) :=
  if start + xs.length ≤ (data k).length then
    some (Function.update data k (writeAt (data k) start xs))
  else none

def unpackSlot (msg : List β) (st : (κ → List β) × ℕ) (s : Slot κ) : Option ((κ → List β) × ℕ) := do
  let xs ← span msg st.2 s.len
  let data ← store st.1 s.key s.start xs
  some (data, st.2 + s.len)

/-- The message stored slot by slot, with a running offset. -/
def unpack (msg : List β) (slots : List (Slot κ)) (data : κ → List β) : Option (κ → List β) :=
  (slots.foldlM (unpackSlot msg) (data, 0)).map Prod.fst

theorem store_eq {data : κ → List β} {s : Slot κ} {xs : List β}
    (h : s.start + s.len ≤ (data s.key).length) (hx : xs.length = s.len) :
    ∃ data', store data s.key s.start xs = some data' ∧ Stored data data' (cells [s]) ∧
      (cells [s]).map (readCell data') = xs.map some := by
  have hcells : cells [s] = (List.range' s.start s.len).map (s.key, ·) := by simp [cells]
  refine ⟨_, if_pos (by rw [hx]; exact h), ⟨fun k => ?_, ?_⟩, ?_⟩
  · by_cases hk : k = s.key
    · subst hk
      simp
    · rw [Function.update_of_ne hk]
  · rintro ⟨k, i⟩ hc
    by_cases hk : k = s.key
    · subst hk
      have hi : ¬(s.start ≤ i ∧ i < s.start + xs.length) := by
        rw [hx]
        intro hi
        refine hc ?_
        rw [hcells, List.mem_map]
        exact ⟨i, List.mem_range'_1.mpr hi, rfl⟩
      rw [readCell, Function.update_self, getElem?_writeAt (by omega), if_neg hi]
      rfl
    · rw [readCell, Function.update_of_ne hk]
      rfl
  · rw [hcells, List.map_map]
    refine List.ext_getElem? fun j => ?_
    by_cases hj : j < s.len
    · have hget := getElem?_writeAt (k := s.start + j) (hx.symm ▸ h)
      rw [if_pos (by omega), Nat.add_sub_cancel_left] at hget
      simp [readCell, hj, hx, hget]
    · simp [hj, hx]

/-- A message in which every cell's part is the cell's value; a cell may occur twice. -/
theorem unpack_from {msg : List β} {slots : List (Slot κ)} {data : κ → List β}
    {value : κ × ℕ → Option β} (h : Fits data slots) (offset : ℕ)
    (hmsg : ((msg.drop offset).take (cells slots).length).map some = (cells slots).map value) :
    ∃ data', slots.foldlM (unpackSlot msg) (data, offset) =
        some (data', offset + (cells slots).length) ∧ Stored data data' (cells slots) ∧
      ∀ c ∈ cells slots, readCell data' c = value c := by
  induction slots generalizing data offset with
  | nil => exact ⟨data, rfl, Stored.refl data, by simp⟩
  | cons s slots ih =>
    have hlen := congrArg List.length hmsg
    have hcells : cells [s] = (List.range' s.start s.len).map (s.key, ·) := by simp [cells]
    rw [cells_cons, ← hcells] at hmsg hlen
    have hs : (cells [s]).length = s.len := by simp [hcells]
    simp only [List.length_map, List.length_take, List.length_drop, List.length_append, hs] at hlen
    rw [List.length_append, hs, List.take_add, List.map_append, List.map_append,
      List.drop_drop] at hmsg
    let xs := (msg.drop offset).take s.len
    have hx : xs.length = s.len := by simp [xs]; omega
    have hspan : span msg offset s.len = some xs := by
      rw [span, if_pos (by rw [List.length_drop]; omega)]
    obtain ⟨hfirst, hrest⟩ := List.append_inj hmsg (by simp [hs]; omega)
    obtain ⟨data₁, hstore, hstored, hread⟩ := store_eq (h s (by simp)) hx
    obtain ⟨data₂, hfold, hstored', hread'⟩ := ih (hstored.fits fun t ht => h t (by simp [ht]))
      (offset + s.len) hrest
    refine ⟨data₂, ?_, ?_, fun c hc => ?_⟩
    · rw [List.foldlM_cons, unpackSlot, hspan]
      simp only [Option.bind_eq_bind, Option.bind_some, hstore, hfold, cells_cons]
      simp [Nat.add_assoc]
    · rw [cells_cons, ← hcells]
      exact hstored.trans hstored'
    · by_cases hmem : c ∈ cells slots
      · exact hread' c hmem
      · rw [hstored'.frame c hmem]
        rw [cells_cons, ← hcells] at hc
        exact List.map_inj_left.mp (hread.trans hfirst) c ((List.mem_append.mp hc).resolve_right hmem)

theorem unpack_eq {msg : List β} {slots : List (Slot κ)} {data : κ → List β}
    {value : κ × ℕ → Option β} (h : Fits data slots)
    (hmsg : msg.map some = (cells slots).map value) :
    ∃ data', unpack msg slots data = some data' ∧ Stored data data' (cells slots) ∧
      ∀ c ∈ cells slots, readCell data' c = value c := by
  have hlen : msg.length = (cells slots).length := by
    simpa using congrArg List.length hmsg
  obtain ⟨data', hfold, hstored, hread⟩ := unpack_from h 0 (by
    rwa [List.drop_zero, List.take_of_length_le hlen.le])
  exact ⟨data', by simp [unpack, hfold], hstored, hread⟩

end

end SlotCopy
