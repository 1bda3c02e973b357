import Mathlib

/-!
# Packed buffers

A packed buffer is the concatenation of one segment per peer, described by the
segments' lengths (`counts`) and the prefix sums of these (`displs`). The
functions below build one in two passes (count, then fill at the running
offset of each peer) and read one back record by record; `Packed` is what they
agree on.
-/

namespace PackedBuffer

-- ---------------------------------------------------------------------------
-- Writing into a buffer
-- ---------------------------------------------------------------------------

/-- `xs` written one element after another from position `j` on. -/
def writeAt : List α → ℕ → List α → List α
  | buf, _, [] => buf
  | buf, j, x :: xs => writeAt (buf.set j x) (j + 1) xs

@[simp] theorem length_writeAt (buf : List α) (j : ℕ) (xs : List α) :
    (writeAt buf j xs).length = buf.length := by
  induction xs generalizing buf j with
  | nil => rfl
  | cons x xs ih => simp [writeAt, ih]

/-- A write that stays inside the middle part leaves the parts around it. -/
theorem writeAt_append (a b c xs : List α) (j : ℕ) (h : j + xs.length ≤ b.length) :
    writeAt (a ++ b ++ c) (a.length + j) xs = a ++ writeAt b j xs ++ c := by
  induction xs generalizing b j with
  | nil => rfl
  | cons x xs ih =>
    simp only [List.length_cons] at h
    have hset : (a ++ b ++ c).set (a.length + j) x = a ++ b.set j x ++ c := by
      rw [List.set_append_left _ _ (by simp; omega), List.set_append_right _ _ (by omega)]
      simp
    rw [writeAt, writeAt, hset, Nat.add_assoc, ih _ _ (by simp; omega)]

/-- A write right after the part already filled. -/
theorem writeAt_fill (pre old xs : List α) (h : xs.length ≤ old.length) :
    writeAt (pre ++ old) pre.length xs = pre ++ xs ++ old.drop xs.length := by
  induction xs generalizing pre old with
  | nil => simp [writeAt]
  | cons x xs ih =>
    obtain _ | ⟨y, old⟩ := old
    · simp at h
    · simp only [List.length_cons, Nat.add_le_add_iff_right] at h
      have := ih (pre ++ [x]) old h
      simpa [writeAt] using this

theorem writeAt_writeAt (buf : List α) (j : ℕ) (xs ys : List α) :
    writeAt (writeAt buf j xs) (j + xs.length) ys = writeAt buf j (xs ++ ys) := by
  induction xs generalizing buf j with
  | nil => rfl
  | cons x xs ih =>
    simp only [writeAt, List.cons_append, List.length_cons]
    rw [← ih, Nat.add_right_comm, Nat.add_assoc]

-- ---------------------------------------------------------------------------
-- Displacements
-- ---------------------------------------------------------------------------

/-- `displs[0] = 0; displs[r + 1] = displs[r] + counts[r]`. -/
def displs (counts : List ℕ) : List ℕ := counts.scanl (· + ·) 0

@[simp] theorem length_displs (counts : List ℕ) : (displs counts).length = counts.length + 1 := by
  simp [displs]

theorem scanl_getD (counts : List ℕ) (c r : ℕ) (h : r ≤ counts.length) :
    (counts.scanl (· + ·) c).getD r 0 = c + (counts.take r).sum := by
  induction counts generalizing c r with
  | nil => simp_all
  | cons x xs ih =>
    cases r with
    | zero => simp
    | succ r =>
      simp only [List.scanl_cons, List.getD_cons_succ, List.take_succ_cons, List.sum_cons]
      rw [ih _ _ (by simpa using h), Nat.add_assoc]

theorem displs_getD {counts : List ℕ} (h : r ≤ counts.length) :
    (displs counts).getD r 0 = (counts.take r).sum := by
  rw [displs, scanl_getD _ _ _ h, Nat.zero_add]

theorem displs_concat (counts : List ℕ) (x : ℕ) :
    displs (counts ++ [x]) = displs counts ++ [(displs counts).getD counts.length 0 + x] := by
  rw [displs_getD le_rfl, List.take_length, displs, List.scanl_append, List.foldl_eq_foldr,
    ← List.sum_eq_foldr]
  rfl

theorem le_sum_of_mem_displs {counts : List ℕ} (h : x ∈ displs counts) : x ≤ counts.sum := by
  induction counts using List.reverseRecOn with
  | nil => simpa [displs] using h
  | append_singleton counts y ih =>
    rw [displs_concat, List.mem_append, List.mem_singleton, displs_getD le_rfl, List.take_length] at h
    rw [List.sum_append, List.sum_singleton]
    exact h.elim (fun hx => (ih hx).trans (Nat.le_add_right _ _)) Eq.le

theorem pairwise_displs (counts : List ℕ) : (displs counts).Pairwise (· ≤ ·) := by
  induction counts using List.reverseRecOn with
  | nil => simp [displs]
  | append_singleton counts y ih =>
    rw [displs_concat, displs_getD le_rfl, List.take_length]
    refine List.pairwise_append.mpr ⟨ih, List.pairwise_singleton _ _, fun x hx z hz => ?_⟩
    obtain rfl := List.mem_singleton.mp hz
    exact (le_sum_of_mem_displs hx).trans (Nat.le_add_right _ _)

theorem getLast?_displs (counts : List ℕ) : (displs counts).getLast? = some counts.sum := by
  cases counts using List.reverseRecOn with
  | nil => rfl
  | append_singleton counts y =>
    rw [displs_concat, displs_getD le_rfl, List.take_length, List.getLast?_concat, List.sum_append, List.sum_singleton]

-- ---------------------------------------------------------------------------
-- Packed buffers
-- ---------------------------------------------------------------------------

/-- A buffer with its counts and displacements, as the calls that exchange
buffers take them. -/
structure Buffer (α : Type*) where
  counts : List ℕ
  displs : List ℕ
  buf : List α

/-- The buffer of `n` given segments. -/
def pack (seg : Fin n → List α) : Buffer α where
  counts := List.ofFn fun r => (seg r).length
  displs := displs (List.ofFn fun r => (seg r).length)
  buf := (List.ofFn seg).flatten

theorem take_ofFn_length (seg : Fin n → List α) (r : ℕ) :
    ((List.ofFn fun r => (seg r).length).take r).sum = (((List.ofFn seg).take r).flatten).length := by
  rw [List.length_flatten, List.map_take, List.map_ofFn]
  rfl

theorem pack_counts_getD (seg : Fin n → List α) (r : Fin n) :
    (pack seg).counts.getD r 0 = (seg r).length := by
  simp [pack]

theorem pack_displs_getD (seg : Fin n → List α) {r : ℕ} (h : r ≤ n) :
    (pack seg).displs.getD r 0 = (((List.ofFn seg).take r).flatten).length := by
  rw [← take_ofFn_length]
  exact displs_getD (by simpa using h)

theorem pack_displs_last (seg : Fin n → List α) :
    (pack seg).displs.getD n 0 = (pack seg).buf.length := by
  rw [pack_displs_getD _ le_rfl, List.take_of_length_le (by simp)]
  rfl

theorem pack_displs_succ (seg : Fin n → List α) (r : Fin n) :
    (pack seg).displs.getD (r + 1) 0 = (pack seg).displs.getD r 0 + (seg r).length := by
  rw [pack_displs_getD _ r.isLt, pack_displs_getD _ r.isLt.le]
  rw [← List.take_append_getElem (by simp), List.flatten_append, List.length_append]
  simp

/-- A concatenation splits around each of its parts. -/
theorem flatten_split (blocks : List (List α)) (h : k < blocks.length) :
    blocks.flatten = (blocks.take k).flatten ++ blocks[k] ++ (blocks.drop (k + 1)).flatten := by
  conv_lhs => rw [← List.take_append_drop k blocks, List.drop_eq_getElem_cons h]
  rw [List.flatten_append, List.flatten_cons, List.append_assoc]

theorem flatten_split_ofFn (f : Fin n → List α) (r : Fin n) :
    (List.ofFn f).flatten =
      ((List.ofFn f).take r).flatten ++ f r ++ ((List.ofFn f).drop (r + 1)).flatten := by
  rw [flatten_split (List.ofFn f) (k := r) (by simp)]
  simp

/-- The slice of a buffer that lies in the segment of a peer. -/
theorem pack_split (seg : Fin n → List α) (r : Fin n) :
    ∃ pre post, (pack seg).buf = pre ++ seg r ++ post ∧
      pre.length = (pack seg).displs.getD r 0 :=
  ⟨_, _, flatten_split_ofFn seg r, (pack_displs_getD _ r.isLt.le).symm⟩

/-- The slice the displacements and counts describe is the segment. -/
theorem pack_slice (seg : Fin n → List α) (r : Fin n) :
    ((pack seg).buf.drop ((pack seg).displs.getD r 0)).take ((pack seg).counts.getD r 0) = seg r := by
  obtain ⟨pre, post, hb, hl⟩ := pack_split seg r
  rw [hb, ← hl, pack_counts_getD, List.append_assoc, List.drop_left, List.take_left]

theorem pack_getElem? (seg : Fin n → List α) (r : Fin n) (h : i < (seg r).length) :
    (pack seg).buf[(pack seg).displs.getD r 0 + i]? = some (seg r)[i] := by
  obtain ⟨pre, post, hb, hl⟩ := pack_split seg r
  rw [hb, ← hl, List.append_assoc, List.getElem?_append_right (Nat.le_add_right _ _),
    Nat.add_sub_cancel_left, List.getElem?_append_left h, List.getElem?_eq_getElem h]

-- ---------------------------------------------------------------------------
-- Packing in two passes
-- ---------------------------------------------------------------------------

/-- The elements sent to one peer, in the order of the messages. -/
def segment (msgs : List (ℕ × List α)) (r : ℕ) : List α :=
  (msgs.filter (·.1 = r)).flatMap (·.2)

/-- The count pass: `counts[dest] += len` for every message. -/
def countPass (n : ℕ) (lens : List (ℕ × ℕ)) : List ℕ :=
  lens.foldl (fun counts m => counts.modify m.1 (· + m.2)) (List.replicate n 0)

/-- One step of the fill pass: the payload is written at
`displs[dest] + counts[dest]`, and the count advances by what was written. -/
def fillStep (displs : List ℕ) (s : List ℕ × List α) (m : ℕ × List α) : List ℕ × List α :=
  (s.1.modify m.1 (· + m.2.length),
    writeAt s.2 (displs.getD m.1 0 + s.1.getD m.1 0) m.2)

/-- Both passes: `lens` is what the count pass adds up, `msgs` what the fill
pass writes. -/
def packMessages [Inhabited α] (n : ℕ) (lens : List (ℕ × ℕ)) (msgs : List (ℕ × List α)) :
    Buffer α :=
  let d := displs (countPass n lens)
  let s := msgs.foldl (fillStep d) (List.replicate n 0, List.replicate (d.getD n 0) default)
  ⟨s.1, d, s.2⟩

theorem segment_append (xs ys : List (ℕ × List α)) (r : ℕ) :
    segment (xs ++ ys) r = segment xs r ++ segment ys r := by
  simp [segment]

theorem segment_singleton (m : ℕ × List α) (r : ℕ) :
    segment [m] r = if m.1 = r then m.2 else [] := by
  by_cases h : m.1 = r <;> simp [segment, h]

theorem modify_ofFn (f : Fin n → β) (g : β → β) (k : ℕ) :
    (List.ofFn f).modify k g = List.ofFn fun i : Fin n => if (i : ℕ) = k then g (f i) else f i := by
  apply List.ext_getElem
  · simp
  · intro i h1 h2
    by_cases h : i = k
    · subst h; simp
    · simp [h, Ne.symm h]

/-- The counts advance by one message. -/
theorem modify_lengths (n : ℕ) (xs : List (ℕ × List α)) (m : ℕ × List α) :
    (List.ofFn fun r : Fin n => (segment xs r).length).modify m.1 (· + m.2.length) =
      List.ofFn fun r : Fin n => (segment (xs ++ [m]) r).length := by
  rw [modify_ofFn]
  congr 1
  funext r
  by_cases h : (r : ℕ) = m.1
  · simp [segment_append, segment_singleton, h]
  · simp [segment_append, segment_singleton, h, Ne.symm h]

theorem countPass_eq (n : ℕ) (msgs : List (ℕ × List α)) :
    countPass n (msgs.map fun m => (m.1, m.2.length)) =
      List.ofFn fun r : Fin n => (segment msgs r).length := by
  induction msgs using List.reverseRecOn with
  | nil => simp [countPass, segment, List.ofFn_const]
  | append_singleton xs m ih =>
    rw [countPass] at ih ⊢
    rw [List.map_append, List.foldl_append, ih]
    exact modify_lengths n xs m

/-- A write inside one block of a buffer of blocks. -/
theorem writeAt_flatten (f : Fin n → List α) (r : Fin n) (j : ℕ) (xs : List α)
    (h : j + xs.length ≤ (f r).length) :
    writeAt (List.ofFn f).flatten ((((List.ofFn f).take r).flatten).length + j) xs =
      (List.ofFn (Function.update f r (writeAt (f r) j xs))).flatten := by
  have hr : (r : ℕ) < (List.ofFn f).length := by simp
  have hset : List.ofFn (Function.update f r (writeAt (f r) j xs)) =
      (List.ofFn f).set r (writeAt (f r) j xs) := by
    apply List.ext_getElem
    · simp
    · intro i h1 h2
      simp [List.getElem_set, Function.update_apply, Fin.ext_iff, eq_comm]
  rw [hset, List.set_eq_take_append_cons_drop, if_pos hr]
  simp only [List.flatten_append, List.flatten_cons, ← List.append_assoc]
  rw [flatten_split_ofFn f r, writeAt_append _ _ _ _ _ h]

/-- The fill pass over a part of the messages: every peer's block holds what
was sent to it so far, followed by what the block held before. -/
theorem fillPass_eq (seg : Fin n → List α) (xs ys : List (ℕ × List α))
    (hd : ∀ m ∈ ys, m.1 < n) (rest : Fin n → List α)
    (hrest : ∀ r : Fin n, (rest r).length = (segment ys r).length)
    (hseg : ∀ r : Fin n, seg r = segment (xs ++ ys) r) :
    ys.foldl (fillStep (pack seg).displs)
      (List.ofFn fun r : Fin n => (segment xs r).length,
        (List.ofFn fun r : Fin n => segment xs r ++ rest r).flatten) =
      ((pack seg).counts, (pack seg).buf) := by
  induction ys generalizing xs rest with
  | nil =>
    have hnil : ∀ r, rest r = [] := fun r => by simpa [segment] using hrest r
    have hs : seg = fun r : Fin n => segment xs r := funext fun r => by simpa using hseg r
    simp [pack, hs, hnil]
  | cons m ys ih =>
    let r : Fin n := ⟨m.1, hd m (by simp)⟩
    have hm : ∀ q : Fin n, segment (m :: ys) q = segment [m] q ++ segment ys q := fun q => by
      rw [← segment_append]; rfl
    have hlen : m.2.length ≤ (rest r).length := by
      rw [hrest, hm, segment_singleton]; simp [r]
    -- the block of the receiving peer gets the payload, the others stay
    have hblock : writeAt (List.ofFn fun q : Fin n => segment xs q ++ rest q).flatten
        ((pack seg).displs.getD m.1 0 +
          (List.ofFn fun q : Fin n => (segment xs q).length).getD m.1 0) m.2 =
        (List.ofFn fun q : Fin n => segment (xs ++ [m]) q ++
          (if q = r then (rest q).drop m.2.length else rest q)).flatten := by
      have hdis : (pack seg).displs.getD m.1 0 =
          (((List.ofFn fun q : Fin n => segment xs q ++ rest q).take r).flatten).length := by
        rw [show m.1 = (r : ℕ) from rfl, pack_displs_getD _ r.isLt.le, List.length_flatten,
          List.length_flatten, List.map_take, List.map_take, List.map_ofFn, List.map_ofFn]
        congr 3
        funext q
        simp [hseg, segment_append, hrest]
      have hcnt : (List.ofFn fun q : Fin n => (segment xs q).length).getD m.1 0 =
          (segment xs r).length := by
        rw [show m.1 = (r : ℕ) from rfl]; simp
      rw [hdis, hcnt, writeAt_flatten _ r _ _ (by simpa using hlen), writeAt_fill _ _ _ hlen]
      congr 2
      funext q
      by_cases hq : q = r
      · subst hq; simp [segment_append, segment_singleton, r]
      · have : m.1 ≠ (q : ℕ) := fun h => hq (Fin.ext h.symm)
        simp [segment_append, segment_singleton, hq, this]
    rw [List.foldl_cons, fillStep, hblock, modify_lengths]
    refine ih (xs ++ [m]) (fun m' hm' => hd m' (by simp [hm'])) _ (fun q => ?_) (by simpa using hseg)
    by_cases hq : q = r
    · subst hq
      have := hrest r
      rw [hm, segment_singleton] at this
      simp [r] at this ⊢
      omega
    · have hne : m.1 ≠ (q : ℕ) := fun h => hq (Fin.ext h.symm)
      have := hrest q
      rw [hm, segment_singleton] at this
      simpa [hq, hne] using this

/-- What the two passes build when they agree on the lengths. -/
theorem packMessages_eq [Inhabited α] {msgs : List (ℕ × List α)} {lens : List (ℕ × ℕ)}
    (hl : lens = msgs.map fun m => (m.1, m.2.length)) (hd : ∀ m ∈ msgs, m.1 < n) :
    packMessages n lens msgs = pack fun r : Fin n => segment msgs r := by
  subst hl
  let seg : Fin n → List α := fun r => segment msgs r
  have hdis : displs (countPass n (msgs.map fun m => (m.1, m.2.length))) = (pack seg).displs := by
    rw [countPass_eq]; rfl
  have hzero : List.replicate n 0 = List.ofFn fun r : Fin n => (segment ([] : List (ℕ × List α)) r).length := by
    simp [segment, List.ofFn_const]
  have hbuf : List.replicate ((pack seg).displs.getD n 0) (default : α) =
      (List.ofFn fun r : Fin n => segment ([] : List (ℕ × List α)) r ++
        List.replicate (seg r).length default).flatten := by
    rw [pack_displs_last, eq_comm, List.eq_replicate_iff]
    constructor
    · simp [pack, segment, List.length_flatten, List.map_ofFn, Function.comp_def]
    · simp [segment, List.mem_ofFn]
  have hfill := fillPass_eq seg [] msgs hd (fun r => List.replicate (seg r).length default)
    (by simp [seg]) (by simp [seg])
  simp only [packMessages, hdis]
  rw [hbuf, hzero, hfill]

/-- The messages among `items` that go to one peer. -/
def itemsFor (p : ℕ) (items : List (ℕ × ρ)) : List ρ := (items.filter (·.1 = p)).map (·.2)

theorem mem_itemsFor {items : List (ℕ × ρ)} : x ∈ itemsFor p items ↔ (p, x) ∈ items := by
  simp [itemsFor]

theorem itemsFor_append (p : ℕ) (xs ys : List (ℕ × ρ)) :
    itemsFor p (xs ++ ys) = itemsFor p xs ++ itemsFor p ys := by
  simp [itemsFor]

/-- Something sent to a list of different peers arrives once at each. -/
theorem itemsFor_map (dests : List ℕ) (hn : dests.Nodup) (p : ℕ) (x : ρ) :
    itemsFor p (dests.map fun r => (r, x)) = if p ∈ dests then [x] else [] := by
  have hbeq : dests.filter (· = p) = dests.filter (· == p) := List.filter_congr fun _ _ => rfl
  rw [itemsFor, List.filter_map, List.map_map]
  simp only [Function.comp_def]
  rw [hbeq, List.filter_beq, hn.count]
  split <;> rfl

theorem itemsFor_flatMap {l : List κ} {dests : κ → List ℕ} (hn : ∀ x ∈ l, (dests x).Nodup) (p : ℕ)
    (f : κ → ρ) : itemsFor p (l.flatMap fun x => (dests x).map fun r => (r, f x)) =
      (l.filter (p ∈ dests ·)).map f := by
  induction l with
  | nil => rfl
  | cons x l ih =>
    rw [List.flatMap_cons, itemsFor_append, itemsFor_map _ (hn x (by simp)),
      ih fun y hy => hn y (by simp [hy]), List.filter_cons]
    by_cases hp : p ∈ dests x <;> simp [hp]

theorem segment_map (items : List (ℕ × ρ)) (enc : ρ → List α) (p : ℕ) :
    segment (items.map fun it => (it.1, enc it.2)) p = (itemsFor p items).flatMap enc := by
  simp [segment, itemsFor, List.filter_map, List.flatMap_map, Function.comp_def]

/-- The two passes over encoded records. -/
theorem packMessages_items [Inhabited α] {items : List (ℕ × ρ)} {enc : ρ → List α} {len : ρ → ℕ}
    (hl : ∀ x, len x = (enc x).length) (hd : ∀ it ∈ items, it.1 < n) :
    packMessages n (items.map fun it => (it.1, len it.2)) (items.map fun it => (it.1, enc it.2)) =
      pack fun p : Fin n => (itemsFor p items).flatMap enc := by
  rw [packMessages_eq]
  · simp only [segment_map]
  · simp [hl]
  · intro m hm
    obtain ⟨it, hit, rfl⟩ := List.mem_map.mp hm
    exact hd it hit

-- ---------------------------------------------------------------------------
-- Reading records
-- ---------------------------------------------------------------------------

/-- The head of a record at position `i`, and the rest of it behind. -/
theorem drop_prefix_cons {buf : List α} (h : x :: xs <+: buf.drop i) :
    buf[i]? = some x ∧ xs <+: buf.drop (i + 1) := by
  obtain ⟨rest, hrest⟩ := h
  constructor
  · rw [← List.head?_drop, ← hrest]
    rfl
  · rw [← List.tail_drop, ← hrest]
    exact ⟨rest, rfl⟩

/-- `n` elements read at position `i`. -/
def span (buf : List α) (i n : ℕ) : Option (List α) :=
  if n ≤ (buf.drop i).length then some ((buf.drop i).take n) else none

theorem span_eq {buf xs : List α} (h : xs <+: buf.drop i) : span buf i xs.length = some xs := by
  rw [span, if_pos h.length_le, List.prefix_iff_eq_take.mp h]
  simp

theorem length_span {buf xs : List α} (h : span buf i n = some xs) : xs.length = n := by
  rw [span] at h
  split_ifs at h with hle
  cases h
  rw [List.length_take, min_eq_left hle]

/-- A message lies behind those for the same peer that came before it. -/
theorem span_message {msgs xs ys : List (ℕ × List α)} (h : msgs = xs ++ m :: ys) (hm : m.1 < n) :
    span (pack fun r : Fin n => segment msgs r).buf
      ((pack fun r : Fin n => segment msgs r).displs.getD m.1 0 + (segment xs m.1).length) m.2.length = some m.2 := by
  obtain ⟨pre, post, hbuf, hpre⟩ := pack_split (fun r : Fin n => segment msgs r) ⟨m.1, hm⟩
  have hsegment : segment msgs m.1 = segment xs m.1 ++ (m.2 ++ segment ys m.1) := by
    have hcons : m :: ys = [m] ++ ys := rfl
    rw [h, segment_append, hcons, segment_append, segment_singleton, if_pos rfl]
  refine span_eq ⟨segment ys m.1 ++ post, ?_⟩
  rw [hbuf]
  dsimp only at hpre ⊢
  rw [← hpre, hsegment, ← List.drop_drop]
  simp

/-- The segments follow one another and fill the buffer. -/
theorem segments_positions (seg : Fin n → List α) :
    ((List.finRange n).flatMap fun r : Fin n => List.range' ((pack seg).displs.getD r 0) (seg r).length) =
      List.range (pack seg).buf.length := by
  have hupto : ∀ k, (h : k ≤ n) → ((List.finRange k).flatMap fun r : Fin k =>
      List.range' ((pack seg).displs.getD r 0) (seg (r.castLE h)).length) = List.range ((pack seg).displs.getD k 0) := by
    intro k
    induction k with
    | zero =>
      intro h
      rw [pack_displs_getD _ h]
      rfl
    | succ k ih =>
      intro h
      have hsucc := pack_displs_succ seg ⟨k, h⟩
      dsimp only at hsucc
      rw [List.finRange_succ_last, List.flatMap_append, List.flatMap_map, List.flatMap_singleton, hsucc,
        List.range_eq_range', ← List.range'_append_1, ← List.range_eq_range', ← ih (Nat.le_of_succ_le h)]
      simp
      rfl
  rw [← pack_displs_last, ← hupto n le_rfl]
  rfl

/-- `for(i = start; i < stop;) record(i)`: a record moves the index past what
it read. The first argument bounds the number of records. -/
def readRecords (record : ℕ → σ → Option (ℕ × σ)) (stop : ℕ) : ℕ → ℕ → σ → Option (ℕ × σ)
  | 0, i, s => if i < stop then none else some (i, s)
  | fuel + 1, i, s =>
    if i < stop then do
      let (i', s') ← record i s
      readRecords record stop fuel i' s'
    else some (i, s)

/-- A reader that undoes the encoding of a record after the records of `recs`,
wherever it lies in the buffer before `stop`. `J` says what the state is after
the records so far. -/
def ReadsTo (J : List ρ → σ → Prop) (buf : List α) (stop : ℕ) (enc : ρ → List α)
    (record : ℕ → σ → Option (ℕ × σ)) (recs : List ρ) (rec : ρ) : Prop :=
  ∀ i s, J recs s → enc rec <+: buf.drop i → i + (enc rec).length ≤ stop →
    ∃ s', record i s = some (i + (enc rec).length, s') ∧ J (recs ++ [rec]) s'

/-- A reader for which the state changes by a function of the record. -/
def Reads (buf : List α) (stop : ℕ) (enc : ρ → List α) (apply : σ → ρ → σ)
    (record : ℕ → σ → Option (ℕ × σ)) (rec : ρ) : Prop :=
  ∀ i s, enc rec <+: buf.drop i → i + (enc rec).length ≤ stop →
    record i s = some (i + (enc rec).length, apply s rec)

theorem Reads.readsTo {record : ℕ → σ → Option (ℕ × σ)} {apply : σ → ρ → σ} {enc : ρ → List α}
    (h : Reads buf stop enc apply record rec) (s : σ) (recs : List ρ) :
    ReadsTo (fun recs s' => s' = recs.foldl apply s) buf stop enc record recs rec := by
  rintro i _ rfl hbuf hstop
  refine ⟨_, h i _ hbuf hstop, ?_⟩
  simp only [List.foldl_append, List.foldl_cons, List.foldl_nil]

/-- The loop over a run of encoded records ends right behind them. -/
theorem readRecords_eq {record : ℕ → σ → Option (ℕ × σ)} {recs done : List ρ} {enc : ρ → List α}
    {J : List ρ → σ → Prop} {buf : List α} {i stop fuel : ℕ} {s : σ}
    (hr : ∀ l rec, l ++ [rec] <+: recs → ReadsTo J buf stop enc record (done ++ l) rec)
    (hpos : ∀ rec ∈ recs, enc rec ≠ []) (hJ : J done s)
    (hbuf : recs.flatMap enc <+: buf.drop i) (hstop : i + (recs.flatMap enc).length = stop)
    (hfuel : recs.length ≤ fuel) :
    ∃ s', readRecords record stop fuel i s = some (stop, s') ∧ J (done ++ recs) s' := by
  induction recs generalizing i s fuel done with
  | nil =>
    simp only [List.flatMap_nil, List.length_nil, Nat.add_zero] at hstop
    subst hstop
    refine ⟨s, ?_, by rwa [List.append_nil]⟩
    cases fuel <;> simp [readRecords]
  | cons rec recs ih =>
    obtain ⟨rest, hrest⟩ := hbuf
    rw [List.flatMap_cons, List.append_assoc] at hrest
    rw [List.flatMap_cons, List.length_append] at hstop
    have hlen : 0 < (enc rec).length := List.length_pos_iff.mpr (hpos rec (by simp))
    cases fuel with
    | zero => simp at hfuel
    | succ fuel =>
      obtain ⟨s₁, hstep, hJ₁⟩ := hr [] rec ⟨recs, rfl⟩ i s (by rwa [List.append_nil])
        ⟨_, hrest⟩ (by omega)
      rw [List.append_nil] at hJ₁
      have hr' : ∀ l r, l ++ [r] <+: recs → ReadsTo J buf stop enc record (done ++ [rec] ++ l) r :=
        fun l r h => by
          rw [List.append_assoc]
          exact hr (rec :: l) r (List.cons_prefix_cons.mpr ⟨rfl, h⟩)
      have hbuf' : recs.flatMap enc <+: buf.drop (i + (enc rec).length) :=
        ⟨rest, by rw [← List.drop_drop, ← hrest, List.drop_left]⟩
      obtain ⟨s', hs', hJ'⟩ := ih hr' (fun r h => hpos r (by simp [h])) hJ₁ hbuf' (by omega)
        (Nat.le_of_succ_le_succ hfuel)
      refine ⟨s', ?_, by simpa using hJ'⟩
      rw [readRecords, if_pos (by omega), hstep]
      exact hs'

/-- The loop over one segment of a received buffer. -/
def readSegment (record : ℕ → ℕ → ℕ → σ → Option (ℕ × σ)) (displs : List ℕ) (r : ℕ) (s : σ) :
    Option (ℕ × σ) :=
  let start := displs.getD r 0
  let stop := displs.getD (r + 1) 0
  readRecords (record r stop) stop (stop - start) start s

/-- A segment of encoded records is read to its end. -/
theorem readSegment_eq {record : ℕ → ℕ → ℕ → σ → Option (ℕ × σ)} (recs : Fin n → List ρ)
    {done : List ρ} {enc : ρ → List α} {J : List ρ → σ → Prop} {s : σ} (r : Fin n)
    (hr : ∀ l rec, l ++ [rec] <+: recs r → ∀ stop, ReadsTo J
      (pack fun r => (recs r).flatMap enc).buf stop enc (record r stop) (done ++ l) rec)
    (hpos : ∀ rec ∈ recs r, enc rec ≠ []) (hJ : J done s) :
    ∃ s', readSegment record (pack fun r => (recs r).flatMap enc).displs r s =
      some ((pack fun r => (recs r).flatMap enc).displs.getD (r + 1) 0, s') ∧
      J (done ++ recs r) s' := by
  obtain ⟨pre, post, hb, hl⟩ := pack_split (fun r => (recs r).flatMap enc) r
  rw [readSegment, pack_displs_succ, ← hl]
  refine readRecords_eq (fun l rec h => hr l rec h _) hpos hJ ⟨post, ?_⟩ rfl ?_
  · rw [hb, List.append_assoc, List.drop_left]
  · have : (recs r).length ≤ ((recs r).flatMap enc).length := by
      rw [List.length_flatMap]
      have := List.card_nsmul_le_sum ((recs r).map fun x => (enc x).length) 1 (by
        intro x hx
        obtain ⟨rec, h, rfl⟩ := List.mem_map.mp hx
        exact List.length_pos_iff.mpr (hpos rec h))
      simpa using this
    omega

/-- `for(r = 0; r < n; ++r)` over the segments of a received buffer, with a
last step for every peer. -/
def readSegmentsThen (n : ℕ) (record : ℕ → ℕ → ℕ → σ → Option (ℕ × σ)) (finish : σ → σ)
    (displs : List ℕ) (s : σ) : Option σ :=
  (List.range n).foldlM (fun s r => do
    let (_, s) ← readSegment record displs r s
    some (finish s)) s

def readSegments (n : ℕ) (record : ℕ → ℕ → ℕ → σ → Option (ℕ × σ)) (displs : List ℕ) (s : σ) :
    Option σ :=
  readSegmentsThen n record id displs s

/-- The whole read of a packed buffer whose segments are encoded records. -/
theorem readSegmentsThen_eq {record : ℕ → ℕ → ℕ → σ → Option (ℕ × σ)} {recs : Fin n → List ρ}
    {enc : ρ → List α} {apply : ℕ → σ → ρ → σ} {finish : σ → σ} {s : σ}
    (hr : ∀ r : Fin n, ∀ rec ∈ recs r, ∀ stop,
      Reads (pack fun r => (recs r).flatMap enc).buf stop enc (apply r) (record r stop) rec)
    (hpos : ∀ r : Fin n, ∀ rec ∈ recs r, enc rec ≠ []) :
    readSegmentsThen n record finish (pack fun r => (recs r).flatMap enc).displs s =
      some ((List.finRange n).foldl (fun s r => finish ((recs r).foldl (apply r) s)) s) := by
  rw [readSegmentsThen, ← List.map_coe_finRange_eq_range, List.foldlM_map]
  generalize List.finRange n = l
  induction l generalizing s with
  | nil => rfl
  | cons r l ih =>
    obtain ⟨s', hone, rfl⟩ := readSegment_eq (J := fun recs s' => s' = recs.foldl (apply r) s)
      recs r (fun l rec h stop => (hr r rec (h.subset (by simp)) stop).readsTo s _) (hpos r)
      (List.foldl_nil (b := s)).symm
    rw [List.foldlM_cons, List.foldl_cons, hone]
    exact ih

/-- The records of all segments in order, each with its peer. -/
def allRecords (recs : Fin n → List ρ) : List (ℕ × ρ) :=
  (List.finRange n).flatMap fun r => (recs r).map fun rec => ((r : ℕ), rec)

theorem mem_allRecords {recs : Fin n → List ρ} {x : ℕ × ρ} :
    x ∈ allRecords recs ↔ ∃ r : Fin n, x.1 = r ∧ x.2 ∈ recs r := by
  obtain ⟨k, rec⟩ := x
  simp only [allRecords, List.mem_flatMap, List.mem_finRange, true_and, List.mem_map,
    Prod.mk.injEq]
  constructor
  · rintro ⟨r, rec, h, rfl, rfl⟩
    exact ⟨r, rfl, h⟩
  · rintro ⟨r, rfl, h⟩
    exact ⟨r, rec, h, rfl, rfl⟩

theorem mk_mem_allRecords {recs : Fin n → List ρ} {r : Fin n} :
    ((r : ℕ), x) ∈ allRecords recs ↔ x ∈ recs r := by
  rw [mem_allRecords]
  constructor
  · rintro ⟨r', hr, h⟩
    exact Fin.ext hr ▸ h
  · exact fun h => ⟨r, rfl, h⟩

/-- The whole read, with an invariant of the records read so far. -/
theorem readSegments_run {record : ℕ → ℕ → ℕ → σ → Option (ℕ × σ)} {recs : Fin n → List ρ}
    {enc : ρ → List α} {J : List (ℕ × ρ) → σ → Prop} {s : σ}
    (hr : ∀ l (r : Fin n) rec, l ++ [((r : ℕ), rec)] <+: allRecords recs → ∀ stop,
      ReadsTo J (pack fun r => (recs r).flatMap enc).buf stop (enc ∘ Prod.snd) (record r stop) l
        (r, rec))
    (hpos : ∀ r : Fin n, ∀ rec ∈ recs r, enc rec ≠ []) (hJ : J [] s) :
    ∃ s', readSegments n record (pack fun r => (recs r).flatMap enc).displs s = some s' ∧
      J (allRecords recs) s' := by
  let recs' : Fin n → List (ℕ × ρ) := fun r => (recs r).map fun rec => ((r : ℕ), rec)
  have hpack : (pack fun r => (recs r).flatMap enc) =
      pack fun r => (recs' r).flatMap (enc ∘ Prod.snd) := by
    simp only [recs', List.flatMap_map, Function.comp_def]
  rw [hpack] at hr ⊢
  have run : ∀ l l', l ++ l' = List.finRange n → ∀ s, J (l.flatMap recs') s → ∃ s',
      l'.foldlM (fun s (r : Fin n) => do
        let (_, s) ← readSegment record (pack fun r => (recs' r).flatMap (enc ∘ Prod.snd)).displs r s
        some (id s)) s = some s' ∧ J ((l ++ l').flatMap recs') s' := by
    intro l l'
    induction l' generalizing l with
    | nil => exact fun _ s hs => ⟨s, rfl, by rwa [List.append_nil]⟩
    | cons r l' ih =>
      intro hl s hs
      have hall : allRecords recs = l.flatMap recs' ++ (recs' r ++ l'.flatMap recs') := by
        rw [allRecords, ← hl, List.flatMap_append, List.flatMap_cons]
      obtain ⟨s₁, hone, hs₁⟩ := readSegment_eq recs' r (fun done x hx stop => by
        obtain ⟨rec, -, rfl⟩ := List.mem_map.mp (hx.subset (List.mem_append_right _ (.head _)))
        refine hr _ r rec ?_ stop
        rw [hall, List.append_assoc, List.prefix_append_right_inj]
        exact hx.trans (List.prefix_append _ _)) (fun x hx => by
        obtain ⟨rec, hrec, rfl⟩ := List.mem_map.mp hx
        exact hpos r rec hrec) hs
      obtain ⟨s', hfold, hs'⟩ := ih (l ++ [r]) (by rw [← hl, List.append_assoc]; rfl) s₁
        (by rwa [List.flatMap_append, List.flatMap_singleton])
      refine ⟨s', ?_, by rwa [List.append_assoc] at hs'⟩
      rw [List.foldlM_cons, hone]
      exact hfold
  obtain ⟨s', hfold, hs'⟩ := run [] (List.finRange n) rfl s hJ
  refine ⟨s', ?_, hs'⟩
  rw [readSegments, readSegmentsThen, ← List.map_coe_finRange_eq_range, List.foldlM_map]
  exact hfold

theorem allRecords_nodup {recs : Fin n → List ρ} (h : ∀ r, (recs r).Nodup) :
    (allRecords recs).Nodup := by
  refine List.nodup_flatMap.mpr ⟨fun r _ => (h r).map fun _ _ h => (Prod.mk.inj h).2, ?_⟩
  refine (List.nodup_finRange n).imp fun {r r'} hne x hx hx' => hne ?_
  obtain ⟨_, -, rfl⟩ := List.mem_map.mp hx
  obtain ⟨_, -, h⟩ := List.mem_map.mp hx'
  exact Fin.ext (Prod.mk.inj h).1.symm

/-- What peer `p` handles: its own items, and then those it is sent. -/
def handled (items : Fin n → List (ℕ × ρ)) (p : Fin n) : List (ℕ × ρ) :=
  (itemsFor p (items p)).map (fun x => ((p : ℕ), x)) ++
    allRecords fun r => itemsFor p ((items r).filter (·.1 ≠ (r : ℕ)))

theorem mem_itemsFor_sent {items : List (ℕ × ρ)} {p r : Fin n} :
    x ∈ itemsFor p (items.filter (·.1 ≠ (r : ℕ))) ↔ r ≠ p ∧ ((p : ℕ), x) ∈ items := by
  rw [mem_itemsFor, List.mem_filter, decide_eq_true_eq, and_comm, ne_comm]
  simp only [ne_eq, Fin.val_inj]

theorem mem_handled {items : Fin n → List (ℕ × ρ)} {p : Fin n} :
    x ∈ handled items p ↔ ∃ q : Fin n, x.1 = q ∧ ((p : ℕ), x.2) ∈ items q := by
  simp only [handled, List.mem_append, List.mem_map, mem_allRecords, mem_itemsFor_sent]
  constructor
  · rintro (⟨y, h, rfl⟩ | ⟨q, hq, -, h⟩)
    · exact ⟨p, rfl, mem_itemsFor.mp h⟩
    · exact ⟨q, hq, h⟩
  · rintro ⟨q, hq, h⟩
    by_cases hp : q = p
    · subst hp
      exact .inl ⟨x.2, mem_itemsFor.mpr h, Prod.ext hq.symm rfl⟩
    · exact .inr ⟨q, hq, hp, h⟩

theorem handled_nodup {items : Fin n → List (ℕ × ρ)} {p : Fin n} (h : ∀ r, (items r).Nodup) :
    (handled items p).Nodup := by
  have hitems : ∀ l : List (ℕ × ρ), l.Nodup → (itemsFor p l).Nodup := fun l hl =>
    (hl.filter _).map_on fun x hx y hy hxy => Prod.ext
      ((of_decide_eq_true (List.mem_filter.mp hx).2).trans
        (of_decide_eq_true (List.mem_filter.mp hy).2).symm) hxy
  refine List.nodup_append.mpr ⟨(hitems _ (h p)).map fun _ _ h => (Prod.mk.inj h).2,
    allRecords_nodup fun r => hitems _ ((h r).filter _), ?_⟩
  rintro x hx _ hy rfl
  obtain ⟨y, -, rfl⟩ := List.mem_map.mp hx
  obtain ⟨r, hr, hy⟩ := mem_allRecords.mp hy
  exact (mem_itemsFor_sent.mp hy).1 (Fin.ext hr.symm)

theorem readSegments_eq {record : ℕ → ℕ → ℕ → σ → Option (ℕ × σ)} {recs : Fin n → List ρ}
    {enc : ρ → List α} (apply : ℕ → σ → ρ → σ) {s : σ}
    (hr : ∀ r : Fin n, ∀ rec ∈ recs r, ∀ stop,
      Reads (pack fun r => (recs r).flatMap enc).buf stop enc (apply r) (record r stop) rec)
    (hpos : ∀ r : Fin n, ∀ rec ∈ recs r, enc rec ≠ []) :
    readSegments n record (pack fun r => (recs r).flatMap enc).displs s =
      some ((allRecords recs).foldl (fun s x => apply x.1 s x.2) s) := by
  rw [readSegments, readSegmentsThen_eq hr hpos, allRecords, List.foldl_flatMap]
  simp only [List.foldl_map, id]

end PackedBuffer
