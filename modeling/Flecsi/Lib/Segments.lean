import Flecsi.Lib.PackedBuffer

/-!
# Segments of a shared buffer

Bounded copies into and out of a buffer at a signed position, and a buffer that the members
of a group fill together, each the segment at the sum of the lengths before its own.
-/

namespace Segments

open PackedBuffer

-- ---------------------------------------------------------------------------
-- Bounded copies
-- ---------------------------------------------------------------------------

/-- `len` elements from `pos` on, all inside the buffer. -/
def loadAt (buf : List α) (pos : ℤ) (len : ℕ) : Option (List α) :=
  if 0 ≤ pos ∧ pos + len ≤ buf.length then some ((buf.drop pos.toNat).take len) else none

/-- `xs` written from `pos` on, all inside the buffer. -/
def storeAt (buf : List α) (pos : ℤ) (xs : List α) : Option (List α) :=
  if 0 ≤ pos ∧ pos + xs.length ≤ buf.length then some (writeAt buf pos.toNat xs) else none

theorem loadAt_eq_some {buf xs : List α} {pos : ℤ} {len : ℕ} :
    loadAt buf pos len = some xs ↔
      (0 ≤ pos ∧ pos + len ≤ buf.length) ∧ (buf.drop pos.toNat).take len = xs := by
  unfold loadAt
  split
  · simp_all
  · simp_all

theorem storeAt_eq_some {buf buf' xs : List α} {pos : ℤ} :
    storeAt buf pos xs = some buf' ↔
      (0 ≤ pos ∧ pos + xs.length ≤ buf.length) ∧ writeAt buf pos.toNat xs = buf' := by
  unfold storeAt
  split
  · simp_all
  · simp_all

theorem length_storeAt {buf buf' xs : List α} {pos : ℤ} (h : storeAt buf pos xs = some buf') :
    buf'.length = buf.length := by
  obtain ⟨_, rfl⟩ := storeAt_eq_some.mp h
  exact length_writeAt _ _ _

theorem length_loadAt {buf xs : List α} {pos : ℤ} {len : ℕ} (h : loadAt buf pos len = some xs) :
    xs.length = len := by
  obtain ⟨hpos, rfl⟩ := loadAt_eq_some.mp h
  rw [List.length_take, List.length_drop]
  omega

theorem loadAt_append (pre xs post : List α) :
    loadAt (pre ++ xs ++ post) pre.length xs.length = some xs := by
  refine loadAt_eq_some.mpr ⟨⟨Int.natCast_nonneg _, by simp⟩, ?_⟩
  rw [Int.toNat_natCast, List.append_assoc, List.drop_left, List.take_left]

theorem storeAt_append {xs : List α} (pre old post : List α) (h : old.length = xs.length) :
    storeAt (pre ++ old ++ post) pre.length xs = some (pre ++ xs ++ post) := by
  refine storeAt_eq_some.mpr ⟨⟨Int.natCast_nonneg _, by simp [h]⟩, ?_⟩
  have hdrop : (old ++ post).drop xs.length = post := List.drop_left' h
  rw [Int.toNat_natCast, List.append_assoc, writeAt_fill _ _ _ (by simp [h]), hdrop]

-- ---------------------------------------------------------------------------
-- Displacements in a group
-- ---------------------------------------------------------------------------

def total (size : ι → ℕ) (group : List ι) : ℕ := (group.map size).sum

theorem total_append (size : ι → ℕ) (xs ys : List ι) :
    total size (xs ++ ys) = total size xs + total size ys := by
  simp [total]

theorem total_cons (size : ι → ℕ) (p : ι) (ps : List ι) :
    total size (p :: ps) = size p + total size ps := by
  simp [total]

theorem length_flatMap {width : ℕ} {size : ι → ℕ} {part : ι → List α} {group : List ι}
    (hlen : ∀ p ∈ group, (part p).length = width * size p) :
    (group.flatMap part).length = width * total size group := by
  induction group with
  | nil => rfl
  | cons p ps ih =>
    rw [List.flatMap_cons, List.length_append, hlen p List.mem_cons_self,
      ih fun q hq => hlen q (List.mem_cons_of_mem _ hq), total_cons, Nat.mul_add]

section
variable [DecidableEq ι] (size : ι → ℕ)

/-- The exclusive prefix sum of the members' sizes. -/
def displ (group : List ι) (p : ι) : ℕ := total size (group.take (group.idxOf p))

theorem displ_split {pre post : List ι} {p : ι} (h : p ∉ pre) :
    displ size (pre ++ p :: post) p = total size pre := by
  have hidx : (pre ++ p :: post).idxOf p = pre.length := by
    rw [List.idxOf_append_of_notMem h, List.idxOf_cons_self, Nat.add_zero]
  rw [displ, hidx, List.take_left]

/-- The segments are disjoint and cover the buffer. -/
theorem existsUnique_segment {group : List ι} (hn : group.Nodup) {i : ℕ} (hi : i < total size group) :
    ∃! p, p ∈ group ∧ displ size group p ≤ i ∧ i < displ size group p + size p := by
  obtain ⟨pre, p, post, rfl, hle, hlt⟩ : ∃ pre p post, group = pre ++ p :: post ∧
      total size pre ≤ i ∧ i < total size pre + size p := by
    clear hn
    induction group generalizing i with
    | nil => exact absurd hi (Nat.not_lt_zero _)
    | cons p ps ih =>
      rw [total_cons] at hi
      by_cases h : i < size p
      · exact ⟨[], p, ps, rfl, Nat.zero_le _, by simpa [total] using h⟩
      · obtain ⟨pre, q, post, rfl, hle, hlt⟩ := ih (i := i - size p) (by omega)
        refine ⟨p :: pre, q, post, rfl, ?_, ?_⟩
        · rw [total_cons]
          omega
        · rw [total_cons]
          omega
  have hp : p ∉ pre := fun h => (List.nodup_append.mp hn).2.2 p h p List.mem_cons_self rfl
  refine ⟨p, ⟨by simp, ?_⟩, fun q ⟨hq, hqle, hqlt⟩ => ?_⟩
  · rw [displ_split size hp]
    exact ⟨hle, hlt⟩
  · by_contra hne
    obtain hq | hq := List.mem_append.mp hq
    · -- an earlier segment ends before the segment of `p` starts
      obtain ⟨a, b, rfl⟩ := List.append_of_mem hq
      have hqa : q ∉ a := fun h =>
        (List.nodup_append.mp (List.nodup_append.mp hn).1).2.2 q h q List.mem_cons_self rfl
      rw [List.append_assoc, List.cons_append, displ_split size hqa] at hqlt
      rw [total_append, total_cons] at hle
      omega
    · obtain hq | hq := List.mem_cons.mp hq
      · exact hne hq
      · obtain ⟨a, b, rfl⟩ := List.append_of_mem hq
        have hqa : q ∉ pre ++ p :: a := by
          rw [← List.cons_append, ← List.append_assoc] at hn
          exact fun h => (List.nodup_append.mp hn).2.2 q h q List.mem_cons_self rfl
        have hsplit : pre ++ p :: (a ++ q :: b) = (pre ++ p :: a) ++ q :: b := by simp
        rw [hsplit, displ_split size hqa, total_append, total_cons] at hqle
        omega

end

-- ---------------------------------------------------------------------------
-- A buffer filled by a group
-- ---------------------------------------------------------------------------

section
variable [DecidableEq ι] (width : ℕ) (size : ι → ℕ) (image : ι → Option (List α))

/-- Every member writes its image at its displacement, in elements of `width`. -/
def writeSegments (group : List ι) (buf : List α) : Option (List α) :=
  group.foldlM (fun buf p => do storeAt buf ((width * displ size group p : ℕ) : ℤ) (← image p)) buf

variable {width size image}

theorem writeSegments_eq {part : ι → List α} {group : List ι} (hn : group.Nodup)
    (himage : ∀ p ∈ group, image p = some (part p))
    (hlen : ∀ p ∈ group, (part p).length = width * size p) {buf : List α}
    (hbuf : buf.length = width * total size group) :
    writeSegments width size image group buf = some (group.flatMap part) := by
  -- the members before `rest` have filled the front of the buffer
  suffices h : ∀ done rest : List ι, group = done ++ rest → ∀ old : List α,
      old.length = width * total size rest →
      rest.foldlM (fun buf p => do
        storeAt buf ((width * displ size group p : ℕ) : ℤ) (← image p)) (done.flatMap part ++ old) =
        some (done.flatMap part ++ rest.flatMap part) by
    exact h [] group rfl buf hbuf
  intro done rest hsplit
  induction rest generalizing done with
  | nil =>
    intro old hold
    have hnil : old = [] := List.length_eq_zero_iff.mp hold
    simp [hnil]
  | cons p rest ih =>
    intro old hold
    have hp : p ∈ group := by simp [hsplit]
    have hpre : p ∉ done := by
      rw [hsplit] at hn
      exact fun h => (List.nodup_append.mp hn).2.2 p h p List.mem_cons_self rfl
    have hdone : ∀ q ∈ done, (part q).length = width * size q := fun q hq =>
      hlen q (by simp [hsplit, hq])
    rw [total_cons, Nat.mul_add] at hold
    have hat : width * displ size group p = (done.flatMap part).length := by
      rw [length_flatMap hdone, hsplit, displ_split size hpre]
    have hfront : (old.take (width * size p)).length = (part p).length := by
      rw [hlen p hp, List.length_take]
      omega
    have hstore := storeAt_append (done.flatMap part) _ (old.drop (width * size p)) hfront
    rw [List.append_assoc, List.take_append_drop] at hstore
    rw [List.foldlM_cons, himage p hp, Option.bind_eq_bind, Option.bind_some, hat, hstore,
      Option.bind_some]
    have hstep := ih (done ++ [p]) (by simp [hsplit]) (old.drop (width * size p)) (by
      rw [List.length_drop]
      omega)
    simpa using hstep

/-- A member reads its segment back. -/
theorem loadAt_flatMap {part : ι → List α} {group : List ι} (hn : group.Nodup)
    (hlen : ∀ p ∈ group, (part p).length = width * size p) {p : ι} (hp : p ∈ group) :
    loadAt (group.flatMap part) ((width * displ size group p : ℕ) : ℤ) (width * size p) =
      some (part p) := by
  obtain ⟨pre, post, rfl⟩ := List.append_of_mem hp
  have hpre : p ∉ pre := fun h => (List.nodup_append.mp hn).2.2 p h p List.mem_cons_self rfl
  have hat : width * displ size (pre ++ p :: post) p = (pre.flatMap part).length := by
    rw [length_flatMap fun q hq => hlen q (by simp [hq]), displ_split size hpre]
  rw [hat, ← hlen p hp, List.flatMap_append, List.flatMap_cons, ← List.append_assoc]
  exact loadAt_append _ _ _

/-- A written buffer has an image from every member. -/
theorem writeSegments_some {group : List ι} {buf buf' : List α}
    (h : writeSegments width size image group buf = some buf') : ∀ p ∈ group, (image p).isSome := by
  suffices hrest : ∀ (rest : List ι) (buf : List α), rest.foldlM (fun buf p => do
      storeAt buf ((width * displ size group p : ℕ) : ℤ) (← image p)) buf = some buf' →
      ∀ p ∈ rest, (image p).isSome from hrest group buf h
  intro rest
  induction rest with
  | nil => exact fun _ _ p hp => absurd hp List.not_mem_nil
  | cons q rest ih =>
    intro buf h p hp
    rw [List.foldlM_cons] at h
    obtain ⟨next, hnext, hrest⟩ := Option.bind_eq_some_iff.mp h
    obtain ⟨x, hx, _⟩ := Option.bind_eq_some_iff.mp hnext
    obtain rfl | hp := List.mem_cons.mp hp
    · exact Option.isSome_iff_exists.mpr ⟨x, hx⟩
    · exact ih next hrest p hp

end

end Segments
