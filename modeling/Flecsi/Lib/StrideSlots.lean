import Flecsi.Lib.Segments
import Flecsi.Lib.SlotCopy

/-!
# Rows in slots of a fixed stride

Rows copied one after another into a buffer, each to the start of its slot. A row longer than
the stride runs into the slots behind it, which the rows that come next overwrite.
-/

namespace StrideSlots

open PackedBuffer Segments

variable {α : Type u}

def storeRows (m : ℕ) (rows : List (List α)) (buf : List α) : Option (List α) :=
  rows.zipIdx.foldlM (fun buf x => storeAt buf ((x.2 * m : ℕ) : ℤ) x.1) buf

theorem storeAt_nat {buf buf' xs : List α} {i : ℕ} :
    storeAt buf (i : ℤ) xs = some buf' ↔ i + xs.length ≤ buf.length ∧ writeAt buf i xs = buf' := by
  rw [storeAt_eq_some, Int.toNat_natCast]
  refine and_congr_left fun _ => ⟨fun h => ?_, fun h => ⟨Int.natCast_nonneg _, ?_⟩⟩
  · exact_mod_cast h.2
  · exact_mod_cast h

theorem loadAt_nat {buf xs : List α} {i len : ℕ} :
    loadAt buf (i : ℤ) len = some xs ↔ i + len ≤ buf.length ∧ (buf.drop i).take len = xs := by
  rw [loadAt_eq_some, Int.toNat_natCast]
  refine and_congr_left fun _ => ⟨fun h => ?_, fun h => ⟨Int.natCast_nonneg _, ?_⟩⟩
  · exact_mod_cast h.2
  · exact_mod_cast h

theorem storeRows_concat (m : ℕ) (rows : List (List α)) (row buf : List α) :
    storeRows m (rows ++ [row]) buf =
      (storeRows m rows buf).bind fun buf => storeAt buf ((rows.length * m : ℕ) : ℤ) row := by
  simp [storeRows, List.zipIdx_append, List.foldlM_append]

theorem length_storeRows {m : ℕ} {rows : List (List α)} {buf buf' : List α}
    (h : storeRows m rows buf = some buf') : buf'.length = buf.length := by
  induction rows using List.reverseRecOn generalizing buf' with
  | nil => rw [Option.some.inj h]
  | append_singleton rows row ih =>
    rw [storeRows_concat] at h
    obtain ⟨mid, hmid, hstore⟩ := Option.bind_eq_some_iff.mp h
    rw [length_storeAt hstore, ih hmid]

/-- The copies stay inside the buffer exactly if every row ends before its end. -/
theorem storeRows_isSome {m : ℕ} {rows : List (List α)} {buf : List α} :
    (storeRows m rows buf).isSome ↔
      ∀ i row, rows[i]? = some row → i * m + row.length ≤ buf.length := by
  induction rows using List.reverseRecOn with
  | nil => simp [storeRows]
  | append_singleton rows row ih =>
    have hsplit : (∀ i r, (rows ++ [row])[i]? = some r → i * m + r.length ≤ buf.length) ↔
        (∀ i r, rows[i]? = some r → i * m + r.length ≤ buf.length) ∧
          rows.length * m + row.length ≤ buf.length := by
      constructor
      · intro h
        exact ⟨fun i r hr => h i r (List.getElem?_append_left (List.getElem?_eq_some_iff.mp hr).1 ▸ hr),
          h _ row List.getElem?_concat_length⟩
      · rintro ⟨hrows, hrow⟩ i r hr
        rcases Nat.lt_or_ge i rows.length with hi | hi
        · exact hrows i r (List.getElem?_append_left hi ▸ hr)
        · rw [List.getElem?_append_right hi] at hr
          obtain ⟨hzero, rfl⟩ := List.getElem?_eq_some_iff.mp hr
          have hi : i = rows.length := by simp at hzero; omega
          simpa [hi] using hrow
    rw [hsplit, ← ih, storeRows_concat]
    cases hmid : storeRows m rows buf with
    | none => simp
    | some mid =>
      rw [← length_storeRows hmid, Option.bind_some, Option.isSome_iff_exists]
      simp only [storeAt_nat, Option.isSome_some, true_and]
      exact ⟨fun ⟨_, hfit, _⟩ => hfit, fun hfit => ⟨_, hfit, rfl⟩⟩

/-- A slot starts with its row, as far as the row reaches into it. -/
theorem getElem?_storeRows {m : ℕ} {rows : List (List α)} {buf buf' row : List α} {i j : ℕ}
    (h : storeRows m rows buf = some buf') (hi : rows[i]? = some row) (hj : j < m)
    (hlen : j < row.length) : buf'[i * m + j]? = row[j]? := by
  induction rows using List.reverseRecOn generalizing buf' with
  | nil => cases hi
  | append_singleton rows last ih =>
    rw [storeRows_concat] at h
    obtain ⟨mid, hmid, hstore⟩ := Option.bind_eq_some_iff.mp h
    obtain ⟨hfit, rfl⟩ := storeAt_nat.mp hstore
    rw [SlotCopy.getElem?_writeAt hfit]
    rcases Nat.lt_or_ge i rows.length with hlt | hge
    · -- the last row is written behind this slot
      have hslot : (i + 1) * m ≤ rows.length * m := Nat.mul_le_mul_right m hlt
      rw [Nat.succ_mul] at hslot
      rw [if_neg (by omega)]
      exact ih hmid (List.getElem?_append_left hlt ▸ hi)
    · rw [List.getElem?_append_right hge] at hi
      obtain ⟨hzero, rfl⟩ := List.getElem?_eq_some_iff.mp hi
      have hlast : i = rows.length := by simp at hzero; omega
      have hzero' : i - rows.length = 0 := by omega
      simp only [hzero', List.getElem_cons_zero] at hlen ⊢
      rw [hlast, if_pos (by omega), Nat.add_sub_cancel_left]

-- ---------------------------------------------------------------------------
-- Slots in any order
-- ---------------------------------------------------------------------------

/-- The slots of some keys hold their values, the others what they held. -/
structure Filled (m : ℕ) (value : ℕ → List α) (buf : List α) (keys : List ℕ) (buf' : List α) : Prop where
  length : buf'.length = buf.length
  filled : ∀ k ∈ keys, ∀ b < m, buf'[k * m + b]? = (value k)[b]?
  kept : ∀ k ∉ keys, ∀ b < m, buf'[k * m + b]? = buf[k * m + b]?

theorem Filled.nil (m : ℕ) (value : ℕ → List α) (buf : List α) : Filled m value buf [] buf where
  length := rfl
  filled _ hk := absurd hk List.not_mem_nil
  kept _ _ _ _ := rfl

theorem slot_disjoint {m i k a : ℕ} (hik : i ≠ k) (ha : a < m) :
    i * m + a < k * m ∨ (k + 1) * m ≤ i * m + a := by
  rcases Nat.lt_or_gt_of_ne hik with hlt | hgt
  · have hle : (i + 1) * m ≤ k * m := Nat.mul_le_mul_right m hlt
    rw [Nat.succ_mul] at hle
    omega
  · have hle : (k + 1) * m ≤ i * m := Nat.mul_le_mul_right m hgt
    omega

theorem Filled.store {m k : ℕ} {value : ℕ → List α} {buf mid : List α} {keys : List ℕ}
    (h : Filled m value buf keys mid) (hlen : (value k).length = m) (hfit : (k + 1) * m ≤ buf.length) :
    ∃ buf', storeAt mid ((k * m : ℕ) : ℤ) (value k) = some buf' ∧
      Filled m value buf (keys ++ [k]) buf' := by
  rw [Nat.succ_mul] at hfit
  have hroom : k * m + (value k).length ≤ mid.length := by rw [h.length, hlen]; exact hfit
  refine ⟨writeAt mid (k * m) (value k), storeAt_nat.mpr ⟨hroom, rfl⟩,
    (length_writeAt _ _ _).trans h.length, fun i hi b hb => ?_, fun i hi b hb => ?_⟩
  · rw [SlotCopy.getElem?_writeAt hroom, hlen]
    by_cases hik : i = k
    · rw [hik, if_pos (by omega), Nat.add_sub_cancel_left]
    · have hapart := slot_disjoint hik hb
      rw [Nat.succ_mul] at hapart
      rw [if_neg (by omega)]
      refine h.filled i ?_ b hb
      simpa [hik] using hi
  · have hik : i ≠ k := fun hik => hi (by simp [hik])
    have hapart := slot_disjoint hik hb
    rw [Nat.succ_mul] at hapart
    rw [SlotCopy.getElem?_writeAt hroom, hlen, if_neg (by omega)]
    exact h.kept i (fun hmem => hi (List.mem_append_left _ hmem)) b hb

/-- A loop whose steps each fill the slots of some keys. -/
theorem Filled.loop {m : ℕ} {value : ℕ → List α} {buf : List α} {step : List α → κ → Option (List α)}
    {keysOf : κ → List ℕ} {items : List κ}
    (hstep : ∀ x ∈ items, ∀ keys mid, Filled m value buf keys mid →
      ∃ buf', step mid x = some buf' ∧ Filled m value buf (keys ++ keysOf x) buf')
    {keys : List ℕ} {mid : List α} (h : Filled m value buf keys mid) :
    ∃ buf', items.foldlM step mid = some buf' ∧
      Filled m value buf (keys ++ items.flatMap keysOf) buf' := by
  induction items generalizing keys mid with
  | nil => exact ⟨mid, rfl, by simpa using h⟩
  | cons x items ih =>
    obtain ⟨next, hnext, hfilled⟩ := hstep x (by simp) keys mid h
    obtain ⟨buf', hrest, hall⟩ := ih (fun y hy => hstep y (by simp [hy])) hfilled
    refine ⟨buf', ?_, ?_⟩
    · rw [List.foldlM_cons, hnext]
      exact hrest
    · rwa [List.flatMap_cons, ← List.append_assoc]

end StrideSlots
