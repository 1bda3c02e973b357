import Flecsi.Lib.ArrayShift

/-!
# Sorted arrays of keyed elements

A list with strictly increasing keys is a finite map. The place of a key is found
by halving, and an element is put in or taken out there.
-/

namespace SortedArray

open ArrayShift

variable {α κ : Type*} [LinearOrder κ] {key : α → κ} {k : κ} {l : List α}

/-- The keys increase strictly. -/
def Sorted (key : α → κ) (l : List α) : Prop := l.Pairwise fun a b => key a < key b

/-- The first of `len` elements from `first` on that is not below the key. The
range is halved at most `fuel` times. -/
def lowerBoundFrom (key : α → κ) (k : κ) (l : List α) : ℕ → ℕ → ℕ → ℕ
  | 0, first, _ => first
  | fuel + 1, first, len =>
    if len = 0 then first
    else
      let half := len / 2
      if (l[first + half]?).any fun a => key a < k then lowerBoundFrom key k l fuel (first + half + 1) (len - (half + 1))
      else lowerBoundFrom key k l fuel first half

/-- `std::lower_bound`. -/
def lowerBound (key : α → κ) (k : κ) (l : List α) : ℕ := lowerBoundFrom key k l l.length 0 l.length

/-- The elements before `r` are below the key, those from there on are not. -/
structure Cut (key : α → κ) (k : κ) (l : List α) (r : ℕ) : Prop where
  le_length : r ≤ l.length
  below : ∀ i a, l[i]? = some a → i < r → key a < k
  above : ∀ i a, l[i]? = some a → r ≤ i → k ≤ key a

theorem Sorted.lt (h : Sorted key l) {i j : ℕ} {a b : α} (ha : l[i]? = some a) (hb : l[j]? = some b) (hij : i < j) :
    key a < key b := by
  obtain ⟨hi, rfl⟩ := List.getElem?_eq_some_iff.mp ha
  obtain ⟨hj, rfl⟩ := List.getElem?_eq_some_iff.mp hb
  exact List.pairwise_iff_getElem.mp h i j hi hj hij

theorem Sorted.le (h : Sorted key l) {i j : ℕ} {a b : α} (ha : l[i]? = some a) (hb : l[j]? = some b) (hij : i ≤ j) :
    key a ≤ key b := by
  cases Nat.eq_or_lt_of_le hij with
  | inl heq =>
    subst heq
    exact (congrArg key (Option.some.inj (ha.symm.trans hb))).le
  | inr hlt => exact (h.lt ha hb hlt).le

/-- Keys are found once. -/
theorem Sorted.inj (h : Sorted key l) {a b : α} (ha : a ∈ l) (hb : b ∈ l) (hkey : key a = key b) : a = b := by
  obtain ⟨i, ha⟩ := List.getElem?_of_mem ha
  obtain ⟨j, hb⟩ := List.getElem?_of_mem hb
  obtain hlt | rfl | hgt := Nat.lt_trichotomy i j
  · exact absurd hkey (h.lt ha hb hlt).ne
  · exact Option.some.inj (ha.symm.trans hb)
  · exact absurd hkey (h.lt hb ha hgt).ne'

theorem lowerBoundFrom_cut (h : Sorted key l) {fuel first len : ℕ} (hfuel : len ≤ fuel) (hle : first + len ≤ l.length)
    (hbelow : ∀ i a, l[i]? = some a → i < first → key a < k)
    (habove : ∀ i a, l[i]? = some a → first + len ≤ i → k ≤ key a) : Cut key k l (lowerBoundFrom key k l fuel first len) := by
  induction fuel generalizing first len with
  | zero =>
    obtain rfl := Nat.le_zero.mp hfuel
    exact ⟨hle, hbelow, habove⟩
  | succ fuel ih =>
    rw [lowerBoundFrom]
    split_ifs with hlen
    · subst hlen
      exact ⟨hle, hbelow, habove⟩
    · have hmid := List.getElem?_eq_getElem (show first + len / 2 < l.length by omega)
      simp only [hmid, Option.any_some, decide_eq_true_eq]
      split_ifs with hlt
      · refine ih (by omega) (by omega) (fun i a ha hi => ?_) fun i a ha hi => habove i a ha (by omega)
        exact (h.le ha hmid (by omega)).trans_lt hlt
      · refine ih (by omega) (by omega) hbelow fun i a ha hi => ?_
        exact (le_of_not_gt hlt).trans (h.le hmid ha hi)

theorem lowerBound_cut (h : Sorted key l) (k : κ) : Cut key k l (lowerBound key k l) := by
  refine lowerBoundFrom_cut h le_rfl (Nat.zero_add _).le (fun i a _ hi => absurd hi (Nat.not_lt_zero i)) fun i a ha hi => ?_
  obtain ⟨hlt, _⟩ := List.getElem?_eq_some_iff.mp ha
  omega

-- ---------------------------------------------------------------------------
-- One element at its place
-- ---------------------------------------------------------------------------

section
variable {r : ℕ}

/-- An element with the key is at the cut. -/
theorem Cut.getElem?_eq (hc : Cut key k l r) (h : Sorted key l) {a : α} (ha : a ∈ l) (hk : key a = k) : l[r]? = some a := by
  obtain ⟨i, hi⟩ := List.getElem?_of_mem ha
  obtain ⟨hlt, _⟩ := List.getElem?_eq_some_iff.mp hi
  obtain hir | rfl | hri := Nat.lt_trichotomy i r
  · exact absurd hk (hc.below i a hi hir).ne
  · exact hi
  · have hr := List.getElem?_eq_getElem (show r < l.length by omega)
    have hle := hc.above r _ hr le_rfl
    exact absurd hk (hle.trans_lt (h.lt hr hi hri)).ne'

theorem mem_insertAt {p : ℕ} {a b : α} : b ∈ insertAt l p [a] ↔ b = a ∨ b ∈ l := by
  have hmem : b ∈ l ↔ b ∈ l.take p ∨ b ∈ l.drop p := by rw [← List.mem_append, List.take_append_drop]
  rw [insertAt, List.mem_append, List.mem_append, List.mem_singleton, hmem, or_assoc, or_left_comm]

theorem Cut.insert (hc : Cut key k l r) (h : Sorted key l) {a : α} (hk : key a = k) (hnew : ∀ b ∈ l, key b ≠ k) :
    Sorted key (insertAt l r [a]) := by
  have hsplit := List.pairwise_append.mp ((List.take_append_drop r l).symm ▸ h : Sorted key (l.take r ++ l.drop r))
  have hbelow (b : α) (hb : b ∈ l.take r) : key b < k := by
    obtain ⟨i, hi⟩ := List.getElem?_of_mem hb
    rw [List.getElem?_take] at hi
    split_ifs at hi with hir
    exact hc.below i b hi hir
  have habove (b : α) (hb : b ∈ l.drop r) : k < key b := by
    obtain ⟨i, hi⟩ := List.getElem?_of_mem hb
    rw [List.getElem?_drop] at hi
    exact lt_of_le_of_ne (hc.above _ b hi (Nat.le_add_right r i)) (hnew b (List.mem_of_getElem? hi)).symm
  rw [insertAt, List.append_assoc, Sorted, List.pairwise_append]
  refine ⟨hsplit.1, List.pairwise_append.mpr ⟨List.pairwise_singleton _ _, hsplit.2.1, ?_⟩, fun b hb c hbc => ?_⟩
  · intro b hb c hbc
    obtain rfl := List.mem_singleton.mp hb
    rw [hk]
    exact habove c hbc
  · cases List.mem_append.mp hbc with
    | inl hbc =>
      obtain rfl := List.mem_singleton.mp hbc
      rw [hk]
      exact hbelow b hb
    | inr hbc => exact hsplit.2.2 b hb c hbc

theorem Sorted.eraseAt (h : Sorted key l) (p c : ℕ) : Sorted key (eraseAt l p c) := by
  have hsplit := List.pairwise_append.mp ((List.take_append_drop p l).symm ▸ h : Sorted key (l.take p ++ l.drop p))
  refine List.pairwise_append.mpr ⟨hsplit.1, ?_, fun a ha b hb => hsplit.2.2 a ha b ?_⟩
  · rw [← List.drop_drop]
    exact hsplit.2.1.drop
  · rw [← List.drop_drop] at hb
    exact List.mem_of_mem_drop hb

theorem Sorted.mem_eraseAt (h : Sorted key l) {a b : α} (ha : l[r]? = some a) :
    b ∈ ArrayShift.eraseAt l r 1 ↔ b ∈ l ∧ key b ≠ key a := by
  obtain ⟨hr, rfl⟩ := List.getElem?_eq_some_iff.mp ha
  have hsplit : l = l.take r ++ l[r] :: l.drop (r + 1) := by
    rw [← List.drop_eq_getElem_cons hr, List.take_append_drop]
  have hpair := List.pairwise_append.mp (hsplit ▸ h : Sorted key (l.take r ++ l[r] :: l.drop (r + 1)))
  have hmem : b ∈ l ↔ b ∈ l.take r ∨ b = l[r] ∨ b ∈ l.drop (r + 1) := by
    conv_lhs => rw [hsplit]
    rw [List.mem_append, List.mem_cons]
  rw [ArrayShift.eraseAt, List.mem_append, hmem]
  constructor
  · rintro (hb | hb)
    · exact ⟨.inl hb, (hpair.2.2 b hb _ List.mem_cons_self).ne⟩
    · exact ⟨.inr (.inr hb), ((List.pairwise_cons.mp hpair.2.1).1 b hb).ne'⟩
  · rintro ⟨hb | rfl | hb, hne⟩
    · exact .inl hb
    · exact absurd rfl hne
    · exact .inr hb

/-- Another element with the same key. -/
theorem Sorted.set (h : Sorted key l) {a b : α} (ha : l[r]? = some a) (hk : key b = key a) : Sorted key (l.set r b) := by
  obtain ⟨hr, rfl⟩ := List.getElem?_eq_some_iff.mp ha
  have hr' : r < (l.map key).length := by rwa [List.length_map]
  have hget : (l.map key)[r] = key l[r] := List.getElem_map key
  have hkeys : (l.set r b).map key = l.map key := by
    rw [List.map_set, hk, ← hget, List.set_getElem_self]
  refine List.pairwise_map.mp ?_
  rw [hkeys]
  exact List.pairwise_map.mpr h

theorem Sorted.mem_set (h : Sorted key l) {a b c : α} (ha : l[r]? = some a) :
    c ∈ l.set r b ↔ c = b ∨ c ∈ l ∧ key c ≠ key a := by
  obtain ⟨hr, _⟩ := List.getElem?_eq_some_iff.mp ha
  rw [← h.mem_eraseAt ha, List.set_eq_take_append_cons_drop, if_pos hr, ArrayShift.eraseAt, List.mem_append, List.mem_cons,
    List.mem_append, or_left_comm]

end

end SortedArray
