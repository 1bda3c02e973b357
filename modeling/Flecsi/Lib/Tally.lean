import Mathlib

/-!
# Counting occurrences in an ordered map

A counter per key, bumped once for every occurrence. What matters afterwards
is the ordered list of the keys counted at least `k` times.
-/

namespace Tally

open Std (TreeMap)

abbrev Counts := TreeMap ℕ ℕ

/-- `counts[x] += 1`. -/
def bump (t : Counts) (x : ℕ) : Counts := t.alter x fun o => some (o.getD 0 + 1)

def tally (t : Counts) (xs : List ℕ) : Counts := xs.foldl bump t

/-- The keys counted at least `k` times, in order. -/
def atLeast (k : ℕ) (t : Counts) : List ℕ := (t.toList.filter fun count => k ≤ count.2).map (·.1)

theorem getD_bump (t : Counts) (x y : ℕ) :
    (bump t x).getD y 0 = t.getD y 0 + if x = y then 1 else 0 := by
  rw [bump, TreeMap.getD_alter]
  by_cases h : x = y
  · subst h
    simp [TreeMap.getD_eq_getD_getElem?]
  · simp [h]

theorem getD_tally (t : Counts) (xs : List ℕ) (y : ℕ) :
    (tally t xs).getD y 0 = t.getD y 0 + xs.count y := by
  induction xs generalizing t with
  | nil => rfl
  | cons x xs ih =>
    rw [tally, List.foldl_cons, ← tally, ih, getD_bump, List.count_cons]
    by_cases h : x = y
    · simp [h]; omega
    · simp [h]

theorem atLeast_pairwise (k : ℕ) (t : Counts) : (atLeast k t).Pairwise (· < ·) := by
  rw [atLeast, List.pairwise_map]
  refine (t.ordered_keys_toList.filter _).imp fun h => ?_
  simpa [Nat.compare_eq_lt] using h

/-- A key with no counter counts as zero. -/
theorem mem_atLeast {t : Counts} (hk : 0 < k) : x ∈ atLeast k t ↔ k ≤ t.getD x 0 := by
  rw [TreeMap.getD_eq_getD_getElem?]
  simp only [atLeast, List.mem_map, List.mem_filter, decide_eq_true_eq]
  constructor
  · rintro ⟨⟨y, c⟩, ⟨hm, hc⟩, rfl⟩
    rw [TreeMap.mem_toList_iff_getElem?_eq_some] at hm
    simpa [hm] using hc
  · intro h
    cases hc : t[x]? with
    | none =>
      rw [hc] at h
      exact absurd h (by simpa using hk.ne')
    | some c =>
      rw [hc] at h
      exact ⟨(x, c), ⟨TreeMap.mem_toList_iff_getElem?_eq_some.mpr hc, h⟩, rfl⟩

/-- Tallying several lists in turn. -/
theorem getD_tally_empty (xs : List ℕ) (y : ℕ) : (tally ∅ xs).getD y 0 = xs.count y := by
  rw [getD_tally]
  simp

end Tally
