import Mathlib

/-!
# Sorted lists side by side

Loops that go through two sorted lists at once.
-/

namespace SortedMerge

variable {α : Type*} [LinearOrder α]

/-- `intersects`. -/
def intersects : List α → List α → Bool
  | [], _ => false
  | _ :: _, [] => false
  | x :: xs, y :: ys =>
    if x < y then intersects xs (y :: ys)
    else if y < x then intersects (x :: xs) ys
    else true
termination_by xs ys => xs.length + ys.length

/-- `std::includes`: does the first list have the second, element by element? -/
def includes : List α → List α → Bool
  | _, [] => true
  | [], _ :: _ => false
  | x :: xs, y :: ys =>
    if y < x then false
    else if x < y then includes xs (y :: ys)
    else includes xs ys

theorem not_mem_of_lt {x y : α} {xs : List α} (h : (x :: xs).Pairwise (· ≤ ·)) (hy : y < x) :
    y ∉ x :: xs := by
  intro hmem
  cases hmem with
  | head => exact lt_irrefl _ hy
  | tail _ hmem => exact not_le.mpr hy (List.rel_of_pairwise_cons h hmem)

theorem intersects_iff {xs ys : List α} (hx : xs.Pairwise (· ≤ ·)) (hy : ys.Pairwise (· ≤ ·)) :
    intersects xs ys = true ↔ ∃ a ∈ xs, a ∈ ys := by
  fun_induction intersects xs ys with
  | case1 => simp
  | case2 => simp
  | case3 x xs y ys hlt ih =>
    have hnot := not_mem_of_lt hy hlt
    rw [ih hx.of_cons hy, List.exists_mem_cons_iff]
    exact (or_iff_right hnot).symm
  | case4 x xs y ys _ hlt ih =>
    have hnot := not_mem_of_lt hx hlt
    rw [ih hx hy.of_cons]
    constructor
    · rintro ⟨a, ha, hb⟩
      exact ⟨a, ha, List.mem_cons_of_mem _ hb⟩
    · rintro ⟨a, ha, hb⟩
      cases hb with
      | head => exact absurd ha hnot
      | tail _ hb => exact ⟨a, ha, hb⟩
  | case5 x xs y ys hxy hyx =>
    obtain rfl : x = y := le_antisymm (not_lt.mp hyx) (not_lt.mp hxy)
    simp

theorem includes_iff {xs ys : List α} (hx : xs.Pairwise (· ≤ ·)) :
    includes xs ys = true ↔ ys.Sublist xs := by
  fun_induction includes xs ys with
  | case1 => simp
  | case2 => simp
  | case3 x xs y ys hlt =>
    have hnot := not_mem_of_lt hx hlt
    simp only [Bool.false_eq_true, false_iff]
    exact fun hsub => hnot (hsub.subset List.mem_cons_self)
  | case4 x xs y ys _ hlt ih =>
    rw [ih hx.of_cons, List.cons_sublist_cons']
    simp [hlt.ne']
  | case5 x xs y ys hyx hxy ih =>
    obtain rfl : x = y := le_antisymm (not_lt.mp hyx) (not_lt.mp hxy)
    rw [ih hx.of_cons, List.cons_sublist_cons]

theorem pairwise_sort (l : List α) : (l.mergeSort (· ≤ ·)).Pairwise (· ≤ ·) := by
  have hsorted := @List.pairwise_mergeSort α (fun a b => a ≤ b) (fun a b c => by simpa using le_trans)
    (fun a b => by simpa using le_total a b) l
  exact hsorted.imp fun h => of_decide_eq_true h

/-- On sorted copies `includes` compares how often an element comes. -/
theorem includes_sort_iff (xs ys : List α) :
    includes (xs.mergeSort (· ≤ ·)) (ys.mergeSort (· ≤ ·)) = true ↔ ys.Subperm xs := by
  have hxs := List.mergeSort_perm xs (· ≤ ·)
  have hys := List.mergeSort_perm ys (· ≤ ·)
  rw [includes_iff (pairwise_sort xs), ← hxs.subperm_left, ← hys.subperm_right]
  constructor
  · exact List.Sublist.subperm
  · exact fun h => List.sublist_of_subperm_of_pairwise h (pairwise_sort ys) (pairwise_sort xs)

theorem intersects_sort_iff (xs ys : List α) :
    intersects (xs.mergeSort (· ≤ ·)) (ys.mergeSort (· ≤ ·)) = true ↔ ∃ a ∈ xs, a ∈ ys := by
  rw [intersects_iff (pairwise_sort xs) (pairwise_sort ys)]
  simp only [List.mem_mergeSort]

end SortedMerge
