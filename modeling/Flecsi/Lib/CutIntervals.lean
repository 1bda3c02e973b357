import Mathlib

/-!
# Intervals cut in three

Four ascending bounds cut an interval into what lies below the second bound, what lies between
the second and the third, and what lies above. Products of such pieces tile a box.
-/

namespace CutIntervals

variable {m : Fin 4 → ℤ} {k k' : Fin 3} {x : ℤ}

/-- The bounds of the middle piece belong to it. -/
def piece (m : Fin 4 → ℤ) (k : Fin 3) : Set ℤ :=
  {x | m k.castSucc + (![0, 0, 1] : Fin 3 → ℤ) k ≤ x ∧ x ≤ m k.succ - (![1, 0, 0] : Fin 3 → ℤ) k}

structure Ascending (m : Fin 4 → ℤ) : Prop where
  lower : m 0 ≤ m 1
  inner : m 1 ≤ m 2
  upper : m 2 ≤ m 3

theorem mem_piece_zero : x ∈ piece m 0 ↔ m 0 ≤ x ∧ x < m 1 := by
  have h : x ∈ piece m 0 ↔ m 0 + 0 ≤ x ∧ x ≤ m 1 - 1 := Iff.rfl
  rw [h]
  omega

theorem mem_piece_one : x ∈ piece m 1 ↔ m 1 ≤ x ∧ x ≤ m 2 := by
  have h : x ∈ piece m 1 ↔ m 1 + 0 ≤ x ∧ x ≤ m 2 - 0 := Iff.rfl
  rw [h]
  omega

theorem mem_piece_two : x ∈ piece m 2 ↔ m 2 < x ∧ x ≤ m 3 := by
  have h : x ∈ piece m 2 ↔ m 2 + 1 ≤ x ∧ x ≤ m 3 - 0 := Iff.rfl
  rw [h]
  omega

theorem Ascending.bounds (h : Ascending m) (hx : x ∈ piece m k) : m 0 ≤ x ∧ x ≤ m 3 := by
  obtain ⟨h₁, h₂, h₃⟩ := h
  fin_cases k
  · have := mem_piece_zero.mp hx
    omega
  · have := mem_piece_one.mp hx
    omega
  · have := mem_piece_two.mp hx
    omega

theorem exists_piece (h : m 0 ≤ x ∧ x ≤ m 3) : ∃ k, x ∈ piece m k := by
  rcases lt_or_ge x (m 1) with h₁ | h₁
  · exact ⟨0, mem_piece_zero.mpr ⟨h.1, h₁⟩⟩
  · rcases le_or_gt x (m 2) with h₂ | h₂
    · exact ⟨1, mem_piece_one.mpr ⟨h₁, h₂⟩⟩
    · exact ⟨2, mem_piece_two.mpr ⟨h₂, h.2⟩⟩

theorem Ascending.piece_unique (h : Ascending m) (hx : x ∈ piece m k) (hx' : x ∈ piece m k') : k = k' := by
  have hcase {k : Fin 3} (hx : x ∈ piece m k) : k = if x < m 1 then 0 else if x ≤ m 2 then 1 else 2 := by
    obtain ⟨h₁, h₂, h₃⟩ := h
    fin_cases k
    · have := mem_piece_zero.mp hx
      rw [if_pos this.2]
      rfl
    · have := mem_piece_one.mp hx
      rw [if_neg (by omega), if_pos this.2]
      rfl
    · have := mem_piece_two.mp hx
      rw [if_neg (by omega), if_neg (by omega)]
      rfl
  rw [hcase hx, hcase hx']

/-- An outer piece with an element lies between different bounds. -/
theorem ne_of_mem (hx : x ∈ piece m k) (hk : k ≠ 1) : m k.castSucc ≠ m k.succ := by
  fin_cases k
  · exact ((mem_piece_zero.mp hx).1.trans_lt (mem_piece_zero.mp hx).2).ne
  · exact absurd rfl hk
  · exact ((mem_piece_two.mp hx).1.trans_le (mem_piece_two.mp hx).2).ne

-- ---------------------------------------------------------------------------
-- Products
-- ---------------------------------------------------------------------------

section
variable {ι : Type*} {cuts : ι → Fin 4 → ℤ} {r r' : ι → Fin 3} {c : ι → ℤ}

def region (cuts : ι → Fin 4 → ℤ) (r : ι → Fin 3) : Set (ι → ℤ) := {c | ∀ d, c d ∈ piece (cuts d) (r d)}

theorem exists_region (h : ∀ d, cuts d 0 ≤ c d ∧ c d ≤ cuts d 3) : ∃ r, c ∈ region cuts r := by
  choose r hr using fun d => exists_piece (h d)
  exact ⟨r, hr⟩

theorem region_unique (h : ∀ d, Ascending (cuts d)) (hc : c ∈ region cuts r) (hc' : c ∈ region cuts r') : r = r' :=
  funext fun d => (h d).piece_unique (hc d) (hc' d)

theorem disjoint_region (h : ∀ d, Ascending (cuts d)) (hr : r ≠ r') : Disjoint (region cuts r) (region cuts r') :=
  Set.disjoint_left.mpr fun _ hc hc' => hr (region_unique h hc hc')

end

end CutIntervals
