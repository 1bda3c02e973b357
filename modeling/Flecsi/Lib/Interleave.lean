import Mathlib

/-!
# Interleaved tasks

Tasks are lists of steps. The steps of a family of tasks interleave in any way
that keeps the order of each.
-/

namespace Interleave

variable {ι : Type*} {α : Type*} {κ : Type*} [DecidableEq ι] [DecidableEq κ]
  {steps : List (ι × α)} {tasks : ι → List α}

def Interleaves (steps : List (ι × α)) (tasks : ι → List α) : Prop :=
  ∀ p, (steps.filter (·.1 = p)).map (·.2) = tasks p

theorem Interleaves.mem (h : Interleaves steps tasks) : (p, a) ∈ steps ↔ a ∈ tasks p := by
  rw [← h p, List.mem_map]
  constructor
  · intro hx
    exact ⟨(p, a), List.mem_filter.mpr ⟨hx, decide_eq_true rfl⟩, rfl⟩
  · rintro ⟨⟨q, a⟩, hx, rfl⟩
    obtain ⟨hmem, hq⟩ := List.mem_filter.mp hx
    obtain rfl : q = p := of_decide_eq_true hq
    exact hmem

/-- Keys that tell the tasks apart are distinct if they are within each task. -/
theorem Interleaves.nodup (h : Interleaves steps tasks) (key : α → κ)
    (htask : ∀ p q, ∀ a ∈ tasks p, ∀ b ∈ tasks q, key a = key b → p = q)
    (hn : ∀ p, ((tasks p).map key).Nodup) : (steps.map fun x => key x.2).Nodup := by
  rw [List.nodup_iff_count_le_one]
  intro k
  cases Decidable.em (k ∈ steps.map fun x => key x.2) with
  | inr hk => exact (List.count_eq_zero_of_not_mem hk).trans_le (Nat.zero_le 1)
  | inl hk =>
    obtain ⟨x, hx, rfl⟩ := List.mem_map.mp hk
    -- the steps with this key are all of the task of `x`
    have hone : steps.countP (fun y => key y.2 = key x.2) =
        (steps.filter (·.1 = x.1)).countP fun y => key y.2 = key x.2 := by
      rw [List.countP_filter]
      refine List.countP_congr fun y hy => ?_
      simp only [Bool.and_eq_true, decide_eq_true_eq, iff_self_and]
      exact htask y.1 x.1 y.2 (h.mem.mp hy) x.2 (h.mem.mp hx)
    have hcount := List.nodup_iff_count_le_one.mp (hn x.1) (key x.2)
    rw [← h x.1, List.map_map] at hcount
    rw [List.count_eq_countP, List.countP_map] at hcount ⊢
    exact hone ▸ hcount

end Interleave
