import Mathlib

/-!
# Runs of a step relation

An invariant holds along every run; a weight that every step lowers bounds the
runs, and with progress it brings every run to a final state.
-/

namespace Runs

open Relation (ReflTransGen)

variable {σ : Type u} {step : σ → σ → Prop} {inv : σ → Prop}

theorem invariant (hstep : ∀ a b, inv a → step a b → inv b) (h0 : inv s)
    (h : ReflTransGen step s t) : inv t := by
  induction h with
  | refl => exact h0
  | tail _ hs ih => exact hstep _ _ ih hs

theorem weight_le {weight : σ → ℕ} (hlt : ∀ a b, step a b → weight b < weight a)
    {run : ℕ → σ} (h : ∀ i, step (run i) (run (i + 1))) (i : ℕ) :
    weight (run i) + i ≤ weight (run 0) := by
  induction i with
  | zero => exact le_rfl
  | succ i ih =>
    have := hlt _ _ (h i)
    omega

theorem terminates {weight : σ → ℕ} (hlt : ∀ a b, step a b → weight b < weight a)
    (run : ℕ → σ) : ¬∀ i, step (run i) (run (i + 1)) := by
  intro h
  have := weight_le hlt h (weight (run 0) + 1)
  omega

/-- With progress, some run comes to a final state. -/
theorem exists_final {final : σ → Prop} {weight : σ → ℕ} (hstep : ∀ a b, inv a → step a b → inv b)
    (hlt : ∀ a b, step a b → weight b < weight a) (hprogress : ∀ a, inv a → ¬final a → ∃ b, step a b)
    (h0 : inv s) : ∃ t, ReflTransGen step s t ∧ final t := by
  by_cases hfinal : final s
  · exact ⟨s, .refl, hfinal⟩
  · obtain ⟨b, hb⟩ := hprogress s h0 hfinal
    obtain ⟨t, ht, hfinal⟩ := exists_final hstep hlt hprogress (hstep s b h0 hb)
    exact ⟨t, .head hb ht, hfinal⟩
termination_by weight s
decreasing_by exact hlt s b hb

end Runs
