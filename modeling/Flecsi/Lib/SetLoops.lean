import Mathlib

/-!
# Loops that add to a set

What is in a set after a loop, from what one pass adds.
-/

namespace SetLoops

theorem mem_foldl {step : Finset β → α → Finset β} {added : α → β → Prop}
    (hstep : ∀ s i x, x ∈ step s i ↔ x ∈ s ∨ added i x) (l : List α) (s : Finset β) (x : β) :
    x ∈ l.foldl step s ↔ x ∈ s ∨ ∃ i ∈ l, added i x := by
  induction l generalizing s with
  | nil => simp
  | cons i l ih => simp [ih, hstep, or_assoc]

theorem mem_foldl_insert [DecidableEq β] (f : α → β) (l : List α) (s : Finset β) (x : β) :
    x ∈ l.foldl (fun s i => insert (f i) s) s ↔ x ∈ s ∨ ∃ i ∈ l, x = f i :=
  @mem_foldl β α _ (fun i x => x = f i) (fun s i x => by rw [Finset.mem_insert, or_comm]) l s x

end SetLoops
