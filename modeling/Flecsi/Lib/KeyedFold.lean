import Mathlib

/-!
# Folds that fill a map

A fold whose steps may fail and set one key each, the keys being distinct.
-/

namespace KeyedFold

universe u v w

variable {κ : Type u} {ι : Type v} {β : Type w} [DecidableEq κ]
  {step : (κ → Option β) → ι → Option (κ → Option β)} {key : ι → κ}
  {writes : ι → Prop} {value : ι → Option β} {start : κ → Option β}

/-- On a map whose key is still untouched, a step that writes sets the key to its value. -/
structure Fills (step : (κ → Option β) → ι → Option (κ → Option β)) (key : ι → κ) (writes : ι → Prop)
    (value : ι → Option β) (start : κ → Option β) : Prop where
  write : ∀ m i, writes i → m (key i) = start (key i) →
    step m i = (value i).map fun x => Function.update m (key i) (some x)
  skip : ∀ m i, ¬writes i → step m i = some m

variable (h : Fills step key writes value start)
include h

theorem Fills.step_frame {m m' : κ → Option β} {i : ι} (hm : m (key i) = start (key i))
    (hstep : step m i = some m') {k : κ} (hk : k ≠ key i) : m' k = m k := by
  by_cases hw : writes i
  · rw [h.write m i hw hm] at hstep
    obtain ⟨x, _, rfl⟩ := Option.map_eq_some_iff.mp hstep
    exact Function.update_of_ne hk _ _
  · rw [h.skip m i hw] at hstep
    cases hstep
    rfl

theorem Fills.frame {l : List ι} (hn : (l.map key).Nodup) {m m' : κ → Option β}
    (hm : ∀ i ∈ l, m (key i) = start (key i)) (hfold : l.foldlM step m = some m') {k : κ}
    (hk : k ∉ l.map key) : m' k = m k := by
  induction l generalizing m with
  | nil =>
    cases hfold
    rfl
  | cons i l ih =>
    rw [List.map_cons, List.nodup_cons] at hn
    rw [List.map_cons, List.mem_cons, not_or] at hk
    rw [List.foldlM_cons] at hfold
    obtain ⟨next, hnext, hfold⟩ := Option.bind_eq_some_iff.mp hfold
    have hi := hm i List.mem_cons_self
    rw [ih hn.2 (fun j hj => ?_) hfold hk.2, h.step_frame hi hnext hk.1]
    have hne : key j ≠ key i := fun he => hn.1 (he ▸ List.mem_map_of_mem hj)
    rw [h.step_frame hi hnext hne]
    exact hm j (List.mem_cons_of_mem _ hj)

/-- What a fold that came through has left at each key. -/
theorem Fills.value_of_eq_some {l : List ι} (hn : (l.map key).Nodup) {m m' : κ → Option β}
    (hm : ∀ i ∈ l, m (key i) = start (key i)) (hfold : l.foldlM step m = some m') {i : ι}
    (hi : i ∈ l) (hw : writes i) : (value i).isSome ∧ m' (key i) = value i := by
  induction l generalizing m with
  | nil => exact absurd hi List.not_mem_nil
  | cons j l ih =>
    rw [List.map_cons, List.nodup_cons] at hn
    rw [List.foldlM_cons] at hfold
    obtain ⟨next, hnext, htail⟩ := Option.bind_eq_some_iff.mp hfold
    have hj := hm j List.mem_cons_self
    have hrest : ∀ k ∈ l, next (key k) = start (key k) := fun k hk => by
      have hne : key k ≠ key j := fun he => hn.1 (he ▸ List.mem_map_of_mem hk)
      rw [h.step_frame hj hnext hne]
      exact hm k (List.mem_cons_of_mem _ hk)
    obtain rfl | hi := List.mem_cons.mp hi
    · rw [h.frame hn.2 hrest htail hn.1]
      rw [h.write m i hw hj] at hnext
      obtain ⟨x, hx, rfl⟩ := Option.map_eq_some_iff.mp hnext
      exact ⟨by rw [hx]; rfl, by rw [hx, Function.update_self]⟩
    · exact ih hn.2 hrest htail hi

theorem Fills.exists_fold {l : List ι} (hn : (l.map key).Nodup) {m : κ → Option β}
    (hm : ∀ i ∈ l, m (key i) = start (key i)) (hvalue : ∀ i ∈ l, writes i → (value i).isSome) :
    ∃ m', l.foldlM step m = some m' := by
  induction l generalizing m with
  | nil => exact ⟨m, rfl⟩
  | cons i l ih =>
    rw [List.map_cons, List.nodup_cons] at hn
    have hi := hm i List.mem_cons_self
    obtain ⟨next, hnext⟩ : ∃ next, step m i = some next := by
      by_cases hw : writes i
      · obtain ⟨x, hx⟩ := Option.isSome_iff_exists.mp (hvalue i List.mem_cons_self hw)
        exact ⟨_, by rw [h.write m i hw hi, hx]; rfl⟩
      · exact ⟨m, h.skip m i hw⟩
    obtain ⟨m', hfold⟩ := ih hn.2 (m := next) (fun j hj => by
      have hne : key j ≠ key i := fun he => hn.1 (he ▸ List.mem_map_of_mem hj)
      rw [h.step_frame hi hnext hne]
      exact hm j (List.mem_cons_of_mem _ hj)) fun j hj => hvalue j (List.mem_cons_of_mem _ hj)
    exact ⟨m', by rw [List.foldlM_cons, hnext]; exact hfold⟩

end KeyedFold
