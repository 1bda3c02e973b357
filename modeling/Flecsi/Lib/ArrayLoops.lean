import Mathlib

/-!
# Loops that fill an array

What is at a place after a loop that sets places, and arrays that are made of blocks of one size.
-/

namespace ArrayLoops

variable {ι β : Type*}

/-- A loop that sets some places, each to a value the place determines. -/
theorem getElem?_foldl_set (pos : ι → ℕ) (q : ι → Prop) [DecidablePred q] (g : ℕ → β) (order : List ι)
    (l : List β) (j : ℕ) [Decidable ((∃ x ∈ order, q x ∧ pos x = j) ∧ j < l.length)] :
    (order.foldl (fun l x => if q x then l.set (pos x) (g (pos x)) else l) l)[j]? =
      if (∃ x ∈ order, q x ∧ pos x = j) ∧ j < l.length then some (g j) else l[j]? := by
  classical
  induction order generalizing l with
  | nil => simp
  | cons x order ih =>
    have hlength : (if q x then l.set (pos x) (g (pos x)) else l).length = l.length := by
      split_ifs <;> simp
    rw [List.foldl_cons, ih]
    simp only [hlength, List.mem_cons, exists_eq_or_imp]
    by_cases hlater : (∃ y ∈ order, q y ∧ pos y = j) ∧ j < l.length
    · rw [if_pos hlater, if_pos ⟨.inr hlater.1, hlater.2⟩]
    · rw [if_neg hlater]
      by_cases hx : (q x ∧ pos x = j) ∧ j < l.length
      · obtain ⟨⟨hq, rfl⟩, hlt⟩ := hx
        have hsome : (q x ∧ pos x = pos x ∨ ∃ y ∈ order, q y ∧ pos y = pos x) ∧ pos x < l.length :=
          ⟨.inl ⟨hq, rfl⟩, hlt⟩
        rw [if_pos hsome, if_pos hq, List.getElem?_set_self hlt]
      · have hnot : ¬((q x ∧ pos x = j ∨ ∃ y ∈ order, q y ∧ pos y = j) ∧ j < l.length) := by
          rintro ⟨h | h, hlt⟩
          · exact hx ⟨h, hlt⟩
          · exact hlater ⟨h, hlt⟩
        rw [if_neg hnot]
        split_ifs with hq
        · by_cases hj : pos x = j
          · have hge : ¬j < l.length := fun hlt => hx ⟨⟨hq, hj⟩, hlt⟩
            rw [List.getElem?_eq_none (by simpa using hge), List.getElem?_eq_none (by simpa using hge)]
          · rw [List.getElem?_set_ne hj]
        · rfl

/-- A loop that writes one value after the other. -/
theorem getElem?_foldl_write (base : ℕ) (xs l : List β) (k j : ℕ) :
    (xs.foldl (fun (s : List β × ℕ) x => (s.1.set (base + s.2) x, s.2 + 1)) (l, k)).1[j]? =
      if base + k ≤ j ∧ j < base + k + xs.length ∧ j < l.length then xs[j - (base + k)]? else l[j]? := by
  induction xs generalizing l k with
  | nil =>
    rw [if_neg (by simp only [List.length_nil]; omega)]
    rfl
  | cons x xs ih =>
    rw [List.foldl_cons, ih, List.length_set, List.length_cons]
    by_cases hlater : base + (k + 1) ≤ j ∧ j < base + (k + 1) + xs.length ∧ j < l.length
    · have hsub : j - (base + k) = j - (base + (k + 1)) + 1 := by omega
      rw [if_pos hlater, if_pos (by omega), hsub, List.getElem?_cons_succ]
    · rw [if_neg hlater]
      by_cases hj : base + k = j
      · subst hj
        by_cases hlt : base + k < l.length
        · rw [List.getElem?_set_self hlt, if_pos (by omega), Nat.sub_self, List.getElem?_cons_zero]
        · rw [List.getElem?_eq_none (by simpa using hlt), if_neg (by omega), List.getElem?_eq_none (by simpa using hlt)]
      · rw [List.getElem?_set_ne hj, if_neg (by omega)]

theorem length_foldl_write (base : ℕ) (xs l : List β) (k : ℕ) :
    (xs.foldl (fun (s : List β × ℕ) x => (s.1.set (base + s.2) x, s.2 + 1)) (l, k)).1.length = l.length := by
  induction xs generalizing l k with
  | nil => rfl
  | cons x xs ih => rw [List.foldl_cons, ih, List.length_set]

-- ---------------------------------------------------------------------------
-- Blocks
-- ---------------------------------------------------------------------------

theorem block_lt {c colors m i : ℕ} (hc : c < colors) (hi : i < m) : c * m + i < colors * m := by
  calc c * m + i < c * m + m := by omega
    _ = (c + 1) * m := (Nat.succ_mul c m).symm
    _ ≤ colors * m := Nat.mul_le_mul_right m hc

theorem block_inj {c c' m i i' : ℕ} (hi : i < m) (hi' : i' < m) (h : c * m + i = c' * m + i') : c = c' ∧ i = i' := by
  have hdiv (c i : ℕ) (hi : i < m) : (c * m + i) / m = c := by
    rw [Nat.mul_comm, Nat.mul_add_div (by omega), Nat.div_eq_of_lt hi, Nat.add_zero]
  obtain rfl : c = c' := by rw [← hdiv c i hi, h, hdiv c' i' hi']
  exact ⟨rfl, by omega⟩

theorem getElem?_flatten_blocks {m c i : ℕ} (hi : i < m) {blocks : List (List β)}
    (hlength : ∀ b ∈ blocks, b.length = m) : blocks.flatten[c * m + i]? = blocks[c]?.bind (·[i]?) := by
  induction blocks generalizing c with
  | nil => simp
  | cons b blocks ih =>
    have hb := hlength b List.mem_cons_self
    rw [List.flatten_cons]
    cases c with
    | zero => rw [Nat.zero_mul, Nat.zero_add, List.getElem?_append_left (by omega), List.getElem?_cons_zero, Option.bind_some]
    | succ c =>
      have hge : b.length ≤ (c + 1) * m + i := by rw [hb, Nat.succ_mul]; omega
      have hsub : (c + 1) * m + i - b.length = c * m + i := by rw [hb, Nat.succ_mul]; omega
      rw [List.getElem?_append_right hge, hsub, ih fun b' hb' => hlength b' (List.mem_cons_of_mem _ hb'),
        List.getElem?_cons_succ]

/-- A loop that may fail at each of its steps. -/
theorem isSome_mapM {f : ι → Option β} {l : List ι} : (l.mapM f).isSome ↔ ∀ x ∈ l, (f x).isSome := by
  induction l with
  | nil => simp
  | cons x l ih =>
    rw [List.mapM_cons, List.forall_mem_cons, ← ih]
    cases f x with
    | none => simp
    | some y => cases l.mapM f <;> simp

theorem getElem?_mapM {f : ι → Option β} {l : List ι} {ys : List β} (h : l.mapM f = some ys) :
    ys.length = l.length ∧ ∀ (i : ℕ) (x : ι), l[i]? = some x → ∃ y, ys[i]? = some y ∧ f x = some y := by
  induction l generalizing ys with
  | nil =>
    obtain rfl := Option.some.inj h
    exact ⟨rfl, fun i x hx => by simp at hx⟩
  | cons x l ih =>
    rw [List.mapM_cons] at h
    obtain ⟨y, hy, h⟩ := Option.bind_eq_some_iff.mp h
    obtain ⟨ys', hys, h⟩ := Option.bind_eq_some_iff.mp h
    obtain rfl := Option.some.inj h
    obtain ⟨hlen, hall⟩ := ih hys
    refine ⟨by simp [hlen], fun i z hz => ?_⟩
    cases i with
    | zero => exact ⟨y, rfl, Option.some.inj hz ▸ hy⟩
    | succ i => exact hall i z hz

end ArrayLoops
