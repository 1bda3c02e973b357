import Mathlib

/-!
# A list and its positions, as two maps

A loop with a counter files every element of a list under its position and every
position under its element, the last one where an element comes twice. The second
map is the inverse of the first exactly if no element comes twice.
-/

namespace PositionMaps

open Std (TreeMap)

variable {κ : Type} [Ord κ]

structure Maps (κ : Type) [Ord κ] where
  at_ : TreeMap ℕ κ
  position : TreeMap κ ℕ
  next : ℕ

/-- `at[next] = k; position[k] = next; ++next`. -/
def Maps.add (m : Maps κ) (k : κ) : Maps κ :=
  ⟨m.at_.insert m.next k, m.position.insert k m.next, m.next + 1⟩

def empty : Maps κ := ⟨∅, ∅, 0⟩

def maps (ks : List κ) : Maps κ := ks.foldl Maps.add empty

theorem maps_concat (ks : List κ) (k : κ) : maps (ks ++ [k]) = (maps ks).add k := by
  simp [maps]

theorem next_maps (ks : List κ) : (maps ks).next = ks.length := by
  induction ks using List.reverseRecOn with
  | nil => rfl
  | append_singleton ks k ih => simp [maps_concat, Maps.add, ih]

theorem at_maps (ks : List κ) (i : ℕ) : (maps ks).at_[i]? = ks[i]? := by
  induction ks using List.reverseRecOn with
  | nil => simp [maps, empty]
  | append_singleton ks k ih =>
    rw [maps_concat, Maps.add, TreeMap.getElem?_insert, next_maps, ih]
    split
    · rename_i h
      have he : ks.length = i := Std.LawfulEqCmp.eq_of_compare h
      subst he
      simp
    · rename_i h
      have hne : i ≠ ks.length := fun he => h (by simp [he])
      rw [List.getElem?_append, List.getElem?_singleton]
      split
      · rfl
      · rw [if_neg (by omega), List.getElem?_eq_none (by omega)]

variable [Std.TransOrd κ] [Std.LawfulEqOrd κ]

/-- A position found leads back to the element. -/
theorem at_of_position {ks : List κ} {k : κ} {i : ℕ} (h : (maps ks).position[k]? = some i) :
    ks[i]? = some k := by
  induction ks using List.reverseRecOn with
  | nil => simp [maps, empty] at h
  | append_singleton ks k' ih =>
    rw [maps_concat, Maps.add, TreeMap.getElem?_insert, next_maps] at h
    split at h
    · rename_i he
      cases h
      rw [Std.LawfulEqCmp.eq_of_compare he]
      simp
    · have hi := ih h
      obtain ⟨hlt, -⟩ := List.getElem?_eq_some_iff.mp hi
      rw [List.getElem?_append_left hlt, hi]

theorem position_of_mem {ks : List κ} {k : κ} (h : k ∈ ks) :
    ∃ i, (maps ks).position[k]? = some i := by
  induction ks using List.reverseRecOn with
  | nil => simp at h
  | append_singleton ks k' ih =>
    rw [maps_concat, Maps.add, TreeMap.getElem?_insert]
    split
    · exact ⟨_, rfl⟩
    · rename_i hne
      rcases List.mem_append.mp h with h | h
      · exact ih h
      · exact absurd (by simp [List.mem_singleton.mp h]) hne

theorem position_iff {ks : List κ} (hn : ks.Nodup) (k : κ) (i : ℕ) :
    (maps ks).position[k]? = some i ↔ ks[i]? = some k := by
  refine ⟨at_of_position, fun h => ?_⟩
  obtain ⟨j, hj⟩ := position_of_mem (List.mem_of_getElem? h)
  have hij : j = i := by
    have hjk := at_of_position hj
    obtain ⟨hlt, -⟩ := List.getElem?_eq_some_iff.mp hjk
    exact (List.getElem?_inj hlt hn).mp (hjk.trans h.symm)
  rw [hj, hij]

end PositionMaps
