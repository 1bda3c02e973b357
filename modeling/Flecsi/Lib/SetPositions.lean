import Mathlib

/-!
# Positions in an ordered set

Where an element stands when a set is gone through in order.
-/

namespace SetPositions

variable {κ : Type*} [LinearOrder κ] {s t : Finset κ} {x y : κ}

/-- `std::distance` from the beginning. -/
def position (s : Finset κ) (x : κ) : ℕ := s.sort.idxOf x

theorem position_lt (h : x ∈ s) : position s x < s.card := by
  rw [← s.length_sort (· ≤ ·)]
  exact List.idxOf_lt_length_of_mem ((s.mem_sort _).mpr h)

theorem getElem?_position (h : x ∈ s) : s.sort[position s x]? = some x := by
  have hlt := List.idxOf_lt_length_of_mem ((s.mem_sort (· ≤ ·)).mpr h)
  rw [position, List.getElem?_eq_getElem hlt, List.getElem_idxOf hlt]

theorem position_of_getElem? {i : ℕ} (h : s.sort[i]? = some x) : position s x = i := by
  obtain ⟨hi, rfl⟩ := List.getElem?_eq_some_iff.mp h
  exact (s.sort_nodup (· ≤ ·)).idxOf_getElem i hi

/-- An element comes after those that are smaller. -/
theorem position_of_append {l l' : List κ} (h : s.sort = l ++ x :: l') : position s x = l.length :=
  position_of_getElem? (by rw [h]; simp)

theorem position_inj (hx : x ∈ s) (hy : y ∈ s) (h : position s x = position s y) : x = y := by
  have hget := getElem?_position hx
  rw [h, getElem?_position hy] at hget
  exact (Option.some.inj hget).symm

theorem position_strictMonoOn : StrictMonoOn (position s) s := by
  intro x hx y hy hlt
  by_contra hle
  have hi := List.idxOf_lt_length_of_mem ((s.mem_sort (· ≤ ·)).mpr hx)
  have hj := List.idxOf_lt_length_of_mem ((s.mem_sort (· ≤ ·)).mpr hy)
  have hsorted := (s.pairwise_sort (· ≤ ·)).rel_get_of_le (a := ⟨_, hj⟩) (b := ⟨_, hi⟩) (not_lt.mp hle)
  simp only [List.get_eq_getElem, List.getElem_idxOf] at hsorted
  exact absurd hlt (not_lt.mpr hsorted)

theorem map_position_sort (s : Finset κ) : s.sort.map (position s) = List.range s.card := by
  refine List.ext_getElem (by simp) fun i hi _ => ?_
  rw [List.getElem_map, List.getElem_range]
  exact position_of_getElem? (List.getElem?_eq_getElem _)

/-- The positions of a part, in order, are the positions of its elements in order. -/
theorem sort_image_position (h : t ⊆ s) : (t.image (position s)).sort = t.sort.map (position s) := by
  have hmono : StrictMonoOn (position s) t := position_strictMonoOn.mono h
  refine (List.Perm.eq_of_pairwise' (r := (· ≤ ·)) (Finset.pairwise_sort _ _) ?_ ?_)
  · refine List.pairwise_map.mpr ((t.pairwise_sort (· ≤ ·)).imp_of_mem fun hx hy hle => ?_)
    exact hmono.monotoneOn ((t.mem_sort _).mp hx) ((t.mem_sort _).mp hy) hle
  · refine (List.perm_ext_iff_of_nodup (Finset.sort_nodup _ _) ?_).mpr fun i => by simp
    exact (t.sort_nodup (· ≤ ·)).map_on fun x hx y hy =>
      hmono.injOn ((t.mem_sort _).mp hx) ((t.mem_sort _).mp hy)

theorem sort_filter (s : Finset κ) (q : κ → Prop) [DecidablePred q] : (s.filter q).sort = s.sort.filter q := by
  refine (List.Perm.eq_of_pairwise' (r := (· ≤ ·)) (Finset.pairwise_sort _ _)
    ((s.pairwise_sort (· ≤ ·)).filter _) ?_)
  refine (List.perm_ext_iff_of_nodup (Finset.sort_nodup _ _) ((s.sort_nodup _).filter _)).mpr fun x => by simp

end SetPositions
