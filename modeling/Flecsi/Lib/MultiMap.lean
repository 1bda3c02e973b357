import Mathlib

/-!
# Ordered maps from keys to lists

An ordered map whose values are lists, filled one element at a time. `find`
reads a missing key as the empty list, which is what a default-inserting
lookup gives.
-/

namespace MultiMap

open Std (TreeMap)

variable {κ : Type} [Ord κ]

/-- `m[k].emplace_back(x)`. -/
def emplaceBack (m : TreeMap κ (List β)) (k : κ) (x : β) : TreeMap κ (List β) :=
  m.alter k fun o => some (o.getD [] ++ [x])

def find (m : TreeMap κ (List β)) (k : κ) : List β := m[k]?.getD []

theorem find_of_getElem? {m : TreeMap κ (List β)} (h : m[k]? = some xs) : find m k = xs := by
  simp [find, h]

variable [Std.TransOrd κ]

theorem find_empty (k : κ) : find (∅ : TreeMap κ (List β)) k = [] := by
  simp [find]

theorem getElem?_of_mem {m : TreeMap κ (List β)} (h : k ∈ m) : m[k]? = some (find m k) := by
  obtain ⟨xs, hx⟩ := Option.isSome_iff_exists.mp
    (TreeMap.isSome_getElem?_iff_mem.mpr h)
  rw [find_of_getElem? hx, hx]

theorem mem_of_mem_find {m : TreeMap κ (List β)} (h : x ∈ find m k) : k ∈ m := by
  by_contra hk
  rw [find, TreeMap.getElem?_eq_none hk] at h
  cases h

variable [Std.LawfulEqOrd κ]

theorem mem_toList {m : TreeMap κ (List β)} {p : κ × List β} :
    p ∈ m.toList ↔ p.1 ∈ m ∧ p.2 = find m p.1 := by
  obtain ⟨k, xs⟩ := p
  rw [TreeMap.mem_toList_iff_getElem?_eq_some]
  constructor
  · intro h
    exact ⟨TreeMap.isSome_getElem?_iff_mem.mp (by simp [h]), (find_of_getElem? h).symm⟩
  · rintro ⟨hm, hx⟩
    rw [getElem?_of_mem hm]
    exact congrArg some hx.symm

/-- Every list rewritten, keys kept. -/
theorem find_map {m : TreeMap κ (List β)} {f : List β → List γ} (hf : f [] = []) (k : κ) :
    find (m.map fun _ xs => f xs) k = f (find m k) := by
  rw [find, TreeMap.getElem?_map, find]
  cases m[k]? <;> simp [hf]

variable [DecidableEq κ]

theorem find_emplaceBack (m : TreeMap κ (List β)) (k k' : κ) (x : β) :
    find (emplaceBack m k x) k' = if k = k' then find m k' ++ [x] else find m k' := by
  rw [find, emplaceBack, TreeMap.getElem?_alter]
  by_cases h : k = k'
  · subst h; simp [find]
  · simp [h, find]

theorem mem_emplaceBack {m : TreeMap κ (List β)} {k k' : κ} {x : β} :
    k' ∈ emplaceBack m k x ↔ k = k' ∨ k' ∈ m := by
  rw [emplaceBack, TreeMap.mem_alter]
  by_cases h : k = k'
  · subst h; simp
  · simp [h]

/-- The elements of a list of key and element pairs, one by one. -/
def emplaceAll (m : TreeMap κ (List β)) (pairs : List (κ × β)) : TreeMap κ (List β) :=
  pairs.foldl (fun m p => emplaceBack m p.1 p.2) m

theorem find_emplaceAll (m : TreeMap κ (List β)) (pairs : List (κ × β)) (k : κ) :
    find (emplaceAll m pairs) k = find m k ++ (pairs.filter (·.1 = k)).map (·.2) := by
  induction pairs generalizing m with
  | nil => simp [emplaceAll]
  | cons p pairs ih =>
    rw [emplaceAll, List.foldl_cons, ← emplaceAll, ih, find_emplaceBack]
    by_cases h : p.1 = k <;> simp [h]

theorem mem_find_emplaceAll {m : TreeMap κ (List β)} {pairs : List (κ × β)} :
    x ∈ find (emplaceAll m pairs) k ↔ x ∈ find m k ∨ (k, x) ∈ pairs := by
  rw [find_emplaceAll, List.mem_append]
  refine or_congr_right ?_
  simp

theorem mem_emplaceAll {m : TreeMap κ (List β)} {pairs : List (κ × β)} :
    k ∈ emplaceAll m pairs ↔ k ∈ m ∨ ∃ x, (k, x) ∈ pairs := by
  induction pairs generalizing m with
  | nil => simp [emplaceAll]
  | cons p pairs ih =>
    obtain ⟨k', x⟩ := p
    rw [emplaceAll, List.foldl_cons, ← emplaceAll, ih, mem_emplaceBack]
    constructor
    · rintro ((rfl | h) | ⟨y, h⟩)
      · exact .inr ⟨x, by simp⟩
      · exact .inl h
      · exact .inr ⟨y, by simp [h]⟩
    · rintro (h | ⟨y, h⟩)
      · exact .inl (.inr h)
      · rcases List.mem_cons.mp h with h | h
        · obtain ⟨rfl, rfl⟩ := Prod.mk.inj h
          exact .inl (.inl rfl)
        · exact .inr ⟨y, h⟩

end MultiMap
