import Mathlib

/-!
# Numbering the keys of a map

Keys are numbered in the order they are first seen: a new key gets the current
size of the map. The numbers then run from 0 to the size without a gap.
-/

namespace Numbering

open Std (TreeMap)

variable {κ : Type} [Ord κ]

/-- `m.emplace(k, m.size())`. -/
def number (m : TreeMap κ ℕ) (k : κ) : TreeMap κ ℕ := m.insertIfNew k m.size

def numberAll (m : TreeMap κ ℕ) (ks : List κ) : TreeMap κ ℕ := ks.foldl number m

structure Numbered (m : TreeMap κ ℕ) : Prop where
  bound : ∀ (k : κ) i, m[k]? = some i → i < m.size
  inj : ∀ (k k' : κ) i, m[k]? = some i → m[k']? = some i → k = k'
  onto : ∀ i < m.size, ∃ k : κ, m[k]? = some i

theorem numberAll_append (m : TreeMap κ ℕ) (ks ks' : List κ) :
    numberAll (numberAll m ks) ks' = numberAll m (ks ++ ks') := by
  simp [numberAll]

variable [Std.TransOrd κ]

theorem numbered_empty : Numbered (∅ : TreeMap κ ℕ) := by
  constructor <;> simp

theorem mem_of_getElem?_eq_some {m : TreeMap κ β} {k : κ} (h : m[k]? = some x) : k ∈ m :=
  TreeMap.isSome_getElem?_iff_mem.mp (by rw [h]; rfl)

variable [Std.LawfulEqOrd κ] {m : TreeMap κ ℕ} {k k' : κ}

theorem mem_number : k' ∈ number m k ↔ k' = k ∨ k' ∈ m := by
  rw [number, TreeMap.mem_insertIfNew, Std.compare_eq_iff_eq, eq_comm]

theorem mem_numberAll {ks : List κ} : k ∈ numberAll m ks ↔ k ∈ m ∨ k ∈ ks := by
  induction ks generalizing m with
  | nil => simp [numberAll]
  | cons k' ks ih =>
    rw [numberAll, List.foldl_cons, ← numberAll, ih, mem_number, List.mem_cons]
    tauto

variable [DecidableEq κ]

/-- What emplacing changes: a key that was not there. -/
theorem getElem?_emplace (m : TreeMap κ β) (k k' : κ) (x : β) :
    (m.insertIfNew k x)[k']? = if k' = k ∧ k ∉ m then some x else m[k']? := by
  rw [TreeMap.getElem?_insertIfNew]
  by_cases h : k' = k
  · subst h
    simp
  · simp [h, Ne.symm h]

theorem getElem?_number_of_some (h : m[k']? = some i) : (number m k)[k']? = some i := by
  rw [number, getElem?_emplace, if_neg, h]
  rintro ⟨rfl, hk⟩
  rw [TreeMap.getElem?_eq_none hk] at h
  cases h

theorem Numbered.number (hm : Numbered m) (k : κ) : Numbered (number m k) := by
  by_cases hk : k ∈ m
  · have hsame : ∀ k', (Numbering.number m k)[k']? = m[k']? := fun k' => by
      rw [Numbering.number, getElem?_emplace, if_neg fun h => h.2 hk]
    have hsize : (Numbering.number m k).size = m.size := by
      rw [Numbering.number, TreeMap.size_insertIfNew, if_pos hk]
    constructor
    · simpa only [hsame, hsize] using hm.bound
    · simpa only [hsame] using hm.inj
    · simpa only [hsame, hsize] using hm.onto
  · have hnew : ∀ k', (Numbering.number m k)[k']? = if k' = k then some m.size else m[k']? :=
      fun k' => by rw [Numbering.number, getElem?_emplace]; simp [hk]
    have hsize : (Numbering.number m k).size = m.size + 1 := by
      rw [Numbering.number, TreeMap.size_insertIfNew, if_neg hk]
    constructor
    · intro k' i h
      rw [hnew] at h
      rw [hsize]
      split at h
      · cases h
        exact Nat.lt_succ_self _
      · exact (hm.bound k' i h).trans (Nat.lt_succ_self _)
    · intro k' k'' i h h'
      rw [hnew] at h h'
      split at h <;> split at h'
      · exact ‹k' = k›.trans ‹k'' = k›.symm
      · cases h
        exact absurd (hm.bound k'' _ h') (lt_irrefl _)
      · cases h'
        exact absurd (hm.bound k' _ h) (lt_irrefl _)
      · exact hm.inj k' k'' i h h'
    · intro i h
      rw [hsize] at h
      obtain h | rfl := Nat.lt_succ_iff_lt_or_eq.mp h
      · obtain ⟨k', hk'⟩ := hm.onto i h
        exact ⟨k', getElem?_number_of_some hk'⟩
      · exact ⟨k, by rw [hnew, if_pos rfl]⟩

theorem Numbered.numberAll (hm : Numbered m) (ks : List κ) : Numbered (numberAll m ks) := by
  induction ks generalizing m with
  | nil => exact hm
  | cons k ks ih => exact ih (hm.number k)

/-- Emplacing pairs of a relation that has one value for each key. -/
theorem emplaceAll_spec {P : κ → β → Prop} (hP : ∀ k x y, P k x → P k y → x = y)
    {m : TreeMap κ β} {pairs : List (κ × β)} (hm : ∀ k x, m[k]? = some x → P k x)
    (hp : ∀ p ∈ pairs, P p.1 p.2) :
    (∀ k x, (pairs.foldl (fun m p => m.insertIfNew p.1 p.2) m)[k]? = some x → P k x) ∧
      ∀ k x, P k x → (k ∈ m ∨ ∃ y, (k, y) ∈ pairs) →
        (pairs.foldl (fun m p => m.insertIfNew p.1 p.2) m)[k]? = some x := by
  induction pairs generalizing m with
  | nil =>
    refine ⟨hm, fun k x hx hk => ?_⟩
    obtain ⟨y, hy⟩ := Option.isSome_iff_exists.mp
      (TreeMap.mem_iff_isSome_getElem?.mp (hk.resolve_right (by simp)))
    rw [List.foldl_nil, hy, hP k y x (hm k y hy) hx]
  | cons p pairs ih =>
    obtain ⟨k', x'⟩ := p
    have hstep : ∀ k x, (m.insertIfNew k' x')[k]? = some x → P k x := by
      intro k x h
      rw [getElem?_emplace] at h
      split at h
      · obtain ⟨rfl, -⟩ := ‹k = k' ∧ _›
        cases h
        exact hp (k, x') (by simp)
      · exact hm k x h
    obtain ⟨hsound, hfound⟩ := ih hstep fun p h => hp p (by simp [h])
    refine ⟨hsound, fun k x hx hk => hfound k x hx ?_⟩
    rw [TreeMap.mem_insertIfNew, Std.compare_eq_iff_eq]
    rcases hk with hk | ⟨y, hy⟩
    · exact .inl (.inr hk)
    · rcases List.mem_cons.mp hy with hy | hy
      · exact .inl (.inl (Prod.mk.inj hy).1.symm)
      · exact .inr ⟨y, hy⟩

end Numbering
