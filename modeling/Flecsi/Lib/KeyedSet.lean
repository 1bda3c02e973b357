import Flecsi.Lib.SortedArray

/-!
# Sets ordered by a key

A `std::set` whose order compares one part of the elements holds one element for each key. An
insertion whose key is there already does nothing.
-/

/-- The elements in increasing order of their keys. -/
structure KeyedSet {α κ : Type*} [LinearOrder κ] (key : α → κ) where
  elems : List α
  sorted : SortedArray.Sorted key elems

namespace KeyedSet

open SortedArray ArrayShift

variable {α κ : Type*} [LinearOrder κ] {key : α → κ}

def empty (key : α → κ) : KeyedSet key := ⟨[], List.Pairwise.nil⟩

def insert (s : KeyedSet key) (a : α) : KeyedSet key :=
  if h : ∃ b ∈ s.elems, key b = key a then s
  else ⟨insertAt s.elems (lowerBound key (key a) s.elems) [a],
    (lowerBound_cut s.sorted _).insert s.sorted rfl fun b hb hk => h ⟨b, hb, hk⟩⟩

def find (s : KeyedSet key) (k : κ) : Option α := s.elems.find? (key · = k)

def insertAll (s : KeyedSet key) (l : List α) : KeyedSet key := l.foldl insert s

@[simp] theorem elems_empty : (empty key).elems = [] := rfl

theorem mem_insert {s : KeyedSet key} {a b : α} :
    b ∈ (s.insert a).elems ↔ b ∈ s.elems ∨ b = a ∧ ∀ c ∈ s.elems, key c ≠ key a := by
  unfold insert
  split_ifs with h
  · obtain ⟨c, hc, hk⟩ := h
    constructor
    · exact .inl
    · rintro (hb | ⟨-, hne⟩)
      · exact hb
      · exact absurd hk (hne c hc)
  · have hnew : ∀ c ∈ s.elems, key c ≠ key a := fun c hc hk => h ⟨c, hc, hk⟩
    rw [mem_insertAt, or_comm]
    exact or_congr_right ⟨fun hb => ⟨hb, hnew⟩, And.left⟩

theorem find_eq_some {s : KeyedSet key} {k : κ} {a : α} : s.find k = some a ↔ a ∈ s.elems ∧ key a = k := by
  constructor
  · intro h
    exact ⟨List.mem_of_find?_eq_some h, by simpa using List.find?_some h⟩
  · rintro ⟨ha, rfl⟩
    obtain ⟨b, hb⟩ := Option.isSome_iff_exists.mp
      (List.find?_isSome.mpr ⟨a, ha, decide_eq_true rfl⟩ : (s.elems.find? (key · = key a)).isSome)
    have hkey : key b = key a := by simpa using List.find?_some hb
    rw [find, hb, s.sorted.inj (List.mem_of_find?_eq_some hb) ha hkey]

theorem find_eq_none {s : KeyedSet key} {k : κ} : s.find k = none ↔ ∀ a ∈ s.elems, key a ≠ k := by
  simp [find]

/-- Insertions whose elements are told apart by their keys all take place. -/
theorem mem_insertAll {s : KeyedSet key} {l : List α}
    (hnew : ∀ a ∈ l, ∀ b, b ∈ s.elems ∨ b ∈ l → key b = key a → b = a) {b : α} :
    b ∈ (s.insertAll l).elems ↔ b ∈ s.elems ∨ b ∈ l := by
  induction l generalizing s with
  | nil => simp [insertAll]
  | cons a l ih =>
    have hmem : ∀ b, b ∈ (s.insert a).elems ↔ b ∈ s.elems ∨ b = a := by
      intro b
      rw [mem_insert]
      constructor
      · exact Or.imp_right And.left
      · rintro (hb | rfl)
        · exact .inl hb
        · by_cases hthere : ∃ c ∈ s.elems, key c = key b
          · obtain ⟨c, hc, hk⟩ := hthere
            exact .inl (hnew b List.mem_cons_self c (.inl hc) hk ▸ hc)
          · exact .inr ⟨rfl, fun c hc hk => hthere ⟨c, hc, hk⟩⟩
    have hrest : ∀ c ∈ l, ∀ b, b ∈ (s.insert a).elems ∨ b ∈ l → key b = key c → b = c := by
      intro c hc b hb
      refine hnew c (List.mem_cons_of_mem _ hc) b ?_
      rw [hmem, or_assoc] at hb
      exact hb.imp_right fun h => List.mem_cons.mpr h
    exact (ih hrest).trans (by rw [hmem, or_assoc, List.mem_cons])

end KeyedSet
