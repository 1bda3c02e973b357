import Mathlib

/-!
# Sorting and removing duplicates

`sortUnique key` is a sort by `key` followed by the removal of consecutive
equal elements. On a list whose elements are determined by their key, the
result is the strictly increasing list of its members, so two lists with the
same members give the same result.
-/

namespace SortUnique

theorem mem_destutter'_ne [DecidableEq α] {a x : α} {l : List α} :
    x ∈ l.destutter' (· ≠ ·) a ↔ x = a ∨ x ∈ l := by
  induction l generalizing a with
  | nil => simp
  | cons b l ih =>
    rw [List.destutter'_cons]
    split
    · simp [ih]
    · rename_i h
      have hab : a = b := not_not.mp h
      subst hab
      simp [ih]

theorem mem_destutter_ne [DecidableEq α] {x : α} {l : List α} : x ∈ l.destutter (· ≠ ·) ↔ x ∈ l := by
  cases l with
  | nil => simp
  | cons a l => rw [List.destutter_cons', mem_destutter'_ne, List.mem_cons]

/-- A chain of different neighbours that is sorted by a key which tells
elements apart is strictly sorted by the key. -/
theorem pairwise_lt_of_isChain_ne [LinearOrder κ] {key : α → κ} {l : List α}
    (hs : l.Pairwise (key · ≤ key ·)) (hc : l.IsChain (· ≠ ·))
    (hk : ∀ a ∈ l, ∀ b ∈ l, key a = key b → a = b) : l.Pairwise (key · < key ·) := by
  induction l with
  | nil => exact .nil
  | cons a l ih =>
    have hs' := List.pairwise_cons.mp hs
    have tail : l.Pairwise (key · < key ·) :=
      ih hs'.2 hc.tail fun x hx y hy => hk x (by simp [hx]) y (by simp [hy])
    refine List.pairwise_cons.mpr ⟨fun b hb => ?_, tail⟩
    cases l with
    | nil => simp at hb
    | cons c l =>
      have hac : key a < key c := by
        refine lt_of_le_of_ne (hs'.1 c (by simp)) fun h => ?_
        exact (List.isChain_cons_cons.mp hc).1 (hk a (by simp) c (by simp) h)
      rcases List.mem_cons.mp hb with rfl | hb
      · exact hac
      · exact hac.trans ((List.pairwise_cons.mp tail).1 b hb)

/-- Two lists strictly sorted by the same key with the same members are equal. -/
theorem eq_of_pairwise_lt [LinearOrder κ] (key : α → κ) {l l' : List α}
    (h : l.Pairwise (key · < key ·)) (h' : l'.Pairwise (key · < key ·))
    (hm : ∀ x, x ∈ l ↔ x ∈ l') : l = l' := by
  have : Std.Irrefl (fun a b : α => key a < key b) := ⟨fun a => lt_irrefl (key a)⟩
  have : Std.Asymm (fun a b : α => key a < key b) := ⟨fun _ _ => lt_asymm⟩
  exact h.eq_of_mem_iff h' hm

section
variable {α κ : Type*} [DecidableEq α] [LinearOrder κ] (key : α → κ)

/-- `std::sort` by `key`, then `std::unique` and the erasure of its tail. -/
def sortUnique (l : List α) : List α :=
  (l.insertionSort (key · ≤ key ·)).destutter (· ≠ ·)

@[simp] theorem mem_sortUnique {x : α} {l : List α} : x ∈ sortUnique key l ↔ x ∈ l := by
  rw [sortUnique, mem_destutter_ne, List.mem_insertionSort]

instance keyTotal : Std.Total (fun a b : α => key a ≤ key b) := ⟨fun a b => le_total (key a) (key b)⟩
instance keyTrans : IsTrans α (fun a b => key a ≤ key b) := ⟨fun _ _ _ => le_trans⟩

theorem sortUnique_pairwise_le (l : List α) : (sortUnique key l).Pairwise (key · ≤ key ·) :=
  (List.pairwise_insertionSort _ l).sublist (List.destutter_sublist _ _)

variable {key}

theorem sortUnique_pairwise {l : List α} (hk : ∀ a ∈ l, ∀ b ∈ l, key a = key b → a = b) :
    (sortUnique key l).Pairwise (key · < key ·) :=
  pairwise_lt_of_isChain_ne (sortUnique_pairwise_le key l) (List.isChain_destutter _ _)
    fun a ha b hb => hk a ((mem_sortUnique key).mp ha) b ((mem_sortUnique key).mp hb)

theorem sortUnique_eq {l l' : List α} (hk : ∀ a ∈ l, ∀ b ∈ l, key a = key b → a = b)
    (h' : l'.Pairwise (key · < key ·)) (hm : ∀ x, x ∈ l ↔ x ∈ l') : sortUnique key l = l' :=
  eq_of_pairwise_lt key (sortUnique_pairwise hk) h' fun x => by rw [mem_sortUnique, hm]

/-- A list already strictly sorted is left alone. -/
theorem sortUnique_of_pairwise {l : List α} (h : l.Pairwise (key · < key ·)) :
    sortUnique key l = l := by
  have hn : (l.map key).Nodup := (List.pairwise_map.mpr h).imp ne_of_lt
  exact sortUnique_eq (fun a ha b hb => List.inj_on_of_nodup_map hn ha hb) h fun _ => Iff.rfl

end

section
variable {α : Type*} [LinearOrder α] {l : List α}

theorem sortUnique_id_pairwise : (sortUnique id l).Pairwise (· < ·) :=
  sortUnique_pairwise fun _ _ _ _ h => h

theorem sortUnique_id_nodup : (sortUnique id l).Nodup :=
  sortUnique_id_pairwise.imp ne_of_lt

end

end SortUnique
