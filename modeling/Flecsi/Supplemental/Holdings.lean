import Flecsi.Execution.RemapShared
import Flecsi.Lib.SetPositions

/-!
# What the ranks own and hold

A distributed index space: every rank holds some ids, and every id that is held has one owner,
which holds it too. The coloring that belongs to it lists the ids a rank owns with their positions
among them, apart by whether another rank holds them, and the other ids it holds with the owner's
position.
-/

namespace Flecsi.Supplemental

open Coloring Execution SetPositions

structure Holdings (n : ℕ) where
  owned : Fin n → Finset ℕ
  held : Fin n → Finset ℕ
  owned_subset : ∀ p, owned p ⊆ held p
  disjoint : ∀ p q x, x ∈ owned p → x ∈ owned q → p = q
  covered : ∀ p, ∀ x ∈ held p, ∃ q, x ∈ owned q

namespace Holdings

variable (h : Holdings n)

/-- The other ranks that hold an id. -/
def users (q : Fin n) (x : ℕ) : Finset ℕ :=
  (Finset.univ.filter fun p => p ≠ q ∧ x ∈ h.held p).image Fin.val

def entry (p : Fin n) (x : ℕ) : EntityInfo := ⟨x, p, position (h.owned p) x, h.users p x⟩

/-- The coloring of the index space. What a ghost has for its shared set, nobody reads. -/
structure Colors (ghostShared : Finset ℕ) (coloring : Fin n → IndexColoring) : Prop where
  exclusive : ∀ p e, e ∈ (coloring p).exclusive ↔
    ∃ x ∈ h.owned p, h.users p x = ∅ ∧ e = h.entry p x
  shared : ∀ p e, e ∈ (coloring p).shared ↔ ∃ x ∈ h.owned p, h.users p x ≠ ∅ ∧ e = h.entry p x
  ghost : ∀ p e, e ∈ (coloring p).ghost ↔ ∃ q, q ≠ p ∧ ∃ x ∈ h.held p, x ∈ h.owned q ∧
    e = ⟨x, q, position (h.owned q) x, ghostShared⟩
  sorted : ∀ p, (coloring p).exclusive.Pairwise (·.id < ·.id) ∧
    (coloring p).shared.Pairwise (·.id < ·.id) ∧ (coloring p).ghost.Pairwise (·.id < ·.id)

variable {h}

theorem mem_users {r : ℕ} : r ∈ h.users q x ↔ ∃ p : Fin n, p ≠ q ∧ x ∈ h.held p ∧ (p : ℕ) = r := by
  simp [users, and_assoc]

theorem mem_removeUniqueEntities : e ∈ removeUniqueEntities l ↔ e ∈ l := SortUnique.mem_sortUnique _

theorem pairwise_removeUniqueEntities {entry : ℕ → EntityInfo} {l : List EntityInfo}
    (h : ∀ e ∈ l, e = entry e.id) : (removeUniqueEntities l).Pairwise (·.id < ·.id) :=
  SortUnique.sortUnique_pairwise fun e he e' he' hid => by rw [h e he, h e' he', hid]

/-- Lists with the right members, in any order and with repetitions. -/
theorem colors_removeUnique {ghostShared : Finset ℕ} {lists : Fin n → IndexColoring}
    (hexclusive : ∀ p e, e ∈ (lists p).exclusive ↔ ∃ x ∈ h.owned p, h.users p x = ∅ ∧ e = h.entry p x)
    (hshared : ∀ p e, e ∈ (lists p).shared ↔ ∃ x ∈ h.owned p, h.users p x ≠ ∅ ∧ e = h.entry p x)
    (hghost : ∀ p e, e ∈ (lists p).ghost ↔ ∃ q, q ≠ p ∧ ∃ x ∈ h.held p, x ∈ h.owned q ∧
      e = ⟨x, q, position (h.owned q) x, ghostShared⟩) :
    h.Colors ghostShared fun p => ⟨removeUniqueEntities (lists p).exclusive,
      removeUniqueEntities (lists p).shared, removeUniqueEntities (lists p).ghost⟩ where
  exclusive p e := mem_removeUniqueEntities.trans (hexclusive p e)
  shared p e := mem_removeUniqueEntities.trans (hshared p e)
  ghost p e := mem_removeUniqueEntities.trans (hghost p e)
  sorted p := by
    refine ⟨@pairwise_removeUniqueEntities (h.entry p) _ fun e he => ?_,
      @pairwise_removeUniqueEntities (h.entry p) _ fun e he => ?_,
      SortUnique.sortUnique_pairwise fun e he e' he' hid => ?_⟩
    · obtain ⟨x, -, -, rfl⟩ := (hexclusive p e).mp he
      rfl
    · obtain ⟨x, -, -, rfl⟩ := (hshared p e).mp he
      rfl
    · obtain ⟨q, -, x, -, hx, rfl⟩ := (hghost p e).mp he
      obtain ⟨q', -, x', -, hx', rfl⟩ := (hghost p e').mp he'
      obtain rfl : x = x' := hid
      obtain rfl := h.disjoint q q' x hx hx'
      rfl

namespace Colors

variable {coloring : Fin n → IndexColoring} {ghostShared : Finset ℕ} (hc : h.Colors ghostShared coloring)
include hc

theorem mem_own : e ∈ own (coloring p) ↔ ∃ x ∈ h.owned p, e = h.entry p x := by
  rw [own, List.mem_append, hc.exclusive, hc.shared]
  constructor
  · rintro (⟨x, hx, -, rfl⟩ | ⟨x, hx, -, rfl⟩) <;> exact ⟨x, hx, rfl⟩
  · rintro ⟨x, hx, rfl⟩
    by_cases husers : h.users p x = ∅
    · exact .inl ⟨x, hx, husers, rfl⟩
    · exact .inr ⟨x, hx, husers, rfl⟩

theorem nodup_own (p : Fin n) : ((own (coloring p)).map EntityInfo.id).Nodup := by
  obtain ⟨hexclusive, hshared, -⟩ := hc.sorted p
  rw [own, List.map_append, List.nodup_append']
  refine ⟨(List.pairwise_map.mpr hexclusive).imp ne_of_lt, (List.pairwise_map.mpr hshared).imp ne_of_lt, ?_⟩
  intro i hi hj
  obtain ⟨e, he, rfl⟩ := List.mem_map.mp hi
  obtain ⟨e', he', hid⟩ := List.mem_map.mp hj
  obtain ⟨x, -, hnone, rfl⟩ := (hc.exclusive p e).mp he
  obtain ⟨y, -, hsome, rfl⟩ := (hc.shared p e').mp he'
  obtain rfl : y = x := hid
  exact hsome hnone

/-- The ids a rank lists as its own, in some order. -/
theorem ids_perm (p : Fin n) : ((own (coloring p)).map EntityInfo.id).Perm (h.owned p).sort := by
  refine (List.perm_ext_iff_of_nodup (hc.nodup_own p) (Finset.sort_nodup _ _)).mpr fun x => ?_
  rw [List.mem_map, Finset.mem_sort]
  constructor
  · rintro ⟨e, he, rfl⟩
    obtain ⟨x, hx, rfl⟩ := hc.mem_own.mp he
    exact hx
  · exact fun hx => ⟨h.entry p x, hc.mem_own.mpr ⟨x, hx, rfl⟩, rfl⟩

theorem offsets_perm (p : Fin n) : ((own (coloring p)).map EntityInfo.offset).Perm
    (List.range (own (coloring p)).length) := by
  have hlength := (hc.ids_perm p).length_eq
  rw [List.length_map, Finset.length_sort] at hlength
  have hoffsets : (own (coloring p)).map EntityInfo.offset =
      ((own (coloring p)).map EntityInfo.id).map (position (h.owned p)) := by
    rw [List.map_map]
    refine List.map_congr_left fun e he => ?_
    obtain ⟨x, -, rfl⟩ := hc.mem_own.mp he
    rfl
  rw [hoffsets, hlength, ← map_position_sort]
  exact (hc.ids_perm p).map _

/-- The coloring is one the runtime can be given. -/
theorem dual (hn : n ≤ 2 ^ 32) (howned : ∀ p, (h.owned p).card ≤ 2 ^ 32) (hmark : ∀ r ∈ ghostShared, r < 2 ^ 32) :
    DualColoring coloring where
  wide p e he := by
    rcases List.mem_append.mp he with he | he
    · obtain ⟨x, hx, rfl⟩ := hc.mem_own.mp he
      refine ⟨p.isLt.trans_le hn, (position_lt hx).trans_le (howned p), fun r hr => ?_⟩
      obtain ⟨q, -, -, rfl⟩ := mem_users.mp hr
      exact q.isLt.trans_le hn
    · obtain ⟨q, -, x, -, hx, rfl⟩ := (hc.ghost p e).mp he
      exact ⟨q.isLt.trans_le hn, (position_lt hx).trans_le (howned q), hmark⟩
  sorted p := (hc.sorted p).2
  nodup := hc.nodup_own
  once p q e he e' he' hid := by
    obtain ⟨x, hx, rfl⟩ := hc.mem_own.mp he
    obtain ⟨y, hy, rfl⟩ := hc.mem_own.mp he'
    obtain rfl : x = y := hid
    exact h.disjoint p q x hx hy
  rank p e he := by
    obtain ⟨x, -, rfl⟩ := hc.mem_own.mp he
    rfl
  offsets := hc.offsets_perm
  ghost p g hg := by
    obtain ⟨q, hq, x, hheld, hx, rfl⟩ := (hc.ghost p g).mp hg
    have hp : (p : ℕ) ∈ h.users q x := mem_users.mpr ⟨p, hq.symm, hheld, rfl⟩
    exact ⟨q, hq, h.entry q x, (hc.shared q _).mpr ⟨x, hx, Finset.ne_empty_of_mem hp, rfl⟩, rfl, rfl, rfl, hp⟩
  users q e he r hr := by
    obtain ⟨x, hx, -, rfl⟩ := (hc.shared q e).mp he
    obtain ⟨p, hp, hheld, rfl⟩ := mem_users.mp hr
    exact ⟨p, rfl, hp, _, (hc.ghost p _).mpr ⟨q, hp.symm, x, hheld, hx, rfl⟩, rfl⟩

end Colors

end Holdings

end Flecsi.Supplemental

namespace Flecsi.Execution

open Coloring

/-- A rank sends to those that receive from it. -/
theorem DualColoring.user_iff_owner {coloring : Fin n → IndexColoring} (h : DualColoring coloring) (p q : Fin n) :
    (∃ e ∈ (coloring p).shared, (q : ℕ) ∈ e.shared) ↔ ∃ g ∈ (coloring q).ghost, g.rank = p := by
  constructor
  · rintro ⟨e, he, hq⟩
    obtain ⟨q', hq', -, g, hg, hid⟩ := h.users p e he q hq
    obtain rfl := Fin.ext hq'
    obtain ⟨p', -, e', he', hid', hrank, -⟩ := h.ghost q' g hg
    have hown := h.once p' p e' (mem_own_shared he') e (mem_own_shared he) (hid'.symm.trans hid)
    exact ⟨g, hg, hrank.trans ((h.rank p' e' (mem_own_shared he')).trans (congrArg Fin.val hown))⟩
  · rintro ⟨g, hg, hrank⟩
    obtain ⟨p', -, e, he, -, hrank', -, hq⟩ := h.ghost q g hg
    have hp : (p' : ℕ) = p := by rw [← h.rank p' e (mem_own_shared he), ← hrank', hrank]
    obtain rfl := Fin.ext hp
    exact ⟨e, he, hq⟩

end Flecsi.Execution
