import Flecsi.Topology.TreeTopology
import Flecsi.Utils.FilterView

/-!
# The valid entities of a tree

A tree keeps the entities it has made. Those that are in a branch are seen through a
filtered view.
-/

namespace Flecsi.Topology

open Utils

/-- An entity that was never inserted, or was removed, has the null id. -/
def Entity.is_valid {T : IdType} {K : Type} (ent : Entity T K) : Bool := ent.branch_id ≠ 0

namespace TreeTopology

variable {T : IdType} {K : Type} [LT K]

/-- `entities()`. -/
def validEntities (t : TreeTopology T K) : FilterView (Entity T K) :=
  .make t.entities 0 t.entities.length Entity.is_valid

end TreeTopology

/-- A view that visits the accepted places among those from `b` to `e`. -/
def Visits {α : Type} (v : FilterView α) (b e : ℕ) (accepted : ℕ → Bool) : Prop :=
  ∀ fuel > e - b, v.visit fuel v.b = some ((List.range' b (e - b)).filter accepted)

/-- A view that reports how many places it visits. -/
def CountsVisits {α : Type} (v : FilterView α) (b e : ℕ) (accepted : ℕ → Bool) : Prop :=
  v.size = ((List.range' b (e - b)).filter accepted).length

/-- Views visit what they should, of any sequence and of the entities of any tree.
Their sizes are right where nothing is rejected after an accepted element. -/
theorem filter_view_iff {α : Type} (data : List α) {b e : ℕ} (f : α → Bool) (h : b ≤ e) :
    Visits (.make data b e f) b e (fun i => (data[i]?).any f) ∧
    (CountsVisits (.make data b e f) b e (fun i => (data[i]?).any f) ↔
      ∀ i j, b ≤ i → i ≤ j → j < e → (data[i]?).any f → (data[j]?).any f) ∧
    ∀ (T : IdType) (K : Type) [LT K] (t : TreeTopology T K),
      Visits t.validEntities 0 t.entities.length (fun i => (t.entities[i]?).any Entity.is_valid) ∧
      (CountsVisits t.validEntities 0 t.entities.length (fun i => (t.entities[i]?).any Entity.is_valid) ↔
        ∀ i j, i ≤ j → j < t.entities.length → (t.entities[i]?).any Entity.is_valid → (t.entities[j]?).any Entity.is_valid) := by
  refine ⟨fun fuel hfuel => FilterView.visit_make h hfuel, FilterView.size_make_iff h,
    fun T K _ t => ⟨fun fuel hfuel => FilterView.visit_make (Nat.zero_le _) hfuel, ?_⟩⟩
  rw [CountsVisits, TreeTopology.validEntities, FilterView.size_make_iff (Nat.zero_le _)]
  simp only [Nat.zero_le, true_implies]

theorem filter_view_iff_prefix : Visits (.make [4, 1, 5, 2] 0 4 (· < 3)) 0 4 (fun i => (([4, 1, 5, 2] : List ℕ)[i]?).any (· < 3)) :=
  (filter_view_iff [4, 1, 5, 2] (· < 3) (by decide)).1

/-- One element is visited and two are counted. -/
theorem not_counts_visits :
    (FilterView.make [1, 5] 0 2 fun x : ℕ => decide (x < 3)).visit 3 0 = some [0] ∧
      (FilterView.make [1, 5] 0 2 fun x : ℕ => decide (x < 3)).size = 2 := by decide

end Flecsi.Topology
