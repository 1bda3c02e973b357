import Mathlib

/-!
# Combining values in any grouping

Values are combined with one that was started with, in any order, and what came
out of several groups is combined again.
-/

namespace ReductionTrees

variable {α : Type*}

/-- How values are combined: applied one after another to the start, and groups
folded together. -/
inductive Combination (α : Type*)
  | start
  | apply (group : Combination α) (a : α)
  | fold (group1 group2 : Combination α)

namespace Combination

def values : Combination α → List α
  | start => []
  | apply group a => group.values ++ [a]
  | fold group1 group2 => group1.values ++ group2.values

def eval (identity : α) (app fol : α → α → α) : Combination α → α
  | start => identity
  | apply group a => app (group.eval identity app fol) a
  | fold group1 group2 => fol (group1.eval identity app fol) (group2.eval identity app fol)

/-- All values in one group. -/
def ofList (l : List α) : Combination α := l.foldl apply start

theorem values_ofList (l : List α) : (ofList l).values = l := by
  have hgroup (group : Combination α) (l : List α) : (l.foldl apply group).values = group.values ++ l := by
    induction l generalizing group with
    | nil => exact (List.append_nil _).symm
    | cons a l ih => rw [List.foldl_cons, ih, values, List.append_assoc, List.singleton_append]
  exact hgroup start l

/-- Values that start with an idempotent element of a commutative operation come
out the same in any grouping. -/
theorem eval_eq {op : α → α → α} [Std.Associative op] [Std.Commutative op] {e : α} (he : op e e = e)
    (c : Combination α) : c.eval e op op = c.values.foldl op e := by
  have hassoc (l : List α) (a b : α) : l.foldl op (op a b) = op a (l.foldl op b) := List.foldl_assoc
  have habsorb (l : List α) : op (l.foldl op e) e = l.foldl op e := by
    rw [@Std.Commutative.comm α op, ← hassoc, he]
  induction c with
  | start => rfl
  | apply group a ih => rw [eval, ih, values, List.foldl_append, List.foldl_cons, List.foldl_nil]
  | fold group1 group2 ih1 ih2 =>
    rw [eval, ih1, ih2, values, List.foldl_append, ← hassoc, habsorb]

theorem eval_perm {op : α → α → α} [Std.Associative op] [Std.Commutative op] {e : α} (he : op e e = e)
    {c : Combination α} {l : List α} (h : c.values.Perm l) : c.eval e op op = l.foldl op e := by
  rw [eval_eq he, h.foldl_op_eq]

end Combination

-- ---------------------------------------------------------------------------
-- Least and greatest elements
-- ---------------------------------------------------------------------------

section
variable [LinearOrder α] {l : List α} {m : α}

theorem le_foldl_min {c e : α} (l : List α) : c ≤ l.foldl min e ↔ c ≤ e ∧ ∀ a ∈ l, c ≤ a := by
  induction l generalizing e with
  | nil => simp
  | cons a l ih => rw [List.foldl_cons, ih, le_min_iff, List.forall_mem_cons, and_assoc]

theorem foldl_min (h : IsLeast {a | a ∈ l} m) (e : α) : l.foldl min e = min e m := by
  apply eq_of_forall_le_iff
  intro c
  rw [le_foldl_min, le_min_iff]
  exact and_congr_right fun _ => ⟨fun hc => hc m h.1, fun hc a ha => hc.trans (h.2 ha)⟩

theorem foldl_max (h : IsGreatest {a | a ∈ l} m) (e : α) : l.foldl max e = max e m :=
  @foldl_min αᵒᵈ _ l m h e

end

end ReductionTrees
