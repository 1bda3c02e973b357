import Mathlib

/-!
# Topological orders

Lists in which everything an element depends on comes before it, for a relation on any type.
-/

namespace TopoOrder

open Relation

variable {dep : κ → κ → Prop} {l : List κ}

def Acyclic (dep : κ → κ → Prop) : Prop := ∀ k, ¬TransGen dep k k

/-- `dep k f` stands for `k` depends on `f`. -/
def Ordered (dep : κ → κ → Prop) (l : List κ) : Prop :=
  ∀ done k rest, l = done ++ k :: rest → ∀ f, dep k f → f ∈ done

theorem ordered_nil : Ordered dep [] := by
  intro done k rest h
  cases done <;> cases h

theorem Ordered.concat (h : Ordered dep l) {k : κ} (hk : ∀ f, dep k f → f ∈ l) :
    Ordered dep (l ++ [k]) := by
  intro done k' rest hsplit
  cases rest using List.reverseRecOn with
  | nil =>
    obtain ⟨hdone, hlast⟩ := List.append_inj' hsplit rfl
    cases hlast
    exact hdone ▸ hk
  | append_singleton rest x =>
    rw [← List.cons_append, ← List.append_assoc] at hsplit
    exact h done k' rest (List.append_inj' hsplit rfl).1

theorem Ordered.trans_mem (h : Ordered dep l) {k f : κ} (hdep : TransGen dep k f) :
    ∀ done rest, l = done ++ k :: rest → f ∈ done := by
  induction hdep with
  | single hstep => exact fun done rest hsplit => h done _ rest hsplit _ hstep
  | tail _ hstep ih =>
    intro done rest hsplit
    obtain ⟨before, after, hdone⟩ := List.append_of_mem (ih done rest hsplit)
    rw [hdone, List.append_assoc, List.cons_append] at hsplit
    rw [hdone]
    exact List.mem_append_left _ (h before _ _ hsplit _ hstep)

theorem Ordered.not_cyclic (h : Ordered dep l) {k : κ} (hk : k ∈ l) : ¬TransGen dep k k := by
  intro hcycle
  obtain ⟨done, rest, hsplit, hfirst⟩ := List.eq_append_cons_of_mem hk
  exact hfirst (h.trans_mem hcycle done rest hsplit)

/-- An order of everything that depends on something leaves no cycle. -/
theorem Ordered.acyclic (h : Ordered dep l) (hall : ∀ k f, dep k f → k ∈ l) : Acyclic dep := by
  intro k hcycle
  obtain ⟨f, hfirst, _⟩ := TransGen.head'_iff.mp hcycle
  exact h.not_cyclic (hall k f hfirst) hcycle

/-- Without cycles, one of finitely many elements depends on none of them. -/
theorem Acyclic.exists_free (h : Acyclic dep) {l : List κ} (hl : l ≠ []) :
    ∃ k ∈ l, ∀ f, dep k f → f ∉ l := by
  have : Finite {k // k ∈ l} := l.finite_toSet
  have : IsTrans {k // k ∈ l} fun f k => TransGen dep k.val f.val :=
    ⟨fun _ _ _ hab hbc => hbc.trans hab⟩
  have : Std.Irrefl fun f k : {k // k ∈ l} => TransGen dep k.val f.val := ⟨fun k => h k.val⟩
  have hwf : WellFounded fun f k : {k // k ∈ l} => TransGen dep k.val f.val :=
    Finite.wellFounded_of_trans_of_irrefl _
  obtain ⟨k, hk⟩ := List.exists_mem_of_ne_nil l hl
  obtain ⟨least, _, hleast⟩ := hwf.has_min Set.univ ⟨⟨k, hk⟩, trivial⟩
  exact ⟨least, least.property, fun f hdep hf => hleast ⟨f, hf⟩ trivial (.single hdep)⟩

theorem Ordered.before [DecidableEq κ] (h : Ordered dep l) (hn : l.Nodup) {k f : κ} (hdep : dep k f)
    (hk : k ∈ l) : l.idxOf f < l.idxOf k := by
  obtain ⟨done, rest, rfl⟩ := List.append_of_mem hk
  have hf := h done k rest rfl f hdep
  have hnot : k ∉ done := fun hmem => (List.nodup_append.mp hn).2.2 k hmem k List.mem_cons_self rfl
  rw [List.idxOf_append_of_mem hf, List.idxOf_append_of_notMem hnot, List.idxOf_cons_self, Nat.add_zero]
  exact List.idxOf_lt_length_of_mem hf

end TopoOrder
