import Flecsi.Coloring.BoxColorer

/-!
# The tables of the box colorer

What the flags and tables for two and for three dimensions say in any number of dimensions, and
the numbering of the ranks by their indices.
-/

namespace Flecsi.Coloring

-- ---------------------------------------------------------------------------
-- Laws
-- ---------------------------------------------------------------------------

/-- The direction of a region from the inner box. -/
def offset (r : Fin D → Fin 3) : Fin D → ℤ := fun d => (r d).val - 1

/-- The directions that change. -/
def moved (o : Fin D → ℤ) : ℕ := (Finset.univ.filter fun d => o d ≠ 0).card

/-- A neighbor that the cells of region `r` lie next to. -/
def Toward (r : Fin D → Fin 3) (o : Fin D → ℤ) : Prop := o ≠ 0 ∧ ∀ d, o d = 0 ∨ o d = offset r d

instance (r : Fin D → Fin 3) (o : Fin D → ℤ) : Decidable (Toward r o) := by unfold Toward; infer_instance

/-- The number of a rank with given indices. -/
def linear : {D : ℕ} → (Fin D → ℕ) → (Fin D → ℤ) → ℤ
  | 0, _, _ => 0
  | D + 1, ncolors, idx =>
    linear (fun j : Fin D => ncolors j.castSucc) (fun j => idx j.castSucc) +
      (∏ j : Fin D, ncolors j.castSucc) * idx (Fin.last D)

structure Stencil.Lawful (S : Stencil D) : Prop where
  nodup : S.regions.Nodup
  mem : ∀ r, r ∈ S.regions
  flag : ∀ IM r, S.sharedFlag IM r = true ↔ r ≠ (fun _ => 1) ∧ ∀ d, r d = 1 ∨ cut IM d (r d) = true
  offsets : ∀ TD < D, ∀ r o, o ∈ S.sharedOffsets TD r ↔ Toward r o ∧ TD + moved o ≤ D
  rankmap : ∀ r, S.rankmap r = ((D : ℤ) - moved (offset r), offset r)
  cval : ∀ ncolors idx, S.cval ncolors idx = linear ncolors idx

def kept (r : Fin D → Fin 3) (keep : Fin D → Bool) : Fin D → ℤ := fun d => if keep d then offset r d else 0

/-- An offset toward a region keeps some of its directions. -/
theorem Toward.exists_kept {r : Fin D → Fin 3} {o : Fin D → ℤ} (h : Toward r o) : ∃ keep, o = kept r keep := by
  refine ⟨fun d => decide (o d = offset r d), funext fun d => ?_⟩
  by_cases hd : o d = offset r d
  · simp [kept, hd]
  · simpa [kept, hd] using (h.2 d).resolve_right hd

theorem stencil2_lawful : stencil2.Lawful where
  nodup := by decide
  mem := by decide
  flag IM r := by
    have hall : ∀ (i j : Fin 3) (a b : Bool),
        (if i = 1 ∧ j = 1 then false else if a ∧ b then true else if i = 1 ∧ !a ∧ b then true
          else if j = 1 ∧ a ∧ !b then true else false) = true ↔
        ¬(i = 1 ∧ j = 1) ∧ (i = 1 ∨ a = true) ∧ (j = 1 ∨ b = true) := by decide
    rw [Ne, funext_iff, Fin.forall_fin_two, Fin.forall_fin_two]
    exact hall (r 0) (r 1) (cut IM 0 (r 0)) (cut IM 1 (r 1))
  offsets TD hTD r o := by
    have hsound : ∀ TD < 2, ∀ r, ∀ o ∈ sharedOffsets2 TD r, Toward r o ∧ TD + moved o ≤ 2 := by decide
    have hcomplete : ∀ (TD : Fin 2) (r : Fin 2 → Fin 3) (keep : Fin 2 → Bool),
        Toward r (kept r keep) → TD + moved (kept r keep) ≤ 2 → kept r keep ∈ sharedOffsets2 TD r := by decide
    refine ⟨hsound TD hTD r o, fun ⟨htoward, hmoved⟩ => ?_⟩
    obtain ⟨keep, rfl⟩ := htoward.exists_kept
    exact hcomplete ⟨TD, hTD⟩ r keep htoward hmoved
  rankmap := by decide
  cval ncolors idx := by
    simp [stencil2, linear]

theorem stencil3_lawful : stencil3.Lawful where
  nodup := by decide +kernel
  mem := by decide +kernel
  flag IM r := by
    have hall : ∀ (i j k : Fin 3) (a b c : Bool),
        (if i = 1 ∧ j = 1 ∧ k = 1 then false
          else if a ∧ b ∧ c then true
          else if i = 1 ∧ !a ∧ b ∧ c then true
          else if j = 1 ∧ !b ∧ a ∧ c then true
          else if k = 1 ∧ !c ∧ a ∧ b then true
          else if i = 1 ∧ !a ∧ j = 1 ∧ !b ∧ c then true
          else if j = 1 ∧ !b ∧ k = 1 ∧ !c ∧ a then true
          else if k = 1 ∧ !c ∧ i = 1 ∧ !a ∧ b then true
          else false) = true ↔
        ¬(i = 1 ∧ j = 1 ∧ k = 1) ∧ (i = 1 ∨ a = true) ∧ (j = 1 ∨ b = true) ∧ (k = 1 ∨ c = true) := by
      decide +kernel
    have hthree (P : Fin 3 → Prop) : (∀ d, P d) ↔ P 0 ∧ P 1 ∧ P 2 := by
      rw [Fin.forall_fin_succ, Fin.forall_fin_two]
      rfl
    rw [Ne, funext_iff, hthree, hthree]
    exact hall (r 0) (r 1) (r 2) (cut IM 0 (r 0)) (cut IM 1 (r 1)) (cut IM 2 (r 2))
  offsets TD hTD r o := by
    have hsound : ∀ TD < 3, ∀ r, ∀ o ∈ sharedOffsets3 TD r, Toward r o ∧ TD + moved o ≤ 3 := by decide +kernel
    have hcomplete : ∀ (TD : Fin 3) (r : Fin 3 → Fin 3) (keep : Fin 3 → Bool),
        Toward r (kept r keep) → TD + moved (kept r keep) ≤ 3 → kept r keep ∈ sharedOffsets3 TD r := by decide +kernel
    refine ⟨hsound TD hTD r o, fun ⟨htoward, hmoved⟩ => ?_⟩
    obtain ⟨keep, rfl⟩ := htoward.exists_kept
    exact hcomplete ⟨TD, hTD⟩ r keep htoward hmoved
  rankmap := by decide +kernel
  cval ncolors idx := by
    simp [stencil3, linear, Fin.prod_univ_two]

-- ---------------------------------------------------------------------------
-- Ranks and indices
-- ---------------------------------------------------------------------------

theorem getIndices_castSucc (ncolors : Fin (D + 1) → ℕ) (rank : ℕ) (d : Fin D) :
    getIndices ncolors rank d.castSucc =
      getIndices (fun j : Fin D => ncolors j.castSucc) (rank % ∏ j : Fin D, ncolors j.castSucc) d := by
  have hmod := Nat.mod_eq_sub_div_mul (x := rank) (k := ∏ j : Fin D, ncolors j.castSucc)
  rw [getIndices, hmod]
  exact Fin.snoc_castSucc (α := fun _ => ℕ) _ _ d

theorem getIndices_last (ncolors : Fin (D + 1) → ℕ) (rank : ℕ) :
    getIndices ncolors rank (Fin.last D) = rank / ∏ j : Fin D, ncolors j.castSucc := by
  rw [getIndices]
  exact Fin.snoc_last (α := fun _ => ℕ) _ _

theorem getIndices_lt {ncolors : Fin D → ℕ} (h : ∀ d, 1 ≤ ncolors d) {rank : ℕ} (hr : rank < ∏ d, ncolors d)
    (d : Fin D) : getIndices ncolors rank d < ncolors d := by
  induction D generalizing rank with
  | zero => exact d.elim0
  | succ D ih =>
    have hpos : 0 < ∏ j : Fin D, ncolors j.castSucc := Finset.prod_pos fun j _ => h j.castSucc
    cases d using Fin.lastCases with
    | last =>
      rw [getIndices_last, Nat.div_lt_iff_lt_mul hpos, Nat.mul_comm, ← Fin.prod_univ_castSucc]
      exact hr
    | cast d =>
      rw [getIndices_castSucc]
      exact ih (fun j => h j.castSucc) (Nat.mod_lt _ hpos) d

theorem linear_getIndices {ncolors : Fin D → ℕ} (h : ∀ d, 1 ≤ ncolors d) {rank : ℕ} (hr : rank < ∏ d, ncolors d) :
    linear ncolors (fun d => (getIndices ncolors rank d : ℤ)) = rank := by
  induction D generalizing rank with
  | zero =>
    have hzero : rank = 0 := by simpa using hr
    rw [linear, hzero]
    rfl
  | succ D ih =>
    have hpos : 0 < ∏ j : Fin D, ncolors j.castSucc := Finset.prod_pos fun j _ => h j.castSucc
    have hlow := ih (fun j => h j.castSucc) (Nat.mod_lt rank hpos)
    have hsplit := Nat.mod_add_div rank (∏ j : Fin D, ncolors j.castSucc)
    simp only [linear, getIndices_castSucc, getIndices_last, hlow]
    exact_mod_cast hsplit

theorem linear_bounds {ncolors : Fin D → ℕ} {idx : Fin D → ℤ} (h : ∀ d, 0 ≤ idx d ∧ idx d < ncolors d) :
    0 ≤ linear ncolors idx ∧ linear ncolors idx < ∏ d, (ncolors d : ℤ) := by
  induction D with
  | zero => simp [linear]
  | succ D ih =>
    obtain ⟨h₁, h₂⟩ := ih fun j => h j.castSucc
    obtain ⟨h₃, h₄⟩ := h (Fin.last D)
    rw [linear, Fin.prod_univ_castSucc]
    push_cast
    have hpos := h₁.trans_lt h₂
    refine ⟨by positivity, ?_⟩
    nlinarith

/-- Different indices have different numbers. -/
theorem linear_injective {ncolors : Fin D → ℕ} {idx idx' : Fin D → ℤ}
    (h : ∀ d, 0 ≤ idx d ∧ idx d < ncolors d) (h' : ∀ d, 0 ≤ idx' d ∧ idx' d < ncolors d)
    (heq : linear ncolors idx = linear ncolors idx') : idx = idx' := by
  induction D with
  | zero => exact funext fun d => d.elim0
  | succ D ih =>
    obtain ⟨h₁, h₂⟩ := linear_bounds fun j => h j.castSucc
    obtain ⟨h₁', h₂'⟩ := linear_bounds fun j => h' j.castSucc
    rw [linear, linear] at heq
    push_cast at heq
    have hlast : idx (Fin.last D) = idx' (Fin.last D) := by
      rcases lt_trichotomy (idx (Fin.last D)) (idx' (Fin.last D)) with hlt | heq | hgt
      · nlinarith
      · exact heq
      · nlinarith
    rw [hlast] at heq
    have hlow := ih (fun j => h j.castSucc) (fun j => h' j.castSucc) (add_right_cancel heq)
    funext d
    cases d using Fin.lastCases with
    | last => exact hlast
    | cast d => exact congrFun hlow d

theorem exists_rank {ncolors : Fin D → ℕ} (idx : Fin D → ℕ) (h : ∀ d, idx d < ncolors d) :
    ∃ rank < ∏ d, ncolors d, getIndices ncolors rank = idx := by
  have hrange : ∀ d, 0 ≤ (idx d : ℤ) ∧ (idx d : ℤ) < ncolors d := fun d => ⟨by positivity, by exact_mod_cast h d⟩
  have hpos : ∀ d, 1 ≤ ncolors d := fun d => Nat.lt_of_le_of_lt (Nat.zero_le _) (h d)
  obtain ⟨h₁, h₂⟩ := linear_bounds hrange
  obtain ⟨rank, hrank⟩ := Int.eq_ofNat_of_zero_le h₁
  have hlt : rank < ∏ d, ncolors d := by
    rw [hrank] at h₂
    exact_mod_cast h₂
  refine ⟨rank, hlt, ?_⟩
  have hindices : ∀ d, 0 ≤ (getIndices ncolors rank d : ℤ) ∧ (getIndices ncolors rank d : ℤ) < ncolors d :=
    fun d => ⟨by positivity, by exact_mod_cast getIndices_lt hpos hlt d⟩
  have heq := linear_injective hindices hrange ((linear_getIndices hpos hlt).trans hrank.symm)
  exact funext fun d => by exact_mod_cast congrFun heq d

theorem getIndices_injective {ncolors : Fin D → ℕ} (h : ∀ d, 1 ≤ ncolors d) {p q : ℕ} (hp : p < ∏ d, ncolors d)
    (hq : q < ∏ d, ncolors d) (heq : getIndices ncolors p = getIndices ncolors q) : p = q := by
  have hlinear := linear_getIndices h hp
  rw [heq, linear_getIndices h hq] at hlinear
  exact_mod_cast hlinear.symm

end Flecsi.Coloring
