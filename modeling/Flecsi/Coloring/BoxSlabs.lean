import Flecsi.Coloring.BoxStencils

/-!
# Primary boxes

The primary boxes are products of slabs, and the slabs of a direction partition the grid.
-/

namespace Flecsi.Coloring

-- ---------------------------------------------------------------------------
-- Slabs of a direction
-- ---------------------------------------------------------------------------

/-- The bounds that `create_primary_box` gives the box with index `i` in a direction. -/
def slabLower (size ncolors nhalo_domain i : ℕ) : ℤ := nhalo_domain + (size / ncolors : ℕ) * i

def slabUpper (size ncolors nhalo_domain i : ℕ) : ℤ :=
  if i + 1 = ncolors then size + nhalo_domain - 1 else nhalo_domain + (size / ncolors : ℕ) * (i + 1) - 1

section
variable {size nc nd i j : ℕ}

theorem slabUpper_succ (size nd : ℕ) (h : i + 1 < nc) : slabUpper size nc nd i + 1 = slabLower size nc nd (i + 1) := by
  rw [slabUpper, if_neg h.ne, slabLower]
  push_cast
  ring

theorem slab_mul_le (size : ℕ) (h : i < nc) : (size / nc : ℕ) * ((i : ℤ) + 1) ≤ size := by
  have hle : size / nc * (i + 1) ≤ size := (Nat.mul_le_mul_left _ h).trans (Nat.div_mul_le_self size nc)
  exact_mod_cast hle

theorem slabUpper_lt_lower (size nd : ℕ) (hij : i < j) (hj : j < nc) : slabUpper size nc nd i < slabLower size nc nd j := by
  have hmul : (size / nc : ℕ) * ((i : ℤ) + 1) ≤ (size / nc : ℕ) * (j : ℤ) := by
    exact_mod_cast Nat.mul_le_mul_left (size / nc) hij
  rw [slabUpper, if_neg (by omega), slabLower]
  omega

theorem slab_unique (hi : i < nc) (hj : j < nc) {x : ℤ}
    (hx : slabLower size nc nd i ≤ x ∧ x ≤ slabUpper size nc nd i)
    (hx' : slabLower size nc nd j ≤ x ∧ x ≤ slabUpper size nc nd j) : i = j := by
  rcases lt_trichotomy i j with hlt | heq | hgt
  · have := slabUpper_lt_lower size nd hlt hj
    omega
  · exact heq
  · have := slabUpper_lt_lower size nd hgt hi
    omega

variable (hnc : 1 ≤ nc) (hle : nc ≤ size)
include hnc hle

theorem slab_pos : 1 ≤ size / nc := (Nat.one_le_div_iff hnc).mpr hle

theorem slabLower_le_upper (nd : ℕ) (hi : i < nc) : slabLower size nc nd i ≤ slabUpper size nc nd i := by
  have hpos := slab_pos hnc hle
  have hmul := slab_mul_le size hi
  have hsucc : (size / nc : ℕ) * ((i : ℤ) + 1) = (size / nc : ℕ) * (i : ℤ) + (size / nc : ℕ) := by ring
  unfold slabLower slabUpper
  split <;> omega

omit hnc hle in
theorem slabLower_lt_upper (h : 2 * nc ≤ size) (nd : ℕ) (hi : i < nc) :
    slabLower size nc nd i < slabUpper size nc nd i := by
  have hpos : 2 ≤ size / nc := (Nat.le_div_iff_mul_le (by omega)).mpr h
  have hmul := slab_mul_le size hi
  have hsucc : (size / nc : ℕ) * ((i : ℤ) + 1) = (size / nc : ℕ) * (i : ℤ) + (size / nc : ℕ) := by ring
  unfold slabLower slabUpper
  split <;> omega

/-- Too few cells for two in each slab leave the first slab one. -/
theorem first_slab_narrow (h : size < 2 * nc) (nd : ℕ) : slabLower size nc nd 0 = slabUpper size nc nd 0 := by
  have hone : size / nc = 1 := by
    have hlt : size / nc < 2 := (Nat.div_lt_iff_lt_mul hnc).mpr h
    have := slab_pos hnc hle
    omega
  unfold slabLower slabUpper
  rw [hone]
  split <;> omega

theorem slabLower_eq_iff (nd i : ℕ) : slabLower size nc nd i = nd ↔ i = 0 := by
  have hpos := slab_pos hnc hle
  unfold slabLower
  constructor
  · intro h
    have hzero : size / nc * i = 0 := by
      have : (size / nc : ℕ) * (i : ℤ) = 0 := by omega
      exact_mod_cast this
    exact (Nat.mul_eq_zero.mp hzero).resolve_left (by omega)
  · rintro rfl
    simp

theorem slabUpper_eq_iff (nd : ℕ) (hi : i < nc) : slabUpper size nc nd i = size + nd - 1 ↔ i + 1 = nc := by
  refine ⟨fun h => ?_, fun h => by rw [slabUpper, if_pos h]⟩
  by_contra hne
  rw [slabUpper, if_neg hne] at h
  have hnext := slab_mul_le size (show i + 1 < nc by omega)
  have hpos := slab_pos hnc hle
  have hsucc : (size / nc : ℕ) * (((i + 1 : ℕ) : ℤ) + 1) = (size / nc : ℕ) * ((i : ℤ) + 1) + (size / nc : ℕ) := by
    push_cast
    ring
  omega

omit hnc hle in
theorem slab_subset (size nd : ℕ) (hi : i < nc) : (nd : ℤ) ≤ slabLower size nc nd i ∧ slabUpper size nc nd i < nd + size := by
  have hmul := slab_mul_le size hi
  have hpos : (0 : ℤ) ≤ (size / nc : ℕ) * (i : ℤ) := by positivity
  unfold slabLower slabUpper
  refine ⟨by omega, ?_⟩
  split <;> omega

/-- A cell of the grid lies in one slab. -/
theorem exists_slab {x : ℤ} (hx : (nd : ℤ) ≤ x ∧ x < nd + size) :
    ∃ i < nc, slabLower size nc nd i ≤ x ∧ x ≤ slabUpper size nc nd i := by
  have hpos := slab_pos hnc hle
  obtain ⟨y, hy⟩ := Int.eq_ofNat_of_zero_le (a := x - nd) (by omega)
  have hdiv := Nat.div_mul_le_self y (size / nc)
  have hlt := Nat.lt_mul_div_succ y hpos
  by_cases hlast : nc - 1 ≤ y / (size / nc)
  · refine ⟨nc - 1, by omega, ?_, ?_⟩
    · have hmul := Nat.mul_le_mul_left (size / nc) hlast
      unfold slabLower
      rw [Nat.mul_comm] at hdiv
      have := hmul.trans hdiv
      zify at this
      omega
    · rw [slabUpper, if_pos (by omega)]
      omega
  · refine ⟨y / (size / nc), by omega, ?_, ?_⟩
    · unfold slabLower
      rw [Nat.mul_comm] at hdiv
      zify at hdiv
      push_cast
      omega
    · rw [slabUpper, if_neg (by omega)]
      zify at hlt
      push_cast
      omega

end

-- ---------------------------------------------------------------------------
-- Primary boxes
-- ---------------------------------------------------------------------------

/-- The primary box with given indices. -/
def slabInfo (grid_size : Fin D → ℕ) (nhalo nhalo_domain thru_dim : ℕ) (ncolors idx : Fin D → ℕ) : BoxInfo D where
  box :=
    { lowerbnd := fun d => slabLower (grid_size d) (ncolors d) nhalo_domain (idx d)
      upperbnd := fun d => slabUpper (grid_size d) (ncolors d) nhalo_domain (idx d) }
  nhalo := nhalo
  nhalo_domain := nhalo_domain
  thru_dim := thru_dim
  onlower d := idx d = 0
  onupper d := idx d + 1 = ncolors d

/-- Every direction has at least one color, and no more than cells. -/
def Decomposes (grid_size ncolors : Fin D → ℕ) : Prop := ∀ d, 1 ≤ ncolors d ∧ ncolors d ≤ grid_size d

section
variable (S : Stencil D) {grid_size ncolors : Fin D → ℕ} (nhalo nhalo_domain thru_dim : ℕ) {p : ℕ}

theorem createPrimaryBox_eq (idx : Fin D → ℕ) (h : ∀ d, idx d < ncolors d) :
    createPrimaryBox ⟨fun _ => nhalo_domain, fun i => grid_size i + nhalo_domain - 1⟩ ncolors idx =
      (slabInfo grid_size nhalo nhalo_domain thru_dim ncolors idx).box := by
  have hsize (d : Fin D) : ((grid_size d : ℤ) + nhalo_domain - 1 - nhalo_domain + 1) / ncolors d =
      (grid_size d / ncolors d : ℕ) := by
    have : (grid_size d : ℤ) + nhalo_domain - 1 - nhalo_domain + 1 = grid_size d := by ring
    rw [this]
    rfl
  unfold createPrimaryBox slabInfo
  simp only [hsize, Box.mk.injEq]
  refine ⟨rfl, funext fun d => ?_⟩
  unfold slabUpper
  have hlt := h d
  by_cases hlast : idx d + 1 = ncolors d
  · rw [if_pos hlast, if_neg (by omega)]
  · rw [if_neg hlast, if_pos (by omega)]

theorem color_primary (h : Decomposes grid_size ncolors) (hp : p < ∏ d, ncolors d) :
    (S.color grid_size nhalo nhalo_domain thru_dim ncolors p).primary =
      slabInfo grid_size nhalo nhalo_domain thru_dim ncolors (getIndices ncolors p) := by
  have hidx := getIndices_lt (fun d => (h d).1) hp
  unfold Stencil.color
  simp only [createPrimaryBox_eq nhalo nhalo_domain thru_dim _ hidx]
  unfold slabInfo
  simp only [BoxInfo.mk.injEq, true_and]
  refine ⟨funext fun d => decide_eq_decide.mpr ?_, funext fun d => decide_eq_decide.mpr ?_⟩
  · exact slabLower_eq_iff (h d).1 (h d).2 _ _
  · exact slabUpper_eq_iff (h d).1 (h d).2 _ (hidx d)

/-- The other boxes of a rank are those of its primary box. -/
theorem color_eq (h : Decomposes grid_size ncolors) (hp : p < ∏ d, ncolors d) :
    S.color grid_size nhalo nhalo_domain thru_dim ncolors p =
      let primary := slabInfo grid_size nhalo nhalo_domain thru_dim ncolors (getIndices ncolors p)
      { primary := primary
        exclusive := ⟨exclusiveBox primary, [(p : ℤ)]⟩
        shared := createSharedBoxes S primary ncolors (getIndices ncolors p)
        ghost := createGhostBoxes S primary ncolors (getIndices ncolors p)
        domain_halo := createDomainHaloBoxes S primary } := by
  have hprimary := color_primary S nhalo nhalo_domain thru_dim h hp
  rw [← hprimary]
  rfl

end

end Flecsi.Coloring
