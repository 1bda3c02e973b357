import Flecsi.Coloring.BoxPartition

/-!
# Domain halos

The boxes around a primary box at the sides of the grid. Over all ranks they are disjoint and lie in
the frame of the grid; a primary box of width one has none along its narrow direction.
-/

namespace Flecsi.Coloring

open CutIntervals

-- ---------------------------------------------------------------------------
-- The frame in a direction
-- ---------------------------------------------------------------------------

def haloCuts (size nc nhalo_domain i : ℕ) : Fin 4 → ℤ :=
  ![slabLower size nc nhalo_domain i - if i = 0 then (nhalo_domain : ℤ) else 0,
    slabLower size nc nhalo_domain i,
    slabUpper size nc nhalo_domain i,
    slabUpper size nc nhalo_domain i + if i + 1 = nc then (nhalo_domain : ℤ) else 0]

section
variable {size nc nhalo_domain i j : ℕ} {x : ℤ} {k k' : Fin 3}

/-- The cells below a slab lie below the grid, and there is one slab that has them. -/
theorem mem_haloPiece_zero :
    x ∈ piece (haloCuts size nc nhalo_domain i) 0 ↔ i = 0 ∧ 0 ≤ x ∧ x < nhalo_domain := by
  have h : x ∈ piece (haloCuts size nc nhalo_domain i) 0 ↔
      slabLower size nc nhalo_domain i - (if i = 0 then (nhalo_domain : ℤ) else 0) ≤ x ∧
        x < slabLower size nc nhalo_domain i := mem_piece_zero
  rw [h]
  by_cases hzero : i = 0
  · subst hzero
    simp [slabLower]
  · rw [if_neg hzero]
    omega

theorem mem_haloPiece_one :
    x ∈ piece (haloCuts size nc nhalo_domain i) 1 ↔
      slabLower size nc nhalo_domain i ≤ x ∧ x ≤ slabUpper size nc nhalo_domain i := mem_piece_one

theorem mem_haloPiece_two :
    x ∈ piece (haloCuts size nc nhalo_domain i) 2 ↔
      i + 1 = nc ∧ nhalo_domain + size ≤ x ∧ x < size + 2 * nhalo_domain := by
  have h : x ∈ piece (haloCuts size nc nhalo_domain i) 2 ↔
      slabUpper size nc nhalo_domain i < x ∧
        x ≤ slabUpper size nc nhalo_domain i + if i + 1 = nc then (nhalo_domain : ℤ) else 0 := mem_piece_two
  rw [h]
  by_cases hlast : i + 1 = nc
  · rw [slabUpper, if_pos hlast]
    omega
  · rw [if_neg hlast]
    omega

/-- The piece tells on which side of the grid its cells lie. -/
theorem haloPiece_side (hi : i < nc) (hx : x ∈ piece (haloCuts size nc nhalo_domain i) k) :
    (0 ≤ x ∧ x < size + 2 * nhalo_domain) ∧
      k = if x < nhalo_domain then 0 else if x < nhalo_domain + size then 1 else 2 := by
  fin_cases k
  · obtain ⟨-, hge, hlt⟩ := mem_haloPiece_zero.mp hx
    rw [if_pos hlt]
    exact ⟨⟨hge, by omega⟩, rfl⟩
  · have hslab := mem_haloPiece_one.mp hx
    have hsubset := slab_subset size nhalo_domain hi
    rw [if_neg (by omega), if_pos (by omega)]
    exact ⟨⟨by omega, by omega⟩, rfl⟩
  · obtain ⟨-, hge, hlt⟩ := mem_haloPiece_two.mp hx
    rw [if_neg (by omega), if_neg (by omega)]
    exact ⟨⟨by omega, hlt⟩, rfl⟩

theorem haloPiece_one_iff (hi : i < nc) (hx : x ∈ piece (haloCuts size nc nhalo_domain i) k) :
    k = 1 ↔ nhalo_domain ≤ x ∧ x < nhalo_domain + size := by
  rw [(haloPiece_side hi hx).2]
  split
  · simp
    omega
  · split
    · simp
      omega
    · simp
      omega

theorem exists_haloPiece (hnc : 1 ≤ nc) (hle : nc ≤ size) (hx : 0 ≤ x ∧ x < size + 2 * nhalo_domain) :
    ∃ i < nc, ∃ k, x ∈ piece (haloCuts size nc nhalo_domain i) k := by
  by_cases hlower : x < nhalo_domain
  · exact ⟨0, hnc, 0, mem_haloPiece_zero.mpr ⟨rfl, hx.1, hlower⟩⟩
  · by_cases hupper : nhalo_domain + size ≤ x
    · exact ⟨nc - 1, by omega, 2, mem_haloPiece_two.mpr ⟨by omega, hupper, hx.2⟩⟩
    · obtain ⟨i, hi, hslab⟩ := exists_slab hnc hle (show (nhalo_domain : ℤ) ≤ x ∧ x < nhalo_domain + size by omega)
      exact ⟨i, hi, 1, mem_haloPiece_one.mpr hslab⟩

theorem haloPiece_unique (hi : i < nc) (hj : j < nc) (hx : x ∈ piece (haloCuts size nc nhalo_domain i) k)
    (hx' : x ∈ piece (haloCuts size nc nhalo_domain j) k') : i = j ∧ k = k' := by
  have hside : k = k' := (haloPiece_side hi hx).2.trans (haloPiece_side hj hx').2.symm
  subst hside
  refine ⟨?_, rfl⟩
  fin_cases k
  · exact (mem_haloPiece_zero.mp hx).1.trans (mem_haloPiece_zero.mp hx').1.symm
  · exact slab_unique hi hj (mem_haloPiece_one.mp hx) (mem_haloPiece_one.mp hx')
  · have := (mem_haloPiece_two.mp hx).1
    have := (mem_haloPiece_two.mp hx').1
    omega

end

-- ---------------------------------------------------------------------------
-- The frame
-- ---------------------------------------------------------------------------

/-- The cells around the grid. -/
def frame (grid_size : Fin D → ℕ) (nhalo_domain : ℕ) : Set (Fin D → ℤ) :=
  {c | (∀ d, 0 ≤ c d ∧ c d < grid_size d + 2 * nhalo_domain) ∧ c ∉ gridCells grid_size nhalo_domain}

section
variable {S : Stencil D} {grid_size ncolors : Fin D → ℕ} {nhalo nhalo_domain thru_dim p q : ℕ} {c : Fin D → ℤ}
  {r r' : Fin D → Fin 3}

theorem domainHaloBox_lower (idx : Fin D → ℕ) (d : Fin D) :
    (domainHaloBox (slabInfo grid_size nhalo nhalo_domain thru_dim ncolors idx)).lowerbnd d =
      slabLower (grid_size d) (ncolors d) nhalo_domain (idx d) - if idx d = 0 then (nhalo_domain : ℤ) else 0 := by
  unfold domainHaloBox slabInfo
  by_cases hzero : idx d = 0 <;> simp [hzero]

theorem domainHaloBox_upper (idx : Fin D → ℕ) (d : Fin D) :
    (domainHaloBox (slabInfo grid_size nhalo nhalo_domain thru_dim ncolors idx)).upperbnd d =
      slabUpper (grid_size d) (ncolors d) nhalo_domain (idx d) +
        if idx d + 1 = ncolors d then (nhalo_domain : ℤ) else 0 := by
  unfold domainHaloBox slabInfo
  by_cases hlast : idx d + 1 = ncolors d <;> simp [hlast]

theorem between_domainHalo (idx : Fin D → ℕ) (d : Fin D) :
    between (domainHaloBox (slabInfo grid_size nhalo nhalo_domain thru_dim ncolors idx))
      (slabInfo grid_size nhalo nhalo_domain thru_dim ncolors idx).box d =
      haloCuts (grid_size d) (ncolors d) nhalo_domain (idx d) := by
  unfold between intervals
  rw [domainHaloBox_lower, domainHaloBox_upper]
  rfl

/-- The cells of the frame that region `r` around the box with indices `idx` has. -/
def haloRegion (grid_size ncolors : Fin D → ℕ) (nhalo_domain : ℕ) (idx : Fin D → ℕ) : (Fin D → Fin 3) → Set (Fin D → ℤ) :=
  region fun d => haloCuts (grid_size d) (ncolors d) nhalo_domain (idx d)

theorem mem_haloRegion (nhalo thru_dim : ℕ) {idx : Fin D → ℕ} :
    c ∈ region (between (domainHaloBox (slabInfo grid_size nhalo nhalo_domain thru_dim ncolors idx))
      (slabInfo grid_size nhalo nhalo_domain thru_dim ncolors idx).box) r ↔
      c ∈ haloRegion grid_size ncolors nhalo_domain idx r :=
  forall_congr' fun d => by rw [between_domainHalo]

theorem cut_halo_one {idx : Fin D → ℕ} {d : Fin D} :
    cut (between (domainHaloBox (slabInfo grid_size nhalo nhalo_domain thru_dim ncolors idx))
      (slabInfo grid_size nhalo nhalo_domain thru_dim ncolors idx).box) d 1 = true ↔
      slabLower (grid_size d) (ncolors d) nhalo_domain (idx d) ≠ slabUpper (grid_size d) (ncolors d) nhalo_domain (idx d) := by
  unfold cut
  rw [between_domainHalo]
  exact decide_eq_true_iff

/-- A rank has the regions of the frame around its primary box, but for those along a direction of
width one. -/
theorem mem_domain_halo (hS : S.Lawful) (h : Decomposes grid_size ncolors) (hp : p < ∏ d, ncolors d) :
    (∃ b ∈ (S.color grid_size nhalo nhalo_domain thru_dim ncolors p).domain_halo, c ∈ b.cells) ↔
      ∃ r, r ≠ (fun _ => 1) ∧
        (∀ d, r d = 1 → slabLower (grid_size d) (ncolors d) nhalo_domain (getIndices ncolors p d) ≠
          slabUpper (grid_size d) (ncolors d) nhalo_domain (getIndices ncolors p d)) ∧
        c ∈ haloRegion grid_size ncolors nhalo_domain (getIndices ncolors p) r := by
  rw [color_eq S nhalo nhalo_domain thru_dim h hp]
  constructor
  · rintro ⟨b, hb, hc⟩
    obtain ⟨r, hr, rfl⟩ := List.mem_map.mp hb
    obtain ⟨hone, hcut⟩ := of_decide_eq_true (List.mem_filter.mp hr).2
    refine ⟨r, hone, fun d hd => ?_, (mem_haloRegion nhalo thru_dim).mp hc⟩
    have hmiddle := hcut d
    rw [hd] at hmiddle
    exact cut_halo_one.mp hmiddle
  · rintro ⟨r, hone, hwidth, hc⟩
    have hregion := (mem_haloRegion nhalo thru_dim).mpr hc
    refine ⟨_, List.mem_map.mpr ⟨r, List.mem_filter.mpr ⟨hS.mem r, decide_eq_true ⟨hone, fun d => ?_⟩⟩, rfl⟩, hregion⟩
    by_cases hd : r d = 1
    · rw [hd]
      exact cut_halo_one.mpr (hwidth d hd)
    · exact cut_of_mem hregion d hd

theorem haloRegion_unique (h : Decomposes grid_size ncolors) (hp : p < ∏ d, ncolors d) (hq : q < ∏ d, ncolors d)
    (hc : c ∈ haloRegion grid_size ncolors nhalo_domain (getIndices ncolors p) r)
    (hc' : c ∈ haloRegion grid_size ncolors nhalo_domain (getIndices ncolors q) r') : p = q ∧ r = r' := by
  have hpos (d : Fin D) : 1 ≤ ncolors d := (h d).1
  have hdirection (d : Fin D) := haloPiece_unique (getIndices_lt hpos hp d) (getIndices_lt hpos hq d) (hc d) (hc' d)
  exact ⟨getIndices_injective hpos hp hq (funext fun d => (hdirection d).1), funext fun d => (hdirection d).2⟩

theorem haloRegion_frame (h : Decomposes grid_size ncolors) (hp : p < ∏ d, ncolors d)
    (hc : c ∈ haloRegion grid_size ncolors nhalo_domain (getIndices ncolors p) r) :
    c ∈ frame grid_size nhalo_domain ↔ r ≠ fun _ => 1 := by
  have hidx := getIndices_lt (fun d => (h d).1) hp
  have hgrid : c ∈ gridCells grid_size nhalo_domain ↔ r = fun _ => 1 := by
    rw [funext_iff]
    exact (forall_congr' fun d => haloPiece_one_iff (hidx d) (hc d)).symm
  exact (and_iff_right fun d => (haloPiece_side (hidx d) (hc d)).1).trans (not_congr hgrid)

theorem exists_haloRegion (h : Decomposes grid_size ncolors) (hc : c ∈ frame grid_size nhalo_domain) :
    ∃ p < ∏ d, ncolors d, ∃ r, c ∈ haloRegion grid_size ncolors nhalo_domain (getIndices ncolors p) r := by
  choose idx hidx r hr using fun d => exists_haloPiece (h d).1 (h d).2 (hc.1 d)
  obtain ⟨p, hp, rfl⟩ := exists_rank idx hidx
  exact ⟨p, hp, r, hr⟩

-- ---------------------------------------------------------------------------
-- Tiling
-- ---------------------------------------------------------------------------

/-- The domain halos of all ranks are disjoint, and together the frame. -/
structure TilesFrame (S : Stencil D) (grid_size : Fin D → ℕ) (nhalo nhalo_domain thru_dim : ℕ)
    (ncolors : Fin D → ℕ) : Prop where
  disjoint : ((List.range (∏ d, ncolors d)).flatMap fun p =>
    (S.color grid_size nhalo nhalo_domain thru_dim ncolors p).domain_halo).Pairwise fun a b => Disjoint a.cells b.cells
  cover : ∀ c, (∃ p < ∏ d, ncolors d,
    ∃ b ∈ (S.color grid_size nhalo nhalo_domain thru_dim ncolors p).domain_halo, c ∈ b.cells) ↔
      c ∈ frame grid_size nhalo_domain

theorem domain_halo_disjoint (hS : S.Lawful) (h : Decomposes grid_size ncolors) :
    ((List.range (∏ d, ncolors d)).flatMap fun p =>
      (S.color grid_size nhalo nhalo_domain thru_dim ncolors p).domain_halo).Pairwise
        fun a b => Disjoint a.cells b.cells := by
  refine List.pairwise_flatMap.mpr ⟨fun p hp => ?_, List.pairwise_lt_range.imp_of_mem fun hp hq hlt a ha b hb => ?_⟩
  · have hp' := List.mem_range.mp hp
    rw [color_eq S nhalo nhalo_domain thru_dim h hp']
    refine List.pairwise_map.mpr ((hS.nodup.filter _).imp fun hne => Set.disjoint_left.mpr fun c hc hc' => hne ?_)
    exact (haloRegion_unique h hp' hp' ((mem_haloRegion nhalo thru_dim).mp hc)
      ((mem_haloRegion nhalo thru_dim).mp hc')).2
  · have hp' := List.mem_range.mp hp
    have hq' := List.mem_range.mp hq
    refine Set.disjoint_left.mpr fun c hc hc' => hlt.ne ?_
    obtain ⟨r, -, -, hr⟩ := (mem_domain_halo hS h hp').mp ⟨a, ha, hc⟩
    obtain ⟨r', -, -, hr'⟩ := (mem_domain_halo hS h hq').mp ⟨b, hb, hc'⟩
    exact (haloRegion_unique h hp' hq' hr hr').1

/-- Primary boxes of width two or more have their whole part of the frame. -/
theorem frame_covered (hS : S.Lawful) (h : Decomposes grid_size ncolors) (hgrid : ∀ d, 2 * ncolors d ≤ grid_size d)
    (hc : c ∈ frame grid_size nhalo_domain) :
    ∃ p < ∏ d, ncolors d,
      ∃ b ∈ (S.color grid_size nhalo nhalo_domain thru_dim ncolors p).domain_halo, c ∈ b.cells := by
  obtain ⟨p, hp, r, hr⟩ := exists_haloRegion h hc
  refine ⟨p, hp, (mem_domain_halo hS h hp).mpr ⟨r, (haloRegion_frame h hp hr).mp hc, fun d _ => ?_, hr⟩⟩
  exact (slabLower_lt_upper (hgrid d) nhalo_domain (getIndices_lt (fun d => (h d).1) hp d)).ne

/-- Beside a first primary box of width one in direction `i`, the frame lacks cells. -/
theorem narrow_not_covered (hS : S.Lawful) (h : Decomposes grid_size ncolors) (hD : 2 ≤ D) (hdomain : nhalo_domain ≠ 0)
    {i : Fin D} (hi : grid_size i < 2 * ncolors i) :
    ¬TilesFrame S grid_size nhalo nhalo_domain thru_dim ncolors := by
  have hpos (d : Fin D) : 1 ≤ ncolors d := (h d).1
  have hnontrivial : Nontrivial (Fin D) := Fin.nontrivial_iff_two_le.mpr hD
  obtain ⟨e, he⟩ := exists_ne i
  obtain ⟨p, hp, hzero⟩ := exists_rank (fun _ => 0) hpos
  let c : Fin D → ℤ := fun d => if d = e then nhalo_domain - 1 else nhalo_domain
  let r : Fin D → Fin 3 := fun d => if d = e then 0 else 1
  have hregion : c ∈ haloRegion grid_size ncolors nhalo_domain (getIndices ncolors p) r := by
    intro d
    rw [hzero]
    by_cases hd : d = e
    · simp only [c, r, if_pos hd]
      exact mem_haloPiece_zero.mpr ⟨rfl, by omega, by omega⟩
    · simp only [c, r, if_neg hd]
      have hlower := (slabLower_eq_iff (h d).1 (h d).2 nhalo_domain 0).mpr rfl
      have hupper := slabLower_le_upper (h d).1 (h d).2 nhalo_domain (hpos d)
      exact mem_haloPiece_one.mpr ⟨hlower.le, hlower.ge.trans hupper⟩
  have hone : r ≠ fun _ => 1 := fun heq => by simpa [r] using congrFun heq e
  intro htiles
  obtain ⟨q, hq, hhalo⟩ := (htiles.cover c).mpr ((haloRegion_frame h hp hregion).mpr hone)
  obtain ⟨r', -, hwidth, hr'⟩ := (mem_domain_halo hS h hq).mp hhalo
  obtain ⟨rfl, rfl⟩ := haloRegion_unique h hp hq hregion hr'
  have hnarrow := hwidth i (if_neg he.symm)
  rw [hzero] at hnarrow
  exact hnarrow (first_slab_narrow (h i).1 (h i).2 hi nhalo_domain)

theorem Stencil.Lawful.tiles_iff (hS : S.Lawful) (h : Decomposes grid_size ncolors) (hD : 2 ≤ D) :
    TilesFrame S grid_size nhalo nhalo_domain thru_dim ncolors ↔
      nhalo_domain = 0 ∨ ∀ d, 2 * ncolors d ≤ grid_size d := by
  constructor
  · intro htiles
    by_contra hcond
    push Not at hcond
    obtain ⟨hdomain, i, hi⟩ := hcond
    exact narrow_not_covered hS h hD hdomain hi htiles
  · intro hcond
    refine ⟨domain_halo_disjoint hS h, fun c => ⟨?_, fun hc => ?_⟩⟩
    · rintro ⟨p, hp, hc⟩
      obtain ⟨r, hone, -, hr⟩ := (mem_domain_halo hS h hp).mp hc
      exact (haloRegion_frame h hp hr).mpr hone
    · cases hcond with
      | inl hzero =>
        subst hzero
        have hgrid : c ∈ gridCells grid_size 0 := fun d => by
          have := hc.1 d
          omega
        exact absurd hgrid hc.2
      | inr hgrid => exact frame_covered hS h hgrid hc

end

/-- The domain halos tile the frame exactly when there is no frame or no slab of width one. -/
theorem color_tiles_iff (nhalo nhalo_domain thru_dim : ℕ) :
    (∀ grid_size ncolors : Fin 2 → ℕ, Decomposes grid_size ncolors →
      (TilesFrame stencil2 grid_size nhalo nhalo_domain thru_dim ncolors ↔
        nhalo_domain = 0 ∨ ∀ d, 2 * ncolors d ≤ grid_size d)) ∧
    ∀ grid_size ncolors : Fin 3 → ℕ, Decomposes grid_size ncolors →
      (TilesFrame stencil3 grid_size nhalo nhalo_domain thru_dim ncolors ↔
        nhalo_domain = 0 ∨ ∀ d, 2 * ncolors d ≤ grid_size d) :=
  ⟨fun _ _ h => stencil2_lawful.tiles_iff h le_rfl, fun _ _ h => stencil3_lawful.tiles_iff h (by decide)⟩

theorem color_tiles_iff_pairs :
    TilesFrame stencil2 ![4, 2] 1 1 0 ![2, 1] ∧ TilesFrame stencil3 ![4, 2, 2] 1 1 0 ![2, 1, 1] := by
  refine ⟨((color_tiles_iff 1 1 0).1 _ _ ?_).mpr (by decide), ((color_tiles_iff 1 1 0).2 _ _ ?_).mpr (by decide)⟩
  · unfold Decomposes
    decide
  · unfold Decomposes
    decide

/-- A grid of width one in a direction has no halo along it. -/
theorem narrow_grid_not_tiled : Decomposes ![4, 1] ![2, 1] ∧ ¬TilesFrame stencil2 ![4, 1] 1 1 0 ![2, 1] := by
  have h : Decomposes ![4, 1] ![2, 1] := by
    unfold Decomposes
    decide
  exact ⟨h, narrow_not_covered stencil2_lawful h le_rfl one_ne_zero (i := 1) (by decide)⟩

end Flecsi.Coloring
