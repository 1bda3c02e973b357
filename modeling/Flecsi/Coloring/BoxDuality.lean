import Flecsi.Coloring.BoxPartition

/-!
# Ghost and shared boxes

A cell that a rank shares with a neighbor lies within the layers of halo cells on the neighbor's
side. The shared boxes say so of every neighbor; the ghost boxes leave out the neighbors along
directions in which the rank's primary box has width one.
-/

namespace Flecsi.Coloring

open CutIntervals

-- ---------------------------------------------------------------------------
-- Neighbors in a direction
-- ---------------------------------------------------------------------------

section
variable (size nc nhalo nhalo_domain : ℕ)

/-- The cells of slab `i` that slab `j` needs: all of its own, or the layers next to it. -/
def NearSlab (i j : ℕ) (x : ℤ) : Prop :=
  (slabLower size nc nhalo_domain i ≤ x ∧ x ≤ slabUpper size nc nhalo_domain i) ∧
    (j = i ∨ (j + 1 = i ∧ x < slabLower size nc nhalo_domain i + nhalo) ∨
      (j = i + 1 ∧ slabUpper size nc nhalo_domain i - nhalo < x))

def sharedCuts (i : ℕ) : Fin 4 → ℤ :=
  ![slabLower size nc nhalo_domain i,
    slabLower size nc nhalo_domain i + if i = 0 then 0 else (nhalo : ℤ),
    slabUpper size nc nhalo_domain i - if i + 1 = nc then 0 else (nhalo : ℤ),
    slabUpper size nc nhalo_domain i]

def ghostCuts (j : ℕ) : Fin 4 → ℤ :=
  ![slabLower size nc nhalo_domain j - if j = 0 then 0 else (nhalo : ℤ),
    slabLower size nc nhalo_domain j,
    slabUpper size nc nhalo_domain j,
    slabUpper size nc nhalo_domain j + if j + 1 = nc then 0 else (nhalo : ℤ)]

end

section
variable {size nc nhalo nhalo_domain i j : ℕ} {x : ℤ} {k : Fin 3} {a b c d : ℤ}

theorem mem_piece_cons_zero : x ∈ piece ![a, b, c, d] 0 ↔ a ≤ x ∧ x < b := mem_piece_zero
theorem mem_piece_cons_one : x ∈ piece ![a, b, c, d] 1 ↔ b ≤ x ∧ x ≤ c := mem_piece_one
theorem mem_piece_cons_two : x ∈ piece ![a, b, c, d] 2 ↔ c < x ∧ x ≤ d := mem_piece_two

/-- Cells below the exclusive ones are there only next to a slab. -/
theorem lower_interior (hx : x ∈ piece (sharedCuts size nc nhalo nhalo_domain i) 0) :
    i ≠ 0 ∧ x < slabLower size nc nhalo_domain i + nhalo := by
  obtain ⟨hge, hlt⟩ := mem_piece_cons_zero.mp hx
  split at hlt <;> omega

theorem upper_interior (hx : x ∈ piece (sharedCuts size nc nhalo nhalo_domain i) 2) :
    i + 1 ≠ nc ∧ slabUpper size nc nhalo_domain i - nhalo < x := by
  obtain ⟨hlt, hle⟩ := mem_piece_cons_two.mp hx
  split at hlt <;> omega

theorem sharedPiece_inside (hi : i < nc) (hx : x ∈ piece (sharedCuts size nc nhalo nhalo_domain i) k) :
    0 ≤ (i : ℤ) + (k.val - 1) ∧ (i : ℤ) + (k.val - 1) < nc := by
  fin_cases k
  · have := lower_interior hx
    simp
    omega
  · simp
    omega
  · have := upper_interior hx
    simp
    omega

/-- The slab that the cells of a shared piece are needed by. -/
theorem exists_sharedPiece (hi : i < nc) (hj : j < nc)
    (h : Ascending (sharedCuts size nc nhalo nhalo_domain i)) :
    (∃ k : Fin 3, x ∈ piece (sharedCuts size nc nhalo nhalo_domain i) k ∧
      ((j : ℤ) - i = 0 ∨ (j : ℤ) - i = k.val - 1)) ↔ NearSlab size nc nhalo nhalo_domain i j x := by
  constructor
  · rintro ⟨k, hx, hk⟩
    refine ⟨h.bounds hx, ?_⟩
    fin_cases k
    · have := lower_interior hx
      simp at hk
      omega
    · simp at hk
      omega
    · have := upper_interior hx
      simp at hk
      omega
  · rintro ⟨hslab, heq | ⟨hprev, hx⟩ | ⟨hnext, hx⟩⟩
    · obtain ⟨k, hk⟩ := exists_piece (m := sharedCuts size nc nhalo nhalo_domain i) hslab
      exact ⟨k, hk, Or.inl (by omega)⟩
    · refine ⟨0, mem_piece_cons_zero.mpr ⟨hslab.1, ?_⟩, Or.inr ?_⟩
      · rw [if_neg (by omega)]
        exact hx
      · simp
        omega
    · refine ⟨2, mem_piece_cons_two.mpr ⟨?_, hslab.2⟩, Or.inr ?_⟩
      · rw [if_neg (by omega)]
        exact hx
      · simp
        omega

theorem ghostPiece_inside (hj : j < nc) (hx : x ∈ piece (ghostCuts size nc nhalo nhalo_domain j) k) :
    0 ≤ (j : ℤ) + (k.val - 1) ∧ (j : ℤ) + (k.val - 1) < nc := by
  fin_cases k
  · obtain ⟨hge, hlt⟩ := mem_piece_cons_zero.mp hx
    simp
    split at hge <;> omega
  · simp
    omega
  · obtain ⟨hgt, hle⟩ := mem_piece_cons_two.mp hx
    simp
    split at hle <;> omega

/-- The ghost boxes leave out a direction of width one. -/
theorem exists_ghostPiece (hi : i < nc) (hj : j < nc)
    (hwide : slabLower size nc nhalo_domain i + (if i = 0 then 0 else (nhalo : ℤ)) ≤
      slabUpper size nc nhalo_domain i - if i + 1 = nc then 0 else (nhalo : ℤ)) :
    (∃ k : Fin 3, ghostCuts size nc nhalo nhalo_domain j k.castSucc ≠ ghostCuts size nc nhalo nhalo_domain j k.succ ∧
      x ∈ piece (ghostCuts size nc nhalo nhalo_domain j) k ∧ (i : ℤ) - j = k.val - 1) ↔
      NearSlab size nc nhalo nhalo_domain i j x ∧
        (j = i → slabLower size nc nhalo_domain j ≠ slabUpper size nc nhalo_domain j) := by
  constructor
  · rintro ⟨k, hne, hx, hk⟩
    fin_cases k
    · obtain ⟨hge, hlt⟩ := mem_piece_cons_zero.mp hx
      have hnext : j = i + 1 := by
        simp at hk
        omega
      subst hnext
      have hadjacent := slabUpper_succ size nhalo_domain hj
      rw [if_neg (by omega)] at hge
      rw [if_neg (by omega : ¬i + 1 = nc)] at hwide
      refine ⟨⟨⟨?_, by omega⟩, Or.inr (Or.inr ⟨rfl, by omega⟩)⟩, fun h => absurd h (by omega)⟩
      split at hwide <;> omega
    · have hsame : j = i := by
        simp at hk
        omega
      subst hsame
      exact ⟨⟨mem_piece_cons_one.mp hx, Or.inl rfl⟩, fun _ => hne⟩
    · obtain ⟨hgt, hle⟩ := mem_piece_cons_two.mp hx
      have hprev : i = j + 1 := by
        simp at hk
        omega
      subst hprev
      have hadjacent := slabUpper_succ size nhalo_domain hi
      rw [if_neg (by omega)] at hle
      rw [if_neg (by omega : ¬j + 1 = 0)] at hwide
      refine ⟨⟨⟨by omega, ?_⟩, Or.inr (Or.inl ⟨rfl, by omega⟩)⟩, fun h => absurd h (by omega)⟩
      split at hwide <;> omega
  · rintro ⟨⟨hslab, heq | ⟨hprev, hx⟩ | ⟨hnext, hx⟩⟩, hwidth⟩
    · subst heq
      exact ⟨1, hwidth rfl, mem_piece_cons_one.mpr hslab, by simp⟩
    · subst hprev
      have hadjacent := slabUpper_succ size nhalo_domain hi
      have hmem : x ∈ piece (ghostCuts size nc nhalo nhalo_domain j) 2 := by
        refine mem_piece_cons_two.mpr ⟨by omega, ?_⟩
        rw [if_neg (by omega)]
        omega
      exact ⟨2, ne_of_mem hmem (by decide), hmem, by simp⟩
    · subst hnext
      have hadjacent := slabUpper_succ size nhalo_domain hj
      have hmem : x ∈ piece (ghostCuts size nc nhalo nhalo_domain (i + 1)) 0 := by
        refine mem_piece_cons_zero.mpr ⟨?_, by omega⟩
        rw [if_neg (by omega)]
        omega
      exact ⟨0, ne_of_mem hmem (by decide), hmem, by simp⟩

end

-- ---------------------------------------------------------------------------
-- Neighbors
-- ---------------------------------------------------------------------------

section
variable (grid_size ncolors : Fin D → ℕ) (nhalo nhalo_domain thru_dim : ℕ)

/-- The rank with indices `ip` has cell `c`, which the one with indices `iq` needs. -/
def Near (ip iq : Fin D → ℕ) (c : Fin D → ℤ) : Prop :=
  let o : Fin D → ℤ := fun d => (iq d : ℤ) - ip d
  o ≠ 0 ∧ thru_dim + moved o ≤ D ∧ ∀ d, NearSlab (grid_size d) (ncolors d) nhalo nhalo_domain (ip d) (iq d) (c d)

end

theorem moved_neg (o : Fin D → ℤ) : moved (fun d => -o d) = moved o := by
  unfold moved
  simp

theorem linear_eq_rank {ncolors : Fin D → ℕ} (hpos : ∀ d, 1 ≤ ncolors d) {p : ℕ} (hp : p < ∏ d, ncolors d)
    {idx : Fin D → ℤ} (hidx : ∀ d, 0 ≤ idx d ∧ idx d < ncolors d) :
    linear ncolors idx = p ↔ idx = fun d => (getIndices ncolors p d : ℤ) := by
  have hrange (d : Fin D) : 0 ≤ (getIndices ncolors p d : ℤ) ∧ (getIndices ncolors p d : ℤ) < ncolors d :=
    ⟨by positivity, by exact_mod_cast getIndices_lt hpos hp d⟩
  rw [← linear_getIndices hpos hp]
  exact ⟨linear_injective hidx hrange, fun h => by rw [h]⟩

section
variable {S : Stencil D} {grid_size ncolors : Fin D → ℕ} {nhalo nhalo_domain thru_dim p q : ℕ} {c : Fin D → ℤ}

theorem between_exclusive (idx : Fin D → ℕ) (d : Fin D) :
    between (slabInfo grid_size nhalo nhalo_domain thru_dim ncolors idx).box
      (exclusiveBox (slabInfo grid_size nhalo nhalo_domain thru_dim ncolors idx)) d =
      sharedCuts (grid_size d) (ncolors d) nhalo nhalo_domain (idx d) := by
  unfold between intervals
  rw [exclusiveBox_lower, exclusiveBox_upper]
  rfl

theorem mem_sharedRegion {idx : Fin D → ℕ} {r : Fin D → Fin 3} :
    c ∈ region (between (slabInfo grid_size nhalo nhalo_domain thru_dim ncolors idx).box
      (exclusiveBox (slabInfo grid_size nhalo nhalo_domain thru_dim ncolors idx))) r ↔
      ∀ d, c d ∈ piece (sharedCuts (grid_size d) (ncolors d) nhalo nhalo_domain (idx d)) (r d) :=
  forall_congr' fun d => by rw [between_exclusive]

theorem ghostBox_lower (idx : Fin D → ℕ) (d : Fin D) :
    (ghostBox (slabInfo grid_size nhalo nhalo_domain thru_dim ncolors idx)).lowerbnd d =
      slabLower (grid_size d) (ncolors d) nhalo_domain (idx d) - if idx d = 0 then 0 else (nhalo : ℤ) := by
  unfold ghostBox slabInfo
  by_cases hzero : idx d = 0 <;> simp [hzero]

theorem ghostBox_upper (idx : Fin D → ℕ) (d : Fin D) :
    (ghostBox (slabInfo grid_size nhalo nhalo_domain thru_dim ncolors idx)).upperbnd d =
      slabUpper (grid_size d) (ncolors d) nhalo_domain (idx d) + if idx d + 1 = ncolors d then 0 else (nhalo : ℤ) := by
  unfold ghostBox slabInfo
  by_cases hlast : idx d + 1 = ncolors d <;> simp [hlast]

theorem between_ghost (idx : Fin D → ℕ) (d : Fin D) :
    between (ghostBox (slabInfo grid_size nhalo nhalo_domain thru_dim ncolors idx))
      (slabInfo grid_size nhalo nhalo_domain thru_dim ncolors idx).box d =
      ghostCuts (grid_size d) (ncolors d) nhalo nhalo_domain (idx d) := by
  unfold between intervals
  rw [ghostBox_lower, ghostBox_upper]
  rfl

theorem cut_ghost {idx : Fin D → ℕ} {d : Fin D} {k : Fin 3} :
    cut (between (ghostBox (slabInfo grid_size nhalo nhalo_domain thru_dim ncolors idx))
      (slabInfo grid_size nhalo nhalo_domain thru_dim ncolors idx).box) d k = true ↔
      ghostCuts (grid_size d) (ncolors d) nhalo nhalo_domain (idx d) k.castSucc ≠
        ghostCuts (grid_size d) (ncolors d) nhalo nhalo_domain (idx d) k.succ := by
  unfold cut
  rw [between_ghost]
  exact decide_eq_true_iff

theorem mem_ghostRegion {idx : Fin D → ℕ} {r : Fin D → Fin 3} :
    c ∈ region (between (ghostBox (slabInfo grid_size nhalo nhalo_domain thru_dim ncolors idx))
      (slabInfo grid_size nhalo nhalo_domain thru_dim ncolors idx).box) r ↔
      ∀ d, c d ∈ piece (ghostCuts (grid_size d) (ncolors d) nhalo nhalo_domain (idx d)) (r d) :=
  forall_congr' fun d => by rw [between_ghost]

/-- The shared boxes hold what the neighbors need. -/
theorem shared_iff_near (hS : S.Lawful) (h : Decomposes grid_size ncolors) (hTD : thru_dim < D)
    (hwide : Wide S grid_size nhalo nhalo_domain thru_dim ncolors) (hp : p < ∏ d, ncolors d)
    (hq : q < ∏ d, ncolors d) :
    (∃ b ∈ (S.color grid_size nhalo nhalo_domain thru_dim ncolors p).shared, (q : ℤ) ∈ b.colors ∧ c ∈ b.box.cells) ↔
      Near grid_size ncolors nhalo nhalo_domain thru_dim (getIndices ncolors p) (getIndices ncolors q) c := by
  have hpos (d : Fin D) : 1 ≤ ncolors d := (h d).1
  have hidx := getIndices_lt hpos hp
  have hidx' := getIndices_lt hpos hq
  have hascending (d : Fin D) := ascending_exclusive h hwide hp d
  dsimp only at hascending
  simp only [between_exclusive] at hascending
  have hdirection (d : Fin D) := exists_sharedPiece (x := c d) (hidx d) (hidx' d) (hascending d)
  rw [color_eq S nhalo nhalo_domain thru_dim h hp]
  constructor
  · rintro ⟨b, hb, hcolor, hc⟩
    obtain ⟨r, -, rfl⟩ := (mem_createSharedBoxes hS).mp hb
    have hpiece := mem_sharedRegion.mp hc
    obtain ⟨o, ho, heq⟩ := List.mem_map.mp hcolor
    obtain ⟨htoward, hmoved⟩ := (hS.offsets thru_dim hTD r o).mp ho
    have hinside (d : Fin D) : 0 ≤ getIndices ncolors p d + o d ∧ getIndices ncolors p d + o d < ncolors d := by
      cases htoward.2 d with
      | inl hzero =>
        have := hidx d
        omega
      | inr htoward =>
        rw [htoward]
        exact sharedPiece_inside (hidx d) (hpiece d)
    rw [hS.cval, linear_eq_rank hpos hq hinside] at heq
    have ho : o = fun d => (getIndices ncolors q d : ℤ) - getIndices ncolors p d :=
      funext fun d => by have := congrFun heq d; omega
    subst ho
    exact ⟨htoward.1, hmoved, fun d => (hdirection d).mp ⟨r d, hpiece d, htoward.2 d⟩⟩
  · rintro ⟨hne, hmoved, hnear⟩
    choose r hpiece hr using fun d => (hdirection d).mpr (hnear d)
    have hone : r ≠ fun _ => 1 := by
      rintro rfl
      exact hne (funext fun d => by simpa using hr d)
    have hoffset := (hS.offsets thru_dim hTD r _).mpr ⟨⟨hne, hr⟩, hmoved⟩
    refine ⟨_, region_shared hS hone (mem_sharedRegion.mpr hpiece), List.mem_map.mpr ⟨_, hoffset, ?_⟩,
      mem_sharedRegion.mpr hpiece⟩
    rw [hS.cval, ← linear_getIndices hpos hq]
    congr 1
    funext d
    omega

theorem mem_createGhostBoxes (hS : S.Lawful) {primary : BoxInfo D} {idx : Fin D → ℕ} {b : BoxColor D} :
    b ∈ createGhostBoxes S primary ncolors idx ↔
      ∃ r, ((r ≠ (fun _ => 1) ∧ ∀ d, cut (between (ghostBox primary) primary.box) d (r d) = true) ∧
          primary.thru_dim + moved (offset r) ≤ D) ∧
        b = ⟨regionBox (between (ghostBox primary) primary.box) r,
          [linear ncolors fun d => idx d + offset r d]⟩ := by
  have hrank (r : Fin D → Fin 3) : (primary.thru_dim : ℤ) ≤ D - moved (offset r) ↔ primary.thru_dim + moved (offset r) ≤ D := by
    omega
  unfold createGhostBoxes outerRegions
  simp only [List.mem_map, List.mem_filter, hS.mem, true_and, decide_eq_true_eq, hS.rankmap, hS.cval, hrank]
  constructor
  · rintro ⟨r, hr, rfl⟩
    exact ⟨r, hr, rfl⟩
  · rintro ⟨r, hr, rfl⟩
    exact ⟨r, hr, rfl⟩

/-- The ghost boxes hold what a rank needs of its neighbors, except along directions of width one. -/
theorem ghost_iff_near (hS : S.Lawful) (h : Decomposes grid_size ncolors)
    (hwide : Wide S grid_size nhalo nhalo_domain thru_dim ncolors) (hp : p < ∏ d, ncolors d)
    (hq : q < ∏ d, ncolors d) :
    (∃ b ∈ (S.color grid_size nhalo nhalo_domain thru_dim ncolors q).ghost, (p : ℤ) ∈ b.colors ∧ c ∈ b.box.cells) ↔
      Near grid_size ncolors nhalo nhalo_domain thru_dim (getIndices ncolors p) (getIndices ncolors q) c ∧
        ∀ d, getIndices ncolors q d = getIndices ncolors p d →
          slabLower (grid_size d) (ncolors d) nhalo_domain (getIndices ncolors q d) ≠
            slabUpper (grid_size d) (ncolors d) nhalo_domain (getIndices ncolors q d) := by
  have hpos (d : Fin D) : 1 ≤ ncolors d := (h d).1
  have hidx := getIndices_lt hpos hp
  have hidx' := getIndices_lt hpos hq
  have hdirection (d : Fin D) := exists_ghostPiece (x := c d) (hidx d) (hidx' d) (hwide.exclusive h hp d)
  rw [color_eq S nhalo nhalo_domain thru_dim h hq]
  constructor
  · rintro ⟨b, hb, hcolor, hc⟩
    obtain ⟨r, ⟨⟨hone, hcut⟩, hmoved⟩, rfl⟩ := (mem_createGhostBoxes hS).mp hb
    have hpiece := mem_ghostRegion.mp hc
    have hrank := (linear_eq_rank hpos hp fun d => ghostPiece_inside (hidx' d) (hpiece d)).mp
      (List.mem_singleton.mp hcolor).symm
    have hr (d : Fin D) : (getIndices ncolors p d : ℤ) - getIndices ncolors q d = (r d).val - 1 := by
      have : (getIndices ncolors q d : ℤ) + ((r d).val - 1) = getIndices ncolors p d := congrFun hrank d
      omega
    have ho : (fun d => (getIndices ncolors q d : ℤ) - getIndices ncolors p d) = fun d => -offset r d := by
      funext d
      have := hr d
      unfold offset
      omega
    have hall (d : Fin D) := (hdirection d).mp ⟨r d, cut_ghost.mp (hcut d), hpiece d, hr d⟩
    refine ⟨⟨?_, ?_, fun d => (hall d).1⟩, fun d => (hall d).2⟩
    · intro hzero
      refine hone (funext fun d => ?_)
      have hd : (getIndices ncolors q d : ℤ) - getIndices ncolors p d = 0 := congrFun hzero d
      have := hr d
      omega
    · rw [ho, moved_neg]
      exact hmoved
  · rintro ⟨⟨hne, hmoved, hnear⟩, hwidth⟩
    choose r hcut hpiece hr using fun d => (hdirection d).mpr ⟨hnear d, hwidth d⟩
    have ho : offset r = fun d => -((getIndices ncolors q d : ℤ) - getIndices ncolors p d) := by
      funext d
      have := hr d
      unfold offset
      omega
    have hone : r ≠ fun _ => 1 := by
      rintro rfl
      refine hne (funext fun d => ?_)
      have : (getIndices ncolors p d : ℤ) - getIndices ncolors q d = 0 := by simpa using hr d
      simp only [Pi.zero_apply]
      omega
    refine ⟨_, (mem_createGhostBoxes hS).mpr ⟨r, ⟨⟨hone, fun d => cut_ghost.mpr (hcut d)⟩, ?_⟩, rfl⟩,
      List.mem_singleton.mpr ?_, mem_ghostRegion.mpr hpiece⟩
    · rw [ho, moved_neg]
      exact hmoved
    · rw [ho, ← linear_getIndices hpos hp]
      congr 1
      funext d
      dsimp only
      omega

theorem ghost_disjoint (hS : S.Lawful) (h : Decomposes grid_size ncolors) (hq : q < ∏ d, ncolors d) :
    (S.color grid_size nhalo nhalo_domain thru_dim ncolors q).ghost.Pairwise
      fun a b => Disjoint a.box.cells b.box.cells := by
  have hidx := getIndices_lt (fun d => (h d).1) hq
  rw [color_eq S nhalo nhalo_domain thru_dim h hq]
  refine List.pairwise_map.mpr (((hS.nodup.filter _).filter _).imp fun hne => disjoint_region (fun d => ?_) hne)
  rw [between_ghost]
  have hslab := slabLower_le_upper (h d).1 (h d).2 nhalo_domain (hidx d)
  refine ⟨sub_le_self _ (by positivity), hslab, le_add_of_nonneg_right (by positivity)⟩

theorem Wide.decomposes (hwide : Wide S grid_size nhalo nhalo_domain thru_dim ncolors) (hpos : ∀ d, 1 ≤ ncolors d) :
    Decomposes grid_size ncolors := by
  intro d
  refine ⟨hpos d, ?_⟩
  obtain ⟨p, hp, hzero⟩ := exists_rank (fun _ => 0) hpos
  have hsides := hwide p hp d
  have hbox : (S.color grid_size nhalo nhalo_domain thru_dim ncolors p).primary.box =
      (slabInfo grid_size nhalo nhalo_domain thru_dim ncolors fun _ => 0).box := by
    rw [← hzero]
    exact createPrimaryBox_eq nhalo nhalo_domain thru_dim _ (getIndices_lt hpos hp)
  rw [hbox] at hsides
  change _ < slabUpper (grid_size d) (ncolors d) nhalo_domain 0 -
    slabLower (grid_size d) (ncolors d) nhalo_domain 0 + 1 at hsides
  by_contra hlt
  -- The first box of too few cells ends before it starts.
  have hempty : grid_size d / ncolors d = 0 := Nat.div_eq_of_lt (by omega)
  unfold slabUpper slabLower at hsides
  rw [hempty] at hsides
  split at hsides <;> omega

-- ---------------------------------------------------------------------------
-- Duality
-- ---------------------------------------------------------------------------

/-- A cell lies in a ghost box of `q` from `p` just when it lies in a box that `p` shares with
`q`, and in one ghost box of a rank at most. -/
structure DualBoxes (S : Stencil D) (grid_size : Fin D → ℕ) (nhalo nhalo_domain thru_dim : ℕ)
    (ncolors : Fin D → ℕ) : Prop where
  ghost_iff_shared : ∀ p < ∏ d, ncolors d, ∀ q < ∏ d, ncolors d, ∀ c ∈ gridCells grid_size nhalo_domain,
    (∃ b ∈ (S.color grid_size nhalo nhalo_domain thru_dim ncolors q).ghost, (p : ℤ) ∈ b.colors ∧ c ∈ b.box.cells) ↔
    ∃ b ∈ (S.color grid_size nhalo nhalo_domain thru_dim ncolors p).shared, (q : ℤ) ∈ b.colors ∧ c ∈ b.box.cells
  ghost_disjoint : ∀ q < ∏ d, ncolors d,
    (S.color grid_size nhalo nhalo_domain thru_dim ncolors q).ghost.Pairwise
      fun a b => Disjoint a.box.cells b.box.cells

/-- No cell is near along a direction of width one, unless the grid has width one. -/
theorem Near.width (h : Decomposes grid_size ncolors)
    (hwide : Wide S grid_size nhalo nhalo_domain thru_dim ncolors) (hq : q < ∏ d, ncolors d)
    (hcond : nhalo = 0 ∨ (∀ d, ncolors d = 1) ∨ ∀ d, 1 < grid_size d)
    (hp : p < ∏ d, ncolors d)
    (hnear : Near grid_size ncolors nhalo nhalo_domain thru_dim (getIndices ncolors p) (getIndices ncolors q) c)
    (d : Fin D) :
    slabLower (grid_size d) (ncolors d) nhalo_domain (getIndices ncolors q d) ≠
      slabUpper (grid_size d) (ncolors d) nhalo_domain (getIndices ncolors q d) := by
  have hpos (d : Fin D) : 1 ≤ ncolors d := (h d).1
  obtain ⟨hne, -, hslab⟩ := hnear
  obtain ⟨e, he⟩ := Function.ne_iff.mp hne
  rw [Pi.zero_apply] at he
  intro hone
  by_cases hnhalo : nhalo = 0
  · obtain ⟨hcell, hside⟩ := hslab e
    omega
  · obtain hsingle | hgrid := hcond.resolve_left hnhalo
    · have := getIndices_lt hpos hp e
      have := getIndices_lt hpos hq e
      have := hsingle e
      omega
    · -- Only the whole grid can be that narrow and still wide enough.
      have hmiddle := hwide.exclusive h hq d
      dsimp only at hmiddle
      rw [hone] at hmiddle
      have hboth : getIndices ncolors q d = 0 ∧ getIndices ncolors q d + 1 = ncolors d := by
        split at hmiddle <;> split at hmiddle <;> omega
      have hlower := (slabLower_eq_iff (h d).1 (h d).2 nhalo_domain _).mpr hboth.1
      have hupper := (slabUpper_eq_iff (h d).1 (h d).2 nhalo_domain (getIndices_lt hpos hq d)).mpr hboth.2
      have := hgrid d
      omega

/-- Next to a side in direction `i`, the ghost boxes miss the cells along a narrow direction `e`. -/
theorem narrow_not_dual (hS : S.Lawful) (h : Decomposes grid_size ncolors) (hTD : thru_dim < D)
    (hwide : Wide S grid_size nhalo nhalo_domain thru_dim ncolors) (hnhalo : nhalo ≠ 0) {i e : Fin D}
    (hi : ncolors i ≠ 1) (he : grid_size e ≤ 1) :
    ¬DualBoxes S grid_size nhalo nhalo_domain thru_dim ncolors := by
  have hpos (d : Fin D) : 1 ≤ ncolors d := (h d).1
  have hie : e ≠ i := by
    rintro rfl
    have := h e
    omega
  let step : Fin D → ℕ := fun d => if d = i then 1 else 0
  have hstep (d : Fin D) : step d < ncolors d := by
    have := hpos d
    by_cases hd : d = i
    · subst hd
      simp only [step, if_true]
      omega
    · simp only [step, if_neg hd]
      omega
  obtain ⟨p, hp, hzero⟩ := exists_rank (fun _ => 0) hpos
  obtain ⟨q, hq, hone⟩ := exists_rank step hstep
  have hdirection (d : Fin D) : ∃ x, NearSlab (grid_size d) (ncolors d) nhalo nhalo_domain 0 (step d) x := by
    have hle := slabLower_le_upper (h d).1 (h d).2 nhalo_domain (hpos d)
    refine ⟨slabUpper (grid_size d) (ncolors d) nhalo_domain 0, ⟨hle, le_rfl⟩, ?_⟩
    by_cases hd : d = i
    · exact Or.inr (Or.inr ⟨if_pos hd, by omega⟩)
    · exact Or.inl (if_neg hd)
  choose c hc using hdirection
  have hnear : Near grid_size ncolors nhalo nhalo_domain thru_dim (getIndices ncolors p) (getIndices ncolors q) c := by
    rw [hzero, hone]
    refine ⟨Function.ne_iff.mpr ⟨i, by simp [step]⟩, ?_, hc⟩
    have hmoved : moved (fun d => (step d : ℤ) - (0 : ℕ)) = 1 := by
      simp [moved, step, Finset.filter_eq']
    rw [hmoved]
    exact hTD
  have hgrid : c ∈ gridCells grid_size nhalo_domain := fun d => by
    have := slab_subset (grid_size d) nhalo_domain (hpos d)
    have := (hc d).1
    omega
  intro hdual
  have hghost := (hdual.ghost_iff_shared p hp q hq c hgrid).mpr ((shared_iff_near hS h hTD hwide hp hq).mpr hnear)
  have hwidth := ((ghost_iff_near hS h hwide hp hq).mp hghost).2 e
  rw [hzero, hone] at hwidth
  simp only [step, if_neg hie] at hwidth
  have hlower := (slabLower_eq_iff (h e).1 (h e).2 nhalo_domain 0).mpr rfl
  have hupper := (slabUpper_eq_iff (h e).1 (h e).2 nhalo_domain (hpos e)).mpr (by have := h e; omega)
  have := h e
  exact hwidth trivial (by omega)

theorem Stencil.Lawful.dual_iff (hS : S.Lawful) (hTD : thru_dim < D) (hpos : ∀ d, 1 ≤ ncolors d)
    (hwide : Wide S grid_size nhalo nhalo_domain thru_dim ncolors) :
    DualBoxes S grid_size nhalo nhalo_domain thru_dim ncolors ↔
      nhalo = 0 ∨ (∀ d, ncolors d = 1) ∨ ∀ d, 1 < grid_size d := by
  have h := hwide.decomposes hpos
  constructor
  · intro hdual
    by_contra hcond
    push Not at hcond
    obtain ⟨hnhalo, ⟨i, hi⟩, ⟨e, he⟩⟩ := hcond
    exact narrow_not_dual hS h hTD hwide hnhalo hi he hdual
  · intro hcond
    refine ⟨fun p hp q hq c _ => ?_, fun q hq => ghost_disjoint hS h hq⟩
    rw [ghost_iff_near hS h hwide hp hq, shared_iff_near hS h hTD hwide hp hq]
    exact and_iff_left_of_imp fun hnear d _ => hnear.width h hwide hq hcond hp d

end

/-- Ghost and shared boxes agree exactly when no rank has halo cells to exchange or no direction of
the grid has width one. -/
theorem color_dual_iff (nhalo nhalo_domain thru_dim : ℕ) :
    (∀ grid_size ncolors : Fin 2 → ℕ, thru_dim < 2 → (∀ d, 1 ≤ ncolors d) →
      Wide stencil2 grid_size nhalo nhalo_domain thru_dim ncolors →
      (DualBoxes stencil2 grid_size nhalo nhalo_domain thru_dim ncolors ↔
        nhalo = 0 ∨ (∀ d, ncolors d = 1) ∨ ∀ d, 1 < grid_size d)) ∧
    ∀ grid_size ncolors : Fin 3 → ℕ, thru_dim < 3 → (∀ d, 1 ≤ ncolors d) →
      Wide stencil3 grid_size nhalo nhalo_domain thru_dim ncolors →
      (DualBoxes stencil3 grid_size nhalo nhalo_domain thru_dim ncolors ↔
        nhalo = 0 ∨ (∀ d, ncolors d = 1) ∨ ∀ d, 1 < grid_size d) :=
  ⟨fun _ _ hTD hpos hwide => stencil2_lawful.dual_iff hTD hpos hwide,
    fun _ _ hTD hpos hwide => stencil3_lawful.dual_iff hTD hpos hwide⟩

theorem color_dual_iff_halves :
    DualBoxes stencil2 ![4, 2] 1 0 0 ![2, 1] ∧ DualBoxes stencil3 ![4, 2, 2] 1 0 1 ![2, 1, 1] := by
  refine ⟨((color_dual_iff 1 0 0).1 _ _ (by decide) (by decide) ?_).mpr (by decide),
    ((color_dual_iff 1 0 1).2 _ _ (by decide) (by decide) ?_).mpr (by decide)⟩
  · unfold Wide
    decide
  · unfold Wide
    decide

/-- Two ranks along a grid of width one share cells that neither has as ghosts. -/
theorem narrow_grid_not_dual :
    Wide stencil2 ![4, 1] 1 0 0 ![2, 1] ∧ ¬DualBoxes stencil2 ![4, 1] 1 0 0 ![2, 1] := by
  have hwide : Wide stencil2 ![4, 1] 1 0 0 ![2, 1] := by
    unfold Wide
    decide
  refine ⟨hwide, narrow_not_dual stencil2_lawful (hwide.decomposes (by decide)) (by decide) hwide (by decide)
    (i := 0) (e := 1) (by decide) (by decide)⟩

end Flecsi.Coloring
