import Flecsi.Coloring.BoxSlabs

/-!
# Exclusive and shared boxes

The primary boxes partition the grid, and the exclusive and shared boxes of a rank its primary
box.
-/

namespace Flecsi.Coloring

open CutIntervals

-- ---------------------------------------------------------------------------
-- Regions around an inner box
-- ---------------------------------------------------------------------------

section
variable {outer inner : Box D} {IM : Fin D → Fin 4 → ℤ} {r : Fin D → Fin 3} {c : Fin D → ℤ}

theorem cells_regionBox : (regionBox IM r).cells = region IM r := rfl

theorem cells_inner : inner.cells = region (between outer inner) fun _ => 1 := by
  ext c
  exact forall_congr' fun d => (mem_piece_one (m := between outer inner d)).symm

theorem mem_outer : c ∈ outer.cells ↔ ∀ d, between outer inner d 0 ≤ c d ∧ c d ≤ between outer inner d 3 := Iff.rfl

theorem region_subset_outer (h : ∀ d, Ascending (between outer inner d)) (hc : c ∈ region (between outer inner) r) :
    c ∈ outer.cells := fun d => (h d).bounds (hc d)

/-- The outer pieces of a region with a cell are not empty. -/
theorem cut_of_mem (hc : c ∈ region IM r) (d : Fin D) (hd : r d ≠ 1) : cut IM d (r d) = true :=
  decide_eq_true (ne_of_mem (hc d) hd)

end

-- ---------------------------------------------------------------------------
-- Interior sides
-- ---------------------------------------------------------------------------

def gridCells (grid_size : Fin D → ℕ) (nhalo_domain : ℕ) : Set (Fin D → ℤ) :=
  {c | ∀ d, nhalo_domain ≤ c d ∧ c d < nhalo_domain + grid_size d}

/-- The lower side of the box is not a side of the grid. -/
def interiorLower (nhalo_domain : ℕ) (b : Box D) (d : Fin D) : Prop := nhalo_domain < b.lowerbnd d

def interiorUpper (grid_size : Fin D → ℕ) (nhalo_domain : ℕ) (b : Box D) (d : Fin D) : Prop :=
  b.upperbnd d + 1 < nhalo_domain + grid_size d

instance : Decidable (interiorLower nhalo_domain b d) := by unfold interiorLower; infer_instance
instance : Decidable (interiorUpper grid_size nhalo_domain b d) := by unfold interiorUpper; infer_instance

def interiorSides (grid_size : Fin D → ℕ) (nhalo_domain : ℕ) (b : Box D) (d : Fin D) : ℕ :=
  (if interiorLower nhalo_domain b d then 1 else 0) + if interiorUpper grid_size nhalo_domain b d then 1 else 0

/-- The primary boxes are wider than the layers at their interior sides. -/
def Wide (S : Stencil D) (grid_size : Fin D → ℕ) (nhalo nhalo_domain thru_dim : ℕ) (ncolors : Fin D → ℕ) : Prop :=
  ∀ p < ∏ d, ncolors d, ∀ d,
    let b := (S.color grid_size nhalo nhalo_domain thru_dim ncolors p).primary.box
    ((interiorSides grid_size nhalo_domain b d * nhalo : ℕ) : ℤ) < b.upperbnd d - b.lowerbnd d + 1

section
variable {S : Stencil D} {grid_size ncolors idx : Fin D → ℕ} {nhalo nhalo_domain thru_dim p q : ℕ}

theorem interiorLower_slab (h : Decomposes grid_size ncolors) (hidx : ∀ d, idx d < ncolors d) (d : Fin D) :
    interiorLower nhalo_domain (slabInfo grid_size nhalo nhalo_domain thru_dim ncolors idx).box d ↔ idx d ≠ 0 := by
  have heq := slabLower_eq_iff (h d).1 (h d).2 nhalo_domain (idx d)
  have hle := (slab_subset (grid_size d) nhalo_domain (hidx d)).1
  rw [Ne, ← heq]
  exact ⟨fun hlt => hlt.ne', fun hne => lt_of_le_of_ne hle (Ne.symm hne)⟩

theorem interiorUpper_slab (h : Decomposes grid_size ncolors) (hidx : ∀ d, idx d < ncolors d) (d : Fin D) :
    interiorUpper grid_size nhalo_domain (slabInfo grid_size nhalo nhalo_domain thru_dim ncolors idx).box d ↔
      idx d + 1 ≠ ncolors d := by
  have heq := slabUpper_eq_iff (h d).1 (h d).2 nhalo_domain (hidx d)
  have hlt := (slab_subset (grid_size d) nhalo_domain (hidx d)).2
  have hside : interiorUpper grid_size nhalo_domain (slabInfo grid_size nhalo nhalo_domain thru_dim ncolors idx).box d ↔
      slabUpper (grid_size d) (ncolors d) nhalo_domain (idx d) + 1 < nhalo_domain + grid_size d := Iff.rfl
  rw [hside, Ne, ← heq]
  omega

theorem interiorSides_slab (h : Decomposes grid_size ncolors) (hidx : ∀ d, idx d < ncolors d) (d : Fin D) :
    interiorSides grid_size nhalo_domain (slabInfo grid_size nhalo nhalo_domain thru_dim ncolors idx).box d =
      (if idx d = 0 then 0 else 1) + if idx d + 1 = ncolors d then 0 else 1 := by
  unfold interiorSides
  simp only [interiorLower_slab h hidx, interiorUpper_slab h hidx, ite_not]

theorem exclusiveBox_lower (d : Fin D) :
    (exclusiveBox (slabInfo grid_size nhalo nhalo_domain thru_dim ncolors idx)).lowerbnd d =
      slabLower (grid_size d) (ncolors d) nhalo_domain (idx d) + if idx d = 0 then 0 else (nhalo : ℤ) := by
  unfold exclusiveBox slabInfo
  by_cases hzero : idx d = 0 <;> simp [hzero]

theorem exclusiveBox_upper (d : Fin D) :
    (exclusiveBox (slabInfo grid_size nhalo nhalo_domain thru_dim ncolors idx)).upperbnd d =
      slabUpper (grid_size d) (ncolors d) nhalo_domain (idx d) - if idx d + 1 = ncolors d then 0 else (nhalo : ℤ) := by
  unfold exclusiveBox slabInfo
  by_cases hlast : idx d + 1 = ncolors d <;> simp [hlast]

/-- A wide primary box has cells between the layers at its sides. -/
theorem Wide.exclusive (h : Decomposes grid_size ncolors)
    (hwide : Wide S grid_size nhalo nhalo_domain thru_dim ncolors) (hp : p < ∏ d, ncolors d) (d : Fin D) :
    let idx := getIndices ncolors p
    slabLower (grid_size d) (ncolors d) nhalo_domain (idx d) + (if idx d = 0 then 0 else (nhalo : ℤ)) ≤
      slabUpper (grid_size d) (ncolors d) nhalo_domain (idx d) - if idx d + 1 = ncolors d then 0 else (nhalo : ℤ) := by
  intro idx
  have hidx := getIndices_lt (fun d => (h d).1) hp
  have hsides := hwide p hp d
  rw [color_primary S nhalo nhalo_domain thru_dim h hp] at hsides
  dsimp only at hsides
  rw [interiorSides_slab h hidx, add_mul, ite_mul, ite_mul, zero_mul, one_mul] at hsides
  change _ < slabUpper (grid_size d) (ncolors d) nhalo_domain (idx d) -
    slabLower (grid_size d) (ncolors d) nhalo_domain (idx d) + 1 at hsides
  push_cast at hsides
  linarith

theorem ascending_exclusive (h : Decomposes grid_size ncolors)
    (hwide : Wide S grid_size nhalo nhalo_domain thru_dim ncolors) (hp : p < ∏ d, ncolors d) (d : Fin D) :
    let primary := slabInfo grid_size nhalo nhalo_domain thru_dim ncolors (getIndices ncolors p)
    Ascending (between primary.box (exclusiveBox primary) d) := by
  intro primary
  have hmiddle : (exclusiveBox primary).lowerbnd d ≤ (exclusiveBox primary).upperbnd d := by
    rw [exclusiveBox_lower, exclusiveBox_upper]
    exact hwide.exclusive h hp d
  have hlower : primary.box.lowerbnd d ≤ (exclusiveBox primary).lowerbnd d := by
    rw [exclusiveBox_lower]
    exact le_add_of_nonneg_right (by positivity)
  have hupper : (exclusiveBox primary).upperbnd d ≤ primary.box.upperbnd d := by
    rw [exclusiveBox_upper]
    exact sub_le_self _ (by positivity)
  exact ⟨hlower, hmiddle, hupper⟩

end

-- ---------------------------------------------------------------------------
-- Shared boxes
-- ---------------------------------------------------------------------------

section
variable {S : Stencil D} {primary : BoxInfo D} {ncolors idx : Fin D → ℕ} {c : Fin D → ℤ}

theorem mem_createSharedBoxes (hS : S.Lawful) {b : BoxColor D} :
    b ∈ createSharedBoxes S primary ncolors idx ↔
      ∃ r, (r ≠ (fun _ => 1) ∧ ∀ d, r d = 1 ∨ cut (between primary.box (exclusiveBox primary)) d (r d) = true) ∧
        b = ⟨regionBox (between primary.box (exclusiveBox primary)) r,
          (S.sharedOffsets primary.thru_dim r).map fun o => S.cval ncolors fun d => idx d + o d⟩ := by
  unfold createSharedBoxes
  simp only [List.mem_map, List.mem_filter, hS.mem, true_and, hS.flag]
  constructor
  · rintro ⟨r, hr, rfl⟩
    exact ⟨r, hr, rfl⟩
  · rintro ⟨r, hr, rfl⟩
    exact ⟨r, hr, rfl⟩

/-- A region with a cell outside the exclusive box is shared. -/
theorem region_shared (hS : S.Lawful) {r : Fin D → Fin 3} (hr : r ≠ fun _ => 1)
    (hc : c ∈ region (between primary.box (exclusiveBox primary)) r) :
    ⟨regionBox (between primary.box (exclusiveBox primary)) r,
      (S.sharedOffsets primary.thru_dim r).map fun o => S.cval ncolors fun d => idx d + o d⟩ ∈
      createSharedBoxes S primary ncolors idx :=
  (mem_createSharedBoxes hS).mpr ⟨r, ⟨hr, fun d => or_iff_not_imp_left.mpr (cut_of_mem hc d)⟩, rfl⟩

/-- The exclusive box and the shared boxes are the regions of the primary box. -/
theorem mem_exclusive_or_shared (hS : S.Lawful) (colors : List ℤ)
    (h : ∀ d, Ascending (between primary.box (exclusiveBox primary) d)) :
    c ∈ primary.box.cells ↔
      ∃ b ∈ ⟨exclusiveBox primary, colors⟩ :: createSharedBoxes S primary ncolors idx, c ∈ b.box.cells := by
  constructor
  · intro hc
    obtain ⟨r, hr⟩ := exists_region (mem_outer.mp hc)
    by_cases hone : r = fun _ => 1
    · subst hone
      refine ⟨_, List.mem_cons_self, ?_⟩
      rw [cells_inner]
      exact hr
    · exact ⟨_, List.mem_cons_of_mem _ (region_shared hS hone hr), hr⟩
  · rintro ⟨b, hb, hc⟩
    cases List.mem_cons.mp hb with
    | inl heq =>
      subst heq
      rw [cells_inner] at hc
      exact region_subset_outer h hc
    | inr hshared =>
      obtain ⟨r, -, rfl⟩ := (mem_createSharedBoxes hS).mp hshared
      exact region_subset_outer h hc

theorem exclusive_shared_disjoint (hS : S.Lawful) (colors : List ℤ)
    (h : ∀ d, Ascending (between primary.box (exclusiveBox primary) d)) :
    (⟨exclusiveBox primary, colors⟩ :: createSharedBoxes S primary ncolors idx).Pairwise
      fun a b => Disjoint a.box.cells b.box.cells := by
  refine List.pairwise_cons.mpr ⟨fun b hb => ?_, ?_⟩
  · obtain ⟨r, ⟨hr, -⟩, rfl⟩ := (mem_createSharedBoxes hS).mp hb
    rw [cells_inner]
    exact disjoint_region h (Ne.symm hr)
  · refine List.pairwise_map.mpr ((hS.nodup.filter _).imp fun hne => ?_)
    exact disjoint_region h hne

end

-- ---------------------------------------------------------------------------
-- Partition
-- ---------------------------------------------------------------------------

/-- The primary boxes partition the grid, and each rank's exclusive and shared boxes its primary
box; the exclusive cells are those past the layers at the interior sides. -/
structure Partitions (S : Stencil D) (grid_size : Fin D → ℕ) (nhalo nhalo_domain thru_dim : ℕ)
    (ncolors : Fin D → ℕ) : Prop where
  primary_disjoint : ∀ p < ∏ d, ncolors d, ∀ q < ∏ d, ncolors d, p ≠ q →
    Disjoint (S.color grid_size nhalo nhalo_domain thru_dim ncolors p).primary.box.cells
      (S.color grid_size nhalo nhalo_domain thru_dim ncolors q).primary.box.cells
  primary_cover : ∀ c, c ∈ gridCells grid_size nhalo_domain ↔
    ∃ p < ∏ d, ncolors d, c ∈ (S.color grid_size nhalo nhalo_domain thru_dim ncolors p).primary.box.cells
  rank_disjoint : ∀ p < ∏ d, ncolors d,
    let info := S.color grid_size nhalo nhalo_domain thru_dim ncolors p
    (info.exclusive :: info.shared).Pairwise fun a b => Disjoint a.box.cells b.box.cells
  rank_cover : ∀ p < ∏ d, ncolors d, ∀ c,
    let info := S.color grid_size nhalo nhalo_domain thru_dim ncolors p
    c ∈ info.primary.box.cells ↔ ∃ b ∈ info.exclusive :: info.shared, c ∈ b.box.cells
  exclusive : ∀ p < ∏ d, ncolors d, ∀ c,
    let info := S.color grid_size nhalo nhalo_domain thru_dim ncolors p
    let primary := info.primary.box
    c ∈ info.exclusive.box.cells ↔ c ∈ primary.cells ∧ ∀ d,
      (interiorLower nhalo_domain primary d → nhalo < c d - (primary.lowerbnd d - 1)) ∧
      (interiorUpper grid_size nhalo_domain primary d → nhalo < primary.upperbnd d + 1 - c d)

section
variable {S : Stencil D} {grid_size ncolors idx : Fin D → ℕ} {nhalo nhalo_domain thru_dim p q : ℕ} {c : Fin D → ℤ}

/-- The primary box of a rank consists of slabs. -/
theorem mem_primary (h : Decomposes grid_size ncolors) (hp : p < ∏ d, ncolors d) :
    c ∈ (S.color grid_size nhalo nhalo_domain thru_dim ncolors p).primary.box.cells ↔
      ∀ d, slabLower (grid_size d) (ncolors d) nhalo_domain (getIndices ncolors p d) ≤ c d ∧
        c d ≤ slabUpper (grid_size d) (ncolors d) nhalo_domain (getIndices ncolors p d) := by
  rw [color_primary S nhalo nhalo_domain thru_dim h hp]
  exact Iff.rfl

theorem primary_unique (h : Decomposes grid_size ncolors) (hp : p < ∏ d, ncolors d) (hq : q < ∏ d, ncolors d)
    (hc : c ∈ (S.color grid_size nhalo nhalo_domain thru_dim ncolors p).primary.box.cells)
    (hc' : c ∈ (S.color grid_size nhalo nhalo_domain thru_dim ncolors q).primary.box.cells) : p = q := by
  have hpos (d : Fin D) : 1 ≤ ncolors d := (h d).1
  rw [mem_primary h hp] at hc
  rw [mem_primary h hq] at hc'
  apply getIndices_injective hpos hp hq
  exact funext fun d => slab_unique (getIndices_lt hpos hp d) (getIndices_lt hpos hq d) (hc d) (hc' d)

theorem primary_cover (h : Decomposes grid_size ncolors) :
    c ∈ gridCells grid_size nhalo_domain ↔
      ∃ p < ∏ d, ncolors d, c ∈ (S.color grid_size nhalo nhalo_domain thru_dim ncolors p).primary.box.cells := by
  constructor
  · intro hc
    choose idx hidx hslab using fun d => exists_slab (h d).1 (h d).2 (hc d)
    obtain ⟨p, hp, rfl⟩ := exists_rank _ hidx
    exact ⟨p, hp, (mem_primary h hp).mpr hslab⟩
  · rintro ⟨p, hp, hc⟩ d
    have hslab := (mem_primary h hp).mp hc d
    have hsubset := slab_subset (grid_size d) nhalo_domain (getIndices_lt (fun d => (h d).1) hp d)
    exact ⟨hsubset.1.trans hslab.1, hslab.2.trans_lt hsubset.2⟩

theorem mem_exclusive (h : Decomposes grid_size ncolors) (hp : p < ∏ d, ncolors d) :
    let info := S.color grid_size nhalo nhalo_domain thru_dim ncolors p
    let primary := info.primary.box
    c ∈ info.exclusive.box.cells ↔ c ∈ primary.cells ∧ ∀ d,
      (interiorLower nhalo_domain primary d → nhalo < c d - (primary.lowerbnd d - 1)) ∧
      (interiorUpper grid_size nhalo_domain primary d → nhalo < primary.upperbnd d + 1 - c d) := by
  have hidx := getIndices_lt (fun d => (h d).1) hp
  have hside (d : Fin D) : (exclusiveBox (slabInfo grid_size nhalo nhalo_domain thru_dim ncolors
      (getIndices ncolors p))).lowerbnd d ≤ c d ∧ c d ≤ (exclusiveBox (slabInfo grid_size nhalo nhalo_domain thru_dim
        ncolors (getIndices ncolors p))).upperbnd d ↔
      (slabLower (grid_size d) (ncolors d) nhalo_domain (getIndices ncolors p d) ≤ c d ∧
        c d ≤ slabUpper (grid_size d) (ncolors d) nhalo_domain (getIndices ncolors p d)) ∧
      (getIndices ncolors p d ≠ 0 →
        nhalo < c d - (slabLower (grid_size d) (ncolors d) nhalo_domain (getIndices ncolors p d) - 1)) ∧
      (getIndices ncolors p d + 1 ≠ ncolors d →
        nhalo < slabUpper (grid_size d) (ncolors d) nhalo_domain (getIndices ncolors p d) + 1 - c d) := by
    rw [exclusiveBox_lower, exclusiveBox_upper]
    split <;> split <;> omega
  rw [color_eq S nhalo nhalo_domain thru_dim h hp]
  simp only [interiorLower_slab h hidx, interiorUpper_slab h hidx]
  exact (forall_congr' hside).trans forall_and

theorem Stencil.Lawful.partitions (hS : S.Lawful) (h : Decomposes grid_size ncolors)
    (hwide : Wide S grid_size nhalo nhalo_domain thru_dim ncolors) :
    Partitions S grid_size nhalo nhalo_domain thru_dim ncolors where
  primary_disjoint p hp q hq hne := Set.disjoint_left.mpr fun _ hc hc' => hne (primary_unique h hp hq hc hc')
  primary_cover _ := primary_cover h
  rank_disjoint p hp := by
    rw [color_eq S nhalo nhalo_domain thru_dim h hp]
    exact exclusive_shared_disjoint hS _ (ascending_exclusive h hwide hp)
  rank_cover p hp c := by
    rw [color_eq S nhalo nhalo_domain thru_dim h hp]
    exact mem_exclusive_or_shared hS _ (ascending_exclusive h hwide hp)
  exclusive p hp c := mem_exclusive h hp

end

/-- The box colorer partitions every grid of two and of three dimensions. -/
theorem color_partitions (nhalo nhalo_domain thru_dim : ℕ) :
    (∀ grid_size ncolors : Fin 2 → ℕ, Decomposes grid_size ncolors →
      Wide stencil2 grid_size nhalo nhalo_domain thru_dim ncolors →
      Partitions stencil2 grid_size nhalo nhalo_domain thru_dim ncolors) ∧
    ∀ grid_size ncolors : Fin 3 → ℕ, Decomposes grid_size ncolors →
      Wide stencil3 grid_size nhalo nhalo_domain thru_dim ncolors →
      Partitions stencil3 grid_size nhalo nhalo_domain thru_dim ncolors :=
  ⟨fun _ _ h hwide => stencil2_lawful.partitions h hwide, fun _ _ h hwide => stencil3_lawful.partitions h hwide⟩

theorem color_partitions_halves :
    Partitions stencil2 ![5, 1] 1 2 0 ![2, 1] ∧ Partitions stencil3 ![5, 1, 3] 1 2 0 ![2, 1, 1] := by
  refine ⟨(color_partitions 1 2 0).1 _ _ ?_ ?_, (color_partitions 1 2 0).2 _ _ ?_ ?_⟩
  · unfold Decomposes
    decide
  · unfold Wide
    decide
  · unfold Decomposes
    decide
  · unfold Wide
    decide

end Flecsi.Coloring
