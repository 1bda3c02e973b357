import Flecsi.Lib.CutIntervals

/-!
# The structured box colorer

`simple_box_colorer_t`, which gives every rank a box of a structured grid. The functions for two
and for three dimensions differ in their flags and tables, which a `Stencil` holds. Bounds are
`size_t` and modelled as integers.
-/

namespace Flecsi.Coloring

open CutIntervals

-- ---------------------------------------------------------------------------
-- Boxes
-- ---------------------------------------------------------------------------

/-- `box_t` -/
structure Box (D : ℕ) where
  lowerbnd : Fin D → ℤ
  upperbnd : Fin D → ℤ

def Box.cells (b : Box D) : Set (Fin D → ℤ) := {c | ∀ d, b.lowerbnd d ≤ c d ∧ c d ≤ b.upperbnd d}

/-- `box_color_t` -/
structure BoxColor (D : ℕ) where
  box : Box D
  colors : List ℤ

/-- `box_info_t`; `onlower` and `onupper` hold the even and the odd bits of `onbnd`. -/
structure BoxInfo (D : ℕ) where
  box : Box D
  nhalo : ℕ
  nhalo_domain : ℕ
  thru_dim : ℕ
  onlower : Fin D → Bool
  onupper : Fin D → Bool

/-- `box_coloring_info_t` -/
structure BoxColoringInfo (D : ℕ) where
  primary : BoxInfo D
  exclusive : BoxColor D
  shared : List (BoxColor D)
  ghost : List (BoxColor D)
  domain_halo : List (Box D)

-- ---------------------------------------------------------------------------
-- Regions
-- ---------------------------------------------------------------------------

/-- The bounds `IM` of an inner and an outer box; `k` stands for the interval from `IM[d][k]` to
`IM[d][k + 1]`. -/
def intervals (lower₁ lower₂ upper₁ upper₂ : Fin D → ℤ) (d : Fin D) : Fin 4 → ℤ :=
  ![lower₁ d, lower₂ d, upper₁ d, upper₂ d]

/-- `IM[d][k] != IM[d][k + 1]` -/
def cut (IM : Fin D → Fin 4 → ℤ) (d : Fin D) (k : Fin 3) : Bool := IM d k.castSucc ≠ IM d k.succ

def il : Fin 3 → ℤ := ![0, 0, 1]
def iu : Fin 3 → ℤ := ![1, 0, 0]

def regionBox (IM : Fin D → Fin 4 → ℤ) (r : Fin D → Fin 3) : Box D where
  lowerbnd d := IM d (r d).castSucc + il (r d)
  upperbnd d := IM d (r d).succ - iu (r d)

/-- What the functions for a dimension have of their own. -/
structure Stencil (D : ℕ) where
  /-- The loop indices, in the order of the loops. -/
  regions : List (Fin D → Fin 3)
  sharedFlag : (Fin D → Fin 4 → ℤ) → (Fin D → Fin 3) → Bool
  /-- `idx_new - idx` for each color added to a shared box, by `thru_dim`. -/
  sharedOffsets : ℕ → (Fin D → Fin 3) → List (Fin D → ℤ)
  /-- A row of `rankmap`, with `idx_new - idx`. -/
  rankmap : (Fin D → Fin 3) → ℤ × (Fin D → ℤ)
  cval : (Fin D → ℕ) → (Fin D → ℤ) → ℤ

-- ---------------------------------------------------------------------------
-- Two dimensions
-- ---------------------------------------------------------------------------

def regions2 : List (Fin 2 → Fin 3) :=
  (List.finRange 3).flatMap fun j => (List.finRange 3).map fun i => ![i, j]

def sharedFlag2 (IM : Fin 2 → Fin 4 → ℤ) (r : Fin 2 → Fin 3) : Bool :=
  let i := r 0
  let j := r 1
  if i = 1 ∧ j = 1 then false
  else if cut IM 0 i ∧ cut IM 1 j then true
  else if i = 1 ∧ !cut IM 0 i ∧ cut IM 1 j then true
  else if j = 1 ∧ cut IM 0 i ∧ !cut IM 1 j then true
  else false

def faceOffsets (ind : Fin D → Fin 3) : List (Fin D → ℤ) :=
  (List.finRange D).flatMap fun d =>
    if ind d = 0 then [Pi.single d (-1)] else if ind d = 2 then [Pi.single d 1] else []

def sharedOffsets2 (TD : ℕ) (ind : Fin 2 → Fin 3) : List (Fin 2 → ℤ) :=
  let i := ind 0
  let j := ind 1
  faceOffsets ind ++
  if TD = 0 then
    if i = 0 ∧ j = 0 then [![-1, -1]]
    else if i = 2 ∧ j = 0 then [![1, -1]]
    else if i = 0 ∧ j = 2 then [![-1, 1]]
    else if i = 2 ∧ j = 2 then [![1, 1]]
    else []
  else []

def rankmap2 : Fin 9 → Fin 3 → ℤ :=
  ![![0, -1, -1], ![1, 0, -1], ![0, 1, -1], ![1, -1, 0], ![2, 0, 0], ![1, 1, 0], ![0, -1, 1], ![1, 0, 1],
    ![0, 1, 1]]

def stencil2 : Stencil 2 where
  regions := regions2
  sharedFlag := sharedFlag2
  sharedOffsets := sharedOffsets2
  rankmap r :=
    let row := rankmap2 (Fin.ofNat 9 (r 0 + 3 * r 1))
    (row 0, ![row 1, row 2])
  cval ncolors idx := idx 0 + ncolors 0 * idx 1

-- ---------------------------------------------------------------------------
-- Three dimensions
-- ---------------------------------------------------------------------------

def regions3 : List (Fin 3 → Fin 3) :=
  (List.finRange 3).flatMap fun k => (List.finRange 3).flatMap fun j => (List.finRange 3).map fun i => ![i, j, k]

def sharedFlag3 (IM : Fin 3 → Fin 4 → ℤ) (r : Fin 3 → Fin 3) : Bool :=
  let i := r 0
  let j := r 1
  let k := r 2
  if i = 1 ∧ j = 1 ∧ k = 1 then false
  else if cut IM 0 i ∧ cut IM 1 j ∧ cut IM 2 k then true
  else if i = 1 ∧ !cut IM 0 i ∧ cut IM 1 j ∧ cut IM 2 k then true
  else if j = 1 ∧ !cut IM 1 j ∧ cut IM 0 i ∧ cut IM 2 k then true
  else if k = 1 ∧ !cut IM 2 k ∧ cut IM 0 i ∧ cut IM 1 j then true
  else if i = 1 ∧ !cut IM 0 i ∧ j = 1 ∧ !cut IM 1 j ∧ cut IM 2 k then true
  else if j = 1 ∧ !cut IM 1 j ∧ k = 1 ∧ !cut IM 2 k ∧ cut IM 0 i then true
  else if k = 1 ∧ !cut IM 2 k ∧ i = 1 ∧ !cut IM 0 i ∧ cut IM 1 j then true
  else false

/-- The pairs of directions `im`. -/
def im : Fin 3 → Fin 3 × Fin 3 := ![(0, 1), (1, 2), (2, 0)]

def edgeOffsets (ind : Fin 3 → Fin 3) : List (Fin 3 → ℤ) :=
  (List.finRange 3).flatMap fun d =>
    let (a, b) := im d
    (if ind a = 0 ∧ ind b = 0 then [Pi.single a (-1) + Pi.single b (-1)] else []) ++
    (if ind a = 2 ∧ ind b = 0 then [Pi.single a 1 + Pi.single b (-1)] else []) ++
    (if ind a = 0 ∧ ind b = 2 then [Pi.single a (-1) + Pi.single b 1] else []) ++
    (if ind a = 2 ∧ ind b = 2 then [Pi.single a 1 + Pi.single b 1] else [])

def sharedOffsets3 (TD : ℕ) (ind : Fin 3 → Fin 3) : List (Fin 3 → ℤ) :=
  let i := ind 0
  let j := ind 1
  let k := ind 2
  faceOffsets ind ++ (if TD ≤ 1 then edgeOffsets ind else []) ++
  if TD = 0 then
    if i = 0 ∧ j = 0 ∧ k = 0 then [![-1, -1, -1]]
    else if i = 2 ∧ j = 0 ∧ k = 0 then [![1, -1, -1]]
    else if i = 0 ∧ j = 2 ∧ k = 0 then [![-1, 1, -1]]
    else if i = 2 ∧ j = 2 ∧ k = 0 then [![1, 1, -1]]
    else if i = 0 ∧ j = 0 ∧ k = 2 then [![-1, -1, 1]]
    else if i = 2 ∧ j = 0 ∧ k = 2 then [![1, -1, 1]]
    else if i = 0 ∧ j = 2 ∧ k = 2 then [![-1, 1, 1]]
    else if i = 2 ∧ j = 2 ∧ k = 2 then [![1, 1, 1]]
    else []
  else []

def rankmap3 : Fin 27 → Fin 4 → ℤ :=
  ![![0, -1, -1, -1], ![1, 0, -1, -1], ![0, 1, -1, -1],
    ![1, -1, 0, -1], ![2, 0, 0, -1], ![1, 1, 0, -1], ![0, -1, 1, -1],
    ![1, 0, 1, -1], ![0, 1, 1, -1], ![1, -1, -1, 0], ![2, 0, -1, 0],
    ![1, 1, -1, 0], ![2, -1, 0, 0], ![3, 0, 0, 0], ![2, 1, 0, 0], ![1, -1, 1, 0],
    ![2, 0, 1, 0], ![1, 1, 1, 0], ![0, -1, -1, 1], ![1, 0, -1, 1],
    ![0, 1, -1, 1], ![1, -1, 0, 1], ![2, 0, 0, 1], ![1, 1, 0, 1], ![0, -1, 1, 1],
    ![1, 0, 1, 1], ![0, 1, 1, 1]]

def stencil3 : Stencil 3 where
  regions := regions3
  sharedFlag := sharedFlag3
  sharedOffsets := sharedOffsets3
  rankmap r :=
    let row := rankmap3 (Fin.ofNat 27 (r 0 + 3 * r 1 + 9 * r 2))
    (row 0, ![row 1, row 2, row 3])
  cval ncolors idx := idx 0 + ncolors 0 * idx 1 + ncolors 0 * ncolors 1 * idx 2

-- ---------------------------------------------------------------------------
-- Coloring
-- ---------------------------------------------------------------------------

/-- `get_indices`: the last direction first. -/
def getIndices : {D : ℕ} → (Fin D → ℕ) → ℕ → Fin D → ℕ
  | 0, _, _ => Fin.elim0
  | D + 1, cobnds, rem =>
    let factor := ∏ j : Fin D, cobnds j.castSucc
    let value := rem / factor
    Fin.snoc (α := fun _ => ℕ) (getIndices (fun j : Fin D => cobnds j.castSucc) (rem - value * factor)) value

def createPrimaryBox (domain : Box D) (ncolors idx : Fin D → ℕ) : Box D :=
  let ne (i : Fin D) : ℤ := (domain.upperbnd i - domain.lowerbnd i + 1) / ncolors i
  { lowerbnd := fun i => domain.lowerbnd i + ne i * idx i
    upperbnd := fun i =>
      if idx i ≠ ncolors i - 1 then domain.lowerbnd i + ne i * (idx i + 1) - 1 else domain.upperbnd i }

/-- The box with `hl` layers removed at the sides that are not on the boundary. -/
def exclusiveBox (primary : BoxInfo D) : Box D where
  lowerbnd i := if !primary.onlower i then primary.box.lowerbnd i + primary.nhalo else primary.box.lowerbnd i
  upperbnd i := if !primary.onupper i then primary.box.upperbnd i - primary.nhalo else primary.box.upperbnd i

def ghostBox (primary : BoxInfo D) : Box D where
  lowerbnd i := if !primary.onlower i then primary.box.lowerbnd i - primary.nhalo else primary.box.lowerbnd i
  upperbnd i := if !primary.onupper i then primary.box.upperbnd i + primary.nhalo else primary.box.upperbnd i

def domainHaloBox (primary : BoxInfo D) : Box D where
  lowerbnd i := if primary.onlower i then primary.box.lowerbnd i - primary.nhalo_domain else primary.box.lowerbnd i
  upperbnd i := if primary.onupper i then primary.box.upperbnd i + primary.nhalo_domain else primary.box.upperbnd i

/-- The bounds of `inner` between those of `outer`. -/
def between (outer inner : Box D) : Fin D → Fin 4 → ℤ :=
  intervals outer.lowerbnd inner.lowerbnd inner.upperbnd outer.upperbnd

section
variable (S : Stencil D) (primary : BoxInfo D) (ncolors idx : Fin D → ℕ)

/-- The shared boxes of `create_exclusive_and_shared_boxes`. -/
def createSharedBoxes : List (BoxColor D) :=
  let IM := between primary.box (exclusiveBox primary)
  (S.regions.filter (S.sharedFlag IM)).map fun r =>
    { box := regionBox IM r
      colors := (S.sharedOffsets primary.thru_dim r).map fun o => S.cval ncolors fun d => idx d + o d }

/-- The regions around the inner box that all intervals of `IM` cut out. -/
def outerRegions (IM : Fin D → Fin 4 → ℤ) : List (Fin D → Fin 3) :=
  S.regions.filter fun r => r ≠ (fun _ => 1) ∧ ∀ d, cut IM d (r d)

def createGhostBoxes : List (BoxColor D) :=
  let IM := between (ghostBox primary) primary.box
  ((outerRegions S IM).filter fun r => primary.thru_dim ≤ (S.rankmap r).1).map fun r =>
    { box := regionBox IM r
      colors := [S.cval ncolors fun d => idx d + (S.rankmap r).2 d] }

def createDomainHaloBoxes : List (Box D) :=
  let IM := between (domainHaloBox primary) primary.box
  (outerRegions S IM).map (regionBox IM)

end

/-- `color` on a rank; the assertions on the number of ranks and on `thru_dim` are its callers'. -/
def Stencil.color (S : Stencil D) (grid_size : Fin D → ℕ) (nhalo nhalo_domain thru_dim : ℕ)
    (ncolors : Fin D → ℕ) (rank : ℕ) : BoxColoringInfo D :=
  let idx := getIndices ncolors rank
  let domain : Box D := ⟨fun _ => nhalo_domain, fun i => grid_size i + nhalo_domain - 1⟩
  let pbox := createPrimaryBox domain ncolors idx
  let primary : BoxInfo D :=
    { box := pbox, nhalo, nhalo_domain, thru_dim
      onlower := fun i => pbox.lowerbnd i = domain.lowerbnd i
      onupper := fun i => pbox.upperbnd i = domain.upperbnd i }
  { primary
    exclusive := ⟨exclusiveBox primary, [(rank : ℤ)]⟩
    shared := createSharedBoxes S primary ncolors idx
    ghost := createGhostBoxes S primary ncolors idx
    domain_halo := createDomainHaloBoxes S primary }

end Flecsi.Coloring
