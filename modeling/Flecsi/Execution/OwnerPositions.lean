import Flecsi.Execution.RemapRuns
import Flecsi.Lib.Interleave
import Flecsi.Lib.KeyedFold

/-!
# Positions of the owners

The field `ghost_owner_pos` of an index space, after the shared entities are
renumbered. `owner_pos_compaction_task` writes the new location of every shared
entity at its old one, and the old location of its owner at every ghost;
`owner_pos_correction_task` then follows the one to the other.
-/

namespace Flecsi.Execution

open Coloring Interleave
open Relation (ReflTransGen)

-- ---------------------------------------------------------------------------
-- Regions
-- ---------------------------------------------------------------------------

/-- `Legion::Point<2>`: a color and an index. -/
abbrev Point := ℕ × ℕ

/-- `ghost_owner_pos`; nothing is at a point that is not written yet. -/
abbrev OwnerPos := Point → Option Point

def region (color start size : ℕ) : List Point := (List.range' start size).map (color, ·)

def exclusiveRegion (info : ColoringInfo) (color : ℕ) : List Point := region color 0 info.exclusive

def sharedRegion (info : ColoringInfo) (color : ℕ) : List Point :=
  region color info.exclusive info.shared

def ghostRegion (info : ColoringInfo) (color : ℕ) : List Point :=
  region color (info.exclusive + info.shared) info.ghost

def primaryRegion (info : ColoringInfo) (color : ℕ) : List Point :=
  region color 0 (info.exclusive + info.shared)

-- ---------------------------------------------------------------------------
-- owner_pos_compaction_task
-- ---------------------------------------------------------------------------

/-- A loop over entities that moves an iterator of a region along; the region
must not end first. -/
def alongRegion (entities : List EntityInfo) (points : List Point) :
    Option (List (EntityInfo × Point)) :=
  if entities.length ≤ points.length then some (entities.zip points) else none

/-- The writes of the task of one color, each a point and its value. -/
def ownerPosCompaction (info : ColoringInfo) (idxSpace : IndexColoring) (color : ℕ) :
    Option (List (Point × Point)) := do
  let shared ← alongRegion idxSpace.shared (sharedRegion info color)
  let ghost ← alongRegion idxSpace.ghost (ghostRegion info color)
  -- the reference is the old location, the point of the iterator the new one
  some (shared.map (fun x => ((x.1.rank, x.1.offset), x.2)) ++
    ghost.map fun x => (x.2, (x.1.rank, x.1.offset)))

/-- A write through the accessor of the three regions of the task's color. -/
def writePos (info : Fin n → ColoringInfo) (pos : OwnerPos) (x : Fin n × Point × Point) :
    Option OwnerPos :=
  if x.2.1 ∈ exclusiveRegion (info x.1) x.1 ++ sharedRegion (info x.1) x.1 ++
      ghostRegion (info x.1) x.1 then
    some (Function.update pos x.2.1 (some x.2.2))
  else none

-- ---------------------------------------------------------------------------
-- owner_pos_correction_task
-- ---------------------------------------------------------------------------

/-- `create_partition_by_image`: the primary points the ghosts of a color point
to. -/
def sharedCorrection (info : Fin n → ColoringInfo) (pos : OwnerPos) (color : Fin n) : List Point :=
  ((ghostRegion (info color) color).filterMap pos).filter fun point =>
    ∃ q : Fin n, point ∈ primaryRegion (info q) q

/-- The loop goes over the ghost region of the task's color. -/
def ownerPosCorrection (info : Fin n → ColoringInfo) (color : Fin n) : List Point :=
  ghostRegion (info color) color

/-- One pass of the loop; the task may read its part of `sharedCorr`. -/
def correctPos (sharedCorr : Fin n → List Point) (pos : OwnerPos) (x : Fin n × Point) :
    Option OwnerPos := do
  let oldLocation ← pos x.2
  if oldLocation ∈ sharedCorr x.1 then do
    let newLocation ← pos oldLocation
    some (Function.update pos x.2 (some newLocation))
  else none

-- ---------------------------------------------------------------------------
-- What the tasks find
-- ---------------------------------------------------------------------------

/-- The shared entries of a rank carry the rank, and offsets of their own. -/
structure OwnedDual (coloring : Fin n → IndexColoring) : Prop extends Dual coloring where
  rank : ∀ p : Fin n, ∀ e ∈ (coloring p).shared, e.rank = p
  offsets : ∀ p, ((coloring p).shared.map EntityInfo.offset).Nodup

/-- The regions have the sizes of the lists. -/
def Fits (info : ColoringInfo) (c : IndexColoring) : Prop :=
  info.exclusive = c.exclusive.length ∧ info.shared = c.shared.length ∧ info.ghost = c.ghost.length

instance (info : ColoringInfo) (c : IndexColoring) : Decidable (Fits info c) := by
  unfold Fits; infer_instance

@[simp] theorem mem_region : x ∈ region color start size ↔
    x.1 = color ∧ start ≤ x.2 ∧ x.2 < start + size := by
  obtain ⟨c, i⟩ := x
  simp [region, eq_comm, and_comm]

theorem region_nodup (color start size : ℕ) : (region color start size).Nodup :=
  (List.nodup_range' _).map fun _ _ h => (Prod.mk.inj h).2

@[simp] theorem length_region (color start size : ℕ) : (region color start size).length = size := by
  simp [region]

theorem getElem?_region (h : i < size) : (region color start size)[i]? = some (color, start + i) := by
  simp [region, h]

section
variable {before after : Fin n → IndexColoring} (h : OwnedDual before) (hr : Remapped before after)
  {p : Fin n} {e g : EntityInfo} {i k : ℕ}

include h in
theorem OwnedDual.length_shared (p : Fin n) : (before p).shared.length ≤ 2 ^ 32 := by
  have hsub : (before p).shared.map EntityInfo.offset ⊆ List.range (2 ^ 32) := by
    intro o ho
    obtain ⟨e, he, rfl⟩ := List.mem_map.mp ho
    exact List.mem_range.mpr (h.wide p e (List.mem_append_left _ he)).2.1
  have hle := ((h.offsets p).subperm hsub).length_le
  rwa [List.length_map, List.length_range] at hle

include hr in
theorem Remapped.length_shared (p : Fin n) : (after p).shared.length = (before p).shared.length := by
  simpa using congrArg List.length (hr.shared p)

include hr in
theorem Remapped.length_ghost (p : Fin n) : (after p).ghost.length = (before p).ghost.length := by
  simpa using congrArg List.length (hr.ghost p)

include hr in
/-- The lists keep ids and ranks in place. -/
theorem Remapped.shared_at (he : (after p).shared[i]? = some e) :
    ∃ e' : EntityInfo, (before p).shared[i]? = some e' ∧ e'.id = e.id ∧ e'.rank = e.rank := by
  have hmap := congrArg (·[i]?) (hr.shared p)
  simp only [List.getElem?_map, he, Option.map_some] at hmap
  obtain ⟨e', he', heq⟩ := Option.map_eq_some_iff.mp hmap.symm
  simp only [Prod.mk.injEq] at heq
  exact ⟨e', he', heq.1, heq.2.1⟩

include h hr in
theorem OwnedDual.shared_entry (he : (after p).shared[i]? = some e) :
    e.rank = p ∧ e.offset = i := by
  obtain ⟨e', he', -, hrank⟩ := hr.shared_at he
  obtain ⟨hi, -⟩ := List.getElem?_eq_some_iff.mp he'
  refine ⟨hrank ▸ h.rank p e' (List.mem_of_getElem? he'), ?_⟩
  rw [hr.shared_offset p i e he]
  exact toIndices_of_lt (hi.trans_le (h.length_shared p))

include h hr in
/-- A ghost names its owner and the position of its id there. -/
theorem OwnedDual.ghost_entry (hg : (before p).ghost[k]? = some g) :
    ∃ q : Fin n, g.rank = q ∧ (∃ e ∈ (before q).shared, e.id = g.id) ∧
      sharedPosition (before q) g.id < (before q).shared.length ∧
      ∃ g' : EntityInfo, (after p).ghost[k]? = some g' ∧ g'.rank = q ∧
        g'.offset = sharedPosition (before q) g.id := by
  have hmap := congrArg (·[k]?) (hr.ghost p)
  simp only [List.getElem?_map, hg, Option.map_some] at hmap
  obtain ⟨g', hg', heq⟩ := Option.map_eq_some_iff.mp hmap
  simp only [Prod.mk.injEq] at heq
  obtain ⟨q, hq, i, e, he, hid, hoff⟩ := hr.ghost_offset p g' (List.mem_of_getElem? hg')
  obtain ⟨e', he', hid', -⟩ := hr.shared_at he
  have hpos : sharedPosition (before q) g.id = i := by
    rw [← heq.1, ← hid, ← hid']
    exact sharedPosition_eq (h.sorted q).1 he'
  obtain ⟨hi, -⟩ := List.getElem?_eq_some_iff.mp he'
  refine ⟨q, heq.2 ▸ hq, ⟨e', List.mem_of_getElem? he', by rw [hid', hid, heq.1]⟩, hpos ▸ hi, g', hg',
    hq, ?_⟩
  rw [hoff, hpos]
  exact toIndices_of_lt (hi.trans_le (h.length_shared q))

end

-- ---------------------------------------------------------------------------
-- Compaction
-- ---------------------------------------------------------------------------

theorem alongRegion_eq (h : entities.length = points.length) :
    alongRegion entities points = some (entities.zip points) :=
  if_pos h.le

theorem mem_zip_region {entities : List EntityInfo} (hn : entities.length = size) :
    (e, x) ∈ entities.zip (region color start size) ↔
      ∃ i, entities[i]? = some e ∧ x = (color, start + i) := by
  rw [List.mem_iff_getElem?]
  refine exists_congr fun i => ?_
  rw [List.getElem?_zip_eq_some]
  refine and_congr_right fun he => ?_
  obtain ⟨hi, -⟩ := List.getElem?_eq_some_iff.mp he
  rw [getElem?_region (hn ▸ hi), Option.some_inj, eq_comm]

/-- What the task of one color writes: a table of the new locations over its
first points, and the pointers of its ghosts. -/
def compactionWrites (info : ColoringInfo) (c : IndexColoring) (color : ℕ) : List (Point × Point) :=
  ((List.range c.shared.length).map fun i => ((color, i), (color, info.exclusive + i))) ++
    (c.ghost.zip (ghostRegion info color)).map fun x => (x.2, (x.1.rank, x.1.offset))

section
variable {info : ColoringInfo} {c : IndexColoring} {color : ℕ} (hfit : Fits info c)

include hfit in
theorem ownerPosCompaction_eq
    (hshared : ∀ (i : ℕ) e, c.shared[i]? = some e → e.rank = color ∧ e.offset = i) :
    ownerPosCompaction info c color = some (compactionWrites info c color) := by
  obtain ⟨-, hs, hg⟩ := hfit
  have htable : (c.shared.zip (sharedRegion info color)).map
      (fun x => ((x.1.rank, x.1.offset), x.2)) =
      (List.range c.shared.length).map fun i => ((color, i), (color, info.exclusive + i)) := by
    apply List.ext_getElem
    · simp [sharedRegion, hs]
    · intro i hi hi'
      rw [List.length_map, List.length_range] at hi'
      obtain ⟨hrank, hoff⟩ := hshared i _ (List.getElem?_eq_getElem hi')
      simp [sharedRegion, region, hrank, hoff]
  rw [ownerPosCompaction, alongRegion_eq (by simp [sharedRegion, hs]),
    alongRegion_eq (by simp [ghostRegion, hg])]
  simp only [Option.bind_eq_bind, Option.bind_some, htable, compactionWrites]

include hfit in
theorem mem_compactionWrites : w ∈ compactionWrites info c color ↔
    (∃ i < c.shared.length, w = ((color, i), (color, info.exclusive + i))) ∨
      ∃ (k : ℕ) (g : EntityInfo), c.ghost[k]? = some g ∧
        w = ((color, info.exclusive + info.shared + k), (g.rank, g.offset)) := by
  rw [compactionWrites, List.mem_append, List.mem_map, List.mem_map]
  refine or_congr ?_ ?_
  · simp only [List.mem_range, eq_comm]
  · constructor
    · rintro ⟨⟨g, x⟩, hx, rfl⟩
      obtain ⟨k, hk, rfl⟩ := (mem_zip_region hfit.2.2.symm).mp hx
      exact ⟨k, g, hk, rfl⟩
    · rintro ⟨k, g, hk, rfl⟩
      exact ⟨(g, _), (mem_zip_region hfit.2.2.symm).mpr ⟨k, hk, rfl⟩, rfl⟩

include hfit in
/-- The table ends before the ghosts begin. -/
theorem compactionWrites_nodup : ((compactionWrites info c color).map Prod.fst).Nodup := by
  have hghost : ((c.ghost.zip (ghostRegion info color)).map fun x => x.2) = ghostRegion info color :=
    List.map_snd_zip (by simp [ghostRegion, hfit.2.2])
  have htable : ((List.range c.shared.length).map fun i => (color, i)).Nodup :=
    List.nodup_range.map fun _ _ h => (Prod.mk.inj h).2
  rw [compactionWrites, List.map_append, List.map_map, List.map_map]
  simp only [Function.comp_def, hghost]
  refine List.nodup_append.mpr ⟨htable, region_nodup _ _ _, ?_⟩
  rintro x hx _ hy rfl
  obtain ⟨i, hi, rfl⟩ := List.mem_map.mp hx
  have hle := (mem_region.mp hy).2.1
  have hlt := List.mem_range.mp hi
  have hsize := hfit.2.1
  simp only at hle
  omega

end

section
variable {info : Fin n → ColoringInfo} {c : Fin n → IndexColoring} (hfit : ∀ p, Fits (info p) (c p))

include hfit in
/-- Every point a task writes is of its color, and in its regions. -/
theorem mem_regions_of_write {p : Fin n} (hw : w ∈ compactionWrites (info p) (c p) p) :
    w.1.1 = p ∧ w.1 ∈ exclusiveRegion (info p) p ++ sharedRegion (info p) p ++
      ghostRegion (info p) p := by
  obtain ⟨-, hs, hg⟩ := hfit p
  simp only [List.mem_append, exclusiveRegion, sharedRegion, ghostRegion, mem_region]
  obtain ⟨i, hi, rfl⟩ | ⟨k, g, hk, rfl⟩ := (mem_compactionWrites (hfit p)).mp hw
  · refine ⟨rfl, ?_⟩
    simp only [true_and]
    omega
  · obtain ⟨hlt, -⟩ := List.getElem?_eq_some_iff.mp hk
    refine ⟨rfl, ?_⟩
    simp only [true_and]
    omega

include hfit in
/-- After all compaction tasks every point has what its task wrote. -/
theorem compaction_run
    (hsteps : Interleaves steps fun p : Fin n => compactionWrites (info p) (c p) p) :
    ∃ pos, steps.foldlM (writePos info) (fun _ => none) = some pos ∧
      ∀ p, ∀ w ∈ compactionWrites (info p) (c p) p, pos w.1 = some w.2 := by
  have hfills : KeyedFold.Fills (writePos info) (fun x => x.2.1) (fun _ => True)
      (fun x => if x.2.1 ∈ exclusiveRegion (info x.1) x.1 ++ sharedRegion (info x.1) x.1 ++
        ghostRegion (info x.1) x.1 then some x.2.2 else none) fun _ => none := by
    refine ⟨fun m x _ _ => ?_, fun _ _ h => absurd trivial h⟩
    rw [writePos]
    split <;> rfl
  have hn : (steps.map fun x => x.2.1).Nodup :=
    hsteps.nodup Prod.fst (fun p q a ha b hb hab => Fin.ext <|
      (mem_regions_of_write hfit ha).1.symm.trans (hab ▸ (mem_regions_of_write hfit hb).1))
      fun p => compactionWrites_nodup (hfit p)
  have hregions : ∀ x ∈ steps, x.2.1 ∈ exclusiveRegion (info x.1) x.1 ++
      sharedRegion (info x.1) x.1 ++ ghostRegion (info x.1) x.1 := fun x hx =>
    (mem_regions_of_write hfit (hsteps.mem.mp hx)).2
  obtain ⟨pos, hpos⟩ := hfills.exists_fold hn (m := fun _ => none) (fun _ _ => rfl) fun x hx _ => by
    rw [if_pos (hregions x hx)]
    rfl
  refine ⟨pos, hpos, fun p w hw => ?_⟩
  have hx := hsteps.mem.mpr hw
  obtain ⟨-, hval⟩ := hfills.value_of_eq_some hn (fun _ _ => rfl) hpos hx trivial
  rwa [if_pos (hregions _ hx)] at hval

end

-- ---------------------------------------------------------------------------
-- Correction
-- ---------------------------------------------------------------------------

/-- After corrections of different points these have what they pointed at, and
nothing else has changed. -/
theorem correction_run {sharedCorr : Fin n → List Point} {pos : OwnerPos} {steps : List (Fin n × Point)}
    (hn : (steps.map Prod.snd).Nodup)
    (htable : ∀ x ∈ steps, ∃ old new, pos x.2 = some old ∧ pos old = some new ∧
      old ∈ sharedCorr x.1 ∧ old ∉ steps.map Prod.snd) :
    ∃ pos', steps.foldlM (correctPos sharedCorr) pos = some pos' ∧
      (∀ x ∈ steps, pos' x.2 = (pos x.2).bind pos) ∧
      ∀ point ∉ steps.map Prod.snd, pos' point = pos point := by
  induction steps using List.reverseRecOn with
  | nil => exact ⟨pos, rfl, by simp, fun _ _ => rfl⟩
  | append_singleton steps x ih =>
    rw [List.map_append, List.nodup_append] at hn
    obtain ⟨hn, -, hother⟩ := hn
    have hx : x.2 ∉ steps.map Prod.snd := fun hmem => hother _ hmem _ (by simp) rfl
    obtain ⟨pos', hfold, hdone, hrest⟩ := ih hn fun y hy => by
      obtain ⟨old, new, hold, hnew, hcorr, hnot⟩ := htable y (List.mem_append_left _ hy)
      exact ⟨old, new, hold, hnew, hcorr, fun h => hnot (by simp [h])⟩
    obtain ⟨old, new, hold, hnew, hcorr, hnot⟩ := htable x (by simp)
    have hkeep : pos' old = some new := by
      rw [hrest old fun h => hnot (by simp [h]), hnew]
    have hstep : correctPos sharedCorr pos' x = some (Function.update pos' x.2 (some new)) := by
      rw [correctPos, hrest _ hx, hold]
      simp only [Option.bind_eq_bind, Option.bind_some, if_pos hcorr, hkeep]
    refine ⟨_, by rw [List.foldlM_append, hfold]; simpa using hstep, fun y hy => ?_, fun point hp => ?_⟩
    · obtain hy | hy := List.mem_append.mp hy
      · rw [Function.update_of_ne (fun h => hx (List.mem_map.mpr ⟨y, hy, h⟩)), hdone y hy]
      · obtain rfl := List.mem_singleton.mp hy
        rw [Function.update_self, hold, Option.bind_some, hnew]
    · rw [List.map_append, List.mem_append, not_or] at hp
      rw [Function.update_of_ne (by simpa using hp.2), hrest point hp.1]

/-- Before every step the points it reads are as they were at the start. -/
theorem correction_reads {sharedCorr : Fin n → List Point} {pos : OwnerPos}
    {done rest : List (Fin n × Point)} {x : Fin n × Point}
    (hn : ((done ++ x :: rest).map Prod.snd).Nodup)
    (htable : ∀ y ∈ done ++ x :: rest, ∃ old new, pos y.2 = some old ∧ pos old = some new ∧
      old ∈ sharedCorr y.1 ∧ old ∉ (done ++ x :: rest).map Prod.snd) :
    ∃ pos' old new, done.foldlM (correctPos sharedCorr) pos = some pos' ∧
      pos' x.2 = some old ∧ pos x.2 = some old ∧ pos' old = some new ∧ pos old = some new := by
  obtain ⟨old, new, hold, hnew, -, hnot⟩ := htable x (by simp)
  rw [List.map_append] at hn hnot
  obtain ⟨hdone, -, hother⟩ := List.nodup_append.mp hn
  obtain ⟨pos', hfold, -, hkeep⟩ := correction_run hdone fun y hy => by
    obtain ⟨old, new, hold, hnew, hcorr, hnot⟩ := htable y (List.mem_append_left _ hy)
    exact ⟨old, new, hold, hnew, hcorr, fun h => hnot (by simp [h])⟩
  refine ⟨pos', old, new, hfold, ?_, hold, ?_, hnew⟩
  · rw [hkeep _ fun h => hother _ h _ (by simp) rfl, hold]
  · rw [hkeep _ fun h => hnot (List.mem_append_left _ h), hnew]

-- ---------------------------------------------------------------------------
-- All tasks
-- ---------------------------------------------------------------------------

/-- A step of the correction reads two points: the ghost and what it points to.
Both have what a compaction task wrote. -/
def ReadsWritten (info : Fin n → ColoringInfo) (pos : OwnerPos) (steps : List (Fin n × Point)) :
    Prop :=
  ∀ done x rest, steps = done ++ x :: rest → ∃ pos' old new,
    done.foldlM (correctPos (sharedCorrection info pos)) pos = some pos' ∧
      pos' x.2 = some old ∧ pos x.2 = some old ∧ pos' old = some new ∧ pos old = some new

section
variable {info : Fin n → ColoringInfo} {before after : Fin n → IndexColoring}
  (h : OwnedDual before) (hr : Remapped before after) (hfit : ∀ p, Fits (info p) (before p))
  {pos : OwnerPos} {p : Fin n} {g : EntityInfo} {k : ℕ}

include hr hfit in
theorem Remapped.fits (p : Fin n) : Fits (info p) (after p) := by
  rw [Fits, hr.exclusive, hr.length_shared, hr.length_ghost]
  exact hfit p

include h hr hfit in
/-- The compaction leaves at every ghost the old location of its owner, and
there the new one. -/
theorem ghost_compacted
    (hpos : ∀ p : Fin n, ∀ w ∈ compactionWrites (info p) (after p) p, pos w.1 = some w.2)
    (hg : (before p).ghost[k]? = some g) : ∃ q : Fin n, g.rank = q ∧
      (∃ e ∈ (before q).shared, e.id = g.id) ∧
      sharedPosition (before q) g.id < (before q).shared.length ∧
      pos (p, (info p).exclusive + (info p).shared + k) =
        some ((q : ℕ), sharedPosition (before q) g.id) ∧
      pos (q, sharedPosition (before q) g.id) =
        some ((q : ℕ), (info q).exclusive + sharedPosition (before q) g.id) := by
  obtain ⟨q, hq, he, hlt, g', hg', hrank, hoff⟩ := h.ghost_entry hr hg
  refine ⟨q, hq, he, hlt, ?_, ?_⟩
  · have hw := hpos p _ ((mem_compactionWrites (hr.fits hfit p)).mpr (.inr ⟨k, g', hg', rfl⟩))
    simpa [hrank, hoff] using hw
  · exact hpos q _ ((mem_compactionWrites (hr.fits hfit q)).mpr
      (.inl ⟨_, by rwa [hr.length_shared], rfl⟩))

include h hr hfit in
/-- What a ghost points to is a primary point, and no ghost. -/
theorem correction_table
    (hpos : ∀ p : Fin n, ∀ w ∈ compactionWrites (info p) (after p) p, pos w.1 = some w.2)
    {steps : List (Fin n × Point)} (hsteps : Interleaves steps (ownerPosCorrection info)) :
    ∀ x ∈ steps, ∃ old new, pos x.2 = some old ∧ pos old = some new ∧
      old ∈ sharedCorrection info pos x.1 ∧ old ∉ steps.map Prod.snd := by
  rintro ⟨p, point⟩ hx
  have hmem : point ∈ ghostRegion (info p) p := hsteps.mem.mp hx
  obtain ⟨hcolor, hle, hlt⟩ := mem_region.mp hmem
  obtain ⟨k, hk⟩ := Nat.exists_eq_add_of_le hle
  have hghost : k < (before p).ghost.length := by
    have := (hfit p).2.2
    omega
  obtain ⟨q, -, -, hposition, hold, hnew⟩ :=
    ghost_compacted h hr hfit hpos (List.getElem?_eq_getElem hghost)
  obtain rfl : point = ((p : ℕ), (info p).exclusive + (info p).shared + k) :=
    Prod.ext hcolor hk
  have hshared := (hfit q).2.1
  refine ⟨_, _, hold, hnew, ?_, ?_⟩
  · refine List.mem_filter.mpr ⟨List.mem_filterMap.mpr ⟨_, hmem, hold⟩, decide_eq_true ⟨q, ?_⟩⟩
    refine mem_region.mpr ⟨rfl, Nat.zero_le _, ?_⟩
    simp only
    omega
  · intro hmem
    obtain ⟨⟨r, _⟩, hy, rfl⟩ := List.mem_map.mp hmem
    obtain ⟨hr, hle, -⟩ := mem_region.mp (hsteps.mem.mp hy)
    obtain rfl : q = r := Fin.ext hr
    simp only at hle
    omega

end

theorem ownerPosCorrection_nodup {info : Fin n → ColoringInfo} {steps : List (Fin n × Point)}
    (hsteps : Interleaves steps (ownerPosCorrection info)) : (steps.map Prod.snd).Nodup :=
  hsteps.nodup id (fun _ _ _ ha _ hb hab => Fin.ext <|
    (mem_region.mp ha).1.symm.trans ((congrArg Prod.fst hab).trans (mem_region.mp hb).1)) fun _ => by
      rw [List.map_id]
      exact region_nodup _ _ _

/-- After the renumbering of all index spaces, in any interleaving of the
compaction tasks and then of the correction tasks of an index space: every point
a correction reads has what a compaction wrote, and in the end every ghost has
the compacted position of its owner. -/
theorem ghost_owner_positions {spaces : ℕ} {initial : ℕ → Fin n → IndexColoring}
    (h : ∀ k < spaces, OwnedDual (initial k)) {s : RemapState n}
    (hs : ReflTransGen (RemapState.Step spaces) (.start initial) s) (hfinal : s.Final spaces)
    {k : ℕ} (hk : k < spaces) {info : Fin n → ColoringInfo}
    (hfit : ∀ p, Fits (info p) (initial k p)) :
    ∃ tasks, allRanks (fun p => ownerPosCompaction (info p) (s.coloring p k) p) = some tasks ∧
      ∀ steps, Interleaves steps tasks → ∃ pos,
        steps.foldlM (writePos info) (fun _ => none) = some pos ∧
        ∀ steps', Interleaves steps' (ownerPosCorrection info) →
          ReadsWritten info pos steps' ∧
          ∃ pos', steps'.foldlM (correctPos (sharedCorrection info pos)) pos = some pos' ∧
            ∀ p (i : ℕ) g, (initial k p).ghost[i]? = some g → ∃ q : Fin n, g.rank = q ∧
              (∃ e ∈ (initial k q).shared, e.id = g.id) ∧
              pos' (p, (info p).exclusive + (info p).shared + i) =
                some ((q : ℕ), (info q).exclusive + sharedPosition (initial k q) g.id) := by
  have hd := h k hk
  have hr : Remapped (initial k) fun p => s.coloring p k :=
    ((remap_all_spaces spaces initial fun k hk => (h k hk).toDual).2.1 s hs).1 hfinal k hk
  refine ⟨_, allRanks_eq_some.mpr fun p => ownerPosCompaction_eq (hr.fits hfit p) fun i e he =>
    hd.shared_entry hr he, fun steps hsteps => ?_⟩
  obtain ⟨pos, hfold, hpos⟩ := compaction_run (hr.fits hfit) hsteps
  refine ⟨pos, hfold, fun steps' hsteps' => ?_⟩
  have hn := ownerPosCorrection_nodup hsteps'
  have htable := correction_table hd hr hfit hpos hsteps'
  refine ⟨?_, ?_⟩
  · rintro done x rest rfl
    exact correction_reads hn htable
  · obtain ⟨pos', hfold', hdone, -⟩ := correction_run hn htable
    refine ⟨pos', hfold', fun p i g hg => ?_⟩
    obtain ⟨q, hq, he, -, hold, hnew⟩ := ghost_compacted hd hr hfit hpos hg
    obtain ⟨hi, -⟩ := List.getElem?_eq_some_iff.mp hg
    have hmem : (p, ((p : ℕ), (info p).exclusive + (info p).shared + i)) ∈ steps' := by
      refine hsteps'.mem.mpr (mem_region.mpr ⟨rfl, Nat.le_add_right _ _, ?_⟩)
      have := (hfit p).2.2
      simp only
      omega
    refine ⟨q, hq, he, ?_⟩
    rw [hdone _ hmem, hold, Option.bind_some, hnew]

def cellInfo (_ : Fin 2) : ColoringInfo := ⟨1, 1, 1, ∅, ∅⟩

theorem cellColoring_owned : OwnedDual cellColoring where
  toDual := cellColoring_dual
  rank := by decide
  offsets := by decide

theorem ghost_owner_positions_cells :
    ∃ s, ReflTransGen (RemapState.Step 1) (.start fun _ => cellColoring) s ∧ s.Final 1 ∧
      ∃ tasks, allRanks (fun p => ownerPosCompaction (cellInfo p) (s.coloring p 0) p) = some tasks ∧
        ∀ steps, Interleaves steps tasks → ∃ pos,
          steps.foldlM (writePos cellInfo) (fun _ => none) = some pos ∧
          ∀ steps', Interleaves steps' (ownerPosCorrection cellInfo) → ∃ pos',
            steps'.foldlM (correctPos (sharedCorrection cellInfo pos)) pos = some pos' ∧
              pos' (0, 2) = some (1, 1) ∧ pos' (1, 2) = some (0, 1) := by
  obtain ⟨⟨s, hs, hfinal⟩, -, -⟩ := remap_all_spaces 1 (fun _ => cellColoring) fun _ _ => cellColoring_dual
  obtain ⟨tasks, htasks, hall⟩ := ghost_owner_positions (fun _ _ => cellColoring_owned) hs hfinal
    Nat.zero_lt_one (show ∀ p, Fits (cellInfo p) (cellColoring p) by decide)
  refine ⟨s, hs, hfinal, tasks, htasks, fun steps hsteps => ?_⟩
  obtain ⟨pos, hpos, hcorr⟩ := hall steps hsteps
  refine ⟨pos, hpos, fun steps' hsteps' => ?_⟩
  obtain ⟨-, pos', hpos', hghost⟩ := hcorr steps' hsteps'
  obtain ⟨q, hq, -, h0⟩ := hghost 0 0 _ rfl
  obtain ⟨r, hr, -, h1⟩ := hghost 1 0 _ rfl
  obtain rfl : q = 1 := Fin.ext hq.symm
  obtain rfl : r = 0 := Fin.ext hr.symm
  exact ⟨pos', hpos', h0, h1⟩

end Flecsi.Execution
