import Flecsi.Topology.SoundTree
import Flecsi.Topology.InsertRuns

/-!
# Runs of insertions, removals and updates

Trees stay sound over all runs in which every entity that is inserted finds room. There is none in
a leaf that asked to be coarsened and was not: the insertion reads the old request.
-/

namespace Flecsi.Topology

namespace TreeTopology

/-- The calls that change a tree. An entity that is updated has moved to `p` before. -/
inductive Update (T : IdType) (K : Type) where
  | makeEntity (p : Fin T.dimension → K)
  | insert (ent : ℕ)
  | remove (ent : ℕ)
  | update (ent : ℕ) (p : Fin T.dimension → K)

variable {T : IdType} {K : Type} [Field K] [LinearOrder K] [FloorSemiring K] (sc : BranchState → Bool) (fuel : ℕ)
  {t t₁ t' : TreeTopology T K}

def step (t : TreeTopology T K) : Update T K → Option (TreeTopology T K)
  | .makeEntity p => some (t.makeEntity p)
  | .insert ent => t.insert fuel ent
  | .remove ent => t.remove sc fuel ent
  | .update ent p => (t.move ent p).update sc fuel ent

def runUpdates (t : TreeTopology T K) (calls : List (Update T K)) : Option (TreeTopology T K) :=
  calls.foldlM (step sc fuel) t

/-- The leaf on an entity's path has no request and at most one other entity, on another path. -/
def HasRoom (t : TreeTopology T K) (ent : ℕ) : Prop :=
  ∀ x b, Leaf t x b → x <+: t.pathOf ent →
    b.action = .none ∧ b.ents.length ≤ 1 ∧ ∀ i ∈ b.ents, t.pathOf i ≠ t.pathOf ent

/-- What a call expects of the tree. -/
def Fits (t : TreeTopology T K) : Update T K → Prop
  | .makeEntity _ => True
  | .insert ent => ent < t.points.length ∧ ¬Held t ent ∧ HasRoom t ent
  | .remove ent => Held t ent
  | .update ent p => Held t ent ∧ ∀ id, t.branchId ent = some id → T.ofPoint t.range p (T.depth id) ≠ id →
      ∀ t₁, (t.move ent p).remove sc fuel ent = some t₁ → HasRoom t₁ ent

def FitsAll : TreeTopology T K → List (Update T K) → Prop
  | _, [] => True
  | t, c :: calls => Fits sc fuel t c ∧ ∀ t', step sc fuel t c = some t' → FitsAll t' calls

/-- The stored ids are those of the entities, cut off at the depth of their leaves. -/
def TruncatedIds (t : TreeTopology T K) : Prop :=
  ∀ x b, Leaf t x b → ∀ k ∈ b.ents, ∀ p, t.points[k]? = some p →
    t.branchId k = some (T.truncate (T.ofPoint t.range p T.max_depth) (T.depth b.id))

-- ---------------------------------------------------------------------------
-- Entities are made
-- ---------------------------------------------------------------------------

theorem pathOf_makeEntity (p : Fin T.dimension → K) (hk : k < t.points.length) :
    (t.makeEntity p).pathOf k = t.pathOf k := by
  have hpoint : (t.makeEntity p).points[k]? = t.points[k]? := by
    rw [points_makeEntity, List.getElem?_append_left hk]
  simp only [pathOf, hpoint]
  rfl

theorem Sound.empty (range : Range K T.dimension) : Sound (TreeTopology.empty range) := by
  refine ⟨⟨Shape.empty range, fun x b hb hnode => ?_, fun x b hx => ?_, fun x b hx => ?_, fun x y b b' k hx _ hk _ => ?_,
    fun x b hx k hk => ?_, fun k hk _ => ?_⟩, fun x b hx k hk => ?_⟩
  · obtain ⟨-, rfl⟩ := branch_empty hb
    cases hnode
  · obtain ⟨-, rfl⟩ := branch_empty hx.1
    exact List.nodup_nil
  · obtain ⟨-, rfl⟩ := branch_empty hx.1
    exact .inl rfl
  · obtain ⟨-, rfl⟩ := branch_empty hx.1
    cases hk
  · obtain ⟨-, rfl⟩ := branch_empty hx.1
    cases hk
  · cases hk
  · obtain ⟨-, rfl⟩ := branch_empty hx.1
    cases hk

theorem Sound.makeEntity (h : Sound t) (p : Fin T.dimension → K) : Sound (t.makeEntity p) := by
  have hs := h.stored.shape
  have hid {k : ℕ} (hk : k < t.points.length) : (t.makeEntity p).branchId k = t.branchId k := by
    have hlt : k < t.entities.length := by simpa [points] using hk
    simp [branchId, TreeTopology.makeEntity, List.getElem?_append_left hlt]
  have hlt {x b k} (hx : Leaf t x b) (hk : k ∈ b.ents) : k < t.points.length :=
    lt_of_branchId (h.stored.ids x b hx k hk)
  refine ⟨⟨⟨hs.root, hs.branch, hs.depth, hs.child, hs.map⟩, h.stored.node, h.stored.nodup, h.stored.action,
    h.stored.unique, fun x b hx k hk => ?_, fun k hk hnot => ?_⟩, fun x b hx k hk => ?_⟩
  · rw [hid (hlt hx hk)]
    exact h.stored.ids x b hx k hk
  · rw [points_makeEntity, List.length_append, List.length_singleton] at hk
    obtain hold | rfl := Nat.lt_succ_iff_lt_or_eq.mp hk
    · rw [hid hold]
      exact h.stored.null k hold hnot
    · simp [branchId, TreeTopology.makeEntity, points]
  · rw [pathOf_makeEntity p (hlt hx hk)]
    exact h.onPath x b hx k hk

-- ---------------------------------------------------------------------------
-- Entities move
-- ---------------------------------------------------------------------------

omit [Field K] [FloorSemiring K] in
theorem branchId_move (t : TreeTopology T K) (ent : ℕ) (p : Fin T.dimension → K) (k : ℕ) :
    (t.move ent p).branchId k = t.branchId k := by
  simp only [branchId, TreeTopology.move, List.getElem?_modify]
  by_cases hk : ent = k
  · subst hk
    cases t.entities[ent]? <;> simp
  · simp [hk]

omit [Field K] [FloorSemiring K] in
theorem getElem?_points_move (t : TreeTopology T K) (ent : ℕ) (p : Fin T.dimension → K) (k : ℕ) :
    (t.move ent p).points[k]? = if k = ent then (t.points[k]?).map fun _ => p else t.points[k]? := by
  simp only [points, TreeTopology.move, List.getElem?_map, List.getElem?_modify]
  by_cases hk : k = ent
  · subst hk
    cases t.entities[k]? <;> simp
  · simp [hk, Ne.symm hk]

theorem pathOf_move_of_ne (p : Fin T.dimension → K) (hk : k ≠ ent) : (t.move ent p).pathOf k = t.pathOf k := by
  simp only [pathOf, getElem?_points_move, if_neg hk]
  rfl

theorem pathOf_move_self (p : Fin T.dimension → K) (hk : ent < t.points.length) :
    (t.move ent p).pathOf ent = place t.range p := by
  have hpoint : (t.move ent p).points[ent]? = some p := by
    rw [getElem?_points_move, if_pos rfl, List.getElem?_eq_getElem hk]
    rfl
  exact pathOf_eq hpoint

omit [Field K] [FloorSemiring K] in
/-- Where entities are stored does not depend on their coordinates. -/
theorem Stored.move (h : Stored t) (ent : ℕ) (p : Fin T.dimension → K) : Stored (t.move ent p) := by
  have hs := h.shape
  refine ⟨⟨hs.root, hs.branch, hs.depth, hs.child, hs.map⟩, h.node, h.nodup, h.action, h.unique,
    fun x b hx k hk => ?_, fun k hk hnot => ?_⟩
  · rw [branchId_move]
    exact h.ids x b hx k hk
  · rw [branchId_move]
    refine h.null k ?_ hnot
    simpa [points, TreeTopology.move] using hk

-- ---------------------------------------------------------------------------
-- The steps
-- ---------------------------------------------------------------------------

theorem Sound.exists_room (h : Sound t) (hlt : ent < t.points.length) (hroom : HasRoom t ent) :
    ∃ a b, Room t a b ent := by
  obtain ⟨hpath, hlen⟩ := pathOf_path hlt
  obtain ⟨a, b, hleaf, ha⟩ := h.stored.shape.exists_leaf hpath hlen
  obtain ⟨hquiet, hfew, hpart⟩ := hroom a b hleaf ha
  refine ⟨a, b, h.stored.shape, hleaf, hquiet, hfew, fun k hk => ?_, hpart⟩
  obtain hk | hk := List.mem_append.mp hk
  · exact ⟨lt_of_branchId (h.stored.ids a b hleaf k hk), h.onPath a b hleaf k hk⟩
  · rw [List.mem_singleton.mp hk]
    exact ⟨hlt, ha⟩

theorem Sound.insert (h : Sound t) (hfuel : T.max_depth < fuel) (hlt : ent < t.points.length) (hnew : ¬Held t ent)
    (hroom : HasRoom t ent) : ∃ t', t.insert fuel ent = some t' ∧ Sound t' ∧ (¬Asked t → ¬Asked t') := by
  obtain ⟨a, b, hr⟩ := h.exists_room hlt hroom
  obtain ⟨t', hrun, hd⟩ := hr.insert hfuel
  obtain ⟨hs, hpending⟩ := h.divided hr hd hnew
  exact ⟨t', hrun, hs, fun hnot ⟨x, b', hx, hask, hne⟩ => hnot ⟨x, b', hpending x b' hx hask, hask, hne⟩⟩

theorem Sound.remove (h : Sound t) (hfuel : T.max_depth < fuel) (hent : Held t ent) :
    ∃ t', t.remove sc fuel ent = some t' ∧ Sound t' ∧ ((∀ b, sc b = true) → ¬Asked t → ¬Asked t') := by
  obtain ⟨t', hrun, hs, hlift, -, hpending⟩ := h.stored.remove sc hent hfuel
  refine ⟨t', hrun, ⟨hs, fun x b hx k hk => ?_⟩, hpending⟩
  obtain ⟨y, b', hy, hk, hxy⟩ := hlift.up x b k hx hk
  rw [pathOf_congr hlift.range hlift.points]
  exact hxy.trans (h.onPath y b' hy k hk)

/-- An entity that left its branch is removed, and inserted again if there is room. -/
theorem Sound.update (h : Sound t) (hfuel : T.max_depth < fuel) (p : Fin T.dimension → K)
    (hfits : Fits sc fuel t (.update ent p)) : ∃ t', (t.move ent p).update sc fuel ent = some t' ∧ Sound t' ∧
      ((∀ b, sc b = true) → ¬Asked t → ¬Asked t') := by
  obtain ⟨hent, hroom⟩ := hfits
  obtain ⟨a, b, hleaf, hmem⟩ := hent
  have hid := h.stored.ids a b hleaf ent hmem
  have hlt := lt_of_branchId hid
  obtain ⟨hpath, -, hnumber⟩ := h.stored.shape.branch hleaf.1
  have hst : Stored (t.move ent p) := h.stored.move ent p
  obtain ⟨e, he, hcoords, hbid⟩ : ∃ e, (t.move ent p).entities[ent]? = some e ∧ e.coordinates = p ∧ e.branch_id = b.id := by
    obtain ⟨e, he, hbid⟩ := Option.map_eq_some_iff.mp hid
    exact ⟨{ e with coordinates := p }, by simp [TreeTopology.move, he], rfl, hbid⟩
  have hrange : (t.move ent p).range = t.range := rfl
  rw [TreeTopology.update, he]
  simp only [Option.bind_eq_bind, Option.bind_some, hcoords, hbid, hrange]
  split
  · -- it is still in its leaf's cell
    rename_i hsame
    refine ⟨_, rfl, ⟨hst, fun x b' hx k hk => ?_⟩, fun _ hnot => hnot⟩
    by_cases hk' : k = ent
    · subst hk'
      obtain rfl := h.stored.unique x a b' b k hx hleaf hk hmem
      rw [pathOf_move_self p hlt]
      rw [hnumber, IdType.depth_number hpath.child, ofPoint_eq _ _ hpath.length] at hsame
      have heq := IdType.number_injective hpath.child ((place_path t.range p).take x.length).child hsame
      rw [heq]
      exact List.take_prefix _ _
    · rw [pathOf_move_of_ne p hk']
      exact h.onPath x b' hx k hk
  · rename_i hleft
    obtain ⟨t₁, hremove, hs, hlift, hheld, hpending⟩ := hst.remove sc ⟨a, b, hleaf, hmem⟩ hfuel
    have hsound : Sound t₁ := by
      refine ⟨hs, fun x b' hx k hk => ?_⟩
      have hne : k ≠ ent := ((hheld k).mp ⟨x, b', hx, hk⟩).2
      obtain ⟨y, b'', hy, hk, hxy⟩ := hlift.up x b' k hx hk
      rw [pathOf_congr hlift.range hlift.points, pathOf_move_of_ne p hne]
      exact hxy.trans (h.onPath y b'' hy k hk)
    have hlt₁ : ent < t₁.points.length := by
      rw [hlift.points]
      simpa [points, TreeTopology.move] using hlt
    obtain ⟨t', hinsert, hs', hpending'⟩ := hsound.insert fuel hfuel hlt₁ (fun hk => ((hheld ent).mp hk).2 rfl)
      (hroom b.id hid (fun heq => hleft heq.symm) t₁ hremove)
    exact ⟨t', by rw [hremove]; exact hinsert, hs', fun hagrees hnot => hpending' (hpending hagrees hnot)⟩

/-- A call that fits. -/
theorem Sound.step (h : Sound t) (hfuel : T.max_depth < fuel) {c : Update T K} (hfits : Fits sc fuel t c) :
    ∃ t', step sc fuel t c = some t' ∧ Sound t' ∧ ((∀ b, sc b = true) → ¬Asked t → ¬Asked t') := by
  cases c with
  | makeEntity p => exact ⟨_, rfl, h.makeEntity p, fun _ hnot => hnot⟩
  | insert ent =>
    obtain ⟨hlt, hnew, hroom⟩ := hfits
    obtain ⟨t', hrun, hs, hpending⟩ := h.insert fuel hfuel hlt hnew hroom
    exact ⟨t', hrun, hs, fun _ => hpending⟩
  | remove ent => exact h.remove sc fuel hfuel hfits
  | update ent p => exact h.update sc fuel hfuel p hfits

theorem Sound.runUpdates (hfuel : T.max_depth < fuel) (calls : List (Update T K)) :
    ∀ {t : TreeTopology T K}, Sound t → FitsAll sc fuel t calls →
      ∃ t', runUpdates sc fuel t calls = some t' ∧ Sound t' ∧ ((∀ b, sc b = true) → ¬Asked t → ¬Asked t') := by
  induction calls with
  | nil => exact fun h _ => ⟨_, rfl, h, fun _ hnot => hnot⟩
  | cons c calls ih =>
    intro t h hfits
    obtain ⟨t₁, hstep, h₁, hpending⟩ := h.step sc fuel hfuel hfits.1
    obtain ⟨t', hrun, h', hpending'⟩ := ih h₁ (hfits.2 t₁ hstep)
    refine ⟨t', ?_, h', fun hagrees hnot => hpending' hagrees (hpending hagrees hnot)⟩
    rw [TreeTopology.runUpdates, List.foldlM_cons, hstep]
    exact hrun

theorem Sound.truncatedIds (h : Sound t) : TruncatedIds t := by
  intro x b hx k hk p hp
  obtain ⟨hpath, -, hid⟩ := h.stored.shape.branch hx.1
  have hprefix := h.onPath x b hx k hk
  rw [pathOf_eq hp] at hprefix
  rw [h.stored.ids x b hx k hk, hid, IdType.depth_number hpath.child, ofPoint_eq _ _ le_rfl,
    IdType.truncate_number ((place_path t.range p).take _).child, List.take_take, Nat.min_eq_left hpath.length,
    ← List.prefix_iff_eq_take.mp hprefix]

/-- An insertion into a leaf with a request returns nothing, however deep it may go. -/
theorem Sound.insert_asked (h : Sound t) (hlt : ent < t.points.length) (hleaf : Leaf t x b) (hx : x <+: t.pathOf ent)
    (hask : b.action = .coarsen) (fuel : ℕ) : t.insert fuel ent = none := by
  have hempty : b.ents = [] := by
    obtain hnone | ⟨-, hempty⟩ := h.stored.action x b hleaf
    · rw [hnone] at hask
      cases hask
    · exact hempty
  have hs := h.stored.shape
  refine (insertWith_pathOf (refine fuel) hs hleaf hlt hx hs.depth (hs.branch hleaf.1).2.1).trans ?_
  have haction : (b.insert ent).action = .coarsen := by simp [BranchState.insert, hempty, hask]
  rw [haction]

/-- Over all runs whose calls fit, trees are sound: every inserted entity is in exactly one leaf, whose
id it has and is cut off from its own, and all others have the null id. Only the root is left with
a request if the policy always agrees to coarsen, and what is inserted where there is one fails. -/
theorem updates_sound (range : Range K T.dimension) {fuel : ℕ} (hfuel : T.max_depth < fuel) {calls : List (Update T K)}
    (hfits : FitsAll sc fuel (empty range) calls) : ∃ t, runUpdates sc fuel (empty range) calls = some t ∧ Sound t ∧
      TruncatedIds t ∧ ((∀ b, sc b = true) → ¬Asked t) ∧ ∀ ent < t.points.length, ∀ x b, Leaf t x b →
        x <+: t.pathOf ent → b.action = .coarsen → ∀ fuel, t.insert fuel ent = none := by
  obtain ⟨t, hrun, h, hpending⟩ := (Sound.empty range).runUpdates sc fuel hfuel calls hfits
  refine ⟨t, hrun, h, h.truncatedIds, fun hagrees => hpending hagrees ?_, fun ent hlt x b hleaf hx hask =>
    h.insert_asked hlt hleaf hx hask⟩
  rintro ⟨x, b, hx, -, hne⟩
  have hsome : ((empty range).branches x).isSome := by rw [hx.1]; rfl
  unfold empty at hsome
  dsimp only at hsome
  rw [if_neg hne] at hsome
  cases hsome

/-- Two entities are inserted and one is removed, which coarsens the root. -/
def insertedAndRemoved (p q : Fin T.dimension → K) : List (Update T K) :=
  [.makeEntity p, .makeEntity q, .insert 0, .insert 1, .remove 1]

theorem fitsAll_insertedAndRemoved (range : Range K T.dimension) {p q : Fin T.dimension → K}
    (hne : place range p ≠ place range q) (hfuel : T.max_depth < fuel) :
    FitsAll sc fuel (empty range) (insertedAndRemoved p q) := by
  have hs : Sound (((empty range).makeEntity p).makeEntity q) := ((Sound.empty range).makeEntity p).makeEntity q
  have hpath : (((empty range).makeEntity p).makeEntity q).pathOf 0 ≠ (((empty range).makeEntity p).makeEntity q).pathOf 1 :=
    hne
  have hents {x b} (hx : Leaf (((empty range).makeEntity p).makeEntity q) x b) : b = ⟨T.root, .none, [], false⟩ := by
    have hb : (empty range).branches x = some b := hx.1
    exact (branch_empty hb).2
  have hnone (k : ℕ) : ¬Held (((empty range).makeEntity p).makeEntity q) k := by
    rintro ⟨x, b, hx, hk⟩
    rw [hents hx] at hk
    cases hk
  have hroom : HasRoom (((empty range).makeEntity p).makeEntity q) 0 := by
    intro x b hx _
    rw [hents hx]
    exact ⟨rfl, Nat.zero_le 1, nofun⟩
  refine ⟨trivial, fun t₁ h₁ => ⟨trivial, fun t₂ h₂ => ?_⟩⟩
  obtain rfl := Option.some_inj.mp h₁
  obtain rfl := Option.some_inj.mp h₂
  refine ⟨⟨Nat.zero_lt_two, hnone 0, hroom⟩, fun t₃ h₃ => ?_⟩
  obtain ⟨a, b, hr⟩ := hs.exists_room Nat.zero_lt_two hroom
  obtain ⟨t', hrun, hd⟩ := hr.insert hfuel
  obtain rfl : t' = t₃ := Option.some_inj.mp (hrun.symm.trans h₃)
  have hs₃ := (hs.divided hr hd (hnone 0)).1
  have hpath₃ : t'.pathOf = (((empty range).makeEntity p).makeEntity q).pathOf := pathOf_congr hd.range hd.points
  have hlt : 1 < t'.points.length := by
    rw [hd.points]
    exact Nat.one_lt_two
  have hheld (k : ℕ) : Held t' k ↔ k = 0 := (hr.held_iff hd k).trans (or_iff_right (hnone k))
  have hroom₃ : HasRoom t' 1 := by
    intro x b' hx _
    refine ⟨?_, ?_, fun i hi => ?_⟩
    · obtain hquiet | ⟨hask, -⟩ := hs₃.stored.action x b' hx
      · exact hquiet
      · have hold := hents ((hs.divided hr hd (hnone 0)).2 x b' hx hask)
        rw [hold] at hask
        cases hask
    · have hsub : b'.ents ⊆ [0] := fun k hk => List.mem_singleton.mpr ((hheld k).mp ⟨x, b', hx, hk⟩)
      exact ((hs₃.stored.nodup x b' hx).subperm hsub).length_le
    · rw [(hheld i).mp ⟨x, b', hx, hi⟩, hpath₃]
      exact hpath
  refine ⟨⟨hlt, fun hk => absurd ((hheld 1).mp hk) Nat.one_ne_zero, hroom₃⟩, fun t₄ h₄ => ?_⟩
  obtain ⟨a', b', hr'⟩ := hs₃.exists_room hlt hroom₃
  obtain ⟨t'', hrun', hd'⟩ := hr'.insert hfuel
  obtain rfl : t'' = t₄ := Option.some_inj.mp (hrun'.symm.trans h₄)
  exact ⟨(hr'.held_iff hd' 1).mpr (.inr rfl), fun _ _ => trivial⟩

theorem corner_ne_middle : place IdType.unitSquare (fun _ => (0 : ℚ)) ≠ place IdType.unitSquare fun _ => 1 / 2 := by
  intro heq
  have hcoords := (IdType.encode_eq_iff _ _ le_rfl).mp ((place_eq_iff _ _ _).mp heq) ⟨0, by decide⟩
  norm_num [IdType.coords, IdType.unitSquare, IdType.uint64x2, IdType.max_depth, IdType.bits] at hcoords

theorem updates_sound_middle : ∃ t, runUpdates (fun _ => true) 33 (empty IdType.unitSquare)
    (insertedAndRemoved (fun _ => 0) fun _ => 1 / 2) = some t ∧ Sound t := by
  obtain ⟨t, hrun, h, -⟩ := updates_sound (fun _ => true) IdType.unitSquare (by decide)
    (fitsAll_insertedAndRemoved (fun _ => true) 33 IdType.unitSquare corner_ne_middle (by decide))
  exact ⟨t, hrun, h⟩

end TreeTopology

end Flecsi.Topology
