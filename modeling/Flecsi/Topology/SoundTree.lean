import Flecsi.Topology.CoarsenedBranch

/-!
# Sound trees

In a sound tree every inserted entity stands in one leaf, on its path, and knows it; all other
branches are empty. Insertion, removal and update keep a tree sound as long as an inserted entity
finds a leaf with at most one other in it.
-/

namespace Flecsi.Topology

namespace TreeTopology

section
variable {T : IdType} {K : Type} [LT K] {t t₁ t' : TreeTopology T K}

/-- Where the entities are, whatever their coordinates. -/
structure Stored (t : TreeTopology T K) : Prop where
  shape : Shape t
  node : ∀ x b, t.branches x = some b → b.hasChildren = true → b.ents = [] ∧ b.action = .none
  nodup : ∀ x b, Leaf t x b → b.ents.Nodup
  action : ∀ x b, Leaf t x b → b.action = .none ∨ b.action = .coarsen ∧ b.ents = []
  unique : ∀ x y b b' k, Leaf t x b → Leaf t y b' → k ∈ b.ents → k ∈ b'.ents → x = y
  ids : ∀ x b, Leaf t x b → ∀ k ∈ b.ents, t.branchId k = some b.id
  null : ∀ k < t.points.length, ¬Held t k → t.branchId k = some 0

theorem Stored.held (h : Stored t) (hb : t.branches x = some b) (hk : k ∈ b.ents) : Leaf t x b := by
  refine ⟨hb, ?_⟩
  cases hnode : b.hasChildren with
  | false => rfl
  | true =>
    rw [(h.node x b hb hnode).1] at hk
    cases hk

/-- A held entity was made. -/
theorem lt_of_branchId {k id : ℕ} (hk : t.branchId k = some id) : k < t.points.length := by
  obtain ⟨e, he, -⟩ := Option.map_eq_some_iff.mp hk
  simpa [points] using (List.getElem?_eq_some_iff.mp he).1

-- ---------------------------------------------------------------------------
-- Coarsening
-- ---------------------------------------------------------------------------

/-- Entities stay, where they were or above. -/
structure Lifted (t t' : TreeTopology T K) : Prop where
  range : t'.range = t.range
  points : t'.points = t.points
  up : ∀ x b k, Leaf t' x b → k ∈ b.ents → ∃ y b', Leaf t y b' ∧ k ∈ b'.ents ∧ x <+: y

section
variable {p : Address} {parent : BranchState} {fuel : ℕ} (h : Stored t) (hp : t.branches p = some parent)
  (hnode : parent.hasChildren = true) (hfuel : T.max_depth < fuel)
include h

theorem Stored.injective (x y : Address) (b b' : BranchState) (k : ℕ) (hb : t.branches x = some b)
    (hb' : t.branches y = some b') (hk : k ∈ b.ents) (hk' : k ∈ b'.ents) : x = y :=
  h.unique x y b b' k (h.held hb hk) (h.held hb' hk') hk hk'

include hfuel in
theorem Stored.nodup_entsBelow : (listBelow (·.ents) fuel t p).Nodup := by
  refine nodup_listBelow h.shape (fun x b hb => ?_) h.injective fuel (Nat.lt_add_right _ hfuel)
  cases hchildren : b.hasChildren with
  | false => exact h.nodup x b ⟨hb, hchildren⟩
  | true =>
    rw [(h.node x b hb hchildren).1]
    exact List.nodup_nil

include hp hnode hfuel in
theorem Stored.mem_entsBelow (k : ℕ) :
    k ∈ listBelow (·.ents) fuel t p ↔ ∃ y b, p <+: y ∧ Leaf t y b ∧ k ∈ b.ents := by
  rw [mem_listBelow h.shape _ k fuel (Nat.lt_add_right _ hfuel)]
  constructor
  · rintro ⟨y, b, hpy, -, hb, hk⟩
    exact ⟨y, b, hpy, h.held hb hk, hk⟩
  · rintro ⟨y, b, hpy, ⟨hb, hleaf⟩, hk⟩
    refine ⟨y, b, hpy, ?_, hb, hk⟩
    rintro rfl
    rw [hp, Option.some_inj] at hb
    rw [← hb, hnode] at hleaf
    cases hleaf

include hp hnode in
/-- The leaves after coarsening: the branch itself, and those that are not below it. -/
theorem Stored.leaf_coarsened (hc : Coarsened t p parent es t') {x : Address} {b : BranchState} :
    Leaf t' x b ↔ x = p ∧ b = ⟨parent.id, .none, es, false⟩ ∨ ¬p <+: x ∧ Leaf t x b := by
  unfold Leaf
  by_cases hpx : p <+: x
  · by_cases hne : x = p
    · subst hne
      rw [hc.self, (h.node x parent hp hnode).1, List.nil_append]
      simp only [Option.some_inj, true_and, List.prefix_rfl, not_true_eq_false, false_and, or_false]
      constructor
      · rintro ⟨rfl, -⟩
        rfl
      · rintro rfl
        exact ⟨rfl, rfl⟩
    · rw [hc.below x hpx hne]
      simp [hpx, hne]
  · have hne : x ≠ p := fun heq => hpx (heq ▸ List.prefix_rfl)
    rw [hc.outside x hpx]
    simp [hpx, hne]

include hp hnode hfuel in
theorem Stored.held_coarsened (hc : Coarsened t p parent (listBelow (·.ents) fuel t p) t') (k : ℕ) :
    Held t' k ↔ Held t k := by
  constructor
  · rintro ⟨x, b, hx, hk⟩
    obtain ⟨rfl, rfl⟩ | ⟨-, hx⟩ := (h.leaf_coarsened hp hnode hc).mp hx
    · obtain ⟨y, b, -, hy, hk⟩ := (h.mem_entsBelow hp hnode hfuel k).mp hk
      exact ⟨y, b, hy, hk⟩
    · exact ⟨x, b, hx, hk⟩
  · rintro ⟨x, b, hx, hk⟩
    by_cases hpx : p <+: x
    · exact ⟨p, _, (h.leaf_coarsened hp hnode hc).mpr (.inl ⟨rfl, rfl⟩),
        (h.mem_entsBelow hp hnode hfuel k).mpr ⟨x, b, hpx, hx, hk⟩⟩
    · exact ⟨x, b, (h.leaf_coarsened hp hnode hc).mpr (.inr ⟨hpx, hx⟩), hk⟩

include hp hnode hfuel in
/-- Coarsening keeps all entities stored, and leaves no request at the branch. -/
theorem Stored.coarsen : ∃ t', coarsen fuel t p = some t' ∧ Stored t' ∧ Lifted t t' ∧
    (∀ k, Held t' k ↔ Held t k) ∧ ∀ x b, Leaf t' x b → b.action = .coarsen → ¬p <+: x ∧ Leaf t x b := by
  obtain ⟨t', hrun, hc⟩ := coarsen_coarsened h.shape hp hfuel
  have hmem := h.mem_entsBelow hp hnode hfuel
  have hleaf {x b} : Leaf t' x b ↔ _ := h.leaf_coarsened hp hnode hc
  have hheld := h.held_coarsened hp hnode hfuel hc
  have houtside {x b k} (hpx : ¬p <+: x) (hx : Leaf t x b) (hk : k ∈ b.ents) : k ∉ listBelow (·.ents) fuel t p := by
    intro hbelow
    obtain ⟨y, b', hpy, hy, hk'⟩ := (hmem k).mp hbelow
    exact hpx (h.unique y x b' b k hy hx hk' hk ▸ hpy)
  refine ⟨t', hrun, ⟨hc.shape h.shape hp, fun x b hb hchildren => ?_, fun x b hx => ?_, fun x b hx => ?_,
    fun x y b b' k hx hy hk hk' => ?_, fun x b hx k hk => ?_, fun k hk hnot => ?_⟩,
    ⟨hc.range, hc.points, fun x b k hx hk => ?_⟩, hheld, fun x b hx hpending => ?_⟩
  · by_cases hpx : p <+: x
    · by_cases hne : x = p
      · subst hne
        rw [hc.self, Option.some_inj] at hb
        rw [← hb] at hchildren
        cases hchildren
      · rw [hc.below x hpx hne] at hb
        cases hb
    · rw [hc.outside x hpx] at hb
      exact h.node x b hb hchildren
  · obtain ⟨rfl, rfl⟩ | ⟨-, hx⟩ := hleaf.mp hx
    · exact h.nodup_entsBelow hfuel
    · exact h.nodup x b hx
  · obtain ⟨rfl, rfl⟩ | ⟨-, hx⟩ := hleaf.mp hx
    · exact .inl rfl
    · exact h.action x b hx
  · obtain ⟨rfl, rfl⟩ | ⟨hpx, hx⟩ := hleaf.mp hx
    · obtain ⟨rfl, rfl⟩ | ⟨hpy, hy⟩ := hleaf.mp hy
      · rfl
      · exact absurd hk (houtside hpy hy hk')
    · obtain ⟨rfl, rfl⟩ | ⟨hpy, hy⟩ := hleaf.mp hy
      · exact absurd hk' (houtside hpx hx hk)
      · exact h.unique x y b b' k hx hy hk hk'
  · obtain ⟨rfl, rfl⟩ | ⟨hpx, hx⟩ := hleaf.mp hx
    · obtain ⟨y, b, -, hy, hk'⟩ := (hmem k).mp hk
      rw [hc.branchId, if_pos hk, h.ids y b hy k hk']
      rfl
    · rw [hc.branchId, if_neg (houtside hpx hx hk)]
      exact h.ids x b hx k hk
  · have hgone : k ∉ listBelow (·.ents) fuel t p := fun hk => by
      obtain ⟨y, b, -, hy, hk⟩ := (hmem k).mp hk
      exact hnot ((hheld k).mpr ⟨y, b, hy, hk⟩)
    rw [hc.branchId, if_neg hgone]
    exact h.null k (hc.points ▸ hk) fun hheld' => hnot ((hheld k).mpr hheld')
  · obtain ⟨rfl, rfl⟩ | ⟨-, hx⟩ := hleaf.mp hx
    · obtain ⟨y, b, hpy, hy, hk⟩ := (hmem k).mp hk
      exact ⟨y, b, hy, hk, hpy⟩
    · exact ⟨x, b, hx, hk, List.prefix_rfl⟩
  · obtain ⟨rfl, rfl⟩ | hx := hleaf.mp hx
    · cases hpending
    · exact hx

end

-- ---------------------------------------------------------------------------
-- Removal
-- ---------------------------------------------------------------------------

/-- A leaf without one of its entities. -/
def without (b : BranchState) (ent : ℕ) : BranchState :=
  { b with ents := b.ents.erase ent, action := if (b.ents.erase ent).isEmpty then .coarsen else .none }

/-- The entity is taken out of its leaf and forgets it. -/
def takeOut (t : TreeTopology T K) (a : Address) (b : BranchState) (ent : ℕ) : TreeTopology T K :=
  (t.modifyBranch a fun _ => without b ent).setBranchId ent 0

/-- A leaf other than the root is left with a request. -/
def Asked (t : TreeTopology T K) : Prop := ∃ x b, Leaf t x b ∧ b.action = .coarsen ∧ x ≠ []

theorem branches_takeOut_of_ne {a x : Address} (hx : x ≠ a) (b : BranchState) (ent : ℕ) :
    (t.takeOut a b ent).branches x = t.branches x := modifyBranch_of_ne t hx _

theorem branchId_takeOut (a : Address) (b : BranchState) (ent k : ℕ) :
    (t.takeOut a b ent).branchId k = if k = ent then (t.branchId k).map fun _ => 0 else t.branchId k :=
  branchId_setBranchId _ _ _ _

@[simp] theorem points_takeOut (a : Address) (b : BranchState) (ent : ℕ) : (t.takeOut a b ent).points = t.points := by
  rw [takeOut, points_setBranchId, points_modifyBranch]

section
variable {a : Address} {b : BranchState} {ent : ℕ} (h : Stored t) (hleaf : Leaf t a b) (hent : ent ∈ b.ents)
include hleaf

theorem branches_takeOut_self : (t.takeOut a b ent).branches a = some (without b ent) :=
  (modifyBranch_self t a _).trans (by rw [hleaf.1]; rfl)

theorem leaf_takeOut {x : Address} {b' : BranchState} :
    Leaf (t.takeOut a b ent) x b' ↔ x = a ∧ b' = without b ent ∨ x ≠ a ∧ Leaf t x b' := by
  unfold Leaf
  by_cases hx : x = a
  · subst hx
    rw [branches_takeOut_self hleaf]
    simp only [Option.some_inj, true_and, ne_eq, not_true_eq_false, false_and, or_false]
    constructor
    · rintro ⟨rfl, -⟩
      rfl
    · rintro rfl
      exact ⟨rfl, hleaf.2⟩
  · rw [branches_takeOut_of_ne hx]
    simp [hx]

theorem Shape.takeOut (hs : Shape t) : Shape (t.takeOut a b ent) := by
  have hsame : (t.modifyBranch a fun _ => without b ent) = t.modifyBranch a fun b' =>
      { b' with ents := (without b ent).ents, action := (without b ent).action } := by
    simp only [TreeTopology.modifyBranch, hleaf.1]
    rfl
  unfold TreeTopology.takeOut
  rw [hsame]
  exact Shape.setBranchId (hs.modifyBranch a (f := fun b' => { b' with
    ents := (without b ent).ents, action := (without b ent).action }) (fun _ => rfl) fun _ => rfl) ent 0

theorem not_asked_takeOut (hnot : ¬Asked t) (hquiet : a = [] ∨ (without b ent).action = .none) :
    ¬Asked (t.takeOut a b ent) := by
  rintro ⟨x, b', hx, hpending, hne⟩
  obtain ⟨rfl, rfl⟩ | ⟨-, hx⟩ := (leaf_takeOut hleaf).mp hx
  · obtain hroot | hnone := hquiet
    · exact hne hroot
    · rw [hnone] at hpending
      cases hpending
  · exact hnot ⟨x, b', hx, hpending, hne⟩

include h hent

/-- What a leaf holds it held before. -/
theorem Stored.leaf_before {x : Address} {b' : BranchState} {k : ℕ} (hx : Leaf (t.takeOut a b ent) x b')
    (hk : k ∈ b'.ents) : ∃ b₀, Leaf t x b₀ ∧ k ∈ b₀.ents ∧ b₀.id = b'.id ∧ k ≠ ent := by
  obtain ⟨rfl, rfl⟩ | ⟨hne, hold⟩ := (leaf_takeOut hleaf).mp hx
  · obtain ⟨hne, hmem⟩ := (h.nodup x b hleaf).mem_erase_iff.mp hk
    exact ⟨b, hleaf, hmem, rfl, hne⟩
  · refine ⟨b', hold, hk, rfl, fun heq => hne (h.unique x a b' b k hold hleaf hk ?_)⟩
    rwa [heq]

theorem Stored.held_takeOut (k : ℕ) : Held (t.takeOut a b ent) k ↔ Held t k ∧ k ≠ ent := by
  constructor
  · rintro ⟨x, b', hx, hk⟩
    obtain ⟨b₀, hx₀, hk₀, -, hne⟩ := h.leaf_before hleaf hent hx hk
    exact ⟨⟨x, b₀, hx₀, hk₀⟩, hne⟩
  · rintro ⟨⟨x, b', hx, hk⟩, hne⟩
    by_cases hxa : x = a
    · subst hxa
      obtain rfl : b' = b := Option.some_inj.mp (hx.1.symm.trans hleaf.1)
      exact ⟨x, _, (leaf_takeOut hleaf).mpr (.inl ⟨rfl, rfl⟩), (h.nodup x b' hleaf).mem_erase_iff.mpr ⟨hne, hk⟩⟩
    · exact ⟨x, b', (leaf_takeOut hleaf).mpr (.inr ⟨hxa, hx⟩), hk⟩

theorem Lifted.takeOut : Lifted t (t.takeOut a b ent) := by
  refine ⟨rfl, points_takeOut a b ent, fun x b' k hx hk => ?_⟩
  obtain ⟨b₀, hx₀, hk₀, -⟩ := h.leaf_before hleaf hent hx hk
  exact ⟨x, b₀, hx₀, hk₀, List.prefix_rfl⟩

theorem Stored.takeOut : Stored (t.takeOut a b ent) := by
  refine ⟨h.shape.takeOut hleaf, fun x b' hb' hnode => ?_, fun x b' hx => ?_, fun x b' hx => ?_,
    fun x y b₁ b₂ k hx hy hk hk' => ?_, fun x b' hx k hk => ?_, fun k hk hnot => ?_⟩
  · by_cases hxa : x = a
    · subst hxa
      rw [branches_takeOut_self hleaf, Option.some_inj] at hb'
      rw [← hb'] at hnode
      exact absurd (hleaf.2.symm.trans hnode) Bool.noConfusion
    · rw [branches_takeOut_of_ne hxa] at hb'
      exact h.node x b' hb' hnode
  · obtain ⟨rfl, rfl⟩ | ⟨-, hx⟩ := (leaf_takeOut hleaf).mp hx
    · exact (h.nodup x b hleaf).erase ent
    · exact h.nodup x b' hx
  · obtain ⟨rfl, rfl⟩ | ⟨-, hx⟩ := (leaf_takeOut hleaf).mp hx
    · cases hempty : (b.ents.erase ent).isEmpty with
      | true => exact .inr ⟨by rw [without, hempty]; rfl, List.isEmpty_iff.mp hempty⟩
      | false => exact .inl (by rw [without, hempty]; rfl)
    · exact h.action x b' hx
  · obtain ⟨b₁', hx₁, hk₁, -⟩ := h.leaf_before hleaf hent hx hk
    obtain ⟨b₂', hy₂, hk₂, -⟩ := h.leaf_before hleaf hent hy hk'
    exact h.unique x y b₁' b₂' k hx₁ hy₂ hk₁ hk₂
  · obtain ⟨b₀, hx₀, hk₀, hid, hne⟩ := h.leaf_before hleaf hent hx hk
    rw [branchId_takeOut, if_neg hne, h.ids x b₀ hx₀ k hk₀, hid]
  · rw [branchId_takeOut]
    by_cases hke : k = ent
    · subst hke
      rw [if_pos rfl, h.ids a b hleaf k hent]
      rfl
    · rw [if_neg hke]
      refine h.null k ?_ fun hk' => hnot ((h.held_takeOut hleaf hent k).mpr ⟨hk', hke⟩)
      rwa [points_takeOut] at hk

/-- The call takes the entity out, and what follows is decided by what is left in the leaf. -/
theorem Stored.remove_eq (sc : BranchState → Bool) (fuel : ℕ) :
    t.remove sc fuel ent = afterRemoval sc fuel (t.takeOut a b ent) a (without b ent).action := by
  have hbranch := h.shape.branch hleaf.1
  obtain ⟨e, he, hid⟩ := Option.map_eq_some_iff.mp (h.ids a b hleaf ent hent)
  have hmap : t.branch_map b.id = some a := (h.shape.map b.id a).mpr ⟨by rw [hleaf.1]; rfl, hbranch.2.2⟩
  have haction : b.action = .none := (h.action a b hleaf).resolve_right fun hnone => by
    rw [hnone.2] at hent
    cases hent
  have hne : b.id ≠ 0 := hbranch.2.2 ▸ IdType.number_ne_zero a
  have hremove : b.remove ent = some (without b ent) := by
    rw [BranchState.remove, if_pos hent, haction]
    rfl
  rw [TreeTopology.remove, he]
  simp only [Option.bind_eq_bind, Option.bind_some, hid, if_neg hne, hmap, hleaf.1, hremove]
  rfl

end

theorem Lifted.trans {t'' : TreeTopology T K} (h : Lifted t t') (h' : Lifted t' t'') : Lifted t t'' := by
  refine ⟨h'.range.trans h.range, h'.points.trans h.points, fun x b k hx hk => ?_⟩
  obtain ⟨y, b', hy, hk, hxy⟩ := h'.up x b k hx hk
  obtain ⟨z, b'', hz, hk, hyz⟩ := h.up y b' k hy hk
  exact ⟨z, b'', hz, hk, hxy.trans hyz⟩

/-- Removal of an entity that is stored. -/
theorem Stored.remove (h : Stored t) (sc : BranchState → Bool) (hent : Held t ent) (hfuel : T.max_depth < fuel) :
    ∃ t', t.remove sc fuel ent = some t' ∧ Stored t' ∧ Lifted t t' ∧ (∀ k, Held t' k ↔ Held t k ∧ k ≠ ent) ∧
      ((∀ b, sc b = true) → ¬Asked t → ¬Asked t') := by
  obtain ⟨a, b, hleaf, hmem⟩ := hent
  have h₁ := h.takeOut hleaf hmem
  have hlift := Lifted.takeOut h hleaf hmem
  have hheld := h.held_takeOut hleaf hmem
  rw [h.remove_eq hleaf hmem]
  cases hempty : (b.ents.erase ent).isEmpty with
  | false =>
    -- others are left in the leaf
    have hquiet : (without b ent).action = .none := by rw [without, hempty]; rfl
    rw [hquiet]
    exact ⟨_, rfl, h₁, hlift, hheld, fun _ hnot => not_asked_takeOut hleaf hnot (.inr hquiet)⟩
  | true =>
    have hcoarsen : (without b ent).action = .coarsen := by rw [without, hempty]; rfl
    rw [hcoarsen, afterRemoval]
    by_cases hroot : a = []
    · rw [if_pos hroot]
      exact ⟨_, rfl, h₁, hlift, hheld, fun _ hnot => not_asked_takeOut hleaf hnot (.inl hroot)⟩
    · rw [if_neg hroot]
      have hbelow : a.dropLast <+: a := List.dropLast_prefix a
      have hproper : a.dropLast ≠ a := fun heq => by
        have hlen := congrArg List.length heq
        rw [List.length_dropLast] at hlen
        exact hroot (List.eq_nil_of_length_eq_zero (by omega))
      have hsome : ((t.takeOut a b ent).branches a).isSome :=
        (isSome_modifyBranch t a a _).trans (by rw [hleaf.1]; rfl)
      obtain ⟨parent, hp, hnode⟩ := h₁.shape.node_of_prefix hbelow hproper hsome
      rw [hp]
      simp only [Option.bind_eq_bind, Option.bind_some]
      split
      · obtain ⟨t', hrun', h', hlift', hheld', hpending'⟩ := h₁.coarsen hp hnode hfuel
        refine ⟨t', hrun', h', hlift.trans hlift', fun k => (hheld' k).trans (hheld k), ?_⟩
        rintro - hnot ⟨x, b', hx, hpending, hne⟩
        obtain ⟨hpx, hx⟩ := hpending' x b' hx hpending
        obtain ⟨rfl, rfl⟩ | ⟨-, hx⟩ := (leaf_takeOut hleaf).mp hx
        · exact hpx hbelow
        · exact hnot ⟨x, b', hx, hpending, hne⟩
      · exact ⟨_, rfl, h₁, hlift, hheld, fun hagrees => absurd (hagrees parent) ‹_›⟩

end

variable {T : IdType} {K : Type} [Field K] [LinearOrder K] [FloorSemiring K]
  {t t₁ t' : TreeTopology T K}

/-- The entities are in leaves on their paths. -/
structure Sound (t : TreeTopology T K) : Prop where
  stored : Stored t
  onPath : ∀ x b, Leaf t x b → ∀ k ∈ b.ents, x <+: t.pathOf k

-- ---------------------------------------------------------------------------
-- Insertion
-- ---------------------------------------------------------------------------

theorem leaf_dividedBranch {es : List ℕ} {x : Address} (h : (t.dividedBranch es x).hasChildren = false) :
    t.dividedBranch es x = ⟨T.number x, .none, t.below es x, false⟩ ∧ (t.below es x).length ≤ 1 := by
  unfold dividedBranch at h ⊢
  split at h
  · rename_i hlen
    rw [if_pos hlen]
    exact ⟨rfl, hlen⟩
  · cases h

section
variable {a : Address} {b : BranchState} {ent : ℕ} (h : Room t a b ent) (hd : Divided t a (b.ents ++ [ent]) t')
include h hd

/-- The leaf on the path of a divided entity. -/
theorem Room.exists_leaf {k : ℕ} (hk : k ∈ b.ents ++ [ent]) : ∃ x b', a <+: x ∧ Leaf t' x b' ∧ k ∈ b'.ents := by
  obtain ⟨hlt, hak⟩ := h.valid k hk
  obtain ⟨hpath, hlen⟩ := pathOf_path hlt
  obtain ⟨x, b', hleaf, hx⟩ := hd.shape.exists_leaf hpath hlen
  have hax : a <+: x := by
    by_contra hnot
    have hold : Leaf t x b' := by rwa [Leaf, ← hd.outside x hnot]
    exact hnot (h.shape.leaf_unique h.leaf hold hak hx ▸ List.prefix_rfl)
  refine ⟨x, b', hax, hleaf, ?_⟩
  have hb' := hd.branch x b' hax hleaf.1
  rw [hb', (leaf_dividedBranch (hb' ▸ hleaf.2)).1]
  exact mem_below.mpr ⟨hk, hx⟩

theorem Room.held_iff (k : ℕ) : Held t' k ↔ Held t k ∨ k = ent := by
  constructor
  · rintro ⟨x, b', hleaf, hk⟩
    by_cases hax : a <+: x
    · rw [hd.branch x b' hax hleaf.1] at hk
      obtain hk | hk := List.mem_append.mp (mem_dividedBranch hk).1
      · exact .inl ⟨a, b, h.leaf, hk⟩
      · exact .inr (List.mem_singleton.mp hk)
    · exact .inl ⟨x, b', by rwa [Leaf, ← hd.outside x hax], hk⟩
  · rintro (⟨x, b', hleaf, hk⟩ | rfl)
    · by_cases hax : a <+: x
      · obtain ⟨rest, rfl⟩ := hax
        obtain rfl : rest = [] := h.shape.below_leaf h.leaf (by rw [hleaf.1]; rfl)
        rw [List.append_nil] at hleaf
        obtain rfl : b' = b := Option.some_inj.mp (hleaf.1.symm.trans h.leaf.1)
        obtain ⟨x, b₁, -, hx, hk⟩ := h.exists_leaf hd (List.mem_append_left [ent] hk)
        exact ⟨x, b₁, hx, hk⟩
      · exact ⟨x, b', by rwa [Leaf, hd.outside x hax], hk⟩
    · obtain ⟨x, b₁, -, hx, hk⟩ := h.exists_leaf hd (List.mem_append_right b.ents (List.mem_singleton_self k))
      exact ⟨x, b₁, hx, hk⟩

/-- An insertion keeps a tree sound and leaves no request in the leaves it made. -/
theorem Sound.divided (hs : Sound t) (hnew : ¬Held t ent) : Sound t' ∧
    ∀ x b', Leaf t' x b' → b'.action = .coarsen → Leaf t x b' := by
  have hst := hs.stored
  have hpath : t'.pathOf = t.pathOf := pathOf_congr hd.range hd.points
  -- a leaf is below the old one, or was there before
  have hcases {x b'} (hx : Leaf t' x b') : (a <+: x ∧ b' = ⟨T.number x, .none, t.below (b.ents ++ [ent]) x, false⟩ ∧
      (t.below (b.ents ++ [ent]) x).length ≤ 1) ∨ (¬a <+: x ∧ Leaf t x b') := by
    by_cases hax : a <+: x
    · have hb' := hd.branch x b' hax hx.1
      obtain ⟨heq, hlen⟩ := leaf_dividedBranch (hb' ▸ hx.2)
      exact .inl ⟨hax, hb'.trans heq, hlen⟩
    · exact .inr ⟨hax, by rwa [Leaf, ← hd.outside x hax]⟩
  have houtside {x b' k} (hax : ¬a <+: x) (hx : Leaf t x b') (hk : k ∈ b'.ents) : k ∉ b.ents ++ [ent] := by
    intro hmem
    obtain hmem | hmem := List.mem_append.mp hmem
    · exact hax (hst.unique x a b' b k hx h.leaf hk hmem ▸ List.prefix_rfl)
    · exact hnew (List.mem_singleton.mp hmem ▸ ⟨x, b', hx, hk⟩)
  have hheld := h.held_iff hd
  have honPath {x b'} (hx : Leaf t' x b') {k} (hk : k ∈ b'.ents) : x <+: t.pathOf k := by
    obtain ⟨-, rfl, -⟩ | ⟨-, hold⟩ := hcases hx
    · exact (mem_below.mp hk).2
    · exact hs.onPath x b' hold k hk
  refine ⟨⟨⟨hd.shape, fun x b' hb' hnode => ?_, fun x b' hx => ?_, fun x b' hx => ?_, fun x y b₁ b₂ k hx hy hk hk' => ?_,
    fun x b' hx k hk => ?_, fun k hk hnot => ?_⟩, fun x b' hx k hk => ?_⟩, fun x b' hx hpending => ?_⟩
  · by_cases hax : a <+: x
    · rw [hd.branch x b' hax hb'] at hnode ⊢
      unfold dividedBranch at hnode ⊢
      split at hnode
      · cases hnode
      · rename_i hmany
        rw [if_neg hmany]
        exact ⟨rfl, rfl⟩
    · exact hst.node x b' ((hd.outside x hax).symm.trans hb') hnode
  · obtain ⟨-, rfl, hlen⟩ | ⟨-, hold⟩ := hcases hx
    · exact List.nodup_iff_count_le_one.mpr fun k => List.count_le_length.trans hlen
    · exact hst.nodup x b' hold
  · obtain ⟨-, rfl, -⟩ | ⟨-, hold⟩ := hcases hx
    · exact .inl rfl
    · exact hst.action x b' hold
  · exact hd.shape.leaf_unique hx hy (honPath hx hk) (honPath hy hk')
  · obtain ⟨hax, rfl, -⟩ | ⟨hax, hold⟩ := hcases hx
    · exact hd.ids x _ hax hx k hk
    · rw [hd.others k (houtside hax hold hk)]
      exact hst.ids x b' hold k hk
  · have hold : ¬Held t k := fun hk => hnot ((hheld k).mpr (.inl hk))
    have hmem : k ∉ b.ents ++ [ent] := fun hmem => hnot ((hheld k).mpr (by
      obtain hmem | hmem := List.mem_append.mp hmem
      · exact .inl ⟨a, b, h.leaf, hmem⟩
      · exact .inr (List.mem_singleton.mp hmem)))
    rw [hd.others k hmem]
    exact hst.null k (hd.points ▸ hk) hold
  · rw [hpath]
    exact honPath hx hk
  · obtain ⟨-, rfl, -⟩ | ⟨-, hold⟩ := hcases hx
    · cases hpending
    · exact hold

end

end TreeTopology

end Flecsi.Topology
