import Flecsi.Topology.InsertDepth

/-!
# A leaf divides

What an insertion leaves below the leaf it found, in closed form: a branch has children when two
entities pass through it, and holds the one entity that does when it has none. Nothing else of
the tree changes.
-/

namespace Flecsi.Topology

namespace TreeTopology

section
variable {T : IdType} {K : Type} [LT K] {t : TreeTopology T K}

/-- The stored id of an entity. -/
def branchId (t : TreeTopology T K) (k : ℕ) : Option ℕ := (t.entities[k]?).map (·.branch_id)

/-- Above a branch there are branches with children. -/
theorem Shape.node_of_prefix (hs : Shape t) {x y : Address} (hxy : x <+: y) (hne : x ≠ y) (hy : (t.branches y).isSome) :
    ∃ b, t.branches x = some b ∧ b.hasChildren = true := by
  induction y using List.reverseRecOn with
  | nil => exact absurd (List.prefix_nil.mp hxy) hne
  | append_singleton y c ih =>
    obtain ⟨-, b, hb, hnode⟩ := (hs.child y c).mp hy
    obtain heq | hxy := List.prefix_concat_iff.mp hxy
    · exact absurd heq hne
    · by_cases hx : x = y
      · subst hx
        exact ⟨b, hb, hnode⟩
      · exact ih hxy hx (by rw [hb]; rfl)

theorem Shape.isSome_of_prefix (hs : Shape t) {x y : Address} (hxy : x <+: y) (hy : (t.branches y).isSome) :
    (t.branches x).isSome := by
  by_cases hne : x = y
  · rwa [hne]
  · obtain ⟨b, hb, -⟩ := hs.node_of_prefix hxy hne hy
    rw [hb]
    rfl

end

variable {T : IdType} {K : Type} [Field K] [LinearOrder K] [FloorSemiring K]
  {t t' : TreeTopology T K}

/-- The path of an entity. -/
def pathOf (t : TreeTopology T K) (k : ℕ) : Address := (t.points[k]?).elim [] (place t.range)

/-- The entities that pass through a branch. -/
def below (t : TreeTopology T K) (es : List ℕ) (x : Address) : List ℕ := es.filter fun k => x <+: t.pathOf k

/-- The branch at an address when the entities `es` are below. -/
def dividedBranch (t : TreeTopology T K) (es : List ℕ) (x : Address) : BranchState :=
  if (t.below es x).length ≤ 1 then ⟨T.number x, .none, t.below es x, false⟩ else ⟨T.number x, .none, [], true⟩

/-- The tree below the leaf `a` is divided among some entities. -/
structure Divided (t : TreeTopology T K) (a : Address) (es : List ℕ) (t' : TreeTopology T K) : Prop where
  shape : Shape t'
  range : t'.range = t.range
  points : t'.points = t.points
  branch : ∀ x b, a <+: x → t'.branches x = some b → b = t.dividedBranch es x
  outside : ∀ x, ¬a <+: x → t'.branches x = t.branches x
  ids : ∀ x b, a <+: x → Leaf t' x b → ∀ k ∈ b.ents, t'.branchId k = some (T.number x)
  others : ∀ k ∉ es, t'.branchId k = t.branchId k
  depth_le : t.max_depth ≤ t'.max_depth
  depth : t'.max_depth = t.max_depth ∨ ∃ x, (t'.branches x).isSome ∧ x.length = t'.max_depth

theorem pathOf_eq (hp : t.points[k]? = some p) : t.pathOf k = place t.range p := by
  rw [pathOf, hp]
  rfl

theorem pathOf_congr (hrange : t'.range = t.range) (hpoints : t'.points = t.points) : t'.pathOf = t.pathOf := by
  funext k
  simp only [pathOf, hrange, hpoints]

theorem dividedBranch_congr (h : t'.pathOf = t.pathOf) : t'.dividedBranch = t.dividedBranch := by
  funext es x
  unfold dividedBranch below
  rw [h]

@[simp] theorem mem_below {es : List ℕ} {x : Address} : k ∈ t.below es x ↔ k ∈ es ∧ x <+: t.pathOf k := by
  simp [below]

-- ---------------------------------------------------------------------------
-- One entity more in a leaf
-- ---------------------------------------------------------------------------

section
variable {a x : Address} {b : BranchState} {ent k : ℕ}

omit [Field K] [FloorSemiring K] in
theorem placed_self (hb : t.branches a = some b) : (t.placed a b ent).branches a = some (b.insert ent) := by
  rw [placed, modifyBranch_self]
  exact congrArg (Option.map _) hb

omit [Field K] [FloorSemiring K] in
theorem placed_of_ne (hx : x ≠ a) : (t.placed a b ent).branches x = t.branches x := modifyBranch_of_ne _ hx _

omit [Field K] [FloorSemiring K] in
theorem points_placed : (t.placed a b ent).points = t.points := by simp [placed]

theorem pathOf_placed : (t.placed a b ent).pathOf = t.pathOf := pathOf_congr rfl points_placed

omit [Field K] [FloorSemiring K] in
theorem branchId_placed_self (hp : t.points[ent]? = some p) : (t.placed a b ent).branchId ent = some b.id := by
  rw [points, List.getElem?_map, Option.map_eq_some_iff] at hp
  obtain ⟨e, he, -⟩ := hp
  simp [branchId, placed, setBranchId, modifyBranch, he]

omit [Field K] [FloorSemiring K] in
theorem branchId_placed_of_ne (hk : k ≠ ent) : (t.placed a b ent).branchId k = t.branchId k := by
  simp [branchId, placed, setBranchId, modifyBranch, hk.symm]

theorem prefix_child_iff {l : Address} {c d : ℕ} (h : a ++ [c] <+: l) : a ++ [d] <+: l ↔ d = c := by
  constructor
  · intro hd
    have heq := (List.prefix_of_prefix_length_le hd h (by simp)).eq_of_length (by simp)
    simpa using heq
  · rintro rfl
    exact h

/-- Below a branch: the branch itself or something below one of its children. -/
theorem prefix_cases (h : a <+: x) : x = a ∨ ∃ c, a ++ [c] <+: x := by
  obtain ⟨rest, rfl⟩ := h
  cases rest with
  | nil => exact .inl (List.append_nil a)
  | cons c rest => exact .inr ⟨c, rest, by simp⟩

omit [Field K] [FloorSemiring K] in
theorem Leaf.nothing_below (hleaf : Leaf t a b) (hs : Shape t) {c : ℕ} (hx : a ++ [c] <+: x) : t.branches x = none := by
  obtain ⟨rest, rfl⟩ := hx
  refine Option.eq_none_iff_forall_ne_some.mpr fun bx hbx => ?_
  rw [List.append_assoc] at hbx
  have hsome : (t.branches (a ++ ([c] ++ rest))).isSome := by rw [hbx]; rfl
  cases hs.below_leaf hleaf hsome

end

-- ---------------------------------------------------------------------------
-- Two entities in a leaf
-- ---------------------------------------------------------------------------

theorem exists_point (hk : k < t.points.length) : ∃ p, t.points[k]? = some p ∧ t.pathOf k = place t.range p :=
  ⟨_, List.getElem?_eq_getElem hk, pathOf_eq (List.getElem?_eq_getElem hk)⟩

theorem pathOf_path (hk : k < t.points.length) : T.Path (t.pathOf k) ∧ (t.pathOf k).length = T.max_depth := by
  obtain ⟨p, -, hp⟩ := exists_point hk
  rw [hp]
  exact ⟨place_path t.range p, length_place t.range p⟩

/-- Two entities are in the leaf `a`, and their paths part below it. -/
structure Pair (t : TreeTopology T K) (a : Address) (b : BranchState) (i j : ℕ) : Prop where
  shape : Shape t
  leaf : Leaf t a b
  ents : b.ents = [i, j]
  valid : ∀ k ∈ [i, j], k < t.points.length ∧ a <+: t.pathOf k
  part : t.pathOf i ≠ t.pathOf j

theorem Pair.lt (h : Pair t a b i j) : a.length < T.max_depth := by
  obtain ⟨hi, hai⟩ := h.valid i (by simp)
  obtain ⟨hj, haj⟩ := h.valid j (by simp)
  refine (h.shape.branch h.leaf.1).1.length.lt_of_ne fun heq => h.part ?_
  rw [← hai.eq_of_length (by rw [heq, (pathOf_path hi).2]), ← haj.eq_of_length (by rw [heq, (pathOf_path hj).2])]

/-- The child of `a` on the path of one of the two. -/
theorem Pair.exists_child (h : Pair t a b i j) (hk : k ∈ [i, j]) : ∃ c < T.numChildren, a ++ [c] <+: t.pathOf k := by
  obtain ⟨hlt, ha⟩ := h.valid k hk
  obtain ⟨hpath, hlen⟩ := pathOf_path hlt
  obtain ⟨c, hc⟩ := TreeTopology.exists_child ha (by rw [hlen]; exact h.lt)
  exact ⟨c, hpath.child c (hc.subset (by simp)), hc⟩

/-- An insertion into a leaf on the entity's path. -/
theorem insertWith_pathOf (refine : TreeTopology T K → Address → Option (TreeTopology T K)) (h : Shape t)
    (hleaf : Leaf t a b) (hent : ent < t.points.length) (ha : a <+: t.pathOf ent) (hd : d ≤ T.max_depth)
    (had : a.length ≤ d) : t.insertWith refine ent d =
      match (b.insert ent).action with
      | .none => some (t.placed a b ent)
      | .refine => refine (t.placed a b ent) a
      | .coarsen => none := by
  obtain ⟨p, hp, hpath⟩ := exists_point hent
  exact insertWith_leaf refine h hleaf hp (hpath ▸ ha) hd had

/-- The leaf is divided when its children are, and it is cleared. -/
theorem Pair.divided (h : Pair t a b i j) (hx : Expanded t a b t₀) (hshape : Shape t₁) (hrange : t₁.range = t.range)
    (hpoints : t₁.points = t.points) (hself : t₁.branches a = t₀.branches a)
    (houtside : ∀ x, ¬a <+: x → t₁.branches x = t₀.branches x)
    (hchild : ∀ c x bx, a ++ [c] <+: x → t₁.branches x = some bx → bx = t.dividedBranch [i, j] x)
    (hids : ∀ c x bx, a ++ [c] <+: x → Leaf t₁ x bx → ∀ k ∈ bx.ents, t₁.branchId k = some (T.number x))
    (hothers : ∀ k ∉ [i, j], t₁.branchId k = t.branchId k) (hdepth_le : t₀.max_depth ≤ t₁.max_depth)
    (hdepth : t₁.max_depth = t₀.max_depth ∨ ∃ x, (t₁.branches x).isSome ∧ x.length = t₁.max_depth) :
    Divided t a [i, j] (t₁.modifyBranch a cleared) := by
  have hb : t₁.branches a = some { b with hasChildren := true } := by rw [hself, hx.self]
  have hleaf {x bx} : Leaf (t₁.modifyBranch a TreeTopology.cleared) x bx ↔ Leaf t₁ x bx :=
    leaf_modifyBranch_node hb rfl (f := TreeTopology.cleared) fun _ => rfl
  refine ⟨hshape.modifyBranch a (fun _ => rfl) fun _ => rfl, hrange, hpoints, fun x bx hax hbx => ?_, fun x hax => ?_,
    fun x bx hax hbx => ?_, hothers, ?_, ?_⟩
  · obtain rfl | ⟨c, hc⟩ := prefix_cases hax
    · -- both entities pass through the leaf itself
      have hall : t.below [i, j] x = [i, j] := List.filter_eq_self.mpr fun k hk => by simpa using (h.valid k hk).2
      rw [modifyBranch_self, hb, Option.map_some, Option.some_inj] at hbx
      rw [dividedBranch, hall, if_neg (by simp), ← hbx, ← (h.shape.branch h.leaf.1).2.2]
      rfl
    · have hne : x ≠ a := by
        rintro rfl
        exact absurd hc.length_le (by simp)
      rw [modifyBranch_of_ne _ hne] at hbx
      exact hchild c x bx hc hbx
  · have hne : x ≠ a := fun heq => hax (heq ▸ List.prefix_rfl)
    have hother : ∀ c < T.numChildren, x ≠ a ++ [c] := fun c _ heq => hax (heq ▸ List.prefix_append a [c])
    rw [modifyBranch_of_ne _ hne, houtside x hax, hx.other x hne hother]
  · obtain rfl | ⟨c, hc⟩ := prefix_cases hax
    · obtain ⟨hsome, hfalse⟩ := hleaf.mp hbx
      rw [hb, Option.some_inj] at hsome
      rw [← hsome] at hfalse
      cases hfalse
    · exact hids c x bx hc (hleaf.mp hbx)
  · exact (le_max_left _ _).trans (hx.max_depth ▸ hdepth_le)
  · -- the children of the leaf are the deepest branches, unless there are deeper ones
    simp only [isSome_modifyBranch, max_depth_modifyBranch]
    obtain heq | hdeep := hdepth
    · obtain hold | hnew := le_total (a.length + 1) t.max_depth
      · exact .inl (by rw [heq, hx.max_depth, max_eq_left hold])
      · refine .inr ⟨a ++ [0], (hshape.child a 0).mpr ⟨zero_lt_one.trans T.one_lt_numChildren, _, hb, rfl⟩, ?_⟩
        rw [heq, hx.max_depth, max_eq_right hnew]
        simp
    · exact .inr hdeep

omit [Field K] [FloorSemiring K] in
theorem Expanded.below_child (hx : Expanded t a b t₀) (hs : Shape t) (hleaf : Leaf t a b) {c : ℕ} {x : Address}
    {bx : BranchState} (hax : a ++ [c] <+: x) (hbx : t₀.branches x = some bx) : x = a ++ [c] ∧ bx = freshLeaf T x := by
  have hne : x ≠ a := by
    rintro rfl
    exact absurd hax.length_le (by simp)
  by_cases hchild : ∃ d < T.numChildren, x = a ++ [d]
  · obtain ⟨d, hd, rfl⟩ := hchild
    have heq : a ++ [c] = a ++ [d] := hax.eq_of_length (by simp)
    rw [hx.child d hd, Option.some_inj] at hbx
    exact ⟨heq.symm, hbx.symm⟩
  · rw [hx.other x hne fun d hd heq => hchild ⟨d, hd, heq⟩, hleaf.nothing_below hs hax] at hbx
    cases hbx

theorem dividedBranch_of_below {es here : List ℕ} {x : Address} (h : t.below es x = here) (hlen : here.length ≤ 1) :
    t.dividedBranch es x = ⟨T.number x, .none, here, false⟩ := by
  rw [dividedBranch, h, if_pos hlen]

/-- Off both paths a child stays as it is. -/
theorem dividedBranch_off {es : List ℕ} {x : Address} (h : ∀ k ∈ es, ¬x <+: t.pathOf k) :
    t.dividedBranch es x = freshLeaf T x := by
  refine dividedBranch_of_below (List.filter_eq_nil_iff.mpr fun k hk => ?_) (Nat.zero_le 1)
  simpa using h k hk

theorem mem_dividedBranch {es : List ℕ} {x : Address} (hk : k ∈ (t.dividedBranch es x).ents) :
    k ∈ es ∧ x <+: t.pathOf k := by
  unfold dividedBranch at hk
  split at hk
  · exact mem_below.mp hk
  · cases hk

omit [Field K] [FloorSemiring K] in
theorem Expanded.points (hx : Expanded t a b t₀) : t₀.points = t.points := congrArg (List.map _) hx.entities

theorem Expanded.pathOf (hx : Expanded t a b t₀) : t₀.pathOf = t.pathOf := pathOf_congr hx.range hx.points

section
variable {t₀ : TreeTopology T K} {a : Address} {b : BranchState} {i j : ℕ} (h : Pair t a b i j)
  (hx : Expanded t a b t₀)
include h hx

/-- The first entity goes into an empty child. -/
theorem Pair.insert_left (refine : TreeTopology T K → Address → Option (TreeTopology T K)) {c : ℕ}
    (hc : c < T.numChildren) (hci : a ++ [c] <+: t.pathOf i) :
    t₀.insertWith refine i (a.length + 1) = some (t₀.placed (a ++ [c]) (freshLeaf T (a ++ [c])) i) := by
  have hnew : Leaf t₀ (a ++ [c]) (freshLeaf T (a ++ [c])) := ⟨hx.child c hc, rfl⟩
  have hi : i < t₀.points.length := hx.points ▸ (h.valid i (by simp)).1
  rw [insertWith_pathOf refine (hx.shape h.shape h.leaf h.lt) hnew hi (hx.pathOf ▸ hci) h.lt (by simp)]
  rfl

/-- The second one goes into another child. -/
theorem Pair.divided_apart {c c' : ℕ} (hc : c < T.numChildren) (hc' : c' < T.numChildren) (hne : c' ≠ c)
    (hci : a ++ [c] <+: t.pathOf i) (hcj : a ++ [c'] <+: t.pathOf j) :
    Divided t a [i, j] (((t₀.placed (a ++ [c]) (freshLeaf T (a ++ [c])) i).placed (a ++ [c'])
      (freshLeaf T (a ++ [c'])) j).modifyBranch a cleared) := by
  have hs := hx.shape h.shape h.leaf h.lt
  obtain ⟨p, hp, -⟩ := exists_point (h.valid i (by simp)).1
  obtain ⟨q, hq, -⟩ := exists_point (h.valid j (by simp)).1
  have hij : i ≠ j := fun heq => h.part (heq ▸ rfl)
  have hother {x : Address} (hx : x ≠ a ++ [c]) (hx' : x ≠ a ++ [c']) :
      ((t₀.placed (a ++ [c]) (freshLeaf T (a ++ [c])) i).placed (a ++ [c']) (freshLeaf T (a ++ [c'])) j).branches x =
        t₀.branches x := by rw [placed_of_ne hx', placed_of_ne hx]
  have hleft : ((t₀.placed (a ++ [c]) (freshLeaf T (a ++ [c])) i).placed (a ++ [c'])
      (freshLeaf T (a ++ [c'])) j).branches (a ++ [c]) = some ⟨T.number (a ++ [c]), .none, [i], false⟩ := by
    rw [placed_of_ne (by simpa using hne.symm), placed_self (hx.child c hc)]
    rfl
  have hright : ((t₀.placed (a ++ [c]) (freshLeaf T (a ++ [c])) i).placed (a ++ [c'])
      (freshLeaf T (a ++ [c'])) j).branches (a ++ [c']) = some ⟨T.number (a ++ [c']), .none, [j], false⟩ := by
    have hstored : (t₀.placed (a ++ [c]) (freshLeaf T (a ++ [c])) i).branches (a ++ [c']) =
        some (freshLeaf T (a ++ [c'])) := by rw [placed_of_ne (by simpa using hne), hx.child c' hc']
    rw [placed_self hstored]
    rfl
  have hbelow (d : ℕ) : t.below [i, j] (a ++ [d]) = (if d = c then [i] else []) ++ if d = c' then [j] else [] := by
    simp only [below, List.filter_cons, List.filter_nil, decide_eq_true_eq, prefix_child_iff hci, prefix_child_iff hcj]
    split_ifs <;> rfl
  have hbranch (d : ℕ) (x : Address) (bx : BranchState) (hax : a ++ [d] <+: x)
      (hbx : ((t₀.placed (a ++ [c]) (freshLeaf T (a ++ [c])) i).placed (a ++ [c'])
        (freshLeaf T (a ++ [c'])) j).branches x = some bx) :
      x = a ++ [d] ∧ bx = t.dividedBranch [i, j] x := by
    by_cases hxc : x = a ++ [c]
    · subst hxc
      obtain rfl : d = c := by simpa using hax.eq_of_length (by simp)
      rw [hleft, Option.some_inj] at hbx
      refine ⟨rfl, hbx.symm.trans (dividedBranch_of_below ?_ le_rfl).symm⟩
      rw [hbelow, if_pos rfl, if_neg hne.symm]
      rfl
    · by_cases hxc' : x = a ++ [c']
      · subst hxc'
        obtain rfl : d = c' := by simpa using hax.eq_of_length (by simp)
        rw [hright, Option.some_inj] at hbx
        refine ⟨rfl, hbx.symm.trans (dividedBranch_of_below ?_ le_rfl).symm⟩
        rw [hbelow, if_neg hne, if_pos rfl]
        rfl
      · rw [hother hxc hxc'] at hbx
        obtain ⟨rfl, rfl⟩ := hx.below_child h.shape h.leaf hax hbx
        have hdc : d ≠ c := fun heq => hxc (heq ▸ rfl)
        have hdc' : d ≠ c' := fun heq => hxc' (heq ▸ rfl)
        have hnone : t.below [i, j] (a ++ [d]) = [] := by rw [hbelow, if_neg hdc, if_neg hdc', List.append_nil]
        exact ⟨rfl, (dividedBranch_of_below hnone (Nat.zero_le 1)).symm⟩
  refine h.divided hx ((hs.placed _ _ i).placed _ _ j) hx.range (points_placed.trans (points_placed.trans hx.points))
    (hother (by simp) (by simp)) (fun x hax => ?_) (fun d x bx hax hbx => (hbranch d x bx hax hbx).2)
    (fun d x bx hax hbx k hk => ?_) (fun k hk => ?_) le_rfl (.inl rfl)
  · exact hother (fun heq => hax (heq ▸ List.prefix_append a [c])) fun heq => hax (heq ▸ List.prefix_append a [c'])
  · obtain ⟨rfl, rfl⟩ := hbranch d x bx hax hbx.1
    obtain ⟨hmem, hpath⟩ := mem_dividedBranch hk
    obtain rfl | rfl : k = i ∨ k = j := by simpa using hmem
    · rw [branchId_placed_of_ne hij, branchId_placed_self (by rw [hx.points, hp]), (prefix_child_iff hci).mp hpath]
      rfl
    · rw [branchId_placed_self (by rw [points_placed, hx.points, hq]), (prefix_child_iff hcj).mp hpath]
      rfl
  · simp only [List.mem_cons, List.not_mem_nil, or_false, not_or] at hk
    rw [branchId_placed_of_ne hk.2, branchId_placed_of_ne hk.1, branchId, hx.entities]
    rfl

/-- The second one goes into the same child, which holds the pair then. -/
theorem Pair.together {c : ℕ} (hc : c < T.numChildren) (hci : a ++ [c] <+: t.pathOf i) (hcj : a ++ [c] <+: t.pathOf j) :
    Pair ((t₀.placed (a ++ [c]) (freshLeaf T (a ++ [c])) i).placed (a ++ [c]) ((freshLeaf T (a ++ [c])).insert i) j)
      (a ++ [c]) (((freshLeaf T (a ++ [c])).insert i).insert j) i j := by
  have hs := hx.shape h.shape h.leaf h.lt
  have hfirst : (t₀.placed (a ++ [c]) (freshLeaf T (a ++ [c])) i).branches (a ++ [c]) =
      some ((freshLeaf T (a ++ [c])).insert i) := placed_self (hx.child c hc)
  have hpath : ((t₀.placed (a ++ [c]) (freshLeaf T (a ++ [c])) i).placed (a ++ [c])
      ((freshLeaf T (a ++ [c])).insert i) j).pathOf = t.pathOf := by
    rw [pathOf_placed, pathOf_placed, hx.pathOf]
  have hpoints : ((t₀.placed (a ++ [c]) (freshLeaf T (a ++ [c])) i).placed (a ++ [c])
      ((freshLeaf T (a ++ [c])).insert i) j).points = t.points := by
    rw [points_placed, points_placed, hx.points]
  refine ⟨(hs.placed _ _ i).placed _ _ j, ⟨placed_self hfirst, rfl⟩, rfl, fun k hk => ?_, hpath ▸ h.part⟩
  rw [hpath, hpoints]
  refine ⟨(h.valid k hk).1, ?_⟩
  obtain rfl | rfl : k = i ∨ k = j := by simpa using hk
  · exact hci
  · exact hcj

/-- The child was divided. -/
theorem Pair.divided_together {c : ℕ} (hc : c < T.numChildren) (hci : a ++ [c] <+: t.pathOf i)
    (hcj : a ++ [c] <+: t.pathOf j) (hd : Divided ((t₀.placed (a ++ [c]) (freshLeaf T (a ++ [c])) i).placed (a ++ [c])
      ((freshLeaf T (a ++ [c])).insert i) j) (a ++ [c]) [i, j] t₁) :
    Divided t a [i, j] (t₁.modifyBranch a cleared) := by
  have hdivided := dividedBranch_congr (pathOf_placed.trans (pathOf_placed.trans hx.pathOf) :
    ((t₀.placed (a ++ [c]) (freshLeaf T (a ++ [c])) i).placed (a ++ [c])
      ((freshLeaf T (a ++ [c])).insert i) j).pathOf = t.pathOf)
  have hkept {x : Address} (hx : ¬a ++ [c] <+: x) : t₁.branches x = t₀.branches x := by
    have hne : x ≠ a ++ [c] := fun heq => hx (heq ▸ List.prefix_rfl)
    rw [hd.outside x hx, placed_of_ne hne, placed_of_ne hne]
  have hbranch (d : ℕ) (x : Address) (bx : BranchState) (hax : a ++ [d] <+: x) (hbx : t₁.branches x = some bx) :
      bx = t.dividedBranch [i, j] x ∧ (d ≠ c → bx.ents = []) := by
    by_cases hdc : d = c
    · subst hdc
      exact ⟨(hd.branch x bx hax hbx).trans (by rw [hdivided]), fun hne => absurd rfl hne⟩
    · have hoff {l : Address} (hcl : a ++ [c] <+: l) : ¬x <+: l := fun hxl =>
        hdc ((prefix_child_iff hcl).mp (hax.trans hxl))
      rw [hkept fun hcx => hdc ((prefix_child_iff hcx).mp hax)] at hbx
      obtain ⟨-, rfl⟩ := hx.below_child h.shape h.leaf hax hbx
      refine ⟨(dividedBranch_off fun k hk => ?_).symm, fun _ => rfl⟩
      obtain rfl | rfl : k = i ∨ k = j := by simpa using hk
      · exact hoff hci
      · exact hoff hcj
  refine h.divided hx hd.shape (hd.range.trans hx.range)
    (hd.points.trans (points_placed.trans (points_placed.trans hx.points))) (hkept fun hca => ?_) (fun x hax => ?_)
    (fun d x bx hax hbx => (hbranch d x bx hax hbx).1) (fun d x bx hax hbx k hk => ?_) (fun k hk => ?_) hd.depth_le hd.depth
  · exact absurd hca.length_le (by simp)
  · exact hkept fun hcx => hax ((List.prefix_append a [c]).trans hcx)
  · by_cases hdc : d = c
    · subst hdc
      exact hd.ids x bx hax hbx k hk
    · rw [(hbranch d x bx hax hbx.1).2 hdc] at hk
      cases hk
  · have hk' := hk
    simp only [List.mem_cons, List.not_mem_nil, or_false, not_or] at hk'
    rw [hd.others k hk, branchId_placed_of_ne hk'.2, branchId_placed_of_ne hk'.1, branchId, hx.entities]
    rfl

end

/-- Entities with different paths: the refinement of their leaf divides it, and returns within the
depth of ids. -/
theorem refine_divided (fuel : ℕ) : ∀ {t : TreeTopology T K} {a : Address} {b : BranchState} {i j : ℕ},
    Pair t a b i j → (∀ t', refine fuel t a = some t' → Divided t a [i, j] t') ∧
      (T.max_depth < fuel + a.length → (refine fuel t a).isSome) := by
  induction fuel with
  | zero =>
    intro t a b i j h
    exact ⟨nofun, fun hdeep => absurd h.lt (by omega)⟩
  | succ fuel ih =>
    intro t a b i j h
    obtain ⟨t₀, hx, hrefine⟩ := refine_expanded h.shape h.leaf h.lt fuel
    obtain ⟨c, hc, hci⟩ := h.exists_child (k := i) (by simp)
    obtain ⟨c', hc', hcj⟩ := h.exists_child (k := j) (by simp)
    have hs₁ := (hx.shape h.shape h.leaf h.lt).placed (a ++ [c]) (freshLeaf T (a ++ [c])) i
    have hj : j < (t₀.placed (a ++ [c]) (freshLeaf T (a ++ [c])) i).points.length := by
      rw [points_placed, hx.points]
      exact (h.valid j (by simp)).1
    have hcj' : a ++ [c'] <+: (t₀.placed (a ++ [c]) (freshLeaf T (a ++ [c])) i).pathOf j := by
      rw [pathOf_placed, hx.pathOf]
      exact hcj
    have hlast (o : Option (TreeTopology T K)) : (o >>= fun t => List.foldlM
        (fun (t : TreeTopology T K) ent => t.insertWith (refine fuel) ent (a.length + 1)) t []) = o := by
      cases o <;> rfl
    rw [h.ents, List.foldlM_cons, h.insert_left hx (refine fuel) hc hci] at hrefine
    by_cases hcc : c' = c
    · subst hcc
      have hleaf : Leaf (t₀.placed (a ++ [c']) (freshLeaf T (a ++ [c'])) i) (a ++ [c'])
          ((freshLeaf T (a ++ [c'])).insert i) := ⟨placed_self (hx.child c' hc'), rfl⟩
      have hsecond := insertWith_pathOf (refine fuel) hs₁ hleaf hj hcj' h.lt (by simp)
      have hrun : refine (fuel + 1) t a = (refine fuel ((t₀.placed (a ++ [c']) (freshLeaf T (a ++ [c'])) i).placed
          (a ++ [c']) ((freshLeaf T (a ++ [c'])).insert i) j) (a ++ [c'])).map fun t => t.modifyBranch a cleared := by
        rw [hrefine, Option.bind_eq_bind, Option.bind_some, List.foldlM_cons, hsecond, hlast]
        rfl
      obtain ⟨hresult, hreturns⟩ := ih (h.together hx hc' hci hcj)
      rw [hrun]
      refine ⟨fun t' heq => ?_, fun hdeep => ?_⟩
      · obtain ⟨t₁, hrec, rfl⟩ := Option.map_eq_some_iff.mp heq
        exact h.divided_together hx hc' hci hcj (hresult t₁ hrec)
      · rw [Option.isSome_map]
        refine hreturns ?_
        rw [List.length_append, List.length_singleton]
        omega
    · have hleaf : Leaf (t₀.placed (a ++ [c]) (freshLeaf T (a ++ [c])) i) (a ++ [c']) (freshLeaf T (a ++ [c'])) :=
        ⟨(placed_of_ne (by simpa using hcc)).trans (hx.child c' hc'), rfl⟩
      have hsecond := insertWith_pathOf (refine fuel) hs₁ hleaf hj hcj' h.lt (by simp)
      rw [hrefine, Option.bind_eq_bind, Option.bind_some, List.foldlM_cons, hsecond, hlast]
      refine ⟨fun t' heq => ?_, fun _ => rfl⟩
      rw [← Option.some_inj.mp heq]
      exact h.divided_apart hx hc hc' hcc hci hcj

/-- There is room for an entity in a leaf on its path. -/
structure Room (t : TreeTopology T K) (a : Address) (b : BranchState) (ent : ℕ) : Prop where
  shape : Shape t
  leaf : Leaf t a b
  quiet : b.action = .none
  few : b.ents.length ≤ 1
  valid : ∀ k ∈ b.ents ++ [ent], k < t.points.length ∧ a <+: t.pathOf k
  part : ∀ i ∈ b.ents, t.pathOf i ≠ t.pathOf ent

/-- An insertion divides the leaf among its entity and the new one. -/
theorem Room.insert (h : Room t a b ent) (hfuel : T.max_depth < fuel) :
    ∃ t', t.insert fuel ent = some t' ∧ Divided t a (b.ents ++ [ent]) t' := by
  obtain ⟨hent, ha⟩ := h.valid ent (by simp)
  obtain ⟨p, hp, -⟩ := exists_point hent
  have hbranch := h.shape.branch h.leaf.1
  have hinsert := insertWith_pathOf (refine fuel) h.shape h.leaf hent ha h.shape.depth hbranch.2.1
  have hplaced := h.shape.placed a b ent
  cases hents : b.ents with
  | nil =>
    have hb : b.insert ent = ⟨b.id, .none, [ent], false⟩ := by
      simp [BranchState.insert, hents, h.quiet, h.leaf.2]
    rw [hb] at hinsert
    refine ⟨_, hinsert, hplaced, rfl, points_placed, fun x bx hax hbx => ?_, fun x hax => ?_, fun x bx hax hbx k hk => ?_,
      fun k hk => branchId_placed_of_ne (by simpa using hk), le_rfl, .inl rfl⟩
    · obtain rfl | ⟨c, hc⟩ := prefix_cases hax
      · rw [placed_self h.leaf.1, hb, Option.some_inj] at hbx
        have hbelow : t.below [ent] x = [ent] := List.filter_eq_self.mpr fun k hk => by
          rw [List.mem_singleton.mp hk]
          simpa using ha
        rw [List.nil_append, dividedBranch_of_below hbelow le_rfl, ← hbx, hbranch.2.2]
      · have hne : x ≠ a := by
          rintro rfl
          exact absurd hc.length_le (by simp)
        rw [placed_of_ne hne, h.leaf.nothing_below h.shape hc] at hbx
        cases hbx
    · exact placed_of_ne fun heq => hax (heq ▸ List.prefix_rfl)
    · obtain ⟨rfl, rfl⟩ | ⟨hne, hold⟩ := (leaf_placed h.leaf ent).mp hbx
      · rw [hb, List.mem_singleton] at hk
        rw [hk, branchId_placed_self hp, hbranch.2.2]
      · obtain rfl | ⟨c, hc⟩ := prefix_cases hax
        · exact absurd rfl hne
        · rw [Leaf, h.leaf.nothing_below h.shape hc] at hold
          cases hold.1
  | cons i rest =>
    have hfew := h.few
    rw [hents, List.length_cons] at hfew
    obtain rfl : rest = [] := List.eq_nil_of_length_eq_zero (by omega)
    have hb : b.insert ent = ⟨b.id, .refine, [i, ent], false⟩ := by simp [BranchState.insert, hents, h.leaf.2]
    have hpair : Pair (t.placed a b ent) a (b.insert ent) i ent := by
      refine ⟨hplaced, ⟨placed_self h.leaf.1, h.leaf.2⟩, by rw [hb], fun k hk => ?_, ?_⟩
      · rw [points_placed, pathOf_placed]
        exact h.valid k (by rwa [hents])
      · rw [pathOf_placed]
        exact h.part i (by simp [hents])
    obtain ⟨hresult, hreturns⟩ := refine_divided fuel hpair
    obtain ⟨t', hrun⟩ := Option.isSome_iff_exists.mp (hreturns (Nat.lt_add_right _ hfuel))
    have hd := hresult t' hrun
    rw [hb] at hinsert
    refine ⟨t', hinsert.trans hrun, hd.shape, hd.range, hd.points.trans points_placed, fun x bx hax hbx => ?_,
      fun x hax => ?_, hd.ids, fun k hk => ?_, hd.depth_le, hd.depth⟩
    · rw [hd.branch x bx hax hbx, dividedBranch_congr pathOf_placed]
      rfl
    · have hne : x ≠ a := fun heq => hax (heq ▸ List.prefix_rfl)
      rw [hd.outside x hax, placed_of_ne hne]
    · have hne : k ≠ ent := fun heq => hk (by simp [heq])
      rw [hd.others k hk, branchId_placed_of_ne hne]

end TreeTopology

end Flecsi.Topology
