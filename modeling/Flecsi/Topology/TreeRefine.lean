import Flecsi.Topology.TreeShape

/-!
# Refinement

Two entities that share a leaf are inserted again one level below, and so on until their paths
part. While the ids last the shape of the tree is kept; when two paths are the same, the leaf at
the maximal depth is refined too.
-/

namespace Flecsi.Topology

namespace TreeTopology

section
variable {T : IdType} {K : Type} [LT K]

-- ---------------------------------------------------------------------------
-- Into a branch
-- ---------------------------------------------------------------------------

/-- The children that `into_branch_` allocates. -/
theorem intoBranch_eq (t : TreeTopology T K) (a : Address) (b : BranchState) :
    ∃ br, t.intoBranch a b = some { t with branches := br } ∧
      br a = (t.branches a).map (fun b => { b with hasChildren := true }) ∧
      (∀ c < T.numChildren, ∃ id, T.push b.id c = some id ∧ br (a ++ [c]) = some ⟨id, .none, [], false⟩) ∧
      ∀ x, x ≠ a → (∀ c < T.numChildren, x ≠ a ++ [c]) → br x = t.branches x := by
  have hloop : ∀ k ≤ T.numChildren, ∃ br, (List.range k).foldlM (fun t bi => do
        let id ← T.push b.id bi
        some { t with branches := Function.update t.branches (a ++ [bi]) (some ⟨id, .none, [], false⟩) }) t =
        some { t with branches := br } ∧
      (∀ c < k, ∃ id, T.push b.id c = some id ∧ br (a ++ [c]) = some ⟨id, .none, [], false⟩) ∧
      ∀ x, (∀ c < k, x ≠ a ++ [c]) → br x = t.branches x := by
    intro k hk
    induction k with
    | zero => exact ⟨t.branches, rfl, by simp, fun _ _ => rfl⟩
    | succ k ih =>
      obtain ⟨br, hrun, hchild, hother⟩ := ih (Nat.le_of_succ_le hk)
      have hpush : T.push b.id k = some (b.id <<< T.dimension % 2 ^ T.bits ||| k) := if_pos (Nat.lt_of_succ_le hk)
      rw [List.range_succ, List.foldlM_append, hrun]
      refine ⟨Function.update br (a ++ [k]) (some ⟨b.id <<< T.dimension % 2 ^ T.bits ||| k, .none, [], false⟩), ?_,
        fun c hc => ?_, fun x hx => ?_⟩
      · simp only [Option.bind_eq_bind, Option.bind_some, List.foldlM_cons, hpush, List.foldlM_nil, Option.pure_def]
      · obtain hlt | rfl := Nat.lt_succ_iff_lt_or_eq.mp hc
        · have hne : a ++ [c] ≠ a ++ [k] := by simp [hlt.ne]
          rw [Function.update_of_ne hne]
          exact hchild c hlt
        · exact ⟨_, hpush, Function.update_self _ _ _⟩
      · rw [Function.update_of_ne (hx k (Nat.lt_succ_self k))]
        exact hother x fun c hc => hx c (Nat.lt_succ_of_lt hc)
  obtain ⟨br, hrun, hchild, hother⟩ := hloop T.numChildren le_rfl
  have hself (c : ℕ) : a ++ [c] ≠ a := by simp
  refine ⟨Function.update br a ((br a).map fun b => { b with hasChildren := true }), ?_, ?_, fun c hc => ?_, fun x hxa hx => ?_⟩
  · unfold intoBranch
    rw [hrun]
    rfl
  · rw [Function.update_self, hother a fun c _ => (hself c).symm]
  · rw [Function.update_of_ne (hself c)]
    exact hchild c hc
  · rw [Function.update_of_ne hxa]
    exact hother x hx

theorem emplace_eq (t : TreeTopology T K) (ci : Address) : ∃ m, t.emplace ci = { t with branch_map := m } := by
  unfold emplace
  split
  · split
    · exact ⟨_, rfl⟩
    · exact ⟨_, rfl⟩
  · exact ⟨_, rfl⟩

theorem foldl_emplace_eq (t : TreeTopology T K) (children : List Address) :
    ∃ m, children.foldl emplace t = { t with branch_map := m } := by
  induction children generalizing t with
  | nil => exact ⟨_, rfl⟩
  | cons ci children ih =>
    obtain ⟨m, hm⟩ := t.emplace_eq ci
    obtain ⟨m', hm'⟩ := ih { t with branch_map := m }
    exact ⟨m', by rw [List.foldl_cons, hm, hm']⟩

/-- Children with new ids are added to the map. -/
theorem foldl_emplace_map {t : TreeTopology T K} (children : List Address) (id : Address → ℕ)
    (hchild : ∀ ci ∈ children, ∃ b, t.branches ci = some b ∧ b.id = id ci) (hnodup : (children.map id).Nodup)
    (hnew : ∀ ci ∈ children, t.branch_map (id ci) = none) (i : ℕ) (a : Address) :
    (children.foldl emplace t).branch_map i = some a ↔ t.branch_map i = some a ∨ a ∈ children ∧ i = id a := by
  induction children generalizing t with
  | nil => simp
  | cons ci children ih =>
    obtain ⟨b, hb, hid⟩ := hchild ci (List.mem_cons_self ..)
    have hnone : t.branch_map b.id = none := hid ▸ hnew ci (List.mem_cons_self ..)
    have hemplace : t.emplace ci = { t with branch_map := Function.update t.branch_map b.id (some ci) } := by
      unfold emplace
      rw [hb]
      dsimp only
      rw [hnone]
      rfl
    obtain ⟨hfirst, hrest⟩ := List.nodup_cons.mp hnodup
    have htail (ci' : Address) (hci' : ci' ∈ children) : Function.update t.branch_map b.id (some ci) (id ci') = none := by
      have hne : id ci' ≠ b.id := by
        rw [hid]
        exact fun heq => hfirst (heq ▸ List.mem_map_of_mem hci')
      rw [Function.update_of_ne hne]
      exact hnew ci' (List.mem_cons_of_mem _ hci')
    have hadded := @ih { t with branch_map := Function.update t.branch_map b.id (some ci) }
      (fun ci hci => hchild ci (List.mem_cons_of_mem _ hci)) hrest htail
    rw [List.foldl_cons, hemplace, hadded]
    dsimp only
    rw [Function.update_apply]
    by_cases hi : i = b.id
    · subst hi
      rw [if_pos rfl, hnone, Option.some_inj]
      simp only [reduceCtorEq, false_or, List.mem_cons]
      constructor
      · rintro (rfl | ⟨hmem, heq⟩)
        · exact ⟨.inl rfl, hid⟩
        · exact ⟨.inr hmem, heq⟩
      · rintro ⟨rfl | hmem, heq⟩
        · exact .inl rfl
        · exact .inr ⟨hmem, heq⟩
    · rw [if_neg hi]
      refine or_congr_right ⟨fun ⟨hmem, heq⟩ => ⟨List.mem_cons_of_mem _ hmem, heq⟩, ?_⟩
      rintro ⟨hmem, heq⟩
      obtain rfl | hmem := List.mem_cons.mp hmem
      · exact absurd (heq.trans hid.symm) hi
      · exact ⟨hmem, heq⟩

-- ---------------------------------------------------------------------------
-- A leaf with children
-- ---------------------------------------------------------------------------

/-- The branch a child starts as. -/
def freshLeaf (T : IdType) (x : Address) : BranchState := ⟨T.number x, .none, [], false⟩

/-- What a tree is after the leaf `a` was given children. -/
structure Expanded (t : TreeTopology T K) (a : Address) (b : BranchState) (t' : TreeTopology T K) : Prop where
  range : t'.range = t.range
  entities : t'.entities = t.entities
  self : t'.branches a = some { b with hasChildren := true }
  child : ∀ c < T.numChildren, t'.branches (a ++ [c]) = some (freshLeaf T (a ++ [c]))
  other : ∀ x, x ≠ a → (∀ c < T.numChildren, x ≠ a ++ [c]) → t'.branches x = t.branches x
  map : ∀ id x, t'.branch_map id = some x ↔
    t.branch_map id = some x ∨ ∃ c < T.numChildren, x = a ++ [c] ∧ id = T.number x
  max_depth : t'.max_depth = max t.max_depth (a.length + 1)

variable {t t' : TreeTopology T K}

theorem Expanded.shape (h : Expanded t a b t') (hs : Shape t) (hleaf : Leaf t a b) (hlt : a.length < T.max_depth) :
    Shape t' := by
  have ha := hs.branch hleaf.1
  have hcases (x : Address) : x = a ∨ (∃ c < T.numChildren, x = a ++ [c]) ∨
      (x ≠ a ∧ ∀ c < T.numChildren, x ≠ a ++ [c]) := by
    by_cases hx : x = a
    · exact .inl hx
    · by_cases hchild : ∃ c < T.numChildren, x = a ++ [c]
      · exact .inr (.inl hchild)
      · exact .inr (.inr ⟨hx, fun c hc heq => hchild ⟨c, hc, heq⟩⟩)
  have hsome (x : Address) : (t'.branches x).isSome ↔ (t.branches x).isSome ∨ ∃ c < T.numChildren, x = a ++ [c] := by
    obtain rfl | ⟨c, hc, rfl⟩ | ⟨hxa, hx⟩ := hcases x
    · rw [h.self, hleaf.1]
      simp
    · rw [h.child c hc]
      exact ⟨fun _ => .inr ⟨c, hc, rfl⟩, fun _ => rfl⟩
    · rw [h.other x hxa hx]
      exact ⟨.inl, fun hor => hor.resolve_right fun ⟨c, hc, heq⟩ => hx c hc heq⟩
  constructor
  · exact (hsome []).mpr (.inl hs.root)
  · intro x bx hbx
    rw [h.max_depth]
    obtain rfl | ⟨c, hc, rfl⟩ | ⟨hxa, hx⟩ := hcases x
    · rw [h.self, Option.some_inj] at hbx
      subst hbx
      exact ⟨ha.1, ha.2.1.trans (le_max_left _ _), ha.2.2⟩
    · rw [h.child c hc, Option.some_inj] at hbx
      subst hbx
      refine ⟨⟨fun c' hc' => ?_, ?_⟩, ?_, rfl⟩
      · obtain hmem | hmem := List.mem_append.mp hc'
        · exact ha.1.child c' hmem
        · exact List.mem_singleton.mp hmem ▸ hc
      · rw [List.length_append, List.length_singleton]
        exact hlt
      · rw [List.length_append, List.length_singleton]
        exact le_max_right _ _
    · rw [h.other x hxa hx] at hbx
      have hold := hs.branch hbx
      exact ⟨hold.1, hold.2.1.trans (le_max_left _ _), hold.2.2⟩
  · rw [h.max_depth]
    exact max_le hs.depth hlt
  · intro x c
    rw [hsome]
    obtain rfl | ⟨c', hc', rfl⟩ | ⟨hxa, hx⟩ := hcases x
    · -- all children of the new branch are there
      have hnone : ¬(t.branches (x ++ [c])).isSome := fun hsome => by
        have := hs.below_leaf hleaf hsome
        cases this
      rw [h.self]
      constructor
      · rintro (hold | ⟨c', hc', heq⟩)
        · exact absurd hold hnone
        · rw [List.append_cancel_left_eq, List.cons.injEq] at heq
          exact ⟨heq.1 ▸ hc', _, rfl, rfl⟩
      · rintro ⟨hc, -⟩
        exact .inr ⟨c, hc, rfl⟩
    · -- a new leaf has none
      rw [h.child c' hc']
      constructor
      · rintro (hold | ⟨c'', -, heq⟩)
        · rw [List.append_assoc] at hold
          have := hs.below_leaf hleaf hold
          cases this
        · have hlen := congrArg List.length heq
          simp at hlen
      · rintro ⟨-, bx, hbx, hchildren⟩
        cases hbx
        cases hchildren
    · rw [h.other x hxa hx, ← hs.child]
      constructor
      · rintro (hold | ⟨c', -, heq⟩)
        · exact hold
        · exact absurd (List.append_inj' heq rfl).1 hxa
      · exact .inl
  · intro id x
    rw [h.map, hs.map, hsome]
    constructor
    · rintro (⟨hold, hid⟩ | ⟨c, hc, rfl, hid⟩)
      · exact ⟨.inl hold, hid⟩
      · exact ⟨.inr ⟨c, hc, rfl⟩, hid⟩
    · rintro ⟨hold | ⟨c, hc, rfl⟩, hid⟩
      · exact .inl ⟨hold, hid⟩
      · exact .inr ⟨c, hc, rfl, hid⟩

-- ---------------------------------------------------------------------------
-- Changes of one branch
-- ---------------------------------------------------------------------------

def points (t : TreeTopology T K) : List (Fin T.dimension → K) := t.entities.map (·.coordinates)

@[simp] theorem points_makeEntity (t : TreeTopology T K) (p : Fin T.dimension → K) :
    (t.makeEntity p).points = t.points ++ [p] := List.map_append

/-- An entity lies in a leaf. -/
def Held (t : TreeTopology T K) (k : ℕ) : Prop := ∃ a b, Leaf t a b ∧ k ∈ b.ents

/-- The entity is put into the leaf that was found. -/
def placed (t : TreeTopology T K) (a : Address) (b : BranchState) (ent : ℕ) : TreeTopology T K :=
  (t.setBranchId ent b.id).modifyBranch a fun branch => branch.insert ent

@[simp] theorem points_setBranchId (t : TreeTopology T K) (ent id : ℕ) : (t.setBranchId ent id).points = t.points := by
  refine List.ext_getElem? fun i => ?_
  simp only [points, setBranchId, List.getElem?_map, List.getElem?_modify]
  cases t.entities[i]? with
  | none => rfl
  | some e =>
    refine congrArg some ?_
    dsimp only
    split <;> rfl

@[simp] theorem points_modifyBranch (t : TreeTopology T K) (a : Address) (f : BranchState → BranchState) :
    (t.modifyBranch a f).points = t.points := rfl

@[simp] theorem max_depth_modifyBranch (t : TreeTopology T K) (a : Address) (f : BranchState → BranchState) :
    (t.modifyBranch a f).max_depth = t.max_depth := rfl

theorem modifyBranch_self (t : TreeTopology T K) (a : Address) (f : BranchState → BranchState) :
    (t.modifyBranch a f).branches a = (t.branches a).map f := Function.update_self _ _ _

theorem modifyBranch_of_ne (t : TreeTopology T K) {a x : Address} (hx : x ≠ a) (f : BranchState → BranchState) :
    (t.modifyBranch a f).branches x = t.branches x := Function.update_of_ne hx _ _

theorem Shape.setBranchId (h : Shape t) (ent id : ℕ) : Shape (t.setBranchId ent id) :=
  ⟨h.root, h.branch, h.depth, h.child, h.map⟩

theorem isSome_modifyBranch (t : TreeTopology T K) (a x : Address) (f : BranchState → BranchState) :
    ((t.modifyBranch a f).branches x).isSome = (t.branches x).isSome := by
  by_cases hx : x = a
  · subst hx
    rw [modifyBranch_self, Option.isSome_map]
  · rw [modifyBranch_of_ne t hx]

/-- A change that keeps the id and the children of a branch. -/
theorem Shape.modifyBranch (h : Shape t) (a : Address) {f : BranchState → BranchState} (hid : ∀ b, (f b).id = b.id)
    (hchildren : ∀ b, (f b).hasChildren = b.hasChildren) : Shape (t.modifyBranch a f) := by
  have hbranch (x : Address) (b' : BranchState) (hb' : (t.modifyBranch a f).branches x = some b') :
      ∃ b, t.branches x = some b ∧ b'.id = b.id ∧ b'.hasChildren = b.hasChildren := by
    by_cases hx : x = a
    · subst hx
      rw [modifyBranch_self] at hb'
      obtain ⟨b, hb, rfl⟩ := Option.map_eq_some_iff.mp hb'
      exact ⟨b, hb, hid b, hchildren b⟩
    · rw [modifyBranch_of_ne t hx] at hb'
      exact ⟨b', hb', rfl, rfl⟩
  have hnode (x : Address) : (∃ b, (t.modifyBranch a f).branches x = some b ∧ b.hasChildren = true) ↔
      ∃ b, t.branches x = some b ∧ b.hasChildren = true := by
    constructor
    · rintro ⟨b', hb', htrue⟩
      obtain ⟨b, hb, -, heq⟩ := hbranch x b' hb'
      exact ⟨b, hb, heq ▸ htrue⟩
    · rintro ⟨b, hb, htrue⟩
      obtain ⟨b', hb'⟩ := Option.isSome_iff_exists.mp
        ((isSome_modifyBranch t a x f).trans (Option.isSome_iff_exists.mpr ⟨b, hb⟩))
      obtain ⟨b₀, hb₀, -, heq⟩ := hbranch x b' hb'
      rw [hb, Option.some_inj] at hb₀
      exact ⟨b', hb', by rw [heq, ← hb₀, htrue]⟩
  constructor
  · rw [isSome_modifyBranch]
    exact h.root
  · intro x b' hb'
    obtain ⟨b, hb, heq, -⟩ := hbranch x b' hb'
    rw [heq]
    exact h.branch hb
  · exact h.depth
  · intro x c
    rw [isSome_modifyBranch, h.child, hnode]
  · intro id x
    rw [isSome_modifyBranch]
    exact h.map id x

theorem Shape.placed (h : Shape t) (a : Address) (b : BranchState) (ent : ℕ) : Shape (t.placed a b ent) :=
  (h.setBranchId ent b.id).modifyBranch a (fun _ => rfl) fun _ => rfl

/-- The leaves after an entity was put into one. -/
theorem leaf_placed (hleaf : Leaf t a b) (ent : ℕ) {x : Address} {b' : BranchState} :
    Leaf (t.placed a b ent) x b' ↔ x = a ∧ b' = b.insert ent ∨ x ≠ a ∧ Leaf t x b' := by
  unfold Leaf TreeTopology.placed
  by_cases hx : x = a
  · subst hx
    have hstored : (t.setBranchId ent b.id).branches x = some b := hleaf.1
    rw [modifyBranch_self, hstored]
    simp only [Option.map_some, Option.some_inj, true_and, ne_eq, not_true_eq_false, false_and, or_false]
    constructor
    · rintro ⟨rfl, -⟩
      rfl
    · rintro rfl
      exact ⟨rfl, hleaf.2⟩
  · have hstored : (t.setBranchId ent b.id).branches x = t.branches x := rfl
    rw [modifyBranch_of_ne _ hx, hstored]
    simp [hx]

theorem held_placed (hleaf : Leaf t a b) (ent k : ℕ) : Held (t.placed a b ent) k ↔ Held t k ∨ k = ent := by
  constructor
  · rintro ⟨x, b', hx, hk⟩
    obtain ⟨rfl, rfl⟩ | ⟨hne, hx⟩ := (leaf_placed hleaf ent).mp hx
    · obtain hk | hk := List.mem_append.mp hk
      · exact .inl ⟨x, b, hleaf, hk⟩
      · exact .inr (List.mem_singleton.mp hk)
    · exact .inl ⟨x, b', hx, hk⟩
  · rintro (⟨x, b', hx, hk⟩ | rfl)
    · by_cases hxa : x = a
      · subst hxa
        have heq : b' = b := Option.some_inj.mp (hx.1.symm.trans hleaf.1)
        exact ⟨x, _, (leaf_placed hleaf ent).mpr (.inl ⟨rfl, rfl⟩), List.mem_append_left _ (heq ▸ hk)⟩
      · exact ⟨x, b', (leaf_placed hleaf ent).mpr (.inr ⟨hxa, hx⟩), hk⟩
    · exact ⟨a, _, (leaf_placed hleaf _).mpr (.inl ⟨rfl, rfl⟩), by simp [BranchState.insert]⟩

def cleared (b : BranchState) : BranchState := { b with ents := [], action := .none }

/-- Only leaves count. -/
theorem leaf_modifyBranch_node (hb : t.branches a = some b) (hnode : b.hasChildren = true) {f : BranchState → BranchState}
    (hchildren : ∀ b, (f b).hasChildren = b.hasChildren) {x : Address} {b' : BranchState} :
    Leaf (t.modifyBranch a f) x b' ↔ Leaf t x b' := by
  unfold Leaf
  by_cases hx : x = a
  · subst hx
    rw [modifyBranch_self, hb]
    simp only [Option.map_some, Option.some_inj]
    constructor
    · rintro ⟨rfl, hfalse⟩
      rw [hchildren, hnode] at hfalse
      cases hfalse
    · rintro ⟨rfl, hfalse⟩
      rw [hnode] at hfalse
      cases hfalse
  · rw [modifyBranch_of_ne t hx]

/-- Trees of the same entities. -/
structure Same (t t' : TreeTopology T K) : Prop where
  range : t'.range = t.range
  points : t'.points = t.points
  held : ∀ k, Held t' k ↔ Held t k

theorem Same.trans {t'' : TreeTopology T K} (h : Same t t') (h' : Same t' t'') : Same t t'' :=
  ⟨h'.range.trans h.range, h'.points.trans h.points, fun k => (h'.held k).trans (h.held k)⟩

theorem Same.cleared (hb : t.branches a = some b) (hnode : b.hasChildren = true) :
    Same t (t.modifyBranch a cleared) := by
  have hleaf {x b'} : Leaf (t.modifyBranch a TreeTopology.cleared) x b' ↔ Leaf t x b' :=
    leaf_modifyBranch_node hb hnode (f := TreeTopology.cleared) fun _ => rfl
  refine ⟨rfl, rfl, fun k => ?_⟩
  simp only [Held, hleaf]

/-- The leaves after a leaf was given children. -/
theorem Expanded.leaf (h : Expanded t a b t') (hs : Shape t) (hleaf : Leaf t a b) {x : Address} {b' : BranchState} :
    Leaf t' x b' ↔ (x ≠ a ∧ Leaf t x b') ∨
      ∃ c < T.numChildren, x = a ++ [c] ∧ b' = freshLeaf T (a ++ [c]) := by
  unfold Leaf
  by_cases hxa : x = a
  · subst hxa
    rw [h.self]
    constructor
    · rintro ⟨heq, hfalse⟩
      rw [← Option.some_inj.mp heq] at hfalse
      cases hfalse
    · rintro (⟨hne, -⟩ | ⟨c, -, heq, -⟩)
      · exact absurd rfl hne
      · have hlen := congrArg List.length heq
        simp at hlen
  · by_cases hchild : ∃ c < T.numChildren, x = a ++ [c]
    · obtain ⟨c, hc, rfl⟩ := hchild
      rw [h.child c hc]
      constructor
      · rintro ⟨heq, -⟩
        exact .inr ⟨c, hc, rfl, (Option.some_inj.mp heq).symm⟩
      · rintro (⟨-, hsome, -⟩ | ⟨c', -, heq, rfl⟩)
        · have hnil : [c] = [] := hs.below_leaf hleaf (by rw [hsome]; rfl)
          cases hnil
        · rw [heq]
          exact ⟨rfl, rfl⟩
    · have hother : ∀ c < T.numChildren, x ≠ a ++ [c] := fun c hc heq => hchild ⟨c, hc, heq⟩
      rw [h.other x hxa hother]
      constructor
      · rintro ⟨hsome, hfalse⟩
        exact .inl ⟨hxa, hsome, hfalse⟩
      · rintro (⟨-, hold⟩ | ⟨c, hc, heq, -⟩)
        · exact hold
        · exact absurd heq (hother c hc)

-- ---------------------------------------------------------------------------
-- Branches stay
-- ---------------------------------------------------------------------------

/-- No branch of `t` is gone in `t'`. -/
def Stays (t t' : TreeTopology T K) : Prop := ∀ x, (t.branches x).isSome → (t'.branches x).isSome

theorem Stays.placed (h : Stays (t.placed a b ent) t') : Stays t t' := fun x hx =>
  h x ((isSome_modifyBranch (t.setBranchId ent b.id) a x _).trans hx)

theorem Stays.modifyBranch (h : Stays t t') (a : Address) (f : BranchState → BranchState) :
    Stays t (t'.modifyBranch a f) := fun x hx => (isSome_modifyBranch t' a x f).trans (h x hx)

theorem stays_intoBranch {br : Address → Option BranchState}
    (hinto : t.intoBranch a b = some { t with branches := br }) : Stays t { t with branches := br } := by
  obtain ⟨br', hinto', hself, hchild, hother⟩ := t.intoBranch_eq a b
  have hbr : br' = br := by
    rw [hinto, Option.some_inj] at hinto'
    exact (congrArg TreeTopology.branches hinto').symm
  subst hbr
  intro x hx
  by_cases hxa : x = a
  · subst hxa
    dsimp only
    rwa [hself, Option.isSome_map]
  · by_cases hxc : ∃ c < T.numChildren, x = a ++ [c]
    · obtain ⟨c, hc, rfl⟩ := hxc
      obtain ⟨id, -, hsome⟩ := hchild c hc
      dsimp only
      rw [hsome]
      rfl
    · dsimp only
      rwa [hother x hxa fun c hc heq => hxc ⟨c, hc, heq⟩]

theorem foldlM_stays {f : TreeTopology T K → ℕ → Option (TreeTopology T K)}
    (hf : ∀ t k t', f t k = some t' → Stays t t') {ents : List ℕ} (hrun : ents.foldlM f t = some t') : Stays t t' := by
  induction ents generalizing t with
  | nil =>
    cases hrun
    exact fun _ hx => hx
  | cons k ents ih =>
    rw [List.foldlM_cons, Option.bind_eq_bind, Option.bind_eq_some_iff] at hrun
    obtain ⟨t₁, hfirst, hrest⟩ := hrun
    exact fun x hx => ih hrest x (hf _ _ _ hfirst x hx)

end

end TreeTopology

end Flecsi.Topology
