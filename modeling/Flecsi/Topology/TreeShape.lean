import Flecsi.Topology.TreeTopology

/-!
# The shape of a tree

While the ids last, the map of the branches is the tree itself: the id of a branch is the number
of its address, and the parent that is found for a point is the leaf on the point's path.
-/

namespace Flecsi.Topology

namespace TreeTopology

section
variable {T : IdType} {K : Type} [LT K]

/-- The branches stand below each other within the maximal depth of ids, and the map has all of
them under their numbers. -/
structure Shape (t : TreeTopology T K) : Prop where
  root : (t.branches []).isSome
  branch : ∀ {a b}, t.branches a = some b → T.Path a ∧ a.length ≤ t.max_depth ∧ b.id = T.number a
  depth : t.max_depth ≤ T.max_depth
  child : ∀ a c, (t.branches (a ++ [c])).isSome ↔
    c < T.numChildren ∧ ∃ b, t.branches a = some b ∧ b.hasChildren = true
  map : ∀ id a, t.branch_map id = some a ↔ (t.branches a).isSome ∧ id = T.number a

def Leaf (t : TreeTopology T K) (a : Address) (b : BranchState) : Prop :=
  t.branches a = some b ∧ b.hasChildren = false

/-- A new tree is its root. -/
theorem branch_empty {range : Range K T.dimension} {x : Address} {b : BranchState}
    (hb : (empty range).branches x = some b) : x = [] ∧ b = ⟨T.root, .none, [], false⟩ := by
  unfold empty at hb
  dsimp only at hb
  split at hb
  · exact ⟨‹x = []›, (Option.some_inj.mp hb).symm⟩
  · cases hb

theorem Shape.empty (range : Range K T.dimension) : Shape (empty range) := by
  have hroot (a : Address) : ((TreeTopology.empty range).branches a).isSome ↔ a = [] := by
    unfold TreeTopology.empty
    dsimp only
    split <;> simp [*]
  constructor
  · rfl
  · intro a b hb
    obtain ⟨rfl, rfl⟩ := branch_empty hb
    exact ⟨IdType.Path.nil, le_rfl, T.root_eq⟩
  · exact Nat.zero_le _
  · intro a c
    rw [hroot]
    constructor
    · intro h
      simp at h
    · rintro ⟨-, b, hb, hnode⟩
      obtain ⟨rfl, rfl⟩ := branch_empty hb
      cases hnode
  · intro id a
    rw [hroot]
    unfold TreeTopology.empty
    dsimp only
    constructor
    · intro h
      split at h
      · cases h
        exact ⟨rfl, ‹id = T.root›.trans T.root_eq⟩
      · cases h
    · rintro ⟨rfl, rfl⟩
      rw [if_pos T.root_eq.symm]

variable {t : TreeTopology T K}

/-- Nothing stands below a leaf. -/
theorem Shape.below_leaf (h : Shape t) (hleaf : Leaf t a b) {rest : Address}
    (hsome : (t.branches (a ++ rest)).isSome) : rest = [] := by
  induction rest using List.reverseRecOn with
  | nil => rfl
  | append_singleton rest c ih =>
    rw [← List.append_assoc, h.child] at hsome
    obtain ⟨-, b', hb', hchildren⟩ := hsome
    have hnil := ih (by rw [hb']; rfl)
    rw [hnil, List.append_nil, hleaf.1, Option.some_inj] at hb'
    rw [← hb', hleaf.2] at hchildren
    cases hchildren

theorem Shape.leaf_unique (h : Shape t) (hleaf : Leaf t a b) (hleaf' : Leaf t a' b') (ha : a <+: path)
    (ha' : a' <+: path) : a = a' := by
  obtain hle | hle := le_total a.length a'.length
  · obtain ⟨rest, rfl⟩ := List.prefix_of_prefix_length_le ha ha' hle
    have hnil : rest = [] := h.below_leaf hleaf (by rw [hleaf'.1]; rfl)
    rw [hnil, List.append_nil]
  · obtain ⟨rest, rfl⟩ := List.prefix_of_prefix_length_le ha' ha hle
    have hnil : rest = [] := h.below_leaf hleaf' (by rw [hleaf.1]; rfl)
    rw [hnil, List.append_nil]

/-- Along every path there is a leaf. -/
theorem Shape.exists_leaf (h : Shape t) {path : List ℕ} (hpath : T.Path path) (hlen : path.length = T.max_depth) :
    ∃ a b, Leaf t a b ∧ a <+: path := by
  have descend : ∀ k ≤ path.length, (∃ a b, Leaf t a b ∧ a <+: path) ∨ (t.branches (path.take k)).isSome := by
    intro k hk
    induction k with
    | zero => exact .inr h.root
    | succ k ih =>
      obtain hfound | hsome := ih (Nat.le_of_succ_le hk)
      · exact .inl hfound
      · obtain ⟨b, hb⟩ := Option.isSome_iff_exists.mp hsome
        cases hchildren : b.hasChildren with
        | false => exact .inl ⟨_, b, ⟨hb, hchildren⟩, List.take_prefix _ _⟩
        | true =>
          refine .inr ?_
          rw [← List.take_append_getElem (Nat.lt_of_succ_le hk), h.child]
          exact ⟨hpath.child _ (List.getElem_mem _), b, hb, hchildren⟩
  obtain hfound | hsome := descend path.length le_rfl
  · exact hfound
  · rw [List.take_length] at hsome
    obtain ⟨b, hb⟩ := Option.isSome_iff_exists.mp hsome
    cases hchildren : b.hasChildren with
    | false => exact ⟨path, b, ⟨hb, hchildren⟩, List.prefix_rfl⟩
    | true =>
      -- its children would be too deep
      have hchild : (t.branches (path ++ [0])).isSome :=
        (h.child path 0).mpr ⟨zero_lt_one.trans T.one_lt_numChildren, b, hb, hchildren⟩
      obtain ⟨c, hc⟩ := Option.isSome_iff_exists.mp hchild
      have hdeep := (h.branch hc).1.length
      rw [List.length_append, List.length_singleton] at hdeep
      omega

theorem Shape.findParentFrom_number (h : Shape t) (hleaf : Leaf t a b) {path : List ℕ}
    (hpath : ∀ c ∈ path, c < T.numChildren) (ha : a <+: path) : t.findParentFrom (T.number path) = some a := by
  induction path using List.reverseRecOn with
  | nil =>
    obtain rfl := List.prefix_nil.mp ha
    rw [findParentFrom, (h.map _ []).mpr ⟨h.root, rfl⟩]
  | append_singleton path c ih =>
    rw [findParentFrom]
    cases hfound : t.branch_map (T.number (path ++ [c])) with
    | some a' =>
      obtain ⟨hsome, heq⟩ := (h.map _ _).mp hfound
      obtain ⟨b', hb'⟩ := Option.isSome_iff_exists.mp hsome
      have hat : a' = path ++ [c] := (IdType.number_injective hpath (h.branch hb').1.child heq).symm
      subst hat
      obtain ⟨rest, hrest⟩ := ha
      rw [← hrest] at hsome ⊢
      rw [h.below_leaf hleaf hsome, List.append_nil]
    | none =>
      have hne : a ≠ path ++ [c] := by
        rintro rfl
        rw [(h.map _ _).mpr ⟨by rw [hleaf.1]; rfl, rfl⟩] at hfound
        cases hfound
      have hc : c < T.numChildren := hpath c (by simp)
      have hdepth : T.depth (T.number (path ++ [c])) > 0 := by
        rw [IdType.depth_number hpath]
        simp
      dsimp only
      rw [dif_pos hdepth, T.shiftRight_dimension, IdType.number_div hc]
      refine ih (fun c hc => hpath c (List.mem_append_left _ hc)) ?_
      exact (List.prefix_concat_iff.mp ha).resolve_left hne

end

section
variable {T : IdType} {K : Type} [Field K] [LinearOrder K] [FloorSemiring K]

/-- The children on the way to a point, down to the maximal depth of ids. -/
def place (range : Range K T.dimension) (p : Fin T.dimension → K) : List ℕ :=
  T.pathAt (T.coords range p) 0 T.max_depth

theorem place_path (range : Range K T.dimension) (p : Fin T.dimension → K) : T.Path (place range p) :=
  IdType.pathAt_path _ _ le_rfl

theorem length_place (range : Range K T.dimension) (p : Fin T.dimension → K) :
    (place range p).length = T.max_depth := IdType.length_pathAt _ _ _

theorem ofPoint_eq (range : Range K T.dimension) (p : Fin T.dimension → K) {d : ℕ} (hd : d ≤ T.max_depth) :
    T.ofPoint range p d = T.number ((place range p).take d) := by
  have htake := IdType.take_pathAt (T.coords range p) hd le_rfl
  rw [Nat.sub_self] at htake
  rw [place, htake]
  exact IdType.encode_eq _ hd

theorem place_eq_iff (range : Range K T.dimension) (p q : Fin T.dimension → K) :
    place range p = place range q ↔ T.ofPoint range p T.max_depth = T.ofPoint range q T.max_depth := by
  have hfull (p : Fin T.dimension → K) : (place range p).take T.max_depth = place range p :=
    List.take_of_length_le (length_place range p).le
  rw [ofPoint_eq range p le_rfl, ofPoint_eq range q le_rfl, hfull, hfull]
  constructor
  · intro heq
    rw [heq]
  · exact IdType.number_injective (place_path range p).child (place_path range q).child

/-- The parent found for a point is the leaf on its path. -/
theorem Shape.findParent_ofPoint {t : TreeTopology T K} (h : Shape t) (hleaf : Leaf t a b) {p : Fin T.dimension → K}
    (ha : a <+: place t.range p) {d : ℕ} (hd : d ≤ T.max_depth) (had : a.length ≤ d) :
    t.findParent (T.ofPoint t.range p d) d = some a := by
  have hpath := ((place_path t.range p).take d).child
  rw [findParent, ofPoint_eq _ _ hd, IdType.truncate_number hpath, List.take_take, Nat.min_self]
  exact h.findParentFrom_number hleaf hpath (List.prefix_take_iff.mpr ⟨ha, had⟩)

end

end TreeTopology

end Flecsi.Topology
