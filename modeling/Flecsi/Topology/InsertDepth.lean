import Flecsi.Topology.TreeRefine

/-!
# Insertion within the depth of ids

A tree is settled when every leaf holds at most one entity. An insertion either finds an empty
leaf or crowds one, which is then refined until the two paths part: within the maximal depth of
ids if they are different, and past it if they are not.
-/

namespace Flecsi.Topology

namespace TreeTopology

variable {T : IdType} {K : Type} [Field K] [LinearOrder K] [FloorSemiring K]
  {t t' : TreeTopology T K}

-- ---------------------------------------------------------------------------
-- One call
-- ---------------------------------------------------------------------------

theorem insertWith_leaf (refine : TreeTopology T K → Address → Option (TreeTopology T K)) (h : Shape t)
    (hleaf : Leaf t a b) (hp : t.points[ent]? = some p) (ha : a <+: place t.range p) (hd : d ≤ T.max_depth)
    (had : a.length ≤ d) : t.insertWith refine ent d =
      match (b.insert ent).action with
      | .none => some (t.placed a b ent)
      | .refine => refine (t.placed a b ent) a
      | .coarsen => none := by
  rw [points, List.getElem?_map, Option.map_eq_some_iff] at hp
  obtain ⟨e, he, rfl⟩ := hp
  unfold insertWith
  rw [he]
  simp only [Option.bind_eq_bind, Option.bind_some, h.findParent_ofPoint hleaf ha hd had, hleaf.1]
  rfl

/-- One call of `refine_` on a leaf: the children, then the entities again. -/
theorem refine_leaf (hleaf : Leaf t a b) (fuel : ℕ) : ∃ br m,
    t.intoBranch a b = some { t with branches := br } ∧
    ((List.range T.numChildren).map (a ++ [·])).foldl emplace { t with branches := br } =
      { t with branches := br, branch_map := m } ∧
    refine (fuel + 1) t a = ((b.ents.foldlM (fun (t : TreeTopology T K) ent => t.insertWith (refine fuel) ent (T.depth b.id + 1))
      { t with branches := br, branch_map := m, max_depth := max t.max_depth (T.depth b.id + 1) }).map
        fun t => t.modifyBranch a cleared) := by
  obtain ⟨br, hinto, -⟩ := t.intoBranch_eq a b
  obtain ⟨m, hm⟩ := foldl_emplace_eq { t with branches := br } ((List.range T.numChildren).map (a ++ [·]))
  refine ⟨br, m, hinto, hm, ?_⟩
  rw [List.foldl_map] at hm
  rw [refine, hleaf.1]
  simp only [Option.bind_eq_bind, Option.bind_some, hleaf.2, Bool.false_eq_true, if_false, hinto, hm]
  exact Option.map_eq_bind.symm

theorem refine_expanded (h : Shape t) (hleaf : Leaf t a b) (hlt : a.length < T.max_depth) (fuel : ℕ) :
    ∃ t₁, Expanded t a b t₁ ∧ refine (fuel + 1) t a =
      (b.ents.foldlM (fun (t : TreeTopology T K) ent => t.insertWith (refine fuel) ent (a.length + 1)) t₁).map
        fun t => t.modifyBranch a cleared := by
  obtain ⟨ha, -, hid⟩ := h.branch hleaf.1
  have hdepth : T.depth b.id = a.length := by rw [hid, IdType.depth_number ha.child]
  have hpath {c : ℕ} (hc : c < T.numChildren) : T.Path (a ++ [c]) := by
    refine ⟨fun c' hc' => ?_, ?_⟩
    · obtain hmem | hmem := List.mem_append.mp hc'
      · exact ha.child c' hmem
      · exact List.mem_singleton.mp hmem ▸ hc
    · rw [List.length_append, List.length_singleton]
      exact hlt
  obtain ⟨br, m, hinto, hm, hrefine⟩ := refine_leaf hleaf fuel
  obtain ⟨br', hinto', hself, hchild, hother⟩ := t.intoBranch_eq a b
  have hbr : br' = br := by
    rw [hinto, Option.some_inj] at hinto'
    exact (congrArg TreeTopology.branches hinto').symm
  subst hbr
  have hchildren : ∀ c < T.numChildren, br' (a ++ [c]) = some (freshLeaf T (a ++ [c])) := by
    intro c hc
    obtain ⟨id, hpush, hc'⟩ := hchild c hc
    rw [hid, IdType.push_number (hpath hc), Option.some_inj] at hpush
    rw [hc', ← hpush]
    rfl
  rw [hdepth] at hrefine
  refine ⟨{ t with branches := br', branch_map := m, max_depth := max t.max_depth (a.length + 1) },
    ⟨rfl, rfl, ?_, hchildren, hother, fun id x => ?_, rfl⟩, hrefine⟩
  · dsimp only
    rw [hself, hleaf.1]
    rfl
  · have hmap := foldl_emplace_map (t := { t with branches := br' }) ((List.range T.numChildren).map (a ++ [·])) T.number
      ?_ ?_ ?_ id x
    · rw [hm] at hmap
      refine hmap.trans (or_congr_right ?_)
      simp only [List.mem_map, List.mem_range]
      constructor
      · rintro ⟨⟨c, hc, rfl⟩, heq⟩
        exact ⟨c, hc, rfl, heq⟩
      · rintro ⟨c, hc, rfl, heq⟩
        exact ⟨⟨c, hc, rfl⟩, heq⟩
    · intro ci hci
      obtain ⟨c, hc, rfl⟩ := List.mem_map.mp hci
      exact ⟨_, hchildren c (List.mem_range.mp hc), rfl⟩
    · rw [List.map_map]
      refine (List.nodup_map_iff_inj_on List.nodup_range).mpr fun c hc c' hc' heq => ?_
      have hinj := IdType.number_injective (hpath (List.mem_range.mp hc)).child (hpath (List.mem_range.mp hc')).child heq
      simpa using hinj
    · intro ci hci
      obtain ⟨c, hc, rfl⟩ := List.mem_map.mp hci
      refine Option.eq_none_iff_forall_ne_some.mpr fun x hx => ?_
      obtain ⟨hsome, heq⟩ := (h.map _ x).mp hx
      obtain ⟨bx, hbx⟩ := Option.isSome_iff_exists.mp hsome
      have hat := IdType.number_injective (hpath (List.mem_range.mp hc)).child (h.branch hbx).1.child heq
      rw [← hat] at hsome
      have := h.below_leaf hleaf hsome
      cases this

-- ---------------------------------------------------------------------------
-- Settled and crowded trees
-- ---------------------------------------------------------------------------

/-- Entities are in leaves on their paths. -/
def OnPaths (t : TreeTopology T K) : Prop :=
  ∀ a b, Leaf t a b → ∀ k ∈ b.ents, ∃ p, t.points[k]? = some p ∧ a <+: place t.range p

def Quiet (b : BranchState) : Prop := b.action = .none ∧ b.ents.length ≤ 1

structure Settled (t : TreeTopology T K) : Prop where
  shape : Shape t
  onPaths : OnPaths t
  quiet : ∀ a b, Leaf t a b → Quiet b

/-- Two entities are in the leaf `a`, at most one in any other. -/
structure Crowded (t : TreeTopology T K) (a : Address) (i j : ℕ) : Prop where
  shape : Shape t
  onPaths : OnPaths t
  quiet : ∀ x b, Leaf t x b → x ≠ a → Quiet b
  leaf : ∃ b, Leaf t a b ∧ b.ents = [i, j]

theorem OnPaths.placed (h : OnPaths t) (hleaf : Leaf t a b) (hp : t.points[ent]? = some p)
    (ha : a <+: place t.range p) : OnPaths (t.placed a b ent) := by
  intro x b' hx k hk
  have hpoints : (t.placed a b ent).points = t.points := by simp [TreeTopology.placed]
  rw [hpoints]
  obtain ⟨rfl, rfl⟩ | ⟨-, hx⟩ := (leaf_placed hleaf ent).mp hx
  · obtain hk | hk := List.mem_append.mp hk
    · exact h x b hleaf k hk
    · rw [List.mem_singleton.mp hk]
      exact ⟨p, hp, ha⟩
  · exact h x b' hx k hk

/-- An entity is put into an empty leaf. -/
theorem Settled.placed (h : Settled t) (hleaf : Leaf t a b) (hempty : b.ents = []) (hp : t.points[ent]? = some p)
    (ha : a <+: place t.range p) : Settled (t.placed a b ent) := by
  refine ⟨h.shape.placed a b ent, h.onPaths.placed hleaf hp ha, fun x b' hx => ?_⟩
  obtain ⟨rfl, rfl⟩ | ⟨-, hx⟩ := (leaf_placed hleaf ent).mp hx
  · simp [Quiet, BranchState.insert, hempty, (h.quiet x b hleaf).1]
  · exact h.quiet x b' hx

/-- An entity joins another one in its leaf. -/
theorem Settled.crowded (h : Settled t) (hleaf : Leaf t a b) (hone : b.ents = [i]) (hp : t.points[ent]? = some p)
    (ha : a <+: place t.range p) : Crowded (t.placed a b ent) a i ent := by
  refine ⟨h.shape.placed a b ent, h.onPaths.placed hleaf hp ha, fun x b' hx hne => ?_, ?_⟩
  · obtain ⟨rfl, -⟩ | ⟨-, hx⟩ := (leaf_placed hleaf ent).mp hx
    · exact absurd rfl hne
    · exact h.quiet x b' hx
  · refine ⟨_, (leaf_placed hleaf ent).mpr (.inl ⟨rfl, rfl⟩), ?_⟩
    simp [BranchState.insert, hone]

theorem Settled.cleared (h : Settled t) (hb : t.branches a = some b) (hnode : b.hasChildren = true) :
    Settled (t.modifyBranch a cleared) := by
  have hleaf {x b'} : Leaf (t.modifyBranch a TreeTopology.cleared) x b' ↔ Leaf t x b' :=
    leaf_modifyBranch_node hb hnode (f := TreeTopology.cleared) fun _ => rfl
  refine ⟨h.shape.modifyBranch a (fun _ => rfl) fun _ => rfl, fun x b' hx k hk => ?_, fun x b' hx => ?_⟩
  · exact h.onPaths x b' (hleaf.mp hx) k hk
  · exact h.quiet x b' (hleaf.mp hx)

/-- The crowded leaf is empty after it was given children. -/
theorem Crowded.expanded (h : Crowded t a i j) (hleaf : Leaf t a b) (hents : b.ents = [i, j]) (hlt : a.length < T.max_depth)
    (hx : Expanded t a b t') : Settled t' ∧ ∀ k, Held t k ↔ Held t' k ∨ k = i ∨ k = j := by
  have hleaves {x b'} : Leaf t' x b' ↔ _ := hx.leaf h.shape hleaf
  have hpoints : t'.points = t.points := congrArg (List.map _) hx.entities
  refine ⟨⟨hx.shape h.shape hleaf hlt, fun x b' hxb k hk => ?_, fun x b' hxb => ?_⟩, fun k => ?_⟩
  · rw [hpoints, hx.range]
    obtain ⟨-, hold⟩ | ⟨c, -, -, rfl⟩ := hleaves.mp hxb
    · exact h.onPaths x b' hold k hk
    · cases hk
  · obtain ⟨hne, hold⟩ | ⟨c, -, -, rfl⟩ := hleaves.mp hxb
    · exact h.quiet x b' hold hne
    · exact ⟨rfl, Nat.zero_le _⟩
  · constructor
    · rintro ⟨x, b', hold, hk⟩
      by_cases hxa : x = a
      · subst hxa
        have heq : b' = b := Option.some_inj.mp (hold.1.symm.trans hleaf.1)
        rw [heq, hents] at hk
        exact .inr (by simpa using hk)
      · exact .inl ⟨x, b', hleaves.mpr (.inl ⟨hxa, hold⟩), hk⟩
    · rintro (⟨x, b', hnew, hk⟩ | hij)
      · obtain ⟨-, hold⟩ | ⟨c, -, -, rfl⟩ := hleaves.mp hnew
        · exact ⟨x, b', hold, hk⟩
        · cases hk
      · exact ⟨a, b, hleaf, by rw [hents]; simpa using hij⟩

-- ---------------------------------------------------------------------------
-- Branches stay
-- ---------------------------------------------------------------------------

theorem insertWith_stays {refine : TreeTopology T K → Address → Option (TreeTopology T K)}
    (hrefine : ∀ t a t', refine t a = some t' → Stays t t') (hrun : t.insertWith refine ent d = some t') :
    Stays t t' := by
  simp only [insertWith, Option.bind_eq_bind, Option.bind_eq_some_iff] at hrun
  obtain ⟨e, -, a, -, b, -, hrun⟩ := hrun
  cases haction : (b.insert ent).action with
  | none =>
    rw [haction] at hrun
    cases hrun
    exact Stays.placed (show Stays (t.placed a b ent) _ from fun _ hx => hx)
  | refine =>
    rw [haction] at hrun
    exact Stays.placed (hrefine _ _ _ hrun)
  | coarsen =>
    rw [haction] at hrun
    cases hrun

theorem refine_stays (fuel : ℕ) : ∀ (t : TreeTopology T K) (a : Address) (t' : TreeTopology T K),
    refine fuel t a = some t' → Stays t t' := by
  induction fuel with
  | zero =>
    intro t a t' hrun
    cases hrun
  | succ fuel ih =>
    intro t a t' hrun
    cases hb : t.branches a with
    | none =>
      rw [refine, hb] at hrun
      cases hrun
    | some b =>
      cases hchildren : b.hasChildren with
      | true =>
        rw [refine, hb] at hrun
        simp only [Option.bind_eq_bind, Option.bind_some, hchildren, if_true, Option.some_inj] at hrun
        subst hrun
        exact fun _ hx => hx
      | false =>
        obtain ⟨br, m, hinto, -, hrefine⟩ := refine_leaf (t := t) ⟨hb, hchildren⟩ fuel
        rw [hrefine, Option.map_eq_some_iff] at hrun
        obtain ⟨t₁, hloop, rfl⟩ := hrun
        have hstays := foldlM_stays (fun t k t' => insertWith_stays (fun t a t' => ih t a t')) hloop
        exact Stays.modifyBranch (fun x hx => hstays x (stays_intoBranch hinto x hx)) a _

/-- A leaf at the maximal depth gets children that are too deep. -/
theorem refine_deepest (hleaf : Leaf t a b) (fuel : ℕ) (hrun : refine fuel t a = some t') :
    (t'.branches (a ++ [0])).isSome := by
  cases fuel with
  | zero => cases hrun
  | succ fuel =>
    obtain ⟨br, m, hinto, -, hrefine⟩ := refine_leaf hleaf fuel
    rw [hrefine, Option.map_eq_some_iff] at hrun
    obtain ⟨t₁, hloop, rfl⟩ := hrun
    obtain ⟨br', hinto', -, hchild, -⟩ := t.intoBranch_eq a b
    have hbr : br' = br := by
      rw [hinto, Option.some_inj] at hinto'
      exact (congrArg TreeTopology.branches hinto').symm
    subst hbr
    obtain ⟨id, -, hzero⟩ := hchild 0 (zero_lt_one.trans T.one_lt_numChildren)
    have hstays := foldlM_stays (fun t k t' => insertWith_stays (refine_stays fuel)) hloop
    refine (isSome_modifyBranch t₁ a _ _).trans (hstays _ ?_)
    dsimp only
    rw [hzero]
    rfl

-- ---------------------------------------------------------------------------
-- A crowded leaf is refined
-- ---------------------------------------------------------------------------

/-- An insertion into a settled tree, by the entity that is already in the leaf. -/
theorem Settled.insertWith_cases (h : Settled t) (refine : TreeTopology T K → Address → Option (TreeTopology T K))
    (hp : t.points[ent]? = some p) (hleaf : Leaf t a b) (ha : a <+: place t.range p) (hd : d ≤ T.max_depth)
    (had : a.length ≤ d) :
    (b.ents = [] ∧ t.insertWith refine ent d = some (t.placed a b ent)) ∨
      ∃ i, b.ents = [i] ∧ t.insertWith refine ent d = refine (t.placed a b ent) a := by
  obtain ⟨haction, hlen⟩ := h.quiet a b hleaf
  rw [insertWith_leaf refine h.shape hleaf hp ha hd had]
  cases hents : b.ents with
  | nil => exact .inl ⟨rfl, by simp [BranchState.insert, hents, haction]⟩
  | cons i rest =>
    rw [hents, List.length_cons] at hlen
    have hrest : rest = [] := List.eq_nil_of_length_eq_zero (by omega)
    subst hrest
    exact .inr ⟨i, rfl, by simp [BranchState.insert, hents]⟩

theorem exists_child {path : List ℕ} (ha : a <+: path) (hlt : a.length < path.length) : ∃ c, a ++ [c] <+: path := by
  obtain ⟨rest, rfl⟩ := ha
  cases rest with
  | nil => simp at hlt
  | cons c rest => exact ⟨c, rest, by simp⟩

/-- One level of refinement: the paths part there, or the child on both is crowded. -/
theorem Crowded.refine_step (h : Crowded t a i j) (hi : t.points[i]? = some p) (hj : t.points[j]? = some q)
    (hlt : a.length < T.max_depth) (fuel : ℕ) :
    (place t.range p ≠ place t.range q ∧ ∃ t₁, refine (fuel + 1) t a = some (t₁.modifyBranch a cleared) ∧
      Settled t₁ ∧ Same t t₁ ∧ ∃ c, (t₁.branches (a ++ [c])).isSome) ∨
    ∃ c t₁, refine (fuel + 1) t a = (refine fuel t₁ (a ++ [c])).map (fun t => t.modifyBranch a cleared) ∧
      Crowded t₁ (a ++ [c]) i j ∧ Same t t₁ := by
  obtain ⟨b, hleaf, hents⟩ := h.leaf
  obtain ⟨p', hi', hap⟩ := h.onPaths a b hleaf i (by simp [hents])
  obtain ⟨q', hj', haq⟩ := h.onPaths a b hleaf j (by simp [hents])
  obtain rfl : p' = p := Option.some_inj.mp (hi'.symm.trans hi)
  obtain rfl : q' = q := Option.some_inj.mp (hj'.symm.trans hj)
  obtain ⟨t₀, hx, hrefine⟩ := refine_expanded h.shape hleaf hlt fuel
  obtain ⟨hs, hheld⟩ := h.expanded hleaf hents hlt hx
  have hpoints : t₀.points = t.points := congrArg (List.map _) hx.entities
  obtain ⟨c, hcp⟩ := exists_child hap (by rwa [length_place])
  obtain ⟨c', hcq⟩ := exists_child haq (by rwa [length_place])
  have hc : c < T.numChildren := (place_path t.range p').child c (hcp.subset (by simp))
  have hc' : c' < T.numChildren := (place_path t.range q').child c' (hcq.subset (by simp))
  have hnew {c : ℕ} (hc : c < T.numChildren) : Leaf t₀ (a ++ [c]) (freshLeaf T (a ++ [c])) :=
    (hx.leaf h.shape hleaf).mpr (.inr ⟨c, hc, rfl, rfl⟩)
  have hd : a.length + 1 ≤ T.max_depth := hlt
  have hlen (c : ℕ) : (a ++ [c]).length ≤ a.length + 1 := by simp
  rw [hents] at hrefine
  -- the first entity finds an empty child
  rw [← hpoints] at hi hj
  rw [← hx.range] at hcp hcq ⊢
  have hfirst : t₀.insertWith (refine fuel) i (a.length + 1) = some (t₀.placed (a ++ [c]) (freshLeaf T (a ++ [c])) i) := by
    obtain ⟨-, heq⟩ | ⟨k, hk, -⟩ := hs.insertWith_cases (refine fuel) hi (hnew hc) hcp hd (hlen c)
    · exact heq
    · cases hk
  have hs₁ := hs.placed (hnew hc) rfl hi hcp
  have hheld₁ := held_placed (hnew hc) i
  generalize ht₁ : t₀.placed (a ++ [c]) (freshLeaf T (a ++ [c])) i = t₁ at hfirst hs₁ hheld₁
  have hleaf₁ {x b'} : Leaf (t₀.placed (a ++ [c]) (freshLeaf T (a ++ [c])) i) x b' ↔ _ := leaf_placed (hnew hc) i
  rw [ht₁] at hleaf₁
  have hpoints₁ : t₁.points = t₀.points := by simp [← ht₁, placed]
  have hrange₁ : t₁.range = t₀.range := by rw [← ht₁]; rfl
  rw [← hpoints₁] at hj
  rw [← hrange₁] at hcq
  rw [List.foldlM_cons, hfirst, Option.bind_eq_bind, Option.bind_some, List.foldlM_cons] at hrefine
  have hlast (o : Option (TreeTopology T K)) : (o >>= fun t => List.foldlM
      (fun (t : TreeTopology T K) ent => t.insertWith (refine fuel) ent (a.length + 1)) t []) = o := by
    cases o <;> rfl
  rw [hlast] at hrefine
  have hsame {b' : BranchState} (hb' : Leaf t₁ (a ++ [c']) b') : Same t (t₁.placed (a ++ [c']) b' j) := by
    refine ⟨hrange₁.trans hx.range, ?_, fun k => ?_⟩
    · simp [placed, hpoints₁, hpoints]
    · rw [held_placed hb', hheld₁, hheld, or_assoc]
  by_cases hcc : c' = c
  · subst hcc
    have hb₁ := hleaf₁.mpr (.inl ⟨rfl, rfl⟩)
    obtain ⟨hempty, -⟩ | ⟨k, hk, hsecond⟩ := hs₁.insertWith_cases (refine fuel) hj hb₁ hcq hd (hlen c')
    · simp [BranchState.insert] at hempty
    · rw [hsecond] at hrefine
      exact .inr ⟨c', _, hrefine, hs₁.crowded hb₁ rfl hj hcq, hsame hb₁⟩
  · have hb₁ := hleaf₁.mpr (.inr ⟨by simpa using hcc, hnew hc'⟩)
    obtain ⟨-, hsecond⟩ | ⟨k, hk, -⟩ := hs₁.insertWith_cases (refine fuel) hj hb₁ hcq hd (hlen c')
    · rw [hsecond] at hrefine
      refine .inl ⟨fun heq => hcc ?_, _, hrefine, hs₁.placed hb₁ rfl hj hcq, hsame hb₁, c', ?_⟩
      · rw [hrange₁, ← heq] at hcq
        have := List.prefix_of_prefix_length_le hcq hcp (by simp)
        simpa using this
      · have hsome := isSome_modifyBranch (t₁.setBranchId j (T.number (a ++ [c']))) (a ++ [c']) (a ++ [c'])
          fun branch => branch.insert j
        exact hsome.trans (by rw [show (t₁.setBranchId j _).branches = t₁.branches from rfl, hb₁.1]; rfl)
    · cases hk

theorem Crowded.path (h : Crowded t a i j) : T.Path a := by
  obtain ⟨b, hleaf, -⟩ := h.leaf
  exact (h.shape.branch hleaf.1).1

/-- Different paths: the refinement settles the tree, at the maximal depth at the latest. -/
theorem refine_crowded (fuel : ℕ) : ∀ {t : TreeTopology T K} {a : Address} {i j : ℕ} {p q : Fin T.dimension → K},
    Crowded t a i j → t.points[i]? = some p → t.points[j]? = some q → place t.range p ≠ place t.range q →
    (∀ t', refine fuel t a = some t' → Settled t' ∧ Same t t') ∧
      (T.max_depth < fuel + a.length → (refine fuel t a).isSome) := by
  induction fuel with
  | zero =>
    intro t a i j p q h hi hj hne
    refine ⟨fun t' hrun => (by cases hrun), fun hdeep => ?_⟩
    have := h.path.length
    omega
  | succ fuel ih =>
    intro t a i j p q h hi hj hne
    obtain ⟨b, hleaf, hents⟩ := h.leaf
    have hlt : a.length < T.max_depth := by
      refine h.path.length.lt_of_ne fun heq => hne ?_
      obtain ⟨p', hi', hap⟩ := h.onPaths a b hleaf i (by simp [hents])
      obtain ⟨q', hj', haq⟩ := h.onPaths a b hleaf j (by simp [hents])
      obtain rfl : p' = p := Option.some_inj.mp (hi'.symm.trans hi)
      obtain rfl : q' = q := Option.some_inj.mp (hj'.symm.trans hj)
      rw [← hap.eq_of_length (by rw [heq, length_place]), ← haq.eq_of_length (by rw [heq, length_place])]
    obtain ⟨-, t₁, hrun, hs, hsame, c, hc⟩ | ⟨c, t₁, hrun, hcrowded, hsame⟩ := h.refine_step hi hj hlt fuel
    · rw [hrun]
      refine ⟨fun t' heq => ?_, fun _ => rfl⟩
      obtain ⟨-, b', hb', hnode⟩ := (hs.shape.child a c).mp hc
      cases heq
      exact ⟨hs.cleared hb' hnode, hsame.trans (Same.cleared hb' hnode)⟩
    · rw [← hsame.points] at hi hj
      rw [← hsame.range] at hne
      obtain ⟨hresult, hreturns⟩ := ih hcrowded hi hj hne
      rw [hrun]
      refine ⟨fun t' heq => ?_, fun hdeep => ?_⟩
      · obtain ⟨t₂, hrec, rfl⟩ := Option.map_eq_some_iff.mp heq
        obtain ⟨hs, hsame'⟩ := hresult t₂ hrec
        obtain ⟨b', hleaf', -⟩ := hcrowded.leaf
        have hstays := refine_stays fuel t₁ _ t₂ hrec (a ++ [c]) (by rw [hleaf'.1]; rfl)
        obtain ⟨-, b'', hb'', hnode⟩ := (hs.shape.child a c).mp hstays
        exact ⟨hs.cleared hb'' hnode, (hsame.trans hsame').trans (Same.cleared hb'' hnode)⟩
      · rw [Option.isSome_map]
        refine hreturns ?_
        rw [List.length_append, List.length_singleton]
        omega

/-- The same path: the refinement goes past the maximal depth. -/
theorem refine_too_deep (fuel : ℕ) : ∀ {t : TreeTopology T K} {a : Address} {i j : ℕ} {p q : Fin T.dimension → K},
    Crowded t a i j → t.points[i]? = some p → t.points[j]? = some q → place t.range p = place t.range q →
    ∀ t', refine fuel t a = some t' → ∃ x, T.max_depth < x.length ∧ (t'.branches x).isSome := by
  induction fuel with
  | zero =>
    intro t a i j p q h hi hj heq t' hrun
    cases hrun
  | succ fuel ih =>
    intro t a i j p q h hi hj heq t' hrun
    obtain hlt | hlen := h.path.length.lt_or_eq
    · obtain ⟨hne, -⟩ | ⟨c, t₁, hstep, hcrowded, hsame⟩ := h.refine_step hi hj hlt fuel
      · exact absurd heq hne
      · rw [hstep, Option.map_eq_some_iff] at hrun
        obtain ⟨t₂, hrec, rfl⟩ := hrun
        rw [← hsame.points] at hi hj
        rw [← hsame.range] at heq
        obtain ⟨x, hdeep, hsome⟩ := ih hcrowded hi hj heq t₂ hrec
        exact ⟨x, hdeep, (isSome_modifyBranch t₂ a x _).trans hsome⟩
    · obtain ⟨b, hleaf, -⟩ := h.leaf
      refine ⟨a ++ [0], ?_, refine_deepest hleaf (fuel + 1) hrun⟩
      rw [List.length_append, List.length_singleton]
      omega

end TreeTopology

end Flecsi.Topology
