import Flecsi.Topology.TreeUpdates
import Flecsi.Topology.DividedLeaf

/-!
# A branch is coarsened

What coarsening leaves, in closed form: the branch is a leaf that took the entities of all
branches below it, and these are gone from the tree and from the map.
-/

namespace Flecsi.Topology

namespace TreeTopology

section
variable {T : IdType} {K : Type} [LT K] {t t₁ t' : TreeTopology T K}

/-- What a function gives for the branches below one, each before the ones below it. -/
def listBelow (f : BranchState → List ℕ) : ℕ → TreeTopology T K → Address → List ℕ
  | 0, _, _ => []
  | fuel + 1, t, b =>
    if (t.branches b).any (·.hasChildren) then
      (List.range T.numChildren).flatMap fun i =>
        (t.branches (b ++ [i])).elim [] f ++ listBelow f fuel t (b ++ [i])
    else []

/-- A branch took some entities, and some ids were taken out of the map. -/
structure Gathered (t : TreeTopology T K) (p : Address) (parent : BranchState) (es ids : List ℕ)
    (t' : TreeTopology T K) : Prop where
  range : t'.range = t.range
  points : t'.points = t.points
  max_depth : t'.max_depth = t.max_depth
  other : ∀ x, x ≠ p → t'.branches x = t.branches x
  self : ∃ action, t'.branches p = some { parent with ents := parent.ents ++ es, action }
  map : ∀ id, t'.branch_map id = if id ∈ ids then none else t.branch_map id
  branchId : ∀ k, t'.branchId k = if k ∈ es then (t.branchId k).map fun _ => parent.id else t.branchId k

theorem Gathered.start (hp : t.branches p = some parent) : Gathered t p parent [] [] t :=
  ⟨rfl, rfl, rfl, fun _ _ => rfl, ⟨parent.action, by rw [hp, List.append_nil]⟩, fun _ => rfl, fun _ => rfl⟩

theorem Gathered.congr {ids' : List ℕ} (h : Gathered t p parent es ids t') (hids : ∀ id, id ∈ ids ↔ id ∈ ids') :
    Gathered t p parent es ids' t' :=
  { h with map := fun id => by rw [h.map, if_congr (hids id) rfl rfl] }

theorem branchId_setBranchId (t : TreeTopology T K) (ent id k : ℕ) :
    (t.setBranchId ent id).branchId k = if k = ent then (t.branchId k).map fun _ => id else t.branchId k := by
  simp only [TreeTopology.branchId, setBranchId, List.getElem?_modify]
  by_cases hk : k = ent
  · subst hk
    cases t.entities[k]? <;> simp
  · simp [hk, Ne.symm hk]

theorem Gathered.absorb (h : Gathered t p parent es ids t₁) (ent : ℕ) :
    ∃ t', t₁.absorb p ent = some t' ∧ Gathered t p parent (es ++ [ent]) ids t' := by
  obtain ⟨action, hself⟩ := h.self
  refine ⟨(t₁.modifyBranch p fun branch => branch.insert ent).setBranchId ent parent.id,
    by rw [TreeTopology.absorb, hself]; rfl, h.range, ?_, h.max_depth, fun x hx => ?_, ?_, h.map, fun k => ?_⟩
  · rw [points_setBranchId, points_modifyBranch, h.points]
  · exact (modifyBranch_of_ne t₁ hx _).trans (h.other x hx)
  · have hbranch := modifyBranch_self t₁ p fun branch => branch.insert ent
    rw [hself, Option.map_some, BranchState.insert, List.append_assoc] at hbranch
    exact ⟨_, hbranch⟩
  · have hk : (t₁.modifyBranch p fun branch => branch.insert ent).branchId k = t₁.branchId k := rfl
    rw [branchId_setBranchId, hk, h.branchId]
    by_cases hent : k = ent
    · subst hent
      simp only [List.mem_append, List.mem_singleton, or_true, if_true]
      split
      · rw [Option.map_map]
        rfl
      · rfl
    · simp [hent]

theorem Gathered.absorbAll (h : Gathered t p parent es ids t₁) (ents : List ℕ) :
    ∃ t', ents.foldlM (fun (t : TreeTopology T K) ent => t.absorb p ent) t₁ = some t' ∧
      Gathered t p parent (es ++ ents) ids t' := by
  induction ents generalizing es t₁ with
  | nil => exact ⟨t₁, rfl, by rwa [List.append_nil]⟩
  | cons ent ents ih =>
    obtain ⟨t₂, hfirst, h₂⟩ := h.absorb ent
    obtain ⟨t', hrest, h'⟩ := ih h₂
    refine ⟨t', ?_, by rwa [List.append_assoc] at h'⟩
    rw [List.foldlM_cons, hfirst]
    exact hrest

theorem Gathered.eraseId (h : Gathered t p parent es ids t₁) (id : ℕ) :
    Gathered t p parent es (ids ++ [id]) (t₁.eraseId id) :=
  { h with
    map := fun id' => by
      simp only [TreeTopology.eraseId, Function.update_apply, h.map, List.mem_append, List.mem_singleton]
      by_cases hid : id' = id
      · simp [hid]
      · simp [hid] }

/-- Coarsening the branches below `b` into `p`. -/
theorem coarsenBelow_gathered (hs : Shape t) {p : Address} {parent : BranchState} (hparent : t.branches p = some parent)
    (fuel : ℕ) : ∀ {b : Address} {es ids : List ℕ} {t₁ : TreeTopology T K}, p <+: b → (t.branches b).isSome →
      T.max_depth < fuel + b.length → Gathered t p parent es ids t₁ →
      ∃ t', coarsenBelow fuel t₁ p b = some t' ∧ Gathered t p parent (es ++ listBelow (·.ents) fuel t b)
        (ids ++ listBelow (fun b => [b.id]) fuel t b) t' := by
  induction fuel with
  | zero =>
    intro b es ids t₁ hb hsome hfuel h
    obtain ⟨branch, hbranch⟩ := Option.isSome_iff_exists.mp hsome
    exact absurd (hs.branch hbranch).1.length (by omega)
  | succ fuel ih =>
    intro b es ids t₁ hb hsome hfuel h
    obtain ⟨branch, hbranch⟩ := Option.isSome_iff_exists.mp hsome
    -- the branch as it is now, the same but for the entities it took
    obtain ⟨now, hnow, hchildren⟩ : ∃ now, t₁.branches b = some now ∧ now.hasChildren = branch.hasChildren := by
      by_cases hbp : b = p
      · subst hbp
        obtain ⟨action, hself⟩ := h.self
        rw [hparent, Option.some_inj] at hbranch
        exact ⟨_, hself, by rw [← hbranch]⟩
      · exact ⟨branch, (h.other b hbp).trans hbranch, rfl⟩
    rw [coarsenBelow, hnow]
    simp only [listBelow, hbranch, Option.any_some, Option.bind_eq_bind, Option.bind_some, hchildren]
    cases hnode : branch.hasChildren with
    | false => exact ⟨t₁, rfl, by simpa using h⟩
    | true =>
      simp only [if_true]
      have hloop : ∀ (l : List ℕ) {es ids : List ℕ} {t₁ : TreeTopology T K}, (∀ i ∈ l, i < T.numChildren) →
          Gathered t p parent es ids t₁ → ∃ t', l.foldlM (fun t i => (t.branches (b ++ [i])).bind fun ci =>
            (ci.ents.foldlM (fun (t : TreeTopology T K) ent => t.absorb p ent) t).bind fun t =>
              (coarsenBelow fuel t p (b ++ [i])).bind fun t => some (t.eraseId ci.id)) t₁ = some t' ∧
            Gathered t p parent
              (es ++ l.flatMap fun i => (t.branches (b ++ [i])).elim [] (·.ents) ++ listBelow (·.ents) fuel t (b ++ [i]))
              (ids ++ l.flatMap fun i => (t.branches (b ++ [i])).elim [] (fun b => [b.id]) ++
                listBelow (fun b => [b.id]) fuel t (b ++ [i])) t' := by
        intro l
        induction l with
        | nil =>
          intro es ids t₁ _ h
          exact ⟨t₁, rfl, by simpa using h⟩
        | cons i l ihl =>
          intro es ids t₁ hl h
          have hchild : (t.branches (b ++ [i])).isSome := (hs.child b i).mpr ⟨hl i (by simp), branch, hbranch, hnode⟩
          obtain ⟨ci, hci⟩ := Option.isSome_iff_exists.mp hchild
          have hne : b ++ [i] ≠ p := fun heq => absurd (heq ▸ hb).length_le (by simp)
          obtain ⟨t₂, habsorb, h₂⟩ := h.absorbAll ci.ents
          obtain ⟨t₃, hbelow, h₃⟩ := ih (hb.trans (List.prefix_append b [i])) hchild (by simp; omega) h₂
          obtain ⟨t', hrest, h'⟩ := ihl (fun i hi => hl i (by simp [hi])) (h₃.eraseId ci.id)
          refine ⟨t', ?_, ?_⟩
          · rw [List.foldlM_cons, h.other _ hne, hci]
            simp only [Option.bind_eq_bind, Option.bind_some, habsorb, hbelow]
            exact hrest
          · have hids (id : ℕ) : id ∈ ids ++ listBelow (fun b => [b.id]) fuel t (b ++ [i]) ++ [ci.id] ++
                (l.flatMap fun i => (t.branches (b ++ [i])).elim [] (fun b => [b.id]) ++
                  listBelow (fun b => [b.id]) fuel t (b ++ [i])) ↔
                id ∈ ids ++ (i :: l).flatMap fun i => (t.branches (b ++ [i])).elim [] (fun b => [b.id]) ++
                  listBelow (fun b => [b.id]) fuel t (b ++ [i]) := by
              simp only [List.flatMap_cons, hci, Option.elim_some, List.mem_append, List.mem_singleton]
              tauto
            have hes := h'.congr hids
            simpa only [List.flatMap_cons, hci, Option.elim_some, List.append_assoc] using hes
      exact hloop (List.range T.numChildren) (fun i hi => List.mem_range.mp hi) h

/-- Every branch below is met. -/
theorem mem_listBelow (hs : Shape t) (f : BranchState → List ℕ) (k : ℕ) (fuel : ℕ) : ∀ {b : Address},
    T.max_depth < fuel + b.length → (k ∈ listBelow f fuel t b ↔
      ∃ x bx, b <+: x ∧ x ≠ b ∧ t.branches x = some bx ∧ k ∈ f bx) := by
  induction fuel with
  | zero =>
    intro b hfuel
    constructor
    · nofun
    · rintro ⟨x, bx, hbx, -, hsome, -⟩
      have := (hs.branch hsome).1.length
      have := hbx.length_le
      omega
  | succ fuel ih =>
    intro b hfuel
    constructor
    · intro hk
      unfold listBelow at hk
      split at hk
      · obtain ⟨i, -, hk⟩ := List.mem_flatMap.mp hk
        obtain hk | hk := List.mem_append.mp hk
        · cases hci : t.branches (b ++ [i]) with
          | none =>
            rw [hci] at hk
            cases hk
          | some ci =>
            rw [hci] at hk
            exact ⟨b ++ [i], ci, List.prefix_append b [i], by simp, hci, hk⟩
        · obtain ⟨x, bx, hbx, -, hsome, hk⟩ := (ih (by simp; omega)).mp hk
          refine ⟨x, bx, (List.prefix_append b [i]).trans hbx, ?_, hsome, hk⟩
          rintro rfl
          exact absurd hbx.length_le (by simp)
      · cases hk
    · rintro ⟨x, bx, hbx, hne, hsome, hk⟩
      obtain rfl | ⟨i, hi⟩ := prefix_cases hbx
      · exact absurd rfl hne
      · have hchild : (t.branches (b ++ [i])).isSome := hs.isSome_of_prefix hi (by rw [hsome]; rfl)
        obtain ⟨hlt, branch, hbranch, hnode⟩ := (hs.child b i).mp hchild
        unfold listBelow
        rw [hbranch, Option.any_some, hnode, if_pos rfl]
        refine List.mem_flatMap.mpr ⟨i, List.mem_range.mpr hlt, List.mem_append.mpr ?_⟩
        by_cases hxi : x = b ++ [i]
        · subst hxi
          rw [hsome]
          exact .inl hk
        · exact .inr ((ih (by simp; omega)).mpr ⟨x, bx, hi, hxi, hsome, hk⟩)

/-- A branch below another one, found by its ents. -/
theorem exists_of_mem_child (hs : Shape t) {f : BranchState → List ℕ} {b : Address} {i k fuel : ℕ}
    (hfuel : T.max_depth < fuel + 1 + b.length)
    (hk : k ∈ (t.branches (b ++ [i])).elim [] f ++ listBelow f fuel t (b ++ [i])) :
    ∃ x bx, b ++ [i] <+: x ∧ t.branches x = some bx ∧ k ∈ f bx := by
  obtain hk | hk := List.mem_append.mp hk
  · cases hci : t.branches (b ++ [i]) with
    | none =>
      rw [hci] at hk
      cases hk
    | some ci =>
      rw [hci] at hk
      exact ⟨b ++ [i], ci, List.prefix_rfl, hci, hk⟩
  · obtain ⟨x, bx, hbx, -, hsome, hk⟩ := (mem_listBelow hs f k fuel (by simp; omega)).mp hk
    exact ⟨x, bx, hbx, hsome, hk⟩

/-- Different branches give different values: none is met twice. -/
theorem nodup_listBelow (hs : Shape t) {f : BranchState → List ℕ}
    (hnodup : ∀ x bx, t.branches x = some bx → (f bx).Nodup)
    (hinj : ∀ x y bx ys k, t.branches x = some bx → t.branches y = some ys → k ∈ f bx → k ∈ f ys → x = y) (fuel : ℕ) :
    ∀ {b : Address}, T.max_depth < fuel + b.length → (listBelow f fuel t b).Nodup := by
  induction fuel with
  | zero => exact fun _ => List.nodup_nil
  | succ fuel ih =>
    intro b hfuel
    unfold listBelow
    split
    · refine List.nodup_flatMap.mpr ⟨fun i _ => List.nodup_append.mpr ⟨?_, ih (by simp; omega), ?_⟩,
        List.nodup_range.imp fun {i j} hij => ?_⟩
      · cases hci : t.branches (b ++ [i]) with
        | none => exact List.nodup_nil
        | some ci => exact hnodup _ ci hci
      · rintro k hk k' hk' rfl
        cases hci : t.branches (b ++ [i]) with
        | none =>
          rw [hci] at hk
          cases hk
        | some ci =>
          rw [hci] at hk
          obtain ⟨x, bx, -, hne, hsome, hmem⟩ := (mem_listBelow hs f k fuel (by simp; omega)).mp hk'
          exact hne (hinj x (b ++ [i]) bx ci k hsome hci hmem hk)
      · intro k hk hk'
        obtain ⟨x, bx, hix, hx, hkx⟩ := exists_of_mem_child hs hfuel hk
        obtain ⟨y, ys, hjy, hy, hky⟩ := exists_of_mem_child hs hfuel hk'
        obtain rfl := hinj x y bx ys k hx hy hkx hky
        exact hij ((prefix_child_iff hix).mp hjy).symm
    · exact List.nodup_nil

-- ---------------------------------------------------------------------------
-- The coarsened branch
-- ---------------------------------------------------------------------------

/-- What a tree is after the branch `p` took the entities below it. -/
structure Coarsened (t : TreeTopology T K) (p : Address) (parent : BranchState) (es : List ℕ)
    (t' : TreeTopology T K) : Prop where
  range : t'.range = t.range
  points : t'.points = t.points
  max_depth : t'.max_depth = t.max_depth
  self : t'.branches p = some ⟨parent.id, .none, parent.ents ++ es, false⟩
  below : ∀ x, p <+: x → x ≠ p → t'.branches x = none
  outside : ∀ x, ¬p <+: x → t'.branches x = t.branches x
  map : ∀ id x, t'.branch_map id = some x ↔ t.branch_map id = some x ∧ (p <+: x → x = p)
  branchId : ∀ k, t'.branchId k = if k ∈ es then (t.branchId k).map fun _ => parent.id else t.branchId k

theorem coarsen_coarsened (hs : Shape t) (hp : t.branches p = some parent) (hfuel : T.max_depth < fuel) :
    ∃ t', coarsen fuel t p = some t' ∧ Coarsened t p parent (listBelow (·.ents) fuel t p) t' := by
  have hdeep : T.max_depth < fuel + p.length := Nat.lt_add_right _ hfuel
  obtain ⟨t₁, hbelow, h⟩ := coarsenBelow_gathered hs hp fuel List.prefix_rfl (by rw [hp]; rfl) hdeep (Gathered.start hp)
  rw [List.nil_append, List.nil_append] at h
  obtain ⟨action, hself⟩ := h.self
  have hleaf (x : Address) : (t₁.intoLeaf p).branches x =
      if x = p then some ⟨parent.id, action, parent.ents ++ listBelow (·.ents) fuel t p, false⟩
      else if p <+: x then none else t₁.branches x := by
    rw [intoLeaf, hself]
    rfl
  refine ⟨(t₁.intoLeaf p).modifyBranch p BranchState.reset, by rw [coarsen, hbelow]; rfl, h.range, h.points,
    h.max_depth, ?_, fun x hx hne => ?_, fun x hx => ?_, fun id x => ?_, h.branchId⟩
  · rw [modifyBranch_self, hleaf, if_pos rfl]
    rfl
  · rw [modifyBranch_of_ne _ hne, hleaf, if_neg hne, if_pos hx]
  · have hne : x ≠ p := fun heq => hx (heq ▸ List.prefix_rfl)
    rw [modifyBranch_of_ne _ hne, hleaf, if_neg hne, if_neg hx, h.other x hne]
  · -- an id is erased when its branch is below
    have hmap : ((t₁.intoLeaf p).modifyBranch p BranchState.reset).branch_map id = t₁.branch_map id := rfl
    rw [hmap, h.map]
    have hgone : id ∈ listBelow (fun b => [b.id]) fuel t p ↔ ∃ y, p <+: y ∧ y ≠ p ∧ t.branch_map id = some y := by
      rw [mem_listBelow hs _ id fuel hdeep]
      constructor
      · rintro ⟨y, b, hpy, hne, hb, hid⟩
        refine ⟨y, hpy, hne, (hs.map id y).mpr ⟨by rw [hb]; rfl, ?_⟩⟩
        rw [List.mem_singleton.mp hid, (hs.branch hb).2.2]
      · rintro ⟨y, hpy, hne, hmap⟩
        obtain ⟨hsome, rfl⟩ := (hs.map id y).mp hmap
        obtain ⟨b, hb⟩ := Option.isSome_iff_exists.mp hsome
        exact ⟨y, b, hpy, hne, hb, by rw [(hs.branch hb).2.2, List.mem_singleton]⟩
    split
    · rename_i hmem
      obtain ⟨y, hpy, hne, hmap⟩ := hgone.mp hmem
      simp only [reduceCtorEq, false_iff, not_and]
      intro heq hkept
      obtain rfl := Option.some_inj.mp (hmap.symm.trans heq)
      exact hne (hkept hpy)
    · rename_i hmem
      refine (and_iff_left_of_imp fun hmap hpx => ?_).symm
      by_contra hne
      exact hmem (hgone.mpr ⟨x, hpx, hne, hmap⟩)

theorem Coarsened.shape (h : Coarsened t p parent es t') (hs : Shape t) (hp : t.branches p = some parent) : Shape t' := by
  have hsome (x : Address) : (t'.branches x).isSome ↔ (t.branches x).isSome ∧ (p <+: x → x = p) := by
    by_cases hpx : p <+: x
    · by_cases hne : x = p
      · subst hne
        rw [h.self, hp]
        simp
      · rw [h.below x hpx hne]
        simp [hpx, hne]
    · rw [h.outside x hpx]
      simp [hpx]
  constructor
  · refine (hsome []).mpr ⟨hs.root, fun hnil => ?_⟩
    exact (List.prefix_nil.mp hnil).symm
  · intro x b hb
    rw [h.max_depth]
    by_cases hpx : p <+: x
    · by_cases hne : x = p
      · subst hne
        rw [h.self, Option.some_inj] at hb
        subst hb
        have hparent := hs.branch hp
        exact hparent
      · rw [h.below x hpx hne] at hb
        cases hb
    · rw [h.outside x hpx] at hb
      exact hs.branch hb
  · rw [h.max_depth]
    exact hs.depth
  · intro x c
    rw [hsome, hs.child]
    by_cases hpx : p <+: x
    · have hgone : ¬(p <+: x ++ [c] → x ++ [c] = p) := fun himp => by
        have heq := himp (hpx.trans (List.prefix_append x [c]))
        exact absurd (heq ▸ hpx).length_le (by simp)
      simp only [hgone, and_false, false_iff, not_and, not_exists]
      intro _ b hb
      by_cases hne : x = p
      · subst hne
        rw [h.self, Option.some_inj] at hb
        simp [← hb]
      · rw [h.below x hpx hne] at hb
        cases hb
    · have hkept : p <+: x ++ [c] → x ++ [c] = p := fun hp' => by
        obtain heq | hpx' := List.prefix_concat_iff.mp hp'
        · exact heq.symm
        · exact absurd hpx' hpx
      rw [h.outside x hpx, and_iff_left hkept]
  · intro id x
    rw [h.map, hs.map, hsome]
    tauto

end

end TreeTopology

end Flecsi.Topology
