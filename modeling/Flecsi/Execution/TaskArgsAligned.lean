import Flecsi.Execution.TaskArgs

/-!
# The two walks over the arguments of a task

The regions an argument passes over are the requirements it added (`Tracks`), for
any arguments in any order. The futures agree exactly if no index future stands
before a single one.
-/

namespace Flecsi.Execution

variable {φ μ : Type}

-- ---------------------------------------------------------------------------
-- Regions
-- ---------------------------------------------------------------------------

def HasField (reqs : List RegionRequirement) (a : ℕ × ℕ) : Prop :=
  ∃ rr, reqs[a.1]? = some rr ∧ a.2 ∈ rr.fields

theorem HasField.append {reqs : List RegionRequirement} {a : ℕ × ℕ} (h : HasField reqs a)
    (new : List RegionRequirement) : HasField (reqs ++ new) a := by
  obtain ⟨rr, hrr, hf⟩ := h
  obtain ⟨hlt, -⟩ := List.getElem?_eq_some_iff.mp hrr
  exact ⟨rr, by rw [List.getElem?_append_left hlt, hrr], hf⟩

theorem HasField.add_field {reqs : List RegionRequirement} {a : ℕ × ℕ} (h : HasField reqs a)
    (i fid : ℕ) : HasField (reqs.modify i (·.add_field fid)) a := by
  obtain ⟨rr, hrr, hf⟩ := h
  by_cases hi : i = a.1
  · subst hi
    exact ⟨rr.add_field fid, by simp [hrr], by simp [RegionRequirement.add_field, hf]⟩
  · exact ⟨rr, by simp [hi, hrr], hf⟩

theorem hasField_added {reqs : List RegionRequirement} {i : ℕ} (hi : i < reqs.length)
    (fid : ℕ) : HasField (reqs.modify i (·.add_field fid)) (i, fid) :=
  ⟨reqs[i].add_field fid, by simp [hi], by simp [RegionRequirement.add_field]⟩

theorem hasField_new (reqs : List RegionRequirement) (rr : RegionRequirement)
    (new : List RegionRequirement) {f : ℕ} (h : f ∈ rr.fields) :
    HasField (reqs ++ rr :: new) (reqs.length, f) :=
  ⟨rr, by simp, h⟩

/-- The two walks inside one argument, which started after the requirements `base`. -/
structure Tracks (base : List RegionRequirement) (reqs : List RegionRequirement) (s : InitHandles) : Prop where
  region : s.region = reqs.length
  le : base.length ≤ s.region
  keeps : ∀ a, HasField base a → HasField reqs a
  regions : s.bound.regions = List.range' base.length (s.region - base.length)
  accesses : ∀ a ∈ s.bound.accesses, base.length ≤ a.1 ∧ HasField reqs a

theorem Tracks.advance {base : List RegionRequirement} {reqs reqs' : List RegionRequirement} {s : InitHandles}
    (h : Tracks base reqs s) {k : ℕ} {accesses : List (ℕ × ℕ)}
    (hlen : reqs'.length = reqs.length + k) (hmono : ∀ a, HasField reqs a → HasField reqs' a)
    (hacc : ∀ a ∈ accesses, base.length ≤ a.1 ∧ HasField reqs' a) :
    Tracks base reqs' (s.advance k accesses) where
  region := by rw [hlen, ← h.region]; rfl
  le := h.le.trans (Nat.le_add_right _ _)
  keeps := fun a ha => hmono a (h.keeps a ha)
  regions := by
    have hle := h.le
    have hsum : s.region + k - base.length = (s.region - base.length) + k := by omega
    have hbase : s.region = base.length + (s.region - base.length) := by omega
    simp only [InitHandles.advance, h.regions]
    rw [hsum, List.range'_append_1 |>.symm, ← hbase]
  accesses := by
    intro a ha
    rcases List.mem_append.mp ha with ha | ha
    · exact ⟨(h.accesses a ha).1, hmono a (h.accesses a ha).2⟩
    · exact hacc a ha

theorem Tracks.new {base : List RegionRequirement} {reqs : List RegionRequirement} {s : InitHandles}
    (h : Tracks base reqs s) (rr : RegionRequirement) (new : List RegionRequirement)
    {l : List ℕ} (hf : ∀ f ∈ l, f ∈ rr.fields) :
    Tracks base (reqs ++ rr :: new)
      (s.advance (new.length + 1) (l.map (s.region, ·))) := by
  refine h.advance (by simp) (fun a ha => ha.append _) fun a ha => ?_
  obtain ⟨f, hmem, rfl⟩ := List.mem_map.mp ha
  refine ⟨h.le, ?_⟩
  rw [h.region]
  exact hasField_new _ _ _ (hf f hmem)

theorem Tracks.sparse {base : List RegionRequirement} {reqs : List RegionRequirement} {s : InitHandles}
    (h : Tracks base reqs s) (hd : SparseHandle) (metadata exclusive shared ghost : PrivilegeMode) :
    Tracks base (reqs ++ sparseRequirements hd metadata exclusive shared ghost)
      (s.handleSparse hd) := by
  have hmd := h.new ⟨hd.metadata_lp, metadata, hd.metadata_entire_region, false, [hd.fid]⟩ []
    (l := [hd.fid]) (by simp)
  have hrows := hmd.new ⟨hd.exclusive_lp, exclusive, hd.entire_region, true, [hd.fid]⟩
    [⟨hd.shared_lp, shared, hd.entire_region, false, [hd.fid]⟩,
      ⟨hd.ghost_lp, ghost, hd.entire_region, false, [hd.fid]⟩]
    (l := [hd.fid]) (by simp)
  rw [List.append_assoc] at hrows
  exact hrows

theorem Tracks.entities {base : List RegionRequirement} (permissions : Privilege) (ents : List ClientEntity)
    (m : ℕ → ℕ) {reqs : List RegionRequirement} {s : InitHandles} (h : Tracks base reqs s) :
    ∃ m' reqs' s', ents.foldl (addEntity permissions) (m, reqs) = (m', reqs') ∧
      ents.foldl InitHandles.entity (m, s) = (m', s') ∧ Tracks base reqs' s' ∧
      reqs.length ≤ reqs'.length ∧
      ∀ is, m' is = m is ∧ (∀ ent ∈ ents, ent.index_space ≠ is) ∨
        base.length ≤ m' is ∧ m' is < reqs'.length := by
  induction ents generalizing m reqs s with
  | nil => exact ⟨m, reqs, s, rfl, rfl, h, le_rfl, fun is => .inl ⟨rfl, by simp⟩⟩
  | cons ent ents ih =>
    have hnew := h.new (entityRequirement permissions [ent.fid, ent.id_fid] ent) []
      (l := [ent.fid, ent.id_fid]) (by simp [entityRequirement])
    obtain ⟨m', reqs', s', hargs, hhandles, htracks, hle, hmap⟩ :=
      ih (Function.update m ent.index_space reqs.length) hnew
    refine ⟨m', reqs', s', hargs, ?_, htracks, ?_, fun is => ?_⟩
    · rw [← h.region] at hhandles
      exact hhandles
    · simp only [List.length_append, List.length_singleton] at hle
      omega
    · rcases hmap is with ⟨hm, hne⟩ | hm
      · by_cases his : ent.index_space = is
        · subst his
          rw [Function.update_self] at hm
          refine .inr ⟨hm ▸ h.region ▸ h.le, ?_⟩
          simp only [List.length_append, List.length_singleton] at hle
          omega
        · rw [Function.update_of_ne (Ne.symm his)] at hm
          refine .inl ⟨hm, fun e he => ?_⟩
          rcases List.mem_cons.mp he with rfl | he
          · exact his
          · exact hne e he
      · exact .inr hm

theorem Tracks.adjacencies {base : List RegionRequirement} (permissions : Privilege) (adjs : List ClientAdjacency)
    {m : ℕ → ℕ} {reqs : List RegionRequirement} {s : InitHandles} (h : Tracks base reqs s)
    (hm : ∀ adj ∈ adjs, base.length ≤ m adj.from_index_space ∧ m adj.from_index_space < reqs.length) :
    Tracks base (adjs.foldl (addAdjacency permissions m) reqs)
      (adjs.foldl (InitHandles.adjacency m) s) := by
  induction adjs generalizing reqs s with
  | nil => exact h
  | cons adj adjs ih =>
    obtain ⟨hbase, hlt⟩ := hm adj (by simp)
    refine ih ?_ fun a ha => ?_
    · refine h.advance (by simp [addAdjacency]) (fun a ha => (ha.add_field _ _).append _) ?_
      intro a ha
      simp only [List.mem_cons, List.not_mem_nil, or_false] at ha
      rcases ha with rfl | rfl
      · exact ⟨hbase, (hasField_added hlt _).append _⟩
      · refine ⟨h.le, ?_⟩
        have hnew := hasField_new
          (reqs.modify (m adj.from_index_space) (·.add_field adj.offset_fid))
          ⟨adj.adj_color_partition, privilegeMode permissions, adj.adj_region, false,
            [adj.index_fid]⟩ [] (f := adj.index_fid) (by simp)
        rw [List.length_modify, ← h.region] at hnew
        exact hnew
    · obtain ⟨h1, h2⟩ := hm a (by simp [ha])
      refine ⟨h1, ?_⟩
      simp only [addAdjacency, List.length_append, List.length_modify, List.length_singleton]
      omega

theorem Tracks.indexSubspaces {base : List RegionRequirement} (permissions : Privilege)
    (isss : List ClientIndexSubspace) {reqs : List RegionRequirement} {s : InitHandles}
    (h : Tracks base reqs s) :
    Tracks base (isss.foldl (addIndexSubspace permissions) reqs)
      (isss.foldl InitHandles.indexSubspace s) := by
  induction isss generalizing reqs s with
  | nil => exact h
  | cons iss isss ih => exact ih (h.new _ [] (l := [iss.index_fid]) (by simp))

theorem Tracks.setEntities {base : List RegionRequirement} (permissions : Privilege) (ents : List ClientEntity)
    {reqs : List RegionRequirement} {s : InitHandles} (h : Tracks base reqs s) :
    Tracks base (ents.foldl (addSetEntity permissions) reqs)
      (ents.foldl InitHandles.setEntity s) := by
  induction ents generalizing reqs s with
  | nil => exact h
  | cons ent ents ih =>
    exact ih (h.new _ [] (l := [ent.fid]) (by simp [entityRequirement]))

/-- One data reference of any kind. -/
theorem Tracks.reference {base : List RegionRequirement} {reqs : List RegionRequirement} {s : InitHandles}
    (h : Tracks base reqs s) (r : Reference) :
    Tracks base (initArgsReference reqs r) (initHandlesReference s r) := by
  cases r with
  | dense hd exclusive shared ghost => exact h.new _ [_, _] (l := [hd.fid]) (by simp)
  | ragged hd exclusive shared ghost => exact h.sparse hd _ _ _ _
  | sparse hd exclusive shared ghost => exact h.sparse hd _ _ _ _
  | raggedMutator hd => exact h.sparse hd _ _ _ _
  | sparseMutator hd => exact h.sparse hd _ _ _ _
  | global hd permissions | color hd permissions =>
    by_cases hp : permissions = .reserved
    · simp only [initHandlesReference, InitHandles.handleGlobal, if_pos hp]
      exact h.new _ [] (l := []) (by simp)
    · simp only [initHandlesReference, InitHandles.handleGlobal, if_neg hp]
      exact h.new _ [] (l := [hd.fid]) (by simp)
  | mesh hd permissions =>
    obtain ⟨m, reqs', s', hargs, hhandles, htracks, hle, hmap⟩ :=
      h.entities permissions hd.entities fun _ => 0
    simp only [initArgsReference, initHandlesReference, hargs, hhandles]
    refine (htracks.adjacencies permissions hd.adjacencies fun adj hadj => ?_).indexSubspaces _ _
    obtain ⟨ent, hent, his⟩ := hd.from_entity adj hadj
    rcases hmap adj.from_index_space with ⟨-, hne⟩ | hm
    · exact absurd his (hne ent hent)
    · exact hm
  | set hd permissions => exact h.setEntities permissions hd.entities

theorem Tracks.items {base reqs : List RegionRequirement} {s : InitHandles}
    (h : Tracks base reqs s) (items : List Reference) :
    Tracks base (items.foldl initArgsReference reqs) (items.foldl initHandlesReference s) := by
  induction items generalizing reqs s with
  | nil => exact h
  | cons r items ih => exact ih (h.reference r)

theorem tracks_start (reqs : List RegionRequirement) (future_id : ℕ) :
    Tracks reqs reqs ⟨reqs.length, future_id, ⟨[], [], []⟩⟩ :=
  ⟨rfl, le_rfl, fun _ h => h, by simp, by simp⟩

theorem tracks_argument (s : InitArgs φ μ) (future_id : ℕ) (arg : Argument φ μ) :
    Tracks s.region_reqs (s.handle arg).region_reqs
      (InitHandles.handle ⟨s.region_reqs.length, future_id, ⟨[], [], []⟩⟩ arg) := by
  have hstart := tracks_start s.region_reqs future_id
  cases arg with
  | reference r => exact hstart.reference r
  | single future | index future_map =>
    exact ⟨hstart.region, hstart.le, hstart.keeps, hstart.regions, hstart.accesses⟩
  | container items | tuple items => exact hstart.items items
  | value => exact hstart

-- ---------------------------------------------------------------------------
-- Futures
-- ---------------------------------------------------------------------------

def Argument.future? : Argument φ μ → Option (φ ⊕ μ)
  | .single future => some (.inl future)
  | .index future_map => some (.inr future_map)
  | _ => none

/-- The walk has not met a future between the two states. -/
def SameFutures (s s' : InitHandles) : Prop :=
  s'.bound.futures = s.bound.futures ∧ s'.future_id = s.future_id

theorem SameFutures.foldl {α : Type} {f : InitHandles → α → InitHandles}
    (hf : ∀ s x, SameFutures s (f s x)) (l : List α) (s : InitHandles) :
    SameFutures s (l.foldl f s) := by
  induction l generalizing s with
  | nil => exact ⟨rfl, rfl⟩
  | cons x l ih => exact ⟨(ih _).1.trans (hf s x).1, (ih _).2.trans (hf s x).2⟩

theorem sameFutures_entities (ents : List ClientEntity) (s : (ℕ → ℕ) × InitHandles) :
    SameFutures s.2 (ents.foldl InitHandles.entity s).2 := by
  induction ents generalizing s with
  | nil => exact ⟨rfl, rfl⟩
  | cons ent ents ih => exact ih (InitHandles.entity s ent)

theorem sameFutures_reference (s : InitHandles) (r : Reference) :
    SameFutures s (initHandlesReference s r) := by
  cases r with
  | dense hd exclusive shared ghost => exact ⟨rfl, rfl⟩
  | ragged hd exclusive shared ghost | sparse hd exclusive shared ghost => exact ⟨rfl, rfl⟩
  | raggedMutator hd | sparseMutator hd => exact ⟨rfl, rfl⟩
  | global hd permissions | color hd permissions => exact ⟨rfl, rfl⟩
  | mesh hd permissions =>
    have h1 := sameFutures_entities hd.entities (fun _ => 0, s)
    have h2 := SameFutures.foldl (f := InitHandles.adjacency
      (hd.entities.foldl InitHandles.entity (fun _ => 0, s)).1) (fun _ _ => ⟨rfl, rfl⟩)
      hd.adjacencies (hd.entities.foldl InitHandles.entity (fun _ => 0, s)).2
    have h3 := SameFutures.foldl (f := InitHandles.indexSubspace) (fun _ _ => ⟨rfl, rfl⟩)
      hd.index_subspaces (hd.adjacencies.foldl (InitHandles.adjacency
        (hd.entities.foldl InitHandles.entity (fun _ => 0, s)).1)
        (hd.entities.foldl InitHandles.entity (fun _ => 0, s)).2)
    exact ⟨h3.1.trans (h2.1.trans h1.1), h3.2.trans (h2.2.trans h1.2)⟩
  | set hd permissions =>
    exact SameFutures.foldl (f := InitHandles.setEntity) (fun _ _ => ⟨rfl, rfl⟩) hd.entities s

/-- A future argument takes the next future, any other none. -/
theorem handle_futures (region future_id : ℕ) (arg : Argument φ μ) :
    (InitHandles.handle ⟨region, future_id, ⟨[], [], []⟩⟩ arg).bound.futures =
        List.range' future_id arg.future?.toList.length ∧
      (InitHandles.handle ⟨region, future_id, ⟨[], [], []⟩⟩ arg).future_id =
        future_id + arg.future?.toList.length := by
  cases arg with
  | reference r => exact sameFutures_reference _ r
  | single future | index future_map => exact ⟨rfl, rfl⟩
  | container items | tuple items => exact SameFutures.foldl sameFutures_reference items _
  | value => exact ⟨rfl, rfl⟩

/-- The futures of the arguments in their order. -/
def futuresOf (args : List (Argument φ μ)) : List (φ ⊕ μ) := args.filterMap Argument.future?

theorem futuresOf_cons (arg : Argument φ μ) (args : List (Argument φ μ)) :
    futuresOf (arg :: args) = arg.future?.toList ++ futuresOf args := by
  unfold futuresOf
  rw [List.filterMap_cons]
  cases arg.future? <;> rfl

-- ---------------------------------------------------------------------------
-- Whole walks
-- ---------------------------------------------------------------------------

theorem argument_le (s : InitArgs φ μ) (arg : Argument φ μ) :
    s.region_reqs.length ≤ (s.handle arg).region_reqs.length := by
  have h := tracks_argument s 0 arg
  exact h.region ▸ h.le

theorem walk_le (args : List (Argument φ μ)) (s : InitArgs φ μ) :
    s.region_reqs.length ≤ (args.foldl InitArgs.handle s).region_reqs.length := by
  induction args generalizing s with
  | nil => exact le_rfl
  | cons arg args ih => exact (argument_le s arg).trans (ih _)

theorem walk_keeps (args : List (Argument φ μ)) (s : InitArgs φ μ) {a : ℕ × ℕ}
    (h : HasField s.region_reqs a) :
    HasField (args.foldl InitArgs.handle s).region_reqs a := by
  induction args generalizing s with
  | nil => exact h
  | cons arg args ih => exact ih _ ((tracks_argument s 0 arg).keeps a h)

theorem walk_binding (args : List (Argument φ μ)) (s : InitArgs φ μ) (future_id k : ℕ)
    {b : Binding} (hb : (initHandlesFrom s.region_reqs.length future_id args)[k]? = some b) :
    Tracks ((args.take k).foldl InitArgs.handle s).region_reqs
        ((args.take (k + 1)).foldl InitArgs.handle s).region_reqs
        ⟨((args.take (k + 1)).foldl InitArgs.handle s).region_reqs.length, 0, b⟩ ∧
      b.futures = List.range' (future_id + (futuresOf (args.take k)).length)
        ((args[k]?.bind Argument.future?).toList.length) := by
  induction args generalizing s future_id k with
  | nil => simp [initHandlesFrom] at hb
  | cons arg args ih =>
    have ht := tracks_argument s future_id arg
    obtain ⟨hf, hid⟩ := handle_futures s.region_reqs.length future_id arg
    cases k with
    | zero =>
      cases hb
      refine ⟨⟨rfl, ht.region ▸ ht.le, ht.keeps, ?_, ht.accesses⟩, hf⟩
      exact ht.regions.trans (by rw [ht.region]; rfl)
    | succ k =>
      rw [initHandlesFrom, List.getElem?_cons_succ, ht.region, hid] at hb
      obtain ⟨htracks, hfut⟩ := ih _ _ _ hb
      refine ⟨htracks, hfut.trans ?_⟩
      rw [List.take_succ_cons, futuresOf_cons, List.length_append, Nat.add_assoc]
      rfl

theorem walk_regions (args : List (Argument φ μ)) (s : InitArgs φ μ) (future_id : ℕ) :
    (initHandlesFrom s.region_reqs.length future_id args).flatMap Binding.regions =
      List.range' s.region_reqs.length
        ((args.foldl InitArgs.handle s).region_reqs.length - s.region_reqs.length) := by
  induction args generalizing s future_id with
  | nil => simp [initHandlesFrom]
  | cons arg args ih =>
    have ht := tracks_argument s future_id arg
    have h1 := argument_le s arg
    have h2 := walk_le args (s.handle arg)
    have hsum : (args.foldl InitArgs.handle (s.handle arg)).region_reqs.length -
        s.region_reqs.length = ((s.handle arg).region_reqs.length - s.region_reqs.length) +
        ((args.foldl InitArgs.handle (s.handle arg)).region_reqs.length -
          (s.handle arg).region_reqs.length) := by omega
    rw [initHandlesFrom, List.flatMap_cons, ht.regions, ht.region, ih, List.foldl_cons, hsum,
      ← List.range'_append_1, Nat.add_sub_cancel' h1]

theorem walk_futures (args : List (Argument φ μ)) (region future_id : ℕ) :
    (initHandlesFrom region future_id args).flatMap Binding.futures =
      List.range' future_id (futuresOf args).length := by
  induction args generalizing region future_id with
  | nil => rfl
  | cons arg args ih =>
    obtain ⟨hf, hid⟩ := handle_futures region future_id arg
    rw [initHandlesFrom, List.flatMap_cons, hf, ih, hid, futuresOf_cons, List.length_append,
      List.range'_append_1]

/-- The requirements there are before the `k`-th argument is handled. -/
def requirementsBefore (args : List (Argument φ μ)) (k : ℕ) : ℕ :=
  (initArgs (args.take k)).region_reqs.length

/-- Argument by argument, the walk inside the task takes what the walk before the
launch added, and nothing is left over or taken twice. -/
structure Aligned (args : List (Argument φ μ)) : Prop where
  bound : (initHandles args).length = args.length
  regions : ∀ (k : ℕ) (b : Binding), (initHandles args)[k]? = some b → b.regions =
    List.range' (requirementsBefore args k)
      (requirementsBefore args (k + 1) - requirementsBefore args k)
  accesses : ∀ (k : ℕ) (b : Binding), (initHandles args)[k]? = some b → ∀ a ∈ b.accesses,
    a.1 ∈ b.regions ∧ HasField (initArgs args).region_reqs a
  futures : ∀ (k : ℕ) (b : Binding), (initHandles args)[k]? = some b →
    b.futures.map ((initArgs args).taskFutures[·]?) =
      (args[k]?.bind Argument.future?).toList.map some
  regionsOnce : (initHandles args).flatMap Binding.regions =
    List.range (initArgs args).region_reqs.length
  futuresOnce : (initHandles args).flatMap Binding.futures =
    List.range (initArgs args).taskFutures.length

/-- No index future stands before a single future. -/
def SinglesFirst (args : List (Argument φ μ)) : Prop :=
  args.Pairwise fun a b => ∀ m f, ¬(a = .index m ∧ b = .single f)

theorem initArgs_futures (args : List (Argument φ μ)) :
    (initArgs args).taskFutures =
      (futuresOf args).filter Sum.isLeft ++ (futuresOf args).filter Sum.isRight := by
  have run (s : InitArgs φ μ) :
      (args.foldl InitArgs.handle s).futures.map .inl =
          s.futures.map .inl ++ (futuresOf args).filter Sum.isLeft ∧
        (args.foldl InitArgs.handle s).future_maps.map .inr =
          s.future_maps.map .inr ++ (futuresOf args).filter Sum.isRight := by
    induction args generalizing s with
    | nil => simp [futuresOf]
    | cons arg args ih =>
      obtain ⟨h1, h2⟩ := ih (s.handle arg)
      rw [List.foldl_cons, h1, h2, futuresOf_cons]
      cases arg <;> simp [InitArgs.handle, Argument.future?, List.filter_cons]
  obtain ⟨h1, h2⟩ := run ⟨[], [], []⟩
  rw [InitArgs.taskFutures, initArgs, h1, h2]
  rfl

/-- A list is its left part followed by its right part exactly if no right entry
stands before a left one. -/
theorem partition_eq_iff (l : List (φ ⊕ μ)) :
    l.filter Sum.isLeft ++ l.filter Sum.isRight = l ↔
      l.Pairwise fun x y => ¬(x.isRight ∧ y.isLeft) := by
  constructor
  · intro h
    rw [← h, List.pairwise_append]
    refine ⟨?_, ?_, ?_⟩
    · refine List.pairwise_of_forall_mem_list fun x hx y _ hxy => ?_
      have := (List.mem_filter.mp hx).2
      cases x <;> simp at this hxy
    · refine List.pairwise_of_forall_mem_list fun x _ y hy hxy => ?_
      have := (List.mem_filter.mp hy).2
      cases y <;> simp at this hxy
    · intro x hx y _ hxy
      have := (List.mem_filter.mp hx).2
      cases x <;> simp at this hxy
  · intro h
    induction l with
    | nil => rfl
    | cons x l ih =>
      obtain ⟨hx, hl⟩ := List.pairwise_cons.mp h
      cases x with
      | inl f => simpa [List.filter_cons] using ih hl
      | inr m =>
        have hleft : l.filter Sum.isLeft = [] := by
          refine List.filter_eq_nil_iff.mpr fun y hy hleft => ?_
          exact hx y hy ⟨rfl, hleft⟩
        have hrest := ih hl
        rw [hleft, List.nil_append] at hrest
        simp [List.filter_cons, hleft, hrest]

theorem singlesFirst_iff (args : List (Argument φ μ)) :
    SinglesFirst args ↔ (initArgs args).taskFutures = futuresOf args := by
  rw [initArgs_futures, partition_eq_iff, futuresOf, List.pairwise_filterMap, SinglesFirst]
  refine List.Pairwise.iff fun a b => ?_
  constructor
  · rintro h x hx y hy ⟨hr, hl⟩
    cases a <;> cases hx <;> cases hr
    cases b <;> cases hy <;> cases hl
    exact h _ _ ⟨rfl, rfl⟩
  · rintro h m f ⟨rfl, rfl⟩
    exact h _ rfl _ rfl ⟨rfl, rfl⟩

theorem length_initHandlesFrom (args : List (Argument φ μ)) (region future_id : ℕ) :
    (initHandlesFrom region future_id args).length = args.length := by
  induction args generalizing region future_id with
  | nil => rfl
  | cons arg args ih => rw [initHandlesFrom, List.length_cons, ih, List.length_cons]

theorem length_taskFutures (args : List (Argument φ μ)) :
    (initArgs args).taskFutures.length = (futuresOf args).length := by
  rw [initArgs_futures, List.length_append]
  have h := List.length_eq_length_filter_add (l := futuresOf args) Sum.isLeft
  have hnot : (fun x : φ ⊕ μ => !x.isLeft) = Sum.isRight := by
    funext x
    cases x <;> rfl
  rw [hnot] at h
  exact h.symm

theorem futuresOf_getElem? {args : List (Argument φ μ)} {k : ℕ} {arg : Argument φ μ} {x : φ ⊕ μ}
    (hk : args[k]? = some arg) (hx : arg.future? = some x) :
    (futuresOf args)[(futuresOf (args.take k)).length]? = some x := by
  induction args generalizing k with
  | nil => simp at hk
  | cons a args ih =>
    cases k with
    | zero =>
      cases hk
      simp [futuresOf, hx]
    | succ k =>
      rw [List.getElem?_cons_succ] at hk
      rw [List.take_succ_cons, futuresOf_cons, futuresOf_cons, List.length_append,
        List.getElem?_append_right (by omega), Nat.add_sub_cancel_left, ih hk]

theorem exists_argument {args : List (Argument φ μ)} {j : ℕ} {x : φ ⊕ μ}
    (hx : (futuresOf args)[j]? = some x) : ∃ k arg, args[k]? = some arg ∧
      arg.future? = some x ∧ (futuresOf (args.take k)).length = j := by
  induction args generalizing j with
  | nil => simp [futuresOf] at hx
  | cons a args ih =>
    rw [futuresOf_cons] at hx
    cases ha : a.future? with
    | none =>
      rw [ha] at hx
      obtain ⟨k, arg, hk, hf, hlen⟩ := ih hx
      exact ⟨k + 1, arg, hk, hf, by simp [futuresOf_cons, ha, hlen]⟩
    | some y =>
      rw [ha] at hx
      cases j with
      | zero =>
        cases hx
        exact ⟨0, a, rfl, ha, rfl⟩
      | succ j =>
        obtain ⟨k, arg, hk, hf, hlen⟩ := ih (by simpa using hx)
        exact ⟨k + 1, arg, hk, hf, by simp [futuresOf_cons, ha, hlen]⟩

theorem binding_futures {args : List (Argument φ μ)} {k : ℕ} {b : Binding}
    (hb : (initHandles args)[k]? = some b) :
    b.futures = List.range' (futuresOf (args.take k)).length
      (args[k]?.bind Argument.future?).toList.length := by
  have h := (walk_binding args ⟨[], [], []⟩ 0 k hb).2
  rwa [Nat.zero_add] at h

theorem binding_regions {args : List (Argument φ μ)} {k : ℕ} {b : Binding}
    (hb : (initHandles args)[k]? = some b) :
    b.regions = List.range' (requirementsBefore args k)
        (requirementsBefore args (k + 1) - requirementsBefore args k) ∧
      ∀ a ∈ b.accesses, a.1 ∈ b.regions ∧ HasField (initArgs args).region_reqs a := by
  obtain ⟨ht, -⟩ := walk_binding args ⟨[], [], []⟩ 0 k hb
  refine ⟨ht.regions, fun a ha => ?_⟩
  obtain ⟨hle, hfield⟩ := ht.accesses a ha
  have hlt : a.1 < (initArgs (args.take (k + 1))).region_reqs.length := by
    obtain ⟨rr, hrr, -⟩ := hfield
    exact (List.getElem?_eq_some_iff.mp hrr).1
  refine ⟨?_, ?_⟩
  · have hregions : b.regions = List.range' (initArgs (args.take k)).region_reqs.length
        ((initArgs (args.take (k + 1))).region_reqs.length -
          (initArgs (args.take k)).region_reqs.length) := ht.regions
    have hle' : (initArgs (args.take k)).region_reqs.length ≤ a.1 := hle
    rw [hregions, List.mem_range'_1]
    omega
  · have hall := walk_keeps (args.drop (k + 1)) (initArgs (args.take (k + 1))) hfield
    rwa [initArgs, ← List.foldl_append, List.take_append_drop] at hall

/-- For any arguments, of any kinds and in any order: the two walks are aligned exactly
if the single futures stand before the index futures. -/
theorem aligned_iff (args : List (Argument φ μ)) : Aligned args ↔ SinglesFirst args := by
  have hlen : (initHandles args).length = args.length := length_initHandlesFrom args 0 0
  rw [singlesFirst_iff]
  constructor
  · intro h
    refine List.ext_getElem? fun j => ?_
    cases hx : (futuresOf args)[j]? with
    | none =>
      rw [List.getElem?_eq_none_iff] at hx ⊢
      rwa [length_taskFutures]
    | some x =>
      obtain ⟨k, arg, hk, hf, hj⟩ := exists_argument hx
      obtain ⟨hlt, -⟩ := List.getElem?_eq_some_iff.mp hk
      have hb := List.getElem?_eq_getElem (l := initHandles args) (i := k) (by omega)
      have hfut := h.futures k _ hb
      rw [binding_futures hb, hj, hk] at hfut
      simpa [hf] using hfut
  · intro h
    refine ⟨hlen, fun k b hb => (binding_regions hb).1, fun k b hb => (binding_regions hb).2,
      fun k b hb => ?_, ?_, ?_⟩
    · rw [binding_futures hb, h]
      cases hk : args[k]? with
      | none => rfl
      | some arg =>
        cases hf : arg.future? with
        | none => simp [hf]
        | some x => simp [hf, futuresOf_getElem? hk hf]
    · have hregions := walk_regions args ⟨[], [], []⟩ 0
      rw [List.range_eq_range']
      exact hregions
    · rw [length_taskFutures, List.range_eq_range']
      exact walk_futures args 0 0

/-- An index future in front of a single one. -/
def indexThenSingle : List (Argument String String) := [.index "map", .single "future"]

/-- Each of the two arguments takes the other's future. -/
theorem not_aligned_indexThenSingle :
    initHandles indexThenSingle = [⟨[], [], [0]⟩, ⟨[], [], [1]⟩] ∧
      (initArgs indexThenSingle).taskFutures = [.inl "future", .inr "map"] ∧
      ¬Aligned indexThenSingle := by
  refine ⟨rfl, rfl, fun h => ?_⟩
  have hfut := h.futures 0 ⟨[], [], [0]⟩ rfl
  simp [indexThenSingle, initArgs, InitArgs.handle, InitArgs.taskFutures, Argument.future?] at hfut

end Flecsi.Execution
