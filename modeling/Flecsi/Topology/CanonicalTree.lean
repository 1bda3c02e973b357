import Flecsi.Topology.SoundRuns

/-!
# The tree of some entities

What insertions build depends on the entities alone: a branch has children just when two of them
pass through it. The order of the insertions leaves no trace, and `update_all` builds the tree that
insertions into an empty one do.
-/

namespace Flecsi.Topology

namespace TreeTopology

variable {T : IdType} {K : Type} [Field K] [LinearOrder K] [FloorSemiring K]
  {t t₁ t' : TreeTopology T K}

/-- The tree holds the entities `es` and is as they divide it; the others have the ids `old`. -/
structure Canonical (t : TreeTopology T K) (es : List ℕ) (old : ℕ → Option ℕ) : Prop where
  shape : Shape t
  branch : ∀ x b, t.branches x = some b → b = t.dividedBranch es x
  ids : ∀ x b, Leaf t x b → ∀ k ∈ b.ents, t.branchId k = some (T.number x)
  others : ∀ k ∉ es, t.branchId k = old k
  depth : ∃ x, (t.branches x).isSome ∧ x.length = t.max_depth

/-- The entities were made, and their paths are different. -/
def Apart (t : TreeTopology T K) (es : List ℕ) : Prop :=
  (∀ k ∈ es, k < t.points.length) ∧ es.Pairwise fun k l => t.pathOf k ≠ t.pathOf l

-- ---------------------------------------------------------------------------
-- One more entity
-- ---------------------------------------------------------------------------

theorem below_append (t : TreeTopology T K) (es es' : List ℕ) (x : Address) :
    t.below (es ++ es') x = t.below es x ++ t.below es' x := List.filter_append ..

theorem below_below {a x : Address} (h : a <+: x) (es : List ℕ) : t.below (t.below es a) x = t.below es x := by
  unfold below
  rw [List.filter_filter]
  refine List.filter_congr fun k _ => ?_
  by_cases hx : x <+: t.pathOf k
  · simp [hx, h.trans hx]
  · simp [hx]

theorem Canonical.leaf (h : Canonical t es old) (hleaf : Leaf t x b) :
    b = ⟨T.number x, .none, t.below es x, false⟩ ∧ (t.below es x).length ≤ 1 := by
  have hb := h.branch x b hleaf.1
  obtain ⟨heq, hlen⟩ := leaf_dividedBranch (hb ▸ hleaf.2)
  exact ⟨hb.trans heq, hlen⟩

theorem Canonical.room (h : Canonical t es old) (hapart : Apart t (es ++ [ent])) : ∃ a b, Room t a b ent := by
  obtain ⟨hvalid, hpair⟩ := hapart
  have hlt := hvalid ent (by simp)
  obtain ⟨hpath, hlen⟩ := pathOf_path hlt
  obtain ⟨a, b, hleaf, ha⟩ := h.shape.exists_leaf hpath hlen
  obtain ⟨hb, hfew⟩ := h.leaf hleaf
  have hents : b.ents = t.below es a := by rw [hb]
  refine ⟨a, b, h.shape, hleaf, by rw [hb], by rwa [hents], fun k hk => ?_, fun i hi => ?_⟩
  · obtain hk | hk := List.mem_append.mp hk
    · obtain ⟨hmem, hak⟩ := mem_below.mp (hents ▸ hk)
      exact ⟨hvalid k (List.mem_append_left _ hmem), hak⟩
    · rw [List.mem_singleton.mp hk]
      exact ⟨hlt, ha⟩
  · exact (List.pairwise_append.mp hpair).2.2 i (mem_below.mp (hents ▸ hi)).1 ent (List.mem_singleton_self ent)

theorem Canonical.mem_ents (h : Canonical t es old) (hleaf : Leaf t x b) (hk : k ∈ b.ents) : k ∈ es ∧ x <+: t.pathOf k := by
  have hents : b.ents = t.below es x := by rw [(h.leaf hleaf).1]
  exact mem_below.mp (hents ▸ hk)

/-- Outside a leaf on the entity's path nothing changes: above it two entities pass already. -/
theorem Canonical.dividedBranch_append (h : Canonical t es old) (hleaf : Leaf t a b) (ha : a <+: t.pathOf ent)
    (hax : ¬a <+: x) : t.dividedBranch (es ++ [ent]) x = t.dividedBranch es x := by
  by_cases hx : x <+: t.pathOf ent
  · have hxa : x <+: a := (List.prefix_or_prefix_of_prefix hx ha).resolve_right hax
    have hne : x ≠ a := fun heq => hax (heq ▸ List.prefix_rfl)
    obtain ⟨bx, hbx, hnode⟩ := h.shape.node_of_prefix hxa hne (by rw [hleaf.1]; rfl)
    rw [h.branch x bx hbx] at hnode
    have hmany : ¬(t.below es x).length ≤ 1 := fun hlen => by
      rw [dividedBranch, if_pos hlen] at hnode
      cases hnode
    have hmany' : ¬(t.below (es ++ [ent]) x).length ≤ 1 := by
      rw [below_append, List.length_append]
      omega
    rw [dividedBranch, dividedBranch, if_neg hmany, if_neg hmany']
  · have hsame : t.below (es ++ [ent]) x = t.below es x := by
      rw [below_append]
      simp [below, hx]
    rw [dividedBranch, dividedBranch, hsame]

theorem Canonical.insert (h : Canonical t es old) (hapart : Apart t (es ++ [ent])) (hfuel : T.max_depth < fuel) :
    ∃ t', t.insert fuel ent = some t' ∧ Canonical t' (es ++ [ent]) old ∧ t'.points = t.points ∧ t'.range = t.range := by
  obtain ⟨a, b, hr⟩ := h.room hapart
  obtain ⟨t', hrun, hd⟩ := hr.insert hfuel
  have hb : b.ents = t.below es a := by rw [(h.leaf hr.leaf).1]
  have ha : a <+: t.pathOf ent := (hr.valid ent (by simp)).2
  have hpath : t'.dividedBranch = t.dividedBranch := dividedBranch_congr (pathOf_congr hd.range hd.points)
  refine ⟨t', hrun, ⟨hd.shape, fun x bx hbx => ?_, fun x bx hx k hk => ?_, fun k hk => ?_, ?_⟩, hd.points, hd.range⟩
  · rw [hpath]
    by_cases hax : a <+: x
    · rw [hd.branch x bx hax hbx, hb, dividedBranch, dividedBranch, below_append, below_append, below_below hax]
    · rw [h.dividedBranch_append hr.leaf ha hax]
      exact h.branch x bx (hd.outside x hax ▸ hbx)
  · by_cases hax : a <+: x
    · exact hd.ids x bx hax hx k hk
    · have hold : Leaf t x bx := by rwa [Leaf, ← hd.outside x hax]
      have hkx : k ∈ es ∧ x <+: t.pathOf k := h.mem_ents hold hk
      have hnot : k ∉ b.ents ++ [ent] := by
        intro hmem
        obtain hmem | hmem := List.mem_append.mp hmem
        · exact hax (h.shape.leaf_unique hr.leaf hold (mem_below.mp (hb ▸ hmem)).2 hkx.2 ▸ List.prefix_rfl)
        · have hkent : k ≠ ent := by
            rintro rfl
            exact (List.pairwise_append.mp hapart.2).2.2 k hkx.1 k (List.mem_singleton_self k) rfl
          exact hkent (List.mem_singleton.mp hmem)
      rw [hd.others k hnot]
      exact h.ids x bx hold k hk
  · have hnot : k ∉ b.ents ++ [ent] := by
      intro hmem
      refine hk ?_
      obtain hmem | hmem := List.mem_append.mp hmem
      · exact List.mem_append_left _ (mem_below.mp (hb ▸ hmem)).1
      · exact List.mem_append_right _ hmem
    rw [hd.others k hnot]
    exact h.others k fun hmem => hk (List.mem_append_left _ hmem)
  · obtain heq | hdeep := hd.depth
    · obtain ⟨x, hsome, hlen⟩ := h.depth
      refine ⟨x, ?_, by rw [hlen, heq]⟩
      by_cases hax : a <+: x
      · obtain ⟨rest, rfl⟩ := hax
        obtain rfl : rest = [] := h.shape.below_leaf hr.leaf hsome
        obtain ⟨y, by', hay, hy, -⟩ := hr.exists_leaf hd (List.mem_append_right b.ents (List.mem_singleton_self ent))
        rw [List.append_nil]
        exact hd.shape.isSome_of_prefix hay (by rw [hy.1]; rfl)
      · rwa [hd.outside x hax]
    · exact hdeep

-- ---------------------------------------------------------------------------
-- The tree is determined
-- ---------------------------------------------------------------------------

theorem dividedBranch_perm {es es' : List ℕ} (h : es.Perm es') (x : Address) :
    t.dividedBranch es x = t.dividedBranch es' x := by
  have hbelow : (t.below es x).Perm (t.below es' x) := h.filter _
  unfold dividedBranch
  rw [hbelow.length_eq]
  split
  · rename_i hlen
    cases hes : t.below es' x with
    | nil =>
      rw [hes] at hbelow
      rw [hbelow.eq_nil]
    | cons k rest =>
      rw [hes, List.length_cons] at hlen
      obtain rfl : rest = [] := List.eq_nil_of_length_eq_zero (by omega)
      rw [hes] at hbelow
      rw [List.perm_singleton.mp hbelow]
  · rfl

omit [Field K] [FloorSemiring K] in
/-- Two trees have the same branches if these are equal wherever both have one. -/
theorem Shape.branches_eq (hs : Shape t) (hs' : Shape t')
    (heq : ∀ x b b', t.branches x = some b → t'.branches x = some b' → b' = b) (x : Address) :
    t'.branches x = t.branches x := by
  have hsome : (t'.branches x).isSome ↔ (t.branches x).isSome := by
    induction x using List.reverseRecOn with
    | nil => exact iff_of_true hs'.root hs.root
    | append_singleton x c ih =>
      rw [hs.child, hs'.child]
      refine and_congr_right fun _ => ⟨?_, ?_⟩
      · rintro ⟨b', hb', hnode⟩
        obtain ⟨b, hb⟩ := Option.isSome_iff_exists.mp (ih.mp (by rw [hb']; rfl))
        exact ⟨b, hb, heq x b b' hb hb' ▸ hnode⟩
      · rintro ⟨b, hb, hnode⟩
        obtain ⟨b', hb'⟩ := Option.isSome_iff_exists.mp (ih.mpr (by rw [hb]; rfl))
        exact ⟨b', hb', heq x b b' hb hb' ▸ hnode⟩
  cases hb : t.branches x with
  | none => simpa [hb] using hsome
  | some b =>
    obtain ⟨b', hb'⟩ := Option.isSome_iff_exists.mp (hsome.mpr (by rw [hb]; rfl))
    rw [hb', heq x b b' hb hb']

omit [Field K] [FloorSemiring K] in
/-- Entities are their points and their ids. -/
theorem entities_eq (hpoints : t'.points = t.points) (hids : ∀ k, t'.branchId k = t.branchId k) :
    t'.entities = t.entities := by
  refine List.ext_getElem? fun k => ?_
  have hid := hids k
  have hpoint := congrArg (·[k]?) hpoints
  simp only [branchId, points, List.getElem?_map] at hid hpoint
  cases he : t.entities[k]? with
  | none => simpa [he] using hid
  | some e =>
    rw [he] at hid hpoint
    obtain ⟨e', he', hcoords⟩ := Option.map_eq_some_iff.mp hpoint
    rw [he', Option.map_some, Option.map_some, Option.some_inj] at hid
    cases e
    cases e'
    cases hid
    cases hcoords
    exact he'

/-- The same entities make the same tree. -/
theorem Canonical.unique (h : Canonical t es old) (h' : Canonical t' es' old) (hperm : es.Perm es')
    (hvalid : ∀ k ∈ es, k < t.points.length) (hrange : t'.range = t.range) (hpoints : t'.points = t.points) : t' = t := by
  have hbranches : ∀ x, t'.branches x = t.branches x := by
    refine h.shape.branches_eq h'.shape fun x b b' hb hb' => ?_
    rw [h.branch x b hb, h'.branch x b' hb', dividedBranch_congr (pathOf_congr hrange hpoints), dividedBranch_perm hperm]
  have hmap : t'.branch_map = t.branch_map := by
    funext id
    refine Option.ext fun x => ?_
    rw [h.shape.map, h'.shape.map, hbranches]
  have hdepth : t'.max_depth = t.max_depth := by
    obtain ⟨x, hx, hlen⟩ := h.depth
    obtain ⟨y, hy, hlen'⟩ := h'.depth
    obtain ⟨b, hb⟩ := Option.isSome_iff_exists.mp hy
    obtain ⟨b', hb'⟩ := Option.isSome_iff_exists.mp (hbranches x ▸ hx)
    have hle := (h.shape.branch (hbranches y ▸ hb)).2.1
    have hle' := (h'.shape.branch hb').2.1
    omega
  have hids (k : ℕ) : t'.branchId k = t.branchId k := by
    by_cases hk : k ∈ es
    · -- both have the id of the leaf on its path
      obtain ⟨hpath, hlen⟩ := pathOf_path (hvalid k hk)
      obtain ⟨x, b, hleaf, hx⟩ := h.shape.exists_leaf hpath hlen
      have hmem : k ∈ b.ents := by
        rw [(h.leaf hleaf).1]
        exact mem_below.mpr ⟨hk, hx⟩
      rw [h.ids x b hleaf k hmem, h'.ids x b ⟨(hbranches x).trans hleaf.1, hleaf.2⟩ k hmem]
    · rw [h.others k hk, h'.others k fun hk' => hk (hperm.mem_iff.mpr hk')]
  have hentities : t'.entities = t.entities := entities_eq hpoints hids
  obtain ⟨range, entities, branches, branch_map, max_depth⟩ := t
  obtain ⟨range', entities', branches', branch_map', max_depth'⟩ := t'
  cases hrange
  cases hentities
  cases hmap
  cases hdepth
  cases funext hbranches
  rfl

-- ---------------------------------------------------------------------------
-- Runs of insertions
-- ---------------------------------------------------------------------------

/-- The points of the entities that calls make. -/
def madePoints : List (Call T K) → List (Fin T.dimension → K)
  | [] => []
  | .makeEntity p :: calls => p :: madePoints calls
  | .insert _ :: calls => madePoints calls

/-- The entities that calls insert. -/
def insertedEnts : List (Call T K) → List ℕ
  | [] => []
  | .makeEntity _ :: calls => insertedEnts calls
  | .insert ent :: calls => ent :: insertedEnts calls

/-- Entities that are not inserted have the null id. -/
def nullIds (n k : ℕ) : Option ℕ := if k < n then some 0 else none

theorem Canonical.congr (h : Canonical t es old) (hold : ∀ k ∉ es, old k = old' k) : Canonical t es old' :=
  { h with others := fun k hk => (h.others k hk).trans (hold k hk) }

theorem Canonical.empty (range : Range K T.dimension) : Canonical (empty range) [] (nullIds 0) := by
  refine ⟨Shape.empty range, fun x b hb => ?_, fun x b hx k hk => ?_, fun k _ => rfl, ⟨[], rfl, rfl⟩⟩
  · obtain ⟨rfl, rfl⟩ := branch_empty hb
    rw [T.root_eq]
    rfl
  · obtain ⟨-, rfl⟩ := branch_empty hx.1
    cases hk

theorem Canonical.makeEntity (h : Canonical t es (nullIds t.points.length)) (p : Fin T.dimension → K)
    (hvalid : ∀ k ∈ es, k < t.points.length) :
    Canonical (t.makeEntity p) es (nullIds (t.makeEntity p).points.length) := by
  have hbelow (x : Address) : (t.makeEntity p).below es x = t.below es x :=
    List.filter_congr fun k hk => by rw [pathOf_makeEntity p (hvalid k hk)]
  have hid {k : ℕ} (hk : k < t.points.length) : (t.makeEntity p).branchId k = t.branchId k := by
    have hlt : k < t.entities.length := by simpa [points] using hk
    simp [branchId, TreeTopology.makeEntity, List.getElem?_append_left hlt]
  have hs := h.shape
  refine ⟨⟨hs.root, hs.branch, hs.depth, hs.child, hs.map⟩, fun x b hb => ?_, fun x b hx k hk => ?_, fun k hk => ?_,
    h.depth⟩
  · rw [dividedBranch, hbelow]
    exact h.branch x b hb
  · rw [hid (hvalid k (h.mem_ents hx hk).1)]
    exact h.ids x b hx k hk
  · obtain hlt | rfl | hgt := lt_trichotomy k t.points.length
    · rw [hid hlt, h.others k hk, nullIds, nullIds, if_pos hlt, if_pos (by simp; omega)]
    · simp [branchId, TreeTopology.makeEntity, points, nullIds]
    · have hout : t.entities.length + 1 ≤ k := by simpa [points] using hgt
      rw [nullIds, if_neg (by simp; omega), branchId, TreeTopology.makeEntity, List.getElem?_eq_none (by simpa using hout)]
      rfl

/-- Points of inserted entities with different ids make entities with different paths. -/
theorem apart_iff (hvalid : ∀ k ∈ es, k < t.points.length) :
    Apart t es ↔ Separated t.range (es.filterMap (t.points[·]?)) := by
  rw [Apart, Separated, List.pairwise_filterMap]
  constructor
  · rintro ⟨-, hpair⟩
    refine hpair.imp fun {k l} hkl p hp q hq heq => hkl ?_
    rw [pathOf_eq hp, pathOf_eq hq]
    exact (place_eq_iff _ _ _).mpr heq
  · intro hsep
    refine ⟨hvalid, hsep.imp_of_mem fun {k l} hk hl hkl heq => ?_⟩
    obtain ⟨p, hp, hpath⟩ := exists_point (hvalid k hk)
    obtain ⟨q, hq, hpath'⟩ := exists_point (hvalid l hl)
    exact hkl p hp q hq ((place_eq_iff _ _ _).mp (hpath.symm.trans (heq.trans hpath')))

theorem run_canonical (hfuel : T.max_depth < fuel) (calls : List (Call T K)) :
    ∀ {t : TreeTopology T K} {es : List ℕ}, Canonical t es (nullIds t.points.length) → (∀ k ∈ es, k < t.points.length) →
      Made t.points.length calls → Separated t.range (es.filterMap (t.points[·]?) ++ inserted t.points calls) →
      ∃ t', run fuel t calls = some t' ∧ Canonical t' (es ++ insertedEnts calls) (nullIds t'.points.length) ∧
        (∀ k ∈ es ++ insertedEnts calls, k < t'.points.length) ∧ t'.points = t.points ++ madePoints calls ∧
        t'.range = t.range := by
  induction calls with
  | nil =>
    intro t es h hvalid _ _
    exact ⟨t, rfl, by simpa [insertedEnts] using h, by simpa [insertedEnts] using hvalid, by simp [madePoints], rfl⟩
  | cons c calls ih =>
    intro t es h hvalid hmade hsep
    cases c with
    | makeEntity p =>
      have hvalid' : ∀ k ∈ es, k < (t.makeEntity p).points.length := fun k hk => by
        rw [points_makeEntity, List.length_append]
        exact Nat.lt_add_right _ (hvalid k hk)
      have hsame : es.filterMap ((t.makeEntity p).points[·]?) = es.filterMap (t.points[·]?) :=
        List.filterMap_congr fun k hk => by rw [points_makeEntity, List.getElem?_append_left (hvalid k hk)]
      obtain ⟨t', hrun, h', hvalid', hpoints, hrange⟩ := ih (h.makeEntity p hvalid) hvalid'
        (by rw [points_makeEntity, List.length_append]; exact hmade)
        (by rw [hsame, points_makeEntity]; exact hsep)
      refine ⟨t', hrun, h', hvalid', ?_, hrange⟩
      rw [hpoints, points_makeEntity, List.append_assoc]
      rfl
    | insert ent =>
      obtain ⟨hent, hmade⟩ := hmade
      have hp : t.points[ent]? = some t.points[ent] := List.getElem?_eq_getElem hent
      have hvalid' : ∀ k ∈ es ++ [ent], k < t.points.length := by
        intro k hk
        obtain hk | hk := List.mem_append.mp hk
        · exact hvalid k hk
        · rw [List.mem_singleton.mp hk]
          exact hent
      have hall : es.filterMap (t.points[·]?) ++ inserted t.points (.insert ent :: calls) =
          (es ++ [ent]).filterMap (t.points[·]?) ++ inserted t.points calls := by
        simp [inserted, hp]
      rw [hall] at hsep
      have hapart := (apart_iff hvalid').mpr (List.pairwise_append.mp hsep).1
      obtain ⟨t₁, hinsert, h₁, hpoints, hrange⟩ := h.insert hapart hfuel
      rw [← hpoints] at h₁ hvalid' hmade hsep
      rw [← hrange] at hsep
      obtain ⟨t', hrun, h', hvalid', hpoints', hrange'⟩ := ih h₁ hvalid' hmade hsep
      rw [List.append_assoc] at h' hvalid'
      refine ⟨t', ?_, h', hvalid', by rw [hpoints', hpoints]; rfl, hrange'.trans hrange⟩
      rw [run, List.foldlM_cons]
      exact Option.bind_eq_some_iff.mpr ⟨t₁, hinsert, hrun⟩

/-- The same from the empty tree, which holds no entity that has yet to be made. -/
theorem run_empty_canonical (range : Range K T.dimension) (hfuel : T.max_depth < fuel) (calls : List (Call T K))
    (hmade : Made 0 calls) (hsep : Separated range (inserted [] calls)) :
    ∃ t, run fuel (empty range) calls = some t ∧ Canonical t (insertedEnts calls) (nullIds t.points.length) ∧
      (∀ k ∈ insertedEnts calls, k < t.points.length) ∧ t.points = madePoints calls ∧ t.range = range := by
  have hnone : ∀ k ∈ ([] : List ℕ), k < (empty range).points.length := fun k hk => absurd hk List.not_mem_nil
  obtain ⟨t, hrun, h, hvalid, hpoints, hrange⟩ := run_canonical hfuel calls (Canonical.empty range) hnone hmade hsep
  rw [List.nil_append] at h hvalid
  exact ⟨t, hrun, h, hvalid, hpoints, hrange⟩

omit [Field K] [LinearOrder K] [FloorSemiring K] in
/-- The points that are inserted are those of the entities that are. -/
theorem inserted_eq (calls : List (Call T K)) : ∀ (ps : List (Fin T.dimension → K)), Made ps.length calls →
    inserted ps calls = (insertedEnts calls).filterMap ((ps ++ madePoints calls)[·]?) := by
  induction calls with
  | nil => exact fun _ _ => rfl
  | cons c calls ih =>
    intro ps hmade
    cases c with
    | makeEntity p =>
      have hps := ih (ps ++ [p]) (by rw [List.length_append]; exact hmade)
      rw [List.append_assoc] at hps
      exact hps
    | insert ent =>
      have hp : (ps ++ madePoints calls)[ent]? = ps[ent]? := List.getElem?_append_left hmade.1
      simp only [inserted, insertedEnts, madePoints, ih ps hmade.2, List.filterMap_cons, hp]
      cases ps[ent]? <;> rfl

/-- Insertions of separated points build the tree their entities divide, which has children just
where two of them pass through. Any other calls that make the same entities in the same order and
insert the same ones, in whatever order, build the very same tree. -/
theorem insertion_order (range : Range K T.dimension) {fuel : ℕ} (hfuel : T.max_depth < fuel) {calls : List (Call T K)}
    (hmade : Made 0 calls) (hsep : Separated range (inserted [] calls)) :
    ∃ t, run fuel (empty range) calls = some t ∧ (∀ x b, t.branches x = some b → b = t.dividedBranch (insertedEnts calls) x) ∧
      ∀ fuel' > T.max_depth, ∀ calls', Made 0 calls' → madePoints calls' = madePoints calls →
        (insertedEnts calls').Perm (insertedEnts calls) → run fuel' (empty range) calls' = some t := by
  obtain ⟨t, hrun, h, hvalid, hpoints, hrange⟩ := run_empty_canonical range hfuel calls hmade hsep
  refine ⟨t, hrun, h.branch, fun fuel' hfuel' calls' hmade' hsame hperm => ?_⟩
  have hsep' : Separated range (inserted [] calls') := by
    have heq := inserted_eq calls [] hmade
    have heq' := inserted_eq calls' [] hmade'
    rw [hsame] at heq'
    rw [heq] at hsep
    rw [heq']
    exact ((hperm.filterMap _).pairwise_iff fun hne => hne.symm).mpr hsep
  obtain ⟨t', hrun', h', -, hpoints', hrange'⟩ := run_empty_canonical range hfuel' calls' hmade' hsep'
  have heq : t'.points = t.points := by rw [hpoints', hpoints, hsame]
  rw [heq] at h'
  rw [hrun', h.unique h' hperm.symm hvalid (hrange'.trans hrange.symm) heq]

theorem insertion_order_two : ∃ t, run 33 (empty IdType.unitSquare) (twoEntities 0 (1 / 2)) = some t ∧
    run 40 (empty IdType.unitSquare) [.makeEntity fun _ => 0, .makeEntity fun _ => 1 / 2, .insert 1, .insert 0] = some t := by
  have hsep : Separated IdType.unitSquare (inserted [] (twoEntities 0 (1 / 2))) := by
    exact List.pairwise_pair.mpr fun heq => corner_ne_middle ((place_eq_iff _ _ _).mpr heq)
  obtain ⟨t, hrun, -, hother⟩ := insertion_order IdType.unitSquare
    (by decide : IdType.uint64x2.max_depth < 33) (made_twoEntities 0 (1 / 2)) hsep
  exact ⟨t, hrun, hother 40 (by decide) _ (by simp [Made]) rfl (List.Perm.swap 0 1 [])⟩

-- ---------------------------------------------------------------------------
-- All entities are inserted again
-- ---------------------------------------------------------------------------

theorem Canonical.setBranchId (h : Canonical t es old) (hent : ent ∉ es) (id : ℕ) :
    Canonical (t.setBranchId ent id) es fun k => if k = ent then (old k).map fun _ => id else old k := by
  have hdivided : (t.setBranchId ent id).dividedBranch = t.dividedBranch :=
    dividedBranch_congr (pathOf_congr rfl (points_setBranchId t ent id))
  refine ⟨h.shape.setBranchId ent id, fun x b hb => ?_, fun x b hx k hk => ?_, fun k hk => ?_, h.depth⟩
  · rw [hdivided]
    exact h.branch x b hb
  · have hmem := (h.mem_ents hx hk).1
    have hne : k ≠ ent := fun heq => hent (heq ▸ hmem)
    rw [branchId_setBranchId, if_neg hne]
    exact h.ids x b hx k hk
  · rw [branchId_setBranchId, h.others k hk]

theorem Canonical.held_iff (h : Canonical t es old) (hvalid : ∀ k ∈ es, k < t.points.length) (k : ℕ) :
    Held t k ↔ k ∈ es := by
  constructor
  · rintro ⟨x, b, hx, hk⟩
    exact (h.mem_ents hx hk).1
  · intro hk
    obtain ⟨hpath, hlen⟩ := pathOf_path (hvalid k hk)
    obtain ⟨x, b, hleaf, hx⟩ := h.shape.exists_leaf hpath hlen
    refine ⟨x, b, hleaf, ?_⟩
    rw [(h.leaf hleaf).1]
    exact mem_below.mpr ⟨hk, hx⟩

omit [Field K] [FloorSemiring K] in
/-- A root that holds nothing and asks for nothing is as good as a new one. -/
theorem dealloc_eq (t : TreeTopology T K) (range : Range K T.dimension)
    (hroot : ∃ c, t.branches [] = some ⟨T.root, .none, [], c⟩) :
    t.dealloc range = { empty range with entities := t.entities } := by
  obtain ⟨c, hroot⟩ := hroot
  unfold dealloc empty
  simp only [hroot, Option.map_some, Option.some_inj]

theorem Canonical.entities (h : Canonical t [] old) (es : List (Entity T K)) :
    Canonical { t with entities := es } [] fun k => (es[k]?).map (·.branch_id) := by
  have hs := h.shape
  refine ⟨⟨hs.root, hs.branch, hs.depth, hs.child, hs.map⟩, h.branch, fun x b hx k hk => ?_, fun k _ => rfl, h.depth⟩
  have hmem := (h.mem_ents (t := t) hx hk).1
  cases hmem

/-- Entities with separated points have different paths. -/
theorem apart_range (hsep : Separated t.range t.points) (hn : n ≤ t.points.length) : Apart t (List.range n) := by
  have hvalid : ∀ k ∈ List.range n, k < t.points.length := fun k hk => (List.mem_range.mp hk).trans_le hn
  refine ⟨hvalid, List.pairwise_lt_range.imp_of_mem fun {k l} hk hl hkl heq => ?_⟩
  have hk := hvalid k hk
  have hl := hvalid l hl
  rw [pathOf_eq (List.getElem?_eq_getElem hk), pathOf_eq (List.getElem?_eq_getElem hl), place_eq_iff] at heq
  exact List.pairwise_iff_getElem.mp hsep k l hk hl hkl heq

/-- The entities are inserted one after the other, each with the null id. -/
theorem Canonical.insertAgain (h : Canonical t [] old) (hsep : Separated t.range t.points) (hfuel : T.max_depth < fuel)
    (hn : n ≤ t.points.length) : ∃ t', (List.range n).foldlM
      (fun (t : TreeTopology T K) ent => (t.setBranchId ent 0).insert fuel ent) t = some t' ∧
      Canonical t' (List.range n) old ∧ t'.points = t.points ∧ t'.range = t.range := by
  induction n with
  | zero => exact ⟨t, rfl, h, rfl, rfl⟩
  | succ n ih =>
    obtain ⟨t₁, hrun, h₁, hpoints, hrange⟩ := ih (Nat.le_of_succ_le hn)
    have hpoints' : (t₁.setBranchId n 0).points = t.points := (points_setBranchId t₁ n 0).trans hpoints
    have hrange' : (t₁.setBranchId n 0).range = t.range := hrange
    have hapart : Apart (t₁.setBranchId n 0) (List.range n ++ [n]) := by
      rw [← List.range_succ]
      exact apart_range (by rw [hpoints', hrange']; exact hsep) (by rwa [hpoints'])
    obtain ⟨t', hinsert, h', hpoints'', hrange''⟩ := (h₁.setBranchId (by simp) 0).insert hapart hfuel
    rw [← List.range_succ] at h'
    refine ⟨t', ?_, h'.congr fun k hk => if_neg fun heq => hk (by simp [heq]), hpoints''.trans hpoints',
      hrange''.trans hrange'⟩
    rw [List.range_succ, List.foldlM_append, hrun]
    simp [hinsert]

/-- The calls that make and insert entities at some points. -/
def fromScratch (ps : List (Fin T.dimension → K)) : List (Call T K) :=
  ps.map .makeEntity ++ (List.range ps.length).map .insert

omit [Field K] [LinearOrder K] [FloorSemiring K] in
theorem made_insert (ents : List ℕ) (n : ℕ) : Made n (ents.map (Call.insert (T := T) (K := K))) ↔ ∀ k ∈ ents, k < n := by
  induction ents with
  | nil => simp [Made]
  | cons k ents ih => simp [Made, ih]

omit [Field K] [LinearOrder K] [FloorSemiring K] in
theorem fromScratch_calls (ps : List (Fin T.dimension → K)) : Made 0 (fromScratch ps) ∧
    madePoints (fromScratch ps) = ps ∧ insertedEnts (fromScratch ps) = List.range ps.length := by
  have hmade (ents : List ℕ) : ∀ (ps : List (Fin T.dimension → K)) (n : ℕ), (∀ k ∈ ents, k < n + ps.length) →
      Made n (ps.map .makeEntity ++ ents.map .insert) := by
    intro ps
    induction ps with
    | nil => exact fun n hents => (made_insert ents n).mpr hents
    | cons p ps ih => exact fun n hents => ih (n + 1) fun k hk => (hents k hk).trans_eq (by simp; omega)
  have hpoints (ents : List ℕ) : madePoints (ents.map (Call.insert (T := T) (K := K))) = [] := by
    induction ents with
    | nil => rfl
    | cons k ents ih => exact ih
  have hents (ents : List ℕ) : insertedEnts (ents.map (Call.insert (T := T) (K := K))) = ents := by
    induction ents with
    | nil => rfl
    | cons k ents ih => exact congrArg (k :: ·) ih
  have happend (rest : List (Call T K)) : madePoints (ps.map .makeEntity ++ rest) = ps ++ madePoints rest ∧
      insertedEnts (ps.map .makeEntity ++ rest) = insertedEnts rest := by
    induction ps with
    | nil => exact ⟨rfl, rfl⟩
    | cons p ps ih => exact ⟨congrArg (p :: ·) ih.1, ih.2⟩
  refine ⟨hmade _ ps 0 fun k hk => by simpa using hk, ?_, ?_⟩
  · rw [fromScratch, (happend _).1, hpoints, List.append_nil]
  · rw [fromScratch, (happend _).2, hents]

/-- `update_all` on a tree whose root holds nothing and asks for nothing: whatever was inserted or
removed before, it inserts every entity that was ever made, and builds the tree that making and
inserting them from scratch does. -/
theorem update_all_rebuilds (t : TreeTopology T K) (hs : Stored t) (range : Range K T.dimension)
    (hroot : ∀ b, t.branches [] = some b → b.ents = [] ∧ b.action = .none) (hsep : Separated range t.points)
    {fuel : ℕ} (hfuel : T.max_depth < fuel) : ∃ t', t.update_all fuel range = some t' ∧
      (∀ k, Held t' k ↔ k < t.points.length) ∧ run fuel (empty range) (fromScratch t.points) = some t' := by
  obtain ⟨root, hb⟩ := Option.isSome_iff_exists.mp hs.shape.root
  obtain ⟨hents, haction⟩ := hroot root hb
  have hdealloc := dealloc_eq t range ⟨root.hasChildren, by
    rw [hb, ← hents, ← haction, T.root_eq, ← (hs.shape.branch hb).2.2]⟩
  have hlength : t.entities.length = t.points.length := by simp [points]
  have hpoints : (t.dealloc range).points = t.points := rfl
  have hrange : (t.dealloc range).range = range := rfl
  have hstart := (Canonical.empty range).entities t.entities
  rw [← hdealloc] at hstart
  obtain ⟨t', hrun, h, hpoints', hrange'⟩ := hstart.insertAgain (by rw [hpoints, hrange]; exact hsep) hfuel le_rfl
  rw [hpoints] at hrun hpoints' h
  obtain ⟨hmade, hmadePoints, hinserted⟩ := fromScratch_calls t.points
  have hsep' : Separated range (inserted [] (fromScratch t.points)) := by
    rw [inserted_eq _ [] hmade, hmadePoints, hinserted, List.nil_append]
    have hvalid : ∀ k ∈ List.range t.points.length, k < (t.dealloc range).points.length := fun k hk =>
      List.mem_range.mp hk
    have hall := (apart_iff hvalid).mp (apart_range (by rw [hpoints, hrange]; exact hsep) le_rfl)
    exact hall
  obtain ⟨t'', hrun', h', hvalid, hpoints'', hrange''⟩ := run_empty_canonical range hfuel (fromScratch t.points) hmade hsep'
  rw [hmadePoints] at hpoints''
  rw [hinserted, hpoints''] at h' hvalid
  have hold : Canonical t' (List.range t.points.length) (nullIds t.points.length) := h.congr fun k hk => by
    have hout : t.points.length ≤ k := by simpa using hk
    rw [nullIds, if_neg hout.not_gt, List.getElem?_eq_none (hlength ▸ hout)]
    rfl
  refine ⟨t', by rw [TreeTopology.update_all, hlength]; exact hrun, fun k => ?_, ?_⟩
  · rw [hold.held_iff (by rwa [hpoints']), List.mem_range]
  · rw [hrun', h'.unique hold (List.Perm.refl _) (by rwa [hpoints'']) (hrange'.trans (hrange.trans hrange''.symm))
      (hpoints'.trans hpoints''.symm)]

theorem update_all_rebuilds_two : ∃ t', (((empty IdType.unitSquare).makeEntity fun _ => 0).makeEntity fun _ => 1 / 2).update_all
    33 IdType.unitSquare = some t' ∧ ∀ k, Held t' k ↔ k < 2 := by
  have hs := (((Sound.empty IdType.unitSquare).makeEntity fun _ => 0).makeEntity fun _ => 1 / 2).stored
  have hroot : ∀ b, (((empty IdType.unitSquare).makeEntity fun _ => 0).makeEntity fun _ => 1 / 2).branches [] = some b →
      b.ents = [] ∧ b.action = .none := by
    intro b hb
    obtain rfl : ⟨IdType.uint64x2.root, .none, [], false⟩ = b := Option.some_inj.mp hb
    exact ⟨rfl, rfl⟩
  have hsep : Separated IdType.unitSquare
      (((empty IdType.unitSquare).makeEntity fun _ => 0).makeEntity fun _ => 1 / 2).points := by
    exact List.pairwise_pair.mpr fun heq => corner_ne_middle ((place_eq_iff _ _ _).mpr heq)
  obtain ⟨t', hrun, hheld, -⟩ := update_all_rebuilds _ hs IdType.unitSquare hroot hsep
    (by decide : IdType.uint64x2.max_depth < 33)
  exact ⟨t', hrun, hheld⟩

end TreeTopology

end Flecsi.Topology
