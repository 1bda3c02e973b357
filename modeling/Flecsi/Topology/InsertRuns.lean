import Flecsi.Topology.InsertDepth

/-!
# Runs of insertions

Insertions return and keep within the depth of ids exactly when the inserted points have pairwise
different ids at the maximal depth.
-/

namespace Flecsi.Topology

namespace TreeTopology

variable {T : IdType} {K : Type} [Field K] [LinearOrder K] [FloorSemiring K]
  {t t' : TreeTopology T K}

/-- No branch is deeper than ids go, and the map has each branch under a valid id of its depth. -/
structure WithinDepth (t : TreeTopology T K) : Prop where
  branch : ∀ a b, t.branches a = some b → a.length ≤ T.max_depth
  id : ∀ id a, t.branch_map id = some a → T.Valid id ∧ T.depth id = a.length ∧
    ∃ b, t.branches a = some b ∧ b.id = id

/-- Entities are inserted after they were made. -/
def Made : ℕ → List (Call T K) → Prop
  | _, [] => True
  | n, .makeEntity _ :: calls => Made (n + 1) calls
  | n, .insert ent :: calls => ent < n ∧ Made n calls

/-- The points of the entities that are inserted, given the points of those made before. -/
def inserted (points : List (Fin T.dimension → K)) : List (Call T K) → List (Fin T.dimension → K)
  | [] => []
  | .makeEntity p :: calls => inserted (points ++ [p]) calls
  | .insert ent :: calls => points[ent]?.toList ++ inserted points calls

/-- The points differ by their ids at the maximal depth. -/
def Separated (range : Range K T.dimension) (points : List (Fin T.dimension → K)) : Prop :=
  points.Pairwise fun p q => T.ofPoint range p T.max_depth ≠ T.ofPoint range q T.max_depth

/-- A settled tree holds the points `s`. -/
structure Holds (t : TreeTopology T K) (s : List (Fin T.dimension → K)) : Prop where
  settled : Settled t
  points : ∀ p, p ∈ s ↔ ∃ k, Held t k ∧ t.points[k]? = some p

omit [Field K] [FloorSemiring K] in
theorem Shape.withinDepth (h : Shape t) : WithinDepth t := by
  refine ⟨fun a b hb => (h.branch hb).1.length, fun id a hid => ?_⟩
  obtain ⟨hsome, rfl⟩ := (h.map id a).mp hid
  obtain ⟨b, hb⟩ := Option.isSome_iff_exists.mp hsome
  have hpath := h.branch hb
  exact ⟨⟨a, hpath.1, rfl⟩, IdType.depth_number hpath.1.child, b, hb, hpath.2.2⟩

theorem holds_empty (range : Range K T.dimension) : Holds (empty range) [] := by
  have hleaf {a b} (h : Leaf (empty range) a b) : b = ⟨T.root, .none, [], false⟩ := by
    obtain ⟨hb, -⟩ := h
    unfold empty at hb
    dsimp only at hb
    split at hb <;> cases hb
    rfl
  refine ⟨⟨Shape.empty range, fun a b h k hk => ?_, fun a b h => ?_⟩, fun p => ?_⟩
  · rw [hleaf h] at hk
    cases hk
  · rw [hleaf h]
    exact ⟨rfl, Nat.zero_le _⟩
  · constructor
    · intro h
      cases h
    · rintro ⟨k, ⟨a, b, h, hk⟩, -⟩
      rw [hleaf h] at hk
      cases hk

theorem Holds.makeEntity (h : Holds t s) (p : Fin T.dimension → K) : Holds (t.makeEntity p) s := by
  have hpoints := t.points_makeEntity p
  have hkept {k : ℕ} {q : Fin T.dimension → K} (hq : t.points[k]? = some q) : (t.makeEntity p).points[k]? = some q := by
    rw [hpoints, List.getElem?_append_left (List.getElem?_eq_some_iff.mp hq).1, hq]
  have hs := h.settled
  refine ⟨⟨⟨hs.shape.root, hs.shape.branch, hs.shape.depth, hs.shape.child, hs.shape.map⟩, fun a b hleaf k hk => ?_,
    hs.quiet⟩, fun q => ?_⟩
  · obtain ⟨q, hq, ha⟩ := hs.onPaths a b hleaf k hk
    exact ⟨q, hkept hq, ha⟩
  · rw [h.points]
    constructor
    · rintro ⟨k, hheld, hq⟩
      exact ⟨k, hheld, hkept hq⟩
    · rintro ⟨k, ⟨a, b, hleaf, hk⟩, hq⟩
      obtain ⟨q', hq', -⟩ := hs.onPaths a b hleaf k hk
      rw [hkept hq', Option.some_inj] at hq
      exact ⟨k, ⟨a, b, hleaf, hk⟩, hq ▸ hq'⟩

-- ---------------------------------------------------------------------------
-- One insertion
-- ---------------------------------------------------------------------------

/-- An insertion at the leaf on the entity's path. -/
theorem Holds.insert_cases (h : Holds t s) (hp : t.points[ent]? = some p) (fuel : ℕ) : ∃ a b, Leaf t a b ∧
    a <+: place t.range p ∧ ((b.ents = [] ∧ insert fuel t ent = some (t.placed a b ent)) ∨
      ∃ i, b.ents = [i] ∧ insert fuel t ent = refine fuel (t.placed a b ent) a) := by
  obtain ⟨a, b, hleaf, ha⟩ := h.settled.shape.exists_leaf (place_path t.range p) (length_place t.range p)
  exact ⟨a, b, hleaf, ha, h.settled.insertWith_cases _ hp hleaf ha h.settled.shape.depth
    (h.settled.shape.branch hleaf.1).2.1⟩

theorem Holds.placed (h : Holds t s) (hleaf : Leaf t a b) (hp : t.points[ent]? = some p)
    (hsettled : Settled t') (hsame : Same (t.placed a b ent) t') :
    Holds t' (s ++ [p]) ∧ t'.points = t.points ∧ t'.range = t.range := by
  have hpoints : t'.points = t.points := hsame.points.trans (by simp [TreeTopology.placed])
  refine ⟨⟨hsettled, fun q => ?_⟩, hpoints, hsame.range⟩
  simp only [List.mem_append, List.mem_singleton, h.points, hsame.held, held_placed hleaf, hpoints]
  constructor
  · rintro (⟨k, hk, hq⟩ | rfl)
    · exact ⟨k, .inl hk, hq⟩
    · exact ⟨ent, .inr rfl, hp⟩
  · rintro ⟨k, hk | rfl, hq⟩
    · exact .inl ⟨k, hk, hq⟩
    · exact .inr (Option.some_inj.mp (hq.symm.trans hp))

theorem insert_new (h : Holds t s) (hp : t.points[ent]? = some p)
    (hnew : ∀ q ∈ s, place t.range q ≠ place t.range p) (fuel : ℕ) :
    (∀ t', insert fuel t ent = some t' → Holds t' (s ++ [p]) ∧ t'.points = t.points ∧ t'.range = t.range) ∧
      (T.max_depth < fuel → (insert fuel t ent).isSome) := by
  obtain ⟨a, b, hleaf, ha, ⟨hempty, hrun⟩ | ⟨i, hone, hrun⟩⟩ := h.insert_cases hp fuel
  · rw [hrun]
    refine ⟨fun t' heq => ?_, fun _ => rfl⟩
    cases heq
    exact h.placed hleaf hp (h.settled.placed hleaf hempty hp ha) ⟨rfl, rfl, fun _ => Iff.rfl⟩
  · rw [hrun]
    obtain ⟨q, hq, -⟩ := h.settled.onPaths a b hleaf i (by simp [hone])
    have hmem : q ∈ s := (h.points q).mpr ⟨i, ⟨a, b, hleaf, by simp [hone]⟩, hq⟩
    have hpoints : (t.placed a b ent).points = t.points := by simp [TreeTopology.placed]
    obtain ⟨hresult, hreturns⟩ := refine_crowded fuel (h.settled.crowded hleaf hone hp ha)
      (hpoints ▸ hq) (hpoints ▸ hp) (hnew q hmem)
    refine ⟨fun t' heq => ?_, fun hfuel => hreturns (Nat.lt_add_right _ hfuel)⟩
    obtain ⟨hsettled, hsame⟩ := hresult t' heq
    exact h.placed hleaf hp hsettled hsame

theorem insert_repeated (h : Holds t s) (hp : t.points[ent]? = some p) (hq : q ∈ s)
    (heq : place t.range q = place t.range p) (fuel : ℕ) (hrun : insert fuel t ent = some t') :
    ∃ x, T.max_depth < x.length ∧ (t'.branches x).isSome := by
  obtain ⟨k, ⟨a', b', hleaf', hk⟩, hkq⟩ := (h.points q).mp hq
  obtain ⟨q', hkq', ha'⟩ := h.settled.onPaths a' b' hleaf' k hk
  obtain rfl : q' = q := Option.some_inj.mp (hkq'.symm.trans hkq)
  rw [heq] at ha'
  obtain ⟨a, b, hleaf, ha, hcases⟩ := h.insert_cases hp fuel
  obtain rfl := h.settled.shape.leaf_unique hleaf' hleaf ha' ha
  obtain rfl : b' = b := Option.some_inj.mp (hleaf'.1.symm.trans hleaf.1)
  obtain ⟨hempty, -⟩ | ⟨i, hone, hrefine⟩ := hcases
  · rw [hempty] at hk
    cases hk
  · rw [hone, List.mem_singleton] at hk
    subst hk
    have hpoints : (t.placed a' b' ent).points = t.points := by simp [TreeTopology.placed]
    rw [hrefine] at hrun
    exact refine_too_deep fuel (h.settled.crowded hleaf hone hp ha) (hpoints ▸ hkq) (hpoints ▸ hp) heq t' hrun

-- ---------------------------------------------------------------------------
-- Runs
-- ---------------------------------------------------------------------------

theorem run_stays (fuel : ℕ) {calls : List (Call T K)} (hrun : run fuel t calls = some t') : Stays t t' := by
  induction calls generalizing t with
  | nil =>
    cases hrun
    exact fun _ hx => hx
  | cons c calls ih =>
    rw [run, List.foldlM_cons, Option.bind_eq_bind, Option.bind_eq_some_iff] at hrun
    obtain ⟨t₁, hcall, hrest⟩ := hrun
    refine fun x hx => ih hrest x ?_
    cases c with
    | makeEntity p =>
      cases hcall
      exact hx
    | insert ent => exact insertWith_stays (refine_stays fuel) hcall x hx

theorem separated_concat (range : Range K T.dimension) (s : List (Fin T.dimension → K)) (p : Fin T.dimension → K) :
    Separated range (s ++ [p]) ↔ Separated range s ∧ ∀ q ∈ s, place range q ≠ place range p := by
  simp only [Separated, List.pairwise_append, List.pairwise_singleton, List.mem_singleton, forall_eq, true_and, ne_eq,
    place_eq_iff]

/-- Separated points: every run returns, with the calls nested no deeper than ids go. -/
theorem run_returns {fuel : ℕ} (hfuel : T.max_depth < fuel) (calls : List (Call T K)) :
    ∀ {t : TreeTopology T K} {s : List (Fin T.dimension → K)}, Holds t s → Made t.points.length calls →
      Separated t.range (s ++ inserted t.points calls) →
      ∃ t', run fuel t calls = some t' ∧ Holds t' (s ++ inserted t.points calls) := by
  induction calls with
  | nil =>
    intro t s h _ _
    rw [inserted, List.append_nil]
    exact ⟨t, rfl, h⟩
  | cons c calls ih =>
    intro t s h hmade hsep
    cases c with
    | makeEntity p =>
      have hrest := @ih (t.makeEntity p) s (h.makeEntity p)
      rw [points_makeEntity, List.length_append, List.length_singleton] at hrest
      exact hrest hmade hsep
    | insert ent =>
      obtain ⟨hent, hmade⟩ := hmade
      obtain ⟨p, hp⟩ : ∃ p, t.points[ent]? = some p := ⟨_, List.getElem?_eq_getElem hent⟩
      have hall : s ++ inserted t.points (.insert ent :: calls) = (s ++ [p]) ++ inserted t.points calls := by
        simp [inserted, hp]
      rw [hall] at hsep ⊢
      have hnew := ((separated_concat _ _ _).mp (List.pairwise_append.mp hsep).1).2
      obtain ⟨hresult, hreturns⟩ := insert_new h hp hnew fuel
      obtain ⟨t₁, hinsert⟩ := Option.isSome_iff_exists.mp (hreturns hfuel)
      obtain ⟨h₁, hpoints, hrange⟩ := hresult t₁ hinsert
      have hrest := ih h₁ (by rwa [hpoints]) (by rwa [hpoints, hrange])
      rw [hpoints] at hrest
      obtain ⟨t', hrun, hholds⟩ := hrest
      refine ⟨t', ?_, hholds⟩
      rw [run, List.foldlM_cons]
      exact Option.bind_eq_some_iff.mpr ⟨t₁, hinsert, hrun⟩

/-- A run that keeps within the depth of ids inserted separated points. -/
theorem run_separated (fuel : ℕ) (calls : List (Call T K)) :
    ∀ {t t' : TreeTopology T K} {s : List (Fin T.dimension → K)}, Holds t s → Made t.points.length calls →
      Separated t.range s → run fuel t calls = some t' → WithinDepth t' →
      Separated t.range (s ++ inserted t.points calls) := by
  induction calls with
  | nil =>
    intro t t' s _ _ hsep _ _
    rwa [inserted, List.append_nil]
  | cons c calls ih =>
    intro t t' s h hmade hsep hrun hwithin
    rw [run, List.foldlM_cons, Option.bind_eq_bind, Option.bind_eq_some_iff] at hrun
    obtain ⟨t₁, hcall, hrun⟩ := hrun
    cases c with
    | makeEntity p =>
      cases hcall
      have hrest := @ih (t.makeEntity p) t' s (h.makeEntity p)
      rw [points_makeEntity, List.length_append, List.length_singleton] at hrest
      exact hrest hmade hsep hrun hwithin
    | insert ent =>
      obtain ⟨hent, hmade⟩ := hmade
      obtain ⟨p, hp⟩ : ∃ p, t.points[ent]? = some p := ⟨_, List.getElem?_eq_getElem hent⟩
      have hall : s ++ inserted t.points (.insert ent :: calls) = (s ++ [p]) ++ inserted t.points calls := by
        simp [inserted, hp]
      have hnew : ∀ q ∈ s, place t.range q ≠ place t.range p := by
        intro q hq heq
        obtain ⟨x, hdeep, hsome⟩ := insert_repeated h hp hq heq fuel hcall
        obtain ⟨b, hb⟩ := Option.isSome_iff_exists.mp (run_stays fuel hrun x hsome)
        exact (hwithin.branch x b hb).not_gt hdeep
      obtain ⟨h₁, hpoints, hrange⟩ := (insert_new h hp hnew fuel).1 t₁ hcall
      rw [hall]
      rw [← hpoints] at hmade
      rw [← hpoints, ← hrange]
      refine ih h₁ hmade ?_ hrun hwithin
      rw [hrange]
      exact (separated_concat _ _ _).mpr ⟨hsep, hnew⟩

/-- Insertions return and keep within the depth of ids just when the points differ by their ids at
the maximal depth. -/
theorem run_withinDepth_iff (range : Range K T.dimension) {calls : List (Call T K)} (hmade : Made 0 calls) :
    (∃ fuel t, run fuel (empty range) calls = some t ∧ WithinDepth t) ↔ Separated range (inserted [] calls) := by
  have hempty := holds_empty range
  have hpoints : (empty range).points = [] := rfl
  have hrange : (empty range).range = range := rfl
  have hmade : Made (empty range).points.length calls := hmade
  rw [← hpoints]
  constructor
  · rintro ⟨fuel, t, hrun, hwithin⟩
    have hsep := run_separated fuel calls hempty hmade (hrange ▸ List.Pairwise.nil) hrun hwithin
    rwa [hrange, List.nil_append] at hsep
  · intro hsep
    obtain ⟨t, hrun, hholds⟩ := run_returns (Nat.lt_succ_self T.max_depth) calls hempty hmade
      (by rwa [hrange, List.nil_append])
    exact ⟨_, t, hrun, hholds.settled.shape.withinDepth⟩

/-- Two entities are made and inserted. -/
def twoEntities (p q : ℚ) : List (Call IdType.uint64x2 ℚ) :=
  [.makeEntity fun _ => p, .makeEntity fun _ => q, .insert 0, .insert 1]

theorem made_twoEntities (p q : ℚ) : Made 0 (twoEntities p q) := by simp [twoEntities, Made]

theorem run_withinDepth_iff_middle :
    ∃ fuel t, run fuel (empty IdType.unitSquare) (twoEntities 0 (1 / 2)) = some t ∧ WithinDepth t := by
  refine (run_withinDepth_iff IdType.unitSquare (made_twoEntities 0 (1 / 2))).mpr ?_
  refine List.pairwise_pair.mpr fun heq => ?_
  have hcoords := (IdType.encode_eq_iff _ _ le_rfl).mp heq ⟨0, by decide⟩
  norm_num [IdType.coords, IdType.unitSquare, IdType.uint64x2, IdType.max_depth, IdType.bits] at hcoords

/-- Two entities at one place are refined past the maximal depth. -/
theorem coincident_too_deep : Made 0 (twoEntities 0 0) ∧
    ¬∃ fuel t, run fuel (empty IdType.unitSquare) (twoEntities 0 0) = some t ∧ WithinDepth t := by
  refine ⟨made_twoEntities 0 0, ?_⟩
  rintro ⟨fuel, t, hrun, hwithin⟩
  have hsep := run_separated fuel (twoEntities 0 0) (holds_empty IdType.unitSquare) (made_twoEntities 0 0)
    List.Pairwise.nil hrun hwithin
  exact List.pairwise_pair.mp hsep rfl

end TreeTopology

end Flecsi.Topology
