import Flecsi.Execution.RemapShared

/-!
# Colorings of the ghost exchange

What `remap_shared_entities` leaves: a shared entry's offset is its position in the
shared list, a ghost's offset that of its owner's entry. The ghosts a rank holds of a
peer and the entries the peer shares with it then pair up, in order.
-/

namespace Flecsi.Execution

open Coloring

structure ExchangeColoring (coloring : Fin n → IndexColoring) : Prop where
  sorted : ∀ p, (coloring p).shared.Pairwise (·.id < ·.id) ∧
    (coloring p).ghost.Pairwise (·.id < ·.id)
  position : ∀ (p : Fin n) (i : ℕ) (e : EntityInfo), (coloring p).shared[i]? = some e → e.offset = i
  ghost : ∀ p : Fin n, ∀ g ∈ (coloring p).ghost, ∃ q : Fin n, g.rank = q ∧
    ∃ e ∈ (coloring q).shared, g.id = e.id ∧ g.offset = e.offset ∧ (p : ℕ) ∈ e.shared
  users : ∀ q : Fin n, ∀ e ∈ (coloring q).shared, ∀ r ∈ e.shared, ∃ p : Fin n, (p : ℕ) = r ∧
    ∃ g ∈ (coloring p).ghost, g.id = e.id ∧ g.rank = q

/-- The ghosts owned by a rank, with their positions. -/
def ghostEntries (c : IndexColoring) (rank : ℕ) : List (EntityInfo × ℕ) :=
  c.ghost.zipIdx.filter (·.1.rank = rank)

/-- The shared entities a rank uses. -/
def userEntries (c : IndexColoring) (rank : ℕ) : List EntityInfo :=
  c.shared.filter (rank ∈ ·.shared)

theorem mem_ghostEntries {c : IndexColoring} {x : EntityInfo × ℕ} :
    x ∈ ghostEntries c r ↔ c.ghost[x.2]? = some x.1 ∧ x.1.rank = r := by
  simp [ghostEntries, List.mem_zipIdx_iff_getElem?]

theorem map_fst_ghostEntries (c : IndexColoring) (r : ℕ) :
    (ghostEntries c r).map Prod.fst = c.ghost.filter (·.rank = r) := by
  have h := List.filter_map (f := Prod.fst) (p := fun g : EntityInfo => decide (g.rank = r))
    (l := c.ghost.zipIdx)
  rw [List.zipIdx_map_fst] at h
  exact h.symm

section
variable {coloring : Fin n → IndexColoring} (h : ExchangeColoring coloring)
include h

theorem ExchangeColoring.shared_offset (he : e ∈ (coloring q).shared) :
    e.offset = sharedPosition (coloring q) e.id := by
  obtain ⟨i, hi⟩ := List.getElem?_of_mem he
  rw [h.position q i e hi, sharedPosition_eq (h.sorted q).1 hi]

theorem ExchangeColoring.offset_lt (he : e ∈ (coloring q).shared) :
    e.offset < (coloring q).shared.length := by
  obtain ⟨i, hi⟩ := List.getElem?_of_mem he
  rw [h.position q i e hi]
  exact (List.getElem?_eq_some_iff.mp hi).1

/-- The owner of a ghost, and its entry there. -/
theorem ExchangeColoring.owner {p q : Fin n} (hg : g ∈ (coloring p).ghost) (hq : g.rank = q) :
    ∃ e ∈ (coloring q).shared, g.id = e.id ∧ g.offset = e.offset ∧ (p : ℕ) ∈ e.shared := by
  obtain ⟨q', hq', howner⟩ := h.ghost p g hg
  have hqq : q' = q := Fin.ext (hq'.symm.trans hq)
  subst hqq
  exact howner

theorem ExchangeColoring.ghost_ids (p q : Fin n) :
    ((coloring p).ghost.filter (·.rank = (q : ℕ))).map EntityInfo.id =
      (userEntries (coloring q) p).map EntityInfo.id := by
  have hsort {l : List EntityInfo} (hl : l.Pairwise (·.id < ·.id)) (b : EntityInfo → Bool) :
      ((l.filter b).map EntityInfo.id).Pairwise (id · < id ·) :=
    List.pairwise_map.mpr (hl.filter b)
  refine SortUnique.eq_of_pairwise_lt id (hsort (h.sorted p).2 _) (hsort (h.sorted q).1 _) ?_
  intro x
  simp only [userEntries, List.mem_map, List.mem_filter, decide_eq_true_eq]
  constructor
  · rintro ⟨g, ⟨hg, hrank⟩, rfl⟩
    obtain ⟨e, he, hid, -, hp⟩ := h.owner hg hrank
    exact ⟨e, ⟨he, hp⟩, hid.symm⟩
  · rintro ⟨e, ⟨he, hp⟩, rfl⟩
    obtain ⟨p', hp', g, hg, hid, hrank⟩ := h.users q e he p hp
    have hpp : p' = p := Fin.ext hp'
    subst hpp
    exact ⟨g, ⟨hg, hrank⟩, hid⟩

/-- The ghosts' offsets are those of the entries the owner sends, in its order. -/
theorem ExchangeColoring.paired (p q : Fin n) :
    (ghostEntries (coloring p) q).map (·.1.offset) =
      (userEntries (coloring q) p).map EntityInfo.offset := by
  have hghost : (ghostEntries (coloring p) q).map (·.1.offset) =
      ((ghostEntries (coloring p) q).map Prod.fst).map
        (sharedPosition (coloring q) ∘ EntityInfo.id) := by
    rw [List.map_map]
    refine List.map_congr_left fun x hx => ?_
    obtain ⟨hx, hrank⟩ := mem_ghostEntries.mp hx
    obtain ⟨e, he, hid, hoff, -⟩ := h.owner (List.mem_of_getElem? hx) hrank
    rw [hoff, h.shared_offset he, ← hid]
    rfl
  have hshared : (userEntries (coloring q) p).map EntityInfo.offset =
      (userEntries (coloring q) p).map (sharedPosition (coloring q) ∘ EntityInfo.id) :=
    List.map_congr_left fun e he => h.shared_offset (List.mem_filter.mp he).1
  rw [hghost, hshared, map_fst_ghostEntries, ← List.map_map, h.ghost_ids, List.map_map]

theorem ExchangeColoring.length_ghostEntries (p q : Fin n) :
    (ghostEntries (coloring p) q).length = (userEntries (coloring q) p).length := by
  simpa using congrArg List.length (h.paired p q)

end

/-- The ghosts of some fields that come from one rank. -/
def exchanged (coloring : ℕ → Fin n → IndexColoring) (fs : List ℕ) (p q : Fin n) :
    List (ℕ × EntityInfo × ℕ) :=
  fs.flatMap fun f => (ghostEntries (coloring f p) q).map (f, ·)

theorem mem_exchanged {coloring : ℕ → Fin n → IndexColoring} {x : ℕ × EntityInfo × ℕ} :
    x ∈ exchanged coloring fs p q ↔
      x.1 ∈ fs ∧ (coloring x.1 p).ghost[x.2.2]? = some x.2.1 ∧ x.2.1.rank = q := by
  obtain ⟨f, x⟩ := x
  simp [exchanged, mem_ghostEntries]

/-- What the owner goes through for some fields, in terms of the ghosts it is sent to. -/
theorem flatMap_userEntries {coloring : ℕ → Fin n → IndexColoring}
    (h : ∀ f, ExchangeColoring (coloring f)) (fs : List ℕ) (p q : Fin n) (g : ℕ → ℕ → List γ) :
    (fs.flatMap fun f => (userEntries (coloring f q) p).flatMap fun e => g f e.offset) =
      (exchanged coloring fs p q).flatMap fun x => g x.1 x.2.1.offset := by
  simp only [exchanged, List.flatMap_assoc, List.flatMap_map]
  refine List.flatMap_congr fun f _ => ?_
  have hpair := congrArg (List.flatMap (g f)) ((h f).paired p q)
  rw [List.flatMap_map, List.flatMap_map] at hpair
  exact hpair.symm

theorem map_userEntries {coloring : ℕ → Fin n → IndexColoring}
    (h : ∀ f, ExchangeColoring (coloring f)) (fs : List ℕ) (p q : Fin n) (g : ℕ → ℕ → γ) :
    (fs.flatMap fun f => (userEntries (coloring f q) p).map fun e => g f e.offset) =
      (exchanged coloring fs p q).map fun x => g x.1 x.2.1.offset := by
  simpa only [List.map_eq_flatMap] using flatMap_userEntries h fs p q fun f o => [g f o]

/-- Renumbering a dual coloring gives a coloring of the exchange. -/
theorem DualColoring.exchangeColoring {coloring : Fin n → IndexColoring} (h : DualColoring coloring) :
    ExchangeColoring (remapped coloring) where
  sorted p := ⟨List.pairwise_map.mpr (h.sorted p).1, List.pairwise_map.mpr (h.sorted p).2⟩
  position p i e he := by
    obtain ⟨e', he', rfl⟩ := Option.map_eq_some_iff.mp (List.getElem?_map ▸ he)
    exact sharedPosition_eq (h.sorted p).1 he'
  ghost p g hg := by
    obtain ⟨g', hg', rfl⟩ := List.mem_map.mp hg
    obtain ⟨q, -, e, he, hid, hrank, -, hp⟩ := h.ghost p g' hg'
    have hq : g'.rank = q := hrank.trans (h.rank q e (mem_own_shared he))
    refine ⟨q, hq, { e with offset := sharedPosition (coloring q) e.id },
      List.mem_map.mpr ⟨e, he, rfl⟩, hid, ?_, hp⟩
    simp [ghostOffset, hq, hid]
  users q e he r hr := by
    obtain ⟨e', he', rfl⟩ := List.mem_map.mp he
    obtain ⟨p, hp, -, g, hg, hid⟩ := h.users q e' he' r hr
    obtain ⟨q', -, e'', he'', hid', hrank, -, -⟩ := h.ghost p g hg
    have hq : q' = q :=
      h.once q' q e'' (mem_own_shared he'') e' (mem_own_shared he') (hid'.symm.trans hid)
    subst hq
    exact ⟨p, hp, { g with offset := ghostOffset coloring g, shared := {0} },
      List.mem_map.mpr ⟨g, hg, rfl⟩, hid, hrank.trans (h.rank q' e'' (mem_own_shared he''))⟩

/-- Two ranks that share one element each. -/
def pairColoring (p : Fin 2) : IndexColoring where
  exclusive := []
  shared := [⟨p, p, 0, {1 - p.val}⟩]
  ghost := [⟨1 - p.val, 1 - p.val, 0, ∅⟩]

theorem pairColoring_exchange : ExchangeColoring pairColoring where
  sorted p := ⟨List.pairwise_singleton _ _, List.pairwise_singleton _ _⟩
  position p i e he := by
    cases i with
    | zero =>
      obtain rfl := Option.some.inj he
      rfl
    | succ i => cases he
  ghost := by decide
  users := by decide

end Flecsi.Execution
