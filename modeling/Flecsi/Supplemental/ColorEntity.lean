import Flecsi.Coloring.GetEntityInfo
import Flecsi.Supplemental.CellColoring

/-!
# The coloring of vertices and other entities

`color_entity`. A rank looks at the entities of its cells and of their nearest neighbors. Each
belongs to the lowest rank that has a cell with it, which the rank finds out from its neighbors; the
offsets of those that are not its own it asks their owners for.
-/

namespace Flecsi.Supplemental

open Coloring Coloring.MpiCommunicator Execution SetPositions Flecsi.Topology RequestReply
open Relation (ReflTransGen)

-- ---------------------------------------------------------------------------
-- Ownership
-- ---------------------------------------------------------------------------

/-- What `color_entity` is told of the cells. -/
structure CellInfo where
  closure : Finset ℕ
  remote_info_map : ℕ → Option EntityInfo
  shared_cells_map : ℕ → Option EntityInfo
  closure_intersection_map : List (ℕ × Finset ℕ)

/-- What `add_colorings` passes on. -/
def cellInfo (md : MeshDefinition) (dimension : ℕ) (primary : Fin n → Finset ℕ) (p : Fin n) : CellInfo where
  closure := neighborhood md dimension (primary p)
  remote_info_map := (get_primary_info primary (fun p => all_neighbors md dimension (primary p)) p).2.find
  shared_cells_map c := (colorCells md dimension primary p).1.shared.find? (·.id = c)
  closure_intersection_map := get_intersection_info (fun p => nearest_neighbors md dimension (primary p)) p

/-- One cell that references the entity. -/
def visitReferencer (rank : ℕ) (cells : CellInfo) (s : ℕ × Finset ℕ) (c : ℕ) : ℕ × Finset ℕ :=
  let (min_rank, shared_entities) :=
    match cells.remote_info_map c with
    | some e => (min s.1 e.rank, insert e.rank s.2)
    | none => (min s.1 rank,
      match cells.shared_cells_map c with
      | some e => s.2 ∪ e.shared
      | none => s.2)
  (min_rank, cells.closure_intersection_map.foldl (fun shared_entities ci =>
    if c ∈ ci.2 then insert ci.1 shared_entities else shared_entities) shared_entities)

structure Assigned where
  offset : ℕ
  entity_info : EntitySet
  entity_requests : List (Finset ℕ)

section
variable (md : MeshDefinition) (dimension entity_dim : ℕ)

/-- The lowest rank of the cells that reference an entity, and the ranks that share it. -/
def visitReferencers (rank : ℕ) (cells : CellInfo) (i : ℕ) : ℕ × Finset ℕ :=
  (entityReferencers dimension entity_dim md i).sort.foldl (visitReferencer rank cells) (sizeMax, ∅)

def assignEntity (rank : ℕ) (cells : CellInfo) (s : Assigned) (i : ℕ) : Assigned :=
  let (min_rank, shared_entities) := visitReferencers md dimension entity_dim rank cells i
  if min_rank = rank then
    { s with
      offset := s.offset + 1
      entity_info := s.entity_info.insert (entityInfo i rank s.offset shared_entities) }
  else { s with entity_requests := s.entity_requests.modify min_rank (insert i) }

def assignEntities (colors rank : ℕ) (cells : CellInfo) : Assigned :=
  (entityClosure dimension entity_dim md cells.closure.sort).sort.foldl
    (assignEntity md dimension entity_dim rank cells) ⟨0, KeyedSet.empty _, List.replicate colors ∅⟩

end

-- ---------------------------------------------------------------------------
-- Exclusive, shared and ghost entities
-- ---------------------------------------------------------------------------

/-- One owned entity. -/
def colorOwn (s : IndexColoring × ColoringInfo) (i : EntityInfo) : IndexColoring × ColoringInfo :=
  let (entities, entity_color_info) := s
  if i.shared.card ≠ 0 then
    ({ entities with shared := entities.shared ++ [i] },
      { entity_color_info with sharedUsers := entity_color_info.sharedUsers ∪ i.shared })
  else ({ entities with exclusive := entities.exclusive ++ [i] }, entity_color_info)

/-- One entity asked of rank `r`; there is no offset past the end of the set. -/
def colorGhost (r : ℕ) (offsets : List ℕ) (s : (List EntityInfo × Finset ℕ) × ℕ) (i : ℕ) :
    Option ((List EntityInfo × Finset ℕ) × ℕ) := do
  let offset ← offsets[s.2]?
  some ((s.1.1 ++ [entityInfo i r offset ∅], insert r s.1.2), s.2 + 1)

/-- The entities asked of rank `r`, with the answers in the order of the set they are in. -/
def colorGhosts (entity_requests : List (Finset ℕ)) (entity_offset_info : ℕ → Finset ℕ)
    (s : List EntityInfo × Finset ℕ) (r : ℕ) : Option (List EntityInfo × Finset ℕ) :=
  ((entity_requests.getD r ∅).sort.foldlM (colorGhost r (entity_offset_info r).sort) (s, 0)).map Prod.fst

/-- `entities` and `entity_color_info`, given the offsets of other ranks. -/
def colorEntities (a : Assigned) (entity_offset_info : ℕ → Finset ℕ) : Option (IndexColoring × ColoringInfo) := do
  let (entities, entity_color_info) := a.entity_info.elems.foldl colorOwn (noColoring, noColoringInfo)
  let (ghosts, ghost_owners) ←
    (List.range a.entity_requests.length).foldlM (colorGhosts a.entity_requests entity_offset_info) ([], ∅)
  some (finishColoring { entities with ghost := ghosts } entity_color_info.sharedUsers ghost_owners)

section
variable (md : MeshDefinition) (dimension entity_dim : ℕ) (primary : Fin n → Finset ℕ)

def assigned (p : Fin n) : Assigned := assignEntities md dimension entity_dim n p (cellInfo md dimension primary p)

/-- The messages of `get_entity_info`. -/
def entityRequests : Protocol n ℕ :=
  entityProtocol (fun p => (assigned md dimension entity_dim primary p).entity_info)
    fun p => (assigned md dimension entity_dim primary p).entity_requests

/-- `color_entity` on all ranks, with the messages of a run. -/
def color_entity (s : State n ℕ) (p : Fin n) : Option (IndexColoring × ColoringInfo) :=
  let a := assigned md dimension entity_dim primary p
  colorEntities a fun r => if h : r < n then
    remoteOffsets (fun p => (assigned md dimension entity_dim primary p).entity_requests) s p ⟨r, h⟩ else ∅

end

-- ---------------------------------------------------------------------------
-- Who owns and holds an entity
-- ---------------------------------------------------------------------------

section
variable (md : MeshDefinition) (dimension entity_dim : ℕ) (primary : Fin n → Finset ℕ)

/-- The entities of a rank's own cells. -/
def touched (p : Fin n) : Finset ℕ := entityClosure dimension entity_dim md (primary p).sort

def entityOwned (p : Fin n) : Finset ℕ :=
  (touched md dimension entity_dim primary p).filter fun e => ∀ q < p, e ∉ touched md dimension entity_dim primary q

def entityHeld (p : Fin n) : Finset ℕ :=
  entityClosure dimension entity_dim md (neighborhood md dimension (primary p)).sort

/-- Cells that have an entity in common have a vertex in common, and the ids of the entities fit. -/
structure EntityMesh : Prop where
  adjacent : ∀ c < md.num_entities dimension, ∀ c' < md.num_entities dimension,
    ∀ e ∈ md.entities dimension entity_dim c, e ∈ md.entities dimension entity_dim c' → Adjacent md dimension c c'
  entities : ∀ c < md.num_entities dimension, ∀ e ∈ md.entities dimension entity_dim c, e < 2 ^ 32

variable {md dimension entity_dim primary}

theorem mem_touched : e ∈ touched md dimension entity_dim primary p ↔
    ∃ c ∈ primary p, e ∈ md.entities dimension entity_dim c := by
  rw [touched, mem_entityClosure]
  simp only [Finset.mem_sort]

theorem mem_entityHeld : e ∈ entityHeld md dimension entity_dim primary p ↔
    ∃ c ∈ neighborhood md dimension (primary p), e ∈ md.entities dimension entity_dim c := by
  rw [entityHeld, mem_entityClosure]
  simp only [Finset.mem_sort]

theorem mem_entityOwned : e ∈ entityOwned md dimension entity_dim primary p ↔
    e ∈ touched md dimension entity_dim primary p ∧ ∀ q < p, e ∉ touched md dimension entity_dim primary q :=
  Finset.mem_filter

/-- The lowest rank that touches an entity. -/
theorem exists_owner (h : e ∈ touched md dimension entity_dim primary p) :
    ∃ q, e ∈ entityOwned md dimension entity_dim primary q := by
  induction p using WellFoundedLT.induction with
  | _ p ih =>
    by_cases hlower : ∃ q < p, e ∈ touched md dimension entity_dim primary q
    · obtain ⟨q, hq, he⟩ := hlower
      exact ih q hq he
    · exact ⟨p, mem_entityOwned.mpr ⟨h, fun q hq he => hlower ⟨q, hq, he⟩⟩⟩

theorem owner_unique (hp : e ∈ entityOwned md dimension entity_dim primary p)
    (hq : e ∈ entityOwned md dimension entity_dim primary q) : p = q := by
  obtain ⟨hp, hlow⟩ := mem_entityOwned.mp hp
  obtain ⟨hq, hlow'⟩ := mem_entityOwned.mp hq
  exact le_antisymm (not_lt.mp fun hlt => hlow q hlt hq) (not_lt.mp fun hlt => hlow' p hlt hp)

/-- The entities, held by the ranks that have them in the closure of their cells. -/
def entityHoldings (entity_dim : ℕ) (h : CellPartition md dimension primary) : Holdings n where
  owned := entityOwned md dimension entity_dim primary
  held := entityHeld md dimension entity_dim primary
  owned_subset p e he := by
    obtain ⟨c, hc, hec⟩ := mem_touched.mp (mem_entityOwned.mp he).1
    exact mem_entityHeld.mpr ⟨c, h.mem_closure.mpr ⟨h.valid p c hc, .inl hc⟩, hec⟩
  disjoint _ _ _ := owner_unique
  covered p e he := by
    obtain ⟨c, hc, hec⟩ := mem_entityHeld.mp he
    obtain ⟨q, hq⟩ := h.covered c (h.mem_closure.mp hc).1
    exact exists_owner (mem_touched.mpr ⟨c, hq, hec⟩)

end

-- ---------------------------------------------------------------------------
-- The cells around an entity
-- ---------------------------------------------------------------------------

section
variable {md : MeshDefinition} {dimension entity_dim : ℕ} {primary : Fin n → Finset ℕ}
  (h : CellPartition md dimension primary)
include h

theorem remote_info_map_some (hq : q ≠ p) (hc : c ∈ primary q) (hall : c ∈ all_neighbors md dimension (primary p)) :
    (cellInfo md dimension primary p).remote_info_map c = some ⟨c, q, position (primary q) c, {0}⟩ :=
  KeyedSet.find_eq_some.mpr ⟨((h.answered _).remote p _).mpr ⟨q, hq, c, hall, hc, rfl⟩, rfl⟩

theorem remote_info_map_none (hc : c ∈ primary p) : (cellInfo md dimension primary p).remote_info_map c = none := by
  refine KeyedSet.find_eq_none.mpr fun e he hid => ?_
  obtain ⟨q, hq, x, -, hx, rfl⟩ := ((h.answered _).remote p e).mp he
  obtain rfl : x = c := hid
  exact hq (h.disjoint q p x hx hc)

theorem shared_cells_map_some {e : EntityInfo}
    (he : (cellInfo md dimension primary p).shared_cells_map c = some e) : e = (cellHoldings h).entry p c := by
  have hid : e.id = c := of_decide_eq_true (List.find?_some (p := fun e : EntityInfo => decide (e.id = c)) he)
  obtain ⟨x, -, -, rfl⟩ := (h.colors.shared p e).mp (List.mem_of_find?_eq_some he)
  obtain rfl : x = c := hid
  rfl

theorem shared_cells_map_entry (hc : c ∈ primary p) (husers : (cellHoldings h).users p c ≠ ∅) :
    (cellInfo md dimension primary p).shared_cells_map c = some ((cellHoldings h).entry p c) := by
  have hmem := (h.colors.shared p _).mpr ⟨c, hc, husers, rfl⟩
  cases hfind : (cellInfo md dimension primary p).shared_cells_map c with
  | some e => exact congrArg some (shared_cells_map_some h hfind)
  | none => exact absurd (decide_eq_true rfl) (List.find?_eq_none.mp hfind _ hmem)

/-- All cells that reference an entity of the closure are a rank's own or among the neighbors it
knows the owners of. -/
theorem referencer_known (hm : EntityMesh md dimension entity_dim)
    (he : e ∈ entityHeld md dimension entity_dim primary p) (hc : c < md.num_entities dimension)
    (hec : e ∈ md.entities dimension entity_dim c) (hp : c ∉ primary p) :
    c ∈ all_neighbors md dimension (primary p) := by
  obtain ⟨c', hc', hec'⟩ := mem_entityHeld.mp he
  have hvalid := (h.mem_closure.mp hc').1
  have hadj := hm.adjacent c' hvalid c hc e hec' hec
  by_cases hclosure : c ∈ neighborhood md dimension (primary p)
  · exact Finset.mem_union_left _ (Finset.mem_sdiff.mpr ⟨hclosure, hp⟩)
  · refine Finset.mem_union_right _ (Finset.mem_sdiff.mpr ⟨?_, hclosure⟩)
    rw [mem_neighborhood h.nodup fun i hi => h.nearest_valid p hi]
    refine .inr ⟨hc, c', Finset.mem_sdiff.mpr ⟨hc', fun hown => hclosure ?_⟩, hadj⟩
    exact h.mem_closure.mpr ⟨hc, .inr ⟨c', hown, hadj⟩⟩

theorem visitReferencer_fst (hm : EntityMesh md dimension entity_dim)
    (he : e ∈ entityHeld md dimension entity_dim primary p) (hc : c ∈ entityReferencers dimension entity_dim md e)
    (hq : c ∈ primary q) (s : ℕ × Finset ℕ) :
    (visitReferencer p (cellInfo md dimension primary p) s c).1 = min s.1 q := by
  obtain ⟨hc, hec⟩ := mem_entityReferencers.mp hc
  unfold visitReferencer
  by_cases hqp : q = p
  · subst hqp
    rw [remote_info_map_none h hq]
  · have hnot : c ∉ primary p := fun hp => hqp (h.disjoint q p c hq hp)
    rw [remote_info_map_some h hqp hq (referencer_known h hm he hc hec hnot)]

end

theorem foldl_min_eq {f : ℕ → ℕ} {l : List ℕ} {m x : ℕ} (hle : ∀ c ∈ l, x ≤ f c) (hm : x ≤ m)
    (hex : m = x ∨ ∃ c ∈ l, f c = x) : l.foldl (fun m c => min m (f c)) m = x := by
  induction l generalizing m with
  | nil => simpa using hex
  | cons c l ih =>
    have hc := hle c List.mem_cons_self
    refine ih (fun c' hc' => hle c' (List.mem_cons_of_mem _ hc')) (le_min hm hc) ?_
    rcases hex with rfl | ⟨c', hc', rfl⟩
    · exact .inl (min_eq_left hc)
    · rcases List.mem_cons.mp hc' with rfl | hc'
      · exact .inl (min_eq_right hm)
      · exact .inr ⟨c', hc', rfl⟩

/-- The ranks one cell adds to those that share an entity. -/
def Shares (cells : CellInfo) (c r : ℕ) : Prop :=
  (∃ e, cells.remote_info_map c = some e ∧ e.rank = r) ∨
  (∃ e, cells.remote_info_map c = none ∧ cells.shared_cells_map c = some e ∧ r ∈ e.shared) ∨
  ∃ ci ∈ cells.closure_intersection_map, c ∈ ci.2 ∧ ci.1 = r

theorem mem_visitReferencer {rank : ℕ} {cells : CellInfo} {s : ℕ × Finset ℕ} {c r : ℕ} :
    r ∈ (visitReferencer rank cells s c).2 ↔ r ∈ s.2 ∨ Shares cells c r := by
  have hpass : ∀ (shared : Finset ℕ) (ci : ℕ × Finset ℕ) (r : ℕ), r ∈ (if c ∈ ci.2 then insert ci.1 shared else shared) ↔
      r ∈ shared ∨ c ∈ ci.2 ∧ ci.1 = r := by
    intro shared ci r
    split_ifs with hc
    · simp [hc, or_comm, eq_comm]
    · simp [hc]
  unfold visitReferencer Shares
  cases hremote : cells.remote_info_map c with
  | some e =>
    simp only [SetLoops.mem_foldl hpass]
    simp [or_assoc, or_left_comm, eq_comm]
  | none =>
    cases hshared : cells.shared_cells_map c with
    | some e => simp [SetLoops.mem_foldl hpass, or_assoc]
    | none => simp [SetLoops.mem_foldl hpass]

theorem mem_foldl_visitReferencer {rank : ℕ} {cells : CellInfo} {l : List ℕ} {s : ℕ × Finset ℕ} {r : ℕ} :
    r ∈ (l.foldl (visitReferencer rank cells) s).2 ↔ r ∈ s.2 ∨ ∃ c ∈ l, Shares cells c r := by
  induction l generalizing s with
  | nil => simp
  | cons c l ih => simp [ih, mem_visitReferencer, or_assoc]

section
variable {md : MeshDefinition} {dimension entity_dim : ℕ} {primary : Fin n → Finset ℕ}
  (h : CellPartition md dimension primary) (hm : EntityMesh md dimension entity_dim)
include h hm

/-- Every rank that sees an entity finds its owner. -/
theorem visitReferencers_fst (he : e ∈ entityHeld md dimension entity_dim primary p)
    (ho : e ∈ entityOwned md dimension entity_dim primary o) :
    (visitReferencers md dimension entity_dim p (cellInfo md dimension primary p) e).1 = o := by
  obtain ⟨htouched, hlow⟩ := mem_entityOwned.mp ho
  have howner : ∀ c : ℕ, ∃ q : ℕ, ∀ r : Fin n, c ∈ primary r → (r : ℕ) = q := by
    intro c
    by_cases hc : ∃ r, c ∈ primary r
    · obtain ⟨r, hr⟩ := hc
      exact ⟨r, fun r' hr' => congrArg Fin.val (h.disjoint r' r c hr' hr)⟩
    · exact ⟨0, fun r hr => absurd ⟨r, hr⟩ hc⟩
  choose f hf using howner
  have hrank : ∀ c ∈ entityReferencers dimension entity_dim md e, ∃ q : Fin n, c ∈ primary q ∧ f c = q := by
    intro c hc
    obtain ⟨q, hq⟩ := h.covered c (mem_entityReferencers.mp hc).1
    exact ⟨q, hq, (hf c q hq).symm⟩
  have hloop : ∀ (l : List ℕ) (s : ℕ × Finset ℕ), (∀ c ∈ l, c ∈ entityReferencers dimension entity_dim md e) →
      (l.foldl (visitReferencer p (cellInfo md dimension primary p)) s).1 = l.foldl (fun m c => min m (f c)) s.1 := by
    intro l
    induction l with
    | nil => exact fun _ _ => rfl
    | cons c l ih =>
      intro s hl
      obtain ⟨q, hq, hfc⟩ := hrank c (hl c List.mem_cons_self)
      rw [List.foldl_cons, ih _ fun c' hc' => hl c' (List.mem_cons_of_mem _ hc'),
        visitReferencer_fst h hm he (hl c List.mem_cons_self) hq, List.foldl_cons, hfc]
  rw [visitReferencers, hloop _ _ fun c hc => (Finset.mem_sort _).mp hc]
  refine foldl_min_eq (fun c hc => ?_) ?_ (.inr ?_)
  · have hc := (Finset.mem_sort _).mp hc
    obtain ⟨q, hq, hfc⟩ := hrank c hc
    rw [hfc]
    exact Fin.val_le_of_le (not_lt.mp fun hlt =>
      hlow q hlt (mem_touched.mpr ⟨c, hq, (mem_entityReferencers.mp hc).2⟩))
  · have hn := h.ranks
    have ho := o.isLt
    simp only [sizeMax]
    omega
  · obtain ⟨c, hc, hec⟩ := mem_touched.mp htouched
    exact ⟨c, (Finset.mem_sort _).mpr (mem_entityReferencers.mpr ⟨h.valid o c hc, hec⟩), (hf c o hc).symm⟩

/-- The owner finds the other ranks that have an entity in the closure of their cells. -/
theorem visitReferencers_snd (ho : e ∈ entityOwned md dimension entity_dim primary p) :
    (visitReferencers md dimension entity_dim p (cellInfo md dimension primary p) e).2 =
      (entityHoldings entity_dim h).users p e := by
  have he := (entityHoldings entity_dim h).owned_subset p ho
  obtain ⟨c₀, hc₀, hec₀⟩ := mem_touched.mp (mem_entityOwned.mp ho).1
  have hmax : ∀ q, sizeMax ∉ nearest_neighbors md dimension (primary q) := fun q =>
    h.max_notMem fun c hc => h.nearest_valid q hc
  have hholds : ∀ {q : Fin n} {c : ℕ}, c ∈ neighborhood md dimension (primary q) →
      e ∈ md.entities dimension entity_dim c → e ∈ (entityHoldings entity_dim h).held q :=
    fun hc hec => mem_entityHeld.mpr ⟨_, hc, hec⟩
  ext r
  rw [visitReferencers, mem_foldl_visitReferencer, Holdings.mem_users]
  simp only [Finset.notMem_empty, false_or, Finset.mem_sort]
  constructor
  · rintro ⟨c, hc, hshares⟩
    obtain ⟨hvalid, hec⟩ := mem_entityReferencers.mp hc
    obtain ⟨e', hremote, rfl⟩ | ⟨e', hremote, hshared, hr⟩ | ⟨ci, hci, hc, rfl⟩ := hshares
    · obtain ⟨hmem, rfl⟩ := KeyedSet.find_eq_some.mp hremote
      obtain ⟨q, hq, x, -, hx, rfl⟩ := ((h.answered _).remote p e').mp hmem
      exact ⟨q, hq, hholds (h.mem_closure.mpr ⟨hvalid, .inl hx⟩) hec, rfl⟩
    · obtain rfl := shared_cells_map_some h hshared
      obtain ⟨q, hq, hheld, rfl⟩ := Holdings.mem_users.mp hr
      exact ⟨q, hq, hholds hheld hec, rfl⟩
    · obtain ⟨q, hq, rfl, -⟩ := (mem_intersection_info hmax).mp hci
      exact ⟨q, hq, hholds (Finset.mem_sdiff.mp (Finset.mem_inter.mp hc).1).1 hec, rfl⟩
  · rintro ⟨q, hq, hheld, rfl⟩
    obtain ⟨c, hc, hec⟩ := mem_entityHeld.mp hheld
    have hvalid := (h.mem_closure.mp hc).1
    refine ⟨c, mem_entityReferencers.mpr ⟨hvalid, hec⟩, ?_⟩
    by_cases hown : c ∈ primary q
    · have hnot : c ∉ primary p := fun hp => hq (h.disjoint q p c hown hp)
      exact .inl ⟨_, remote_info_map_some h hq hown (referencer_known h hm he hvalid hec hnot), rfl⟩
    · by_cases hmine : c ∈ primary p
      · have huser : (q : ℕ) ∈ (cellHoldings h).users p c := Holdings.mem_users.mpr ⟨q, hq, hc, rfl⟩
        exact .inr (.inl ⟨_, remote_info_map_none h hmine,
          shared_cells_map_entry h hmine (Finset.ne_empty_of_mem huser), huser⟩)
      · -- a cell of a third rank, next to cells of both
        have hadj := hm.adjacent c₀ (h.valid p c₀ hc₀) c hvalid e hec₀ hec
        have hnear : c ∈ nearest_neighbors md dimension (primary p) :=
          Finset.mem_sdiff.mpr ⟨h.mem_closure.mpr ⟨hvalid, .inr ⟨c₀, hc₀, hadj⟩⟩, hmine⟩
        have hboth : c ∈ nearest_neighbors md dimension (primary q) ∩ nearest_neighbors md dimension (primary p) :=
          Finset.mem_inter.mpr ⟨Finset.mem_sdiff.mpr ⟨hc, hown⟩, hnear⟩
        exact .inr (.inr ⟨_, (mem_intersection_info hmax).mpr ⟨q, hq, rfl, ⟨c, hboth⟩⟩, hboth, rfl⟩)

end

-- ---------------------------------------------------------------------------
-- The loop over the entities
-- ---------------------------------------------------------------------------

/-- The loop after the entities of `l`. -/
structure AssignedTo (k : Holdings n) (p : Fin n) (l : List ℕ) (s : Assigned) : Prop where
  offset : s.offset = (l.filter (· ∈ k.owned p)).length
  info : ∀ e, e ∈ s.entity_info.elems ↔ ∃ x ∈ l, x ∈ k.owned p ∧ e = k.entry p x
  length : s.entity_requests.length = n
  requests : ∀ (r : Fin n) (x : ℕ), x ∈ s.entity_requests.getD r ∅ ↔ x ∈ l ∧ x ∈ k.owned r ∧ r ≠ p

section
variable {md : MeshDefinition} {dimension entity_dim : ℕ} {primary : Fin n → Finset ℕ}
  (h : CellPartition md dimension primary) (hm : EntityMesh md dimension entity_dim)
include h hm

theorem EntityMesh.card_owned_le (p : Fin n) : (entityOwned md dimension entity_dim primary p).card ≤ 2 ^ 32 := by
  have hsubset : entityOwned md dimension entity_dim primary p ⊆ Finset.range (2 ^ 32) := by
    intro e he
    obtain ⟨c, hc, hec⟩ := mem_touched.mp (mem_entityOwned.mp he).1
    exact Finset.mem_range.mpr (hm.entities c (h.valid p c hc) e hec)
  exact (Finset.card_le_card hsubset).trans (Finset.card_range _).le

theorem AssignedTo.step {l l' : List ℕ} {s : Assigned} (ha : AssignedTo (entityHoldings entity_dim h) p l s)
    (hsort : ((entityHoldings entity_dim h).held p).sort = l ++ x :: l') :
    AssignedTo (entityHoldings entity_dim h) p (l ++ [x])
      (assignEntity md dimension entity_dim p (cellInfo md dimension primary p) s x) := by
  have hheld : x ∈ (entityHoldings entity_dim h).held p := by
    rw [← Finset.mem_sort (· ≤ ·), hsort]
    simp
  have hnew : x ∉ l := by
    have hnodup := ((entityHoldings entity_dim h).held p).sort_nodup (· ≤ ·)
    rw [hsort] at hnodup
    intro hx
    exact (List.nodup_append.mp hnodup).2.2 x hx x List.mem_cons_self rfl
  obtain ⟨o, ho⟩ := (entityHoldings entity_dim h).covered p x hheld
  have hother : ∀ r, x ∈ (entityHoldings entity_dim h).owned r ↔ r = o := fun r =>
    ⟨fun hr => (entityHoldings entity_dim h).disjoint r o x hr ho, fun hr => hr ▸ ho⟩
  have hmin := visitReferencers_fst h hm hheld ho
  unfold assignEntity
  simp only [hmin, Fin.val_inj]
  split_ifs with hop
  · subst hop
    have hposition : s.offset = position ((entityHoldings entity_dim h).owned o) x := by
      have howned : (entityHoldings entity_dim h).owned o =
          ((entityHoldings entity_dim h).held o).filter (· ∈ (entityHoldings entity_dim h).owned o) := by
        ext y
        rw [Finset.mem_filter]
        exact (and_iff_right_of_imp fun hy => (entityHoldings entity_dim h).owned_subset o hy).symm
      rw [ha.offset]
      have hsplit : ((entityHoldings entity_dim h).owned o).sort =
          l.filter (· ∈ (entityHoldings entity_dim h).owned o) ++
            x :: l'.filter (· ∈ (entityHoldings entity_dim h).owned o) := by
        conv_lhs => rw [howned]
        rw [sort_filter, hsort, List.filter_append, List.filter_cons_of_pos (by simpa using ho)]
      exact (position_of_append hsplit).symm
    have hentry : entityInfo x o s.offset
        (visitReferencers md dimension entity_dim o (cellInfo md dimension primary o) x).2 =
          (entityHoldings entity_dim h).entry o x := by
      rw [visitReferencers_snd h hm ho, hposition]
      exact Holdings.entityInfo_entry h.ranks (EntityMesh.card_owned_le h hm o) ho
    constructor
    · simp [ha.offset, List.filter_append, ho]
    · intro e
      rw [hentry, KeyedSet.mem_insert, ha.info]
      constructor
      · rintro (⟨y, hy, hown, rfl⟩ | ⟨rfl, -⟩)
        · exact ⟨y, List.mem_append_left _ hy, hown, rfl⟩
        · exact ⟨x, by simp, ho, rfl⟩
      · rintro ⟨y, hy, hown, rfl⟩
        rcases List.mem_append.mp hy with hy | hy
        · exact .inl ⟨y, hy, hown, rfl⟩
        · obtain rfl := List.mem_singleton.mp hy
          refine .inr ⟨rfl, fun e he hid => ?_⟩
          obtain ⟨z, hz, -, rfl⟩ := (ha.info e).mp he
          obtain rfl : z = y := hid
          exact hnew hz
    · exact ha.length
    · intro r y
      rw [ha.requests, List.mem_append, List.mem_singleton]
      constructor
      · rintro ⟨hy, hr⟩
        exact ⟨.inl hy, hr⟩
      · rintro ⟨hy | rfl, hr, hne⟩
        · exact ⟨hy, hr, hne⟩
        · exact absurd ((hother r).mp hr) hne
  · constructor
    · have hnot : x ∉ (entityHoldings entity_dim h).owned p := fun hp => hop ((hother p).mp hp).symm
      simp [ha.offset, List.filter_append, hnot]
    · intro e
      rw [ha.info]
      constructor
      · rintro ⟨y, hy, hown, rfl⟩
        exact ⟨y, List.mem_append_left _ hy, hown, rfl⟩
      · rintro ⟨y, hy, hown, rfl⟩
        rcases List.mem_append.mp hy with hy | hy
        · exact ⟨y, hy, hown, rfl⟩
        · obtain rfl := List.mem_singleton.mp hy
          exact absurd ((hother p).mp hown).symm hop
    · rw [List.length_modify]
      exact ha.length
    · intro r y
      rw [mem_getD_modify (ha.length ▸ r.isLt), ha.requests, List.mem_append, List.mem_singleton, Fin.val_inj]
      constructor
      · rintro (⟨hy, hr⟩ | ⟨rfl, rfl⟩)
        · exact ⟨.inl hy, hr⟩
        · exact ⟨.inr rfl, ho, hop⟩
      · rintro ⟨hy | rfl, hr, hne⟩
        · exact .inl ⟨hy, hr, hne⟩
        · exact .inr ⟨((hother r).mp hr).symm, rfl⟩

theorem assigned_spec (p : Fin n) : AssignedTo (entityHoldings entity_dim h) p
    ((entityHoldings entity_dim h).held p).sort (assigned md dimension entity_dim primary p) := by
  have hrun : ∀ l l' : List ℕ, ((entityHoldings entity_dim h).held p).sort = l ++ l' →
      AssignedTo (entityHoldings entity_dim h) p l
        (l.foldl (assignEntity md dimension entity_dim p (cellInfo md dimension primary p))
          ⟨0, KeyedSet.empty _, List.replicate n ∅⟩) := by
    intro l
    induction l using List.reverseRecOn with
    | nil =>
      intro l' _
      refine ⟨rfl, by simp, by simp, fun r x => ?_⟩
      simp
    | append_singleton l x ih =>
      intro l' hl
      rw [List.append_assoc, List.singleton_append] at hl
      rw [List.foldl_append]
      exact (ih (x :: l') hl).step h hm hl
  exact hrun _ [] (List.append_nil _).symm

/-- The offset of a requested entity at its owner. -/
theorem offsetOf_assigned (hx : x ∈ entityOwned md dimension entity_dim primary r) :
    offsetOf (assigned md dimension entity_dim primary r).entity_info x =
      position (entityOwned md dimension entity_dim primary r) x := by
  have hfind : (assigned md dimension entity_dim primary r).entity_info.find x =
      some ((entityHoldings entity_dim h).entry r x) := by
    refine KeyedSet.find_eq_some.mpr ⟨((assigned_spec h hm r).info _).mpr ⟨x, ?_, hx, rfl⟩, rfl⟩
    exact (Finset.mem_sort _).mpr ((entityHoldings entity_dim h).owned_subset r hx)
  rw [offsetOf, hfind]
  rfl

theorem mem_entity_info : e ∈ (assigned md dimension entity_dim primary p).entity_info.elems ↔
    ∃ x ∈ (entityHoldings entity_dim h).owned p, e = (entityHoldings entity_dim h).entry p x := by
  rw [(assigned_spec h hm p).info]
  refine exists_congr fun x => ?_
  rw [Finset.mem_sort]
  exact and_iff_right_of_imp fun hx => (entityHoldings entity_dim h).owned_subset p hx.1

theorem entityInfo_ghost {q : Fin n} (hx : x ∈ (entityHoldings entity_dim h).owned q) :
    entityInfo x q (position ((entityHoldings entity_dim h).owned q) x) ∅ =
      ⟨x, q, position ((entityHoldings entity_dim h).owned q) x, ∅⟩ := by
  have hlt := (position_lt hx).trans_le (EntityMesh.card_owned_le h hm q)
  have hn := h.ranks
  rw [entityInfo, toIndices_of_lt (by omega), toIndices_of_lt hlt, Finset.image_empty]

end

-- ---------------------------------------------------------------------------
-- The loops over the results
-- ---------------------------------------------------------------------------

theorem foldl_colorOwn (l : List EntityInfo) (s : IndexColoring × ColoringInfo) :
    (∀ e, e ∈ (l.foldl colorOwn s).1.exclusive ↔ e ∈ s.1.exclusive ∨ e ∈ l ∧ e.shared = ∅) ∧
    (∀ e, e ∈ (l.foldl colorOwn s).1.shared ↔ e ∈ s.1.shared ∨ e ∈ l ∧ e.shared ≠ ∅) ∧
    (∀ r, r ∈ (l.foldl colorOwn s).2.sharedUsers ↔ r ∈ s.2.sharedUsers ∨ ∃ e ∈ l, r ∈ e.shared) := by
  induction l generalizing s with
  | nil => simp
  | cons i l ih =>
    obtain ⟨hexclusive, hshared, husers⟩ := ih (colorOwn s i)
    rw [List.foldl_cons]
    have hown : ∀ e, (e = i ∧ e.shared = ∅ ↔ e = i ∧ i.shared = ∅) ∧ (e = i ∧ e.shared ≠ ∅ ↔ e = i ∧ i.shared ≠ ∅) :=
      fun e => ⟨and_congr_right fun he => by rw [he], and_congr_right fun he => by rw [he]⟩
    refine ⟨fun e => ?_, fun e => ?_, fun r => ?_⟩
    · rw [hexclusive, List.mem_cons, or_and_right, (hown e).1]
      by_cases hi : i.shared = ∅
      · simp [colorOwn, hi, or_assoc]
      · simp [colorOwn, hi]
    · rw [hshared, List.mem_cons, or_and_right, (hown e).2]
      by_cases hi : i.shared = ∅
      · simp [colorOwn, hi]
      · simp [colorOwn, hi, or_assoc]
    · rw [husers]
      by_cases hi : i.shared = ∅
      · simp [colorOwn, hi]
      · simp [colorOwn, hi, or_assoc]

/-- What is collected from one rank. -/
def ghostsOf (r : ℕ) (f : ℕ → ℕ) (l : List ℕ) (s : List EntityInfo × Finset ℕ) : List EntityInfo × Finset ℕ :=
  (s.1 ++ l.map fun x => entityInfo x r (f x) ∅, l.foldl (fun owners _ => insert r owners) s.2)

theorem foldlM_colorGhost (r : ℕ) (f : ℕ → ℕ) (l done : List ℕ) (s : List EntityInfo × Finset ℕ) :
    l.foldlM (colorGhost r ((done ++ l).map f)) (s, done.length) =
      some (ghostsOf r f l s, (done ++ l).length) := by
  induction l generalizing done s with
  | nil => simp [ghostsOf]
  | cons x l ih =>
    have hstep : colorGhost r ((done ++ x :: l).map f) (s, done.length) x =
        some (ghostsOf r f [x] s, (done ++ [x]).length) := by
      simp [colorGhost, ghostsOf]
    rw [List.foldlM_cons, hstep]
    have hrest := ih (done ++ [x]) (ghostsOf r f [x] s)
    rw [List.append_assoc, List.singleton_append] at hrest
    refine hrest.trans ?_
    simp [ghostsOf]

/-- When the offsets are those of the requested entities in order, every entity gets its own. -/
theorem colorGhosts_eq {requests : List (Finset ℕ)} {offsets : ℕ → Finset ℕ} {r : ℕ} {f : ℕ → ℕ}
    (h : (offsets r).sort = (requests.getD r ∅).sort.map f) (s : List EntityInfo × Finset ℕ) :
    colorGhosts requests offsets s r = some (ghostsOf r f (requests.getD r ∅).sort s) := by
  have hloop := foldlM_colorGhost r f (requests.getD r ∅).sort [] s
  rw [List.nil_append, List.length_nil] at hloop
  rw [colorGhosts, h, hloop]
  rfl

theorem mem_ghostsOf_snd {r : ℕ} {f : ℕ → ℕ} {l : List ℕ} {s : List EntityInfo × Finset ℕ} {y : ℕ} :
    y ∈ (ghostsOf r f l s).2 ↔ y ∈ s.2 ∨ r = y ∧ l ≠ [] := by
  have hloop : ∀ (l : List ℕ) (s : Finset ℕ), y ∈ l.foldl (fun owners _ => insert r owners) s ↔
      y ∈ s ∨ r = y ∧ l ≠ [] := by
    intro l s
    rw [SetLoops.mem_foldl_insert fun _ => r]
    cases l with
    | nil => simp
    | cons x l => simp [eq_comm]
  exact hloop l s.2

/-- The ghosts of all ranks. -/
theorem foldlM_colorGhosts {requests : List (Finset ℕ)} {offsets : ℕ → Finset ℕ} {f : ℕ → ℕ → ℕ} {l : List ℕ}
    (h : ∀ r ∈ l, (offsets r).sort = (requests.getD r ∅).sort.map (f r)) (s : List EntityInfo × Finset ℕ) :
    ∃ t, l.foldlM (colorGhosts requests offsets) s = some t ∧
      (∀ e, e ∈ t.1 ↔ e ∈ s.1 ∨ ∃ r ∈ l, ∃ x ∈ requests.getD r ∅, entityInfo x r (f r x) ∅ = e) ∧
      ∀ y, y ∈ t.2 ↔ y ∈ s.2 ∨ ∃ r ∈ l, r = y ∧ requests.getD r ∅ ≠ ∅ := by
  induction l generalizing s with
  | nil => exact ⟨s, rfl, by simp⟩
  | cons r l ih =>
    obtain ⟨t, ht, hghosts, howners⟩ := ih (fun r' hr' => h r' (List.mem_cons_of_mem _ hr'))
      (ghostsOf r (f r) (requests.getD r ∅).sort s)
    refine ⟨t, ?_, fun e => ?_, fun y => ?_⟩
    · rw [List.foldlM_cons, colorGhosts_eq (h r List.mem_cons_self)]
      exact ht
    · rw [hghosts]
      simp [ghostsOf, or_assoc]
    · have hnil : (requests.getD r ∅).sort = [] ↔ requests.getD r ∅ = ∅ := by
        rw [← List.length_eq_zero_iff, Finset.length_sort, Finset.card_eq_zero]
      rw [howners, mem_ghostsOf_snd, ne_eq, hnil]
      simp only [or_assoc, List.mem_cons, or_and_right, exists_or, exists_eq_left, ne_eq]

-- ---------------------------------------------------------------------------
-- The coloring
-- ---------------------------------------------------------------------------

section
variable {md : MeshDefinition} {dimension entity_dim : ℕ} {primary : Fin n → Finset ℕ}
  (h : CellPartition md dimension primary) (hm : EntityMesh md dimension entity_dim)
  {s : State n ℕ} (hs : (entityRequests md dimension entity_dim primary).Inv s) (hfinal : s.Final)
include h hm hs hfinal

/-- The answers of a rank, in order, are the positions of what it was asked for, in order. -/
theorem sort_remoteOffsets (p r : Fin n) :
    (remoteOffsets (fun p => (assigned md dimension entity_dim primary p).entity_requests) s p r).sort =
      ((assigned md dimension entity_dim primary p).entity_requests.getD r ∅).sort.map
        (position (entityOwned md dimension entity_dim primary r)) := by
  have hsubset : (assigned md dimension entity_dim primary p).entity_requests.getD r ∅ ⊆
      entityOwned md dimension entity_dim primary r := fun x hx =>
    (((assigned_spec h hm p).requests r x).mp hx).2.1
  rw [remoteOffsets_eq hs hfinal, ← sort_image_position hsubset]
  congr 1
  exact Finset.image_congr fun x hx => offsetOf_assigned h hm (hsubset hx)

/-- The ghosts a rank collects when the messages have arrived. -/
theorem exists_ghosts (p : Fin n) : ∃ t, (List.range (assigned md dimension entity_dim primary p).entity_requests.length).foldlM
    (colorGhosts (assigned md dimension entity_dim primary p).entity_requests fun r => if hr : r < n then
      remoteOffsets (fun p => (assigned md dimension entity_dim primary p).entity_requests) s p ⟨r, hr⟩ else ∅)
      ([], ∅) = some t ∧
    (∀ e, e ∈ t.1 ↔ ∃ q, q ≠ p ∧ ∃ x ∈ (entityHoldings entity_dim h).held p,
      x ∈ (entityHoldings entity_dim h).owned q ∧
        e = ⟨x, q, position ((entityHoldings entity_dim h).owned q) x, ∅⟩) ∧
    ∀ r, r ∈ t.2 ↔ ∃ e ∈ t.1, e.rank = r := by
  have hspec := assigned_spec h hm p
  have hoffsets : ∀ r ∈ List.range (assigned md dimension entity_dim primary p).entity_requests.length,
      (if hr : r < n then remoteOffsets
        (fun p => (assigned md dimension entity_dim primary p).entity_requests) s p ⟨r, hr⟩ else ∅).sort =
        ((assigned md dimension entity_dim primary p).entity_requests.getD r ∅).sort.map fun x => if hr : r < n then
          position (entityOwned md dimension entity_dim primary ⟨r, hr⟩) x else 0 := by
    intro r hr
    rw [List.mem_range, hspec.length] at hr
    simp only [hr, ↓reduceDIte]
    exact sort_remoteOffsets h hm hs hfinal p ⟨r, hr⟩
  obtain ⟨t, ht, hghosts, howners⟩ := foldlM_colorGhosts hoffsets ([], ∅)
  have hghost : ∀ e, e ∈ t.1 ↔ ∃ q, q ≠ p ∧ ∃ x ∈ (entityHoldings entity_dim h).held p,
      x ∈ (entityHoldings entity_dim h).owned q ∧
        e = ⟨x, q, position ((entityHoldings entity_dim h).owned q) x, ∅⟩ := by
    intro e
    rw [hghosts]
    simp only [List.not_mem_nil, false_or, List.mem_range, hspec.length]
    constructor
    · rintro ⟨r, hr, x, hx, rfl⟩
      obtain ⟨hheld, howned, hne⟩ := (hspec.requests ⟨r, hr⟩ x).mp hx
      refine ⟨⟨r, hr⟩, hne, x, (Finset.mem_sort _).mp hheld, howned, ?_⟩
      simp only [hr, ↓reduceDIte]
      exact entityInfo_ghost h hm howned
    · rintro ⟨q, hne, x, hheld, howned, rfl⟩
      refine ⟨q, q.isLt, x, (hspec.requests q x).mpr ⟨(Finset.mem_sort _).mpr hheld, howned, hne⟩, ?_⟩
      simp only [q.isLt, ↓reduceDIte]
      exact entityInfo_ghost h hm howned
  refine ⟨t, ht, hghost, fun r => ?_⟩
  rw [howners]
  simp only [Finset.notMem_empty, false_or, List.mem_range, hspec.length]
  constructor
  · rintro ⟨r, hr, rfl, hne⟩
    obtain ⟨x, hx⟩ := Finset.nonempty_iff_ne_empty.mpr hne
    obtain ⟨hheld, howned, hne⟩ := (hspec.requests ⟨r, hr⟩ x).mp hx
    exact ⟨_, (hghost _).mpr ⟨⟨r, hr⟩, hne, x, (Finset.mem_sort _).mp hheld, howned, rfl⟩, rfl⟩
  · rintro ⟨e, he, rfl⟩
    obtain ⟨q, hne, x, hheld, howned, rfl⟩ := (hghost e).mp he
    have hmem := (hspec.requests q x).mpr ⟨(Finset.mem_sort _).mpr hheld, howned, hne⟩
    exact ⟨q, q.isLt, rfl, Finset.ne_empty_of_mem hmem⟩

/-- What the ranks have when the messages have arrived. -/
theorem exists_color_entity : ∃ out : Fin n → IndexColoring × ColoringInfo,
    (∀ p, color_entity md dimension entity_dim primary s p = some (out p)) ∧
    (entityHoldings entity_dim h).Colors ∅ (fun p => (out p).1) ∧ ∀ p, Summarizes (out p).1 (out p).2 := by
  choose t ht hghost howners using exists_ghosts h hm hs hfinal
  have hown := fun p => foldl_colorOwn (assigned md dimension entity_dim primary p).entity_info.elems
    (noColoring, noColoringInfo)
  have hcolors := @Holdings.colors_removeUnique _ (entityHoldings entity_dim h) ∅ (fun p =>
    { ((assigned md dimension entity_dim primary p).entity_info.elems.foldl colorOwn
      (noColoring, noColoringInfo)).1 with ghost := (t p).1 }) (fun p e => ?_) (fun p e => ?_) hghost
  · refine ⟨fun p => finishColoring { ((assigned md dimension entity_dim primary p).entity_info.elems.foldl colorOwn
      (noColoring, noColoringInfo)).1 with ghost := (t p).1 } ((assigned md dimension entity_dim primary
        p).entity_info.elems.foldl colorOwn (noColoring, noColoringInfo)).2.sharedUsers (t p).2,
      fun p => ?_, hcolors, fun p => ⟨rfl, rfl, rfl, fun r => ?_, fun r => ?_⟩⟩
    · simp only [color_entity, colorEntities, ht p]
      rfl
    · refine ((hown p).2.2 r).trans ?_
      rw [or_iff_right (by simp [noColoringInfo])]
      constructor
      · rintro ⟨e, he, hr⟩
        exact ⟨e, Holdings.mem_removeUniqueEntities.mpr
          (((hown p).2.1 e).mpr (.inr ⟨he, Finset.ne_empty_of_mem hr⟩)), hr⟩
      · rintro ⟨e, he, hr⟩
        have hmem := ((hown p).2.1 e).mp (Holdings.mem_removeUniqueEntities.mp he)
        exact ⟨e, (hmem.resolve_left (by simp [noColoring])).1, hr⟩
    · refine (howners p r).trans (exists_congr fun e => and_congr_left fun _ => ?_)
      exact Holdings.mem_removeUniqueEntities.symm
  · refine ((hown p).1 e).trans ?_
    rw [or_iff_right (by simp [noColoring]), mem_entity_info h hm]
    constructor
    · rintro ⟨⟨x, hx, rfl⟩, hnone⟩
      exact ⟨x, hx, hnone, rfl⟩
    · rintro ⟨x, hx, hnone, rfl⟩
      exact ⟨⟨x, hx, rfl⟩, hnone⟩
  · refine ((hown p).2.1 e).trans ?_
    rw [or_iff_right (by simp [noColoring]), mem_entity_info h hm]
    constructor
    · rintro ⟨⟨x, hx, rfl⟩, hsome⟩
      exact ⟨x, hx, hsome, rfl⟩
    · rintro ⟨x, hx, hsome, rfl⟩
      exact ⟨⟨x, hx, rfl⟩, hsome⟩

end

/-- The entity colorings of all ranks are dual, in every run: each entity belongs to the lowest rank
that has a cell with it, the other ranks that have it in the closure of their cells list it as a
ghost with the owner's position, and are the users the owner lists. -/
theorem color_entity_dual {md : MeshDefinition} {dimension entity_dim : ℕ} {primary : Fin n → Finset ℕ}
    (h : CellPartition md dimension primary) (hm : EntityMesh md dimension entity_dim)
    (buffered : State n ℕ → Fin n → Fin n → Prop) :
    (∀ run : ℕ → State n ℕ,
      ¬∀ i, (entityRequests md dimension entity_dim primary).Step buffered (run i) (run (i + 1))) ∧
    ∀ s, ReflTransGen ((entityRequests md dimension entity_dim primary).Step buffered) .initial s →
      (s.Final ∨ ∃ t, (entityRequests md dimension entity_dim primary).Step buffered s t) ∧
      (s.Final → ∃ out : Fin n → IndexColoring × ColoringInfo,
        (∀ p, color_entity md dimension entity_dim primary s p = some (out p)) ∧
        (entityHoldings entity_dim h).Colors ∅ (fun p => (out p).1) ∧
        DualColoring (fun p => (out p).1) ∧ ∀ p, Summarizes (out p).1 (out p).2) := by
  obtain ⟨hruns, hreachable⟩ := get_entity_info_offsets
    (fun p => (assigned md dimension entity_dim primary p).entity_info)
    (fun p => (assigned md dimension entity_dim primary p).entity_requests) buffered
  refine ⟨hruns, fun s hs => ⟨(hreachable s hs).1, fun hfinal => ?_⟩⟩
  obtain ⟨out, hout, hcolors, hsummary⟩ :=
    exists_color_entity h hm (Protocol.inv_reachable entityProtocol_counted hs) hfinal
  have hn := h.ranks
  exact ⟨out, hout, hcolors, hcolors.dual (by omega) (EntityMesh.card_owned_le h hm) (by simp), hsummary⟩

theorem EntityMesh.vertices {md : MeshDefinition} {dimension : ℕ}
    (h : ∀ c < md.num_entities dimension, ∀ v ∈ md.entities dimension 0 c, v < 2 ^ 32) : EntityMesh md dimension 0 where
  adjacent _ _ _ _ v hv hv' := ⟨v, hv, hv'⟩
  entities := h

/-- Two triangles of two ranks: the vertices of both are the first rank's. -/
theorem color_entity_dual_triangles :
    (∀ run : ℕ → State 2 ℕ, ¬∀ i, (entityRequests twoTriangles 2 0 oneEach).Step (fun _ _ _ => False)
      (run i) (run (i + 1))) ∧
    ∀ s, ReflTransGen ((entityRequests twoTriangles 2 0 oneEach).Step fun _ _ _ => False) .initial s →
      (s.Final ∨ ∃ t, (entityRequests twoTriangles 2 0 oneEach).Step (fun _ _ _ => False) s t) ∧
      (s.Final → ∃ out : Fin 2 → IndexColoring × ColoringInfo,
        (∀ p, color_entity twoTriangles 2 0 oneEach s p = some (out p)) ∧
        (entityHoldings 0 twoTriangles_partition).Colors ∅ (fun p => (out p).1) ∧
        DualColoring (fun p => (out p).1) ∧ ∀ p, Summarizes (out p).1 (out p).2) :=
  color_entity_dual twoTriangles_partition (EntityMesh.vertices (by decide)) fun _ _ _ => False

end Flecsi.Supplemental
