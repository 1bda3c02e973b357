import Flecsi.Lib.Reorder
import Flecsi.Topology.Intersect

/-!
# Built entities

`build_connectivity` makes the entities of a dimension from what the cells say
they consist of. Cells name an entity by its vertices; a map from sorted
vertices to ids keeps two cells from making the same entity twice. With an
intermediate map the ids come from the coloring in any order, and the table of
vertices is reordered behind the loop.
-/

namespace Flecsi.Topology

open Reorder SortedMerge PackedBuffer

/-- What a specialization of the mesh brings along. -/
structure MeshType where
  num_dimensions : ℕ
  /-- The numbers of vertices of the entities, and the vertices one after
  another as they are written to the buffer. -/
  create_entities : (cell_dim cell dim : ℕ) → (dc : ℕ → ℕ → Connectivity) → List ℕ × List ℕ
  create_entity : MeshTopology → (dom dim num_vertices id : ℕ) → MeshTopology

/-- The maps of the context that number the entities of a color. They are maps
from global to local ids, and from sorted vertices to global ids. -/
structure MeshContext where
  reverse_index_map : (dim dom : ℕ) → List (ℕ × ℕ)
  reverse_intermediate_map : (dim dom : ℕ) → List (List ℕ × ℕ)

/-- `create_entity` makes one entity and does nothing else. -/
structure MeshType.Creates (mesh_type : MeshType) : Prop where
  num_entities : ∀ mesh dom dim m id d dm, (mesh_type.create_entity mesh dom dim m id).num_entities d dm =
    if d = dim ∧ dm = dom then mesh.num_entities d dm + 1 else mesh.num_entities d dm
  connectivity : ∀ mesh dom dim m id, (mesh_type.create_entity mesh dom dim m id).connectivity = mesh.connectivity
  index_map : ∀ mesh dom dim m id, (mesh_type.create_entity mesh dom dim m id).index_map = mesh.index_map

def sortIds (ids : List ℕ) : List ℕ := ids.mergeSort (· ≤ ·)

/-- The steps that look up the local id of an entity by its vertices. -/
def MeshContext.localId (context : MeshContext) (vertex_map : ℕ → ℕ) (dom dim : ℕ) (vertices : List ℕ) : Option ℕ := do
  let vertices_mis := sortIds (vertices.map vertex_map)
  let entity_id_mis ← (context.reverse_intermediate_map dim dom).lookup vertices_mis
  (context.reverse_index_map dim dom).lookup entity_id_mis

def MeshContext.has_intermediate_map (context : MeshContext) (dom dim : ℕ) : Bool :=
  !(context.reverse_intermediate_map dim dom).isEmpty

/-- The id of an entity that is new: from the coloring, if there is an
intermediate map, and otherwise the counter. -/
def MeshContext.entityId (context : MeshContext) (vertex_map : ℕ → ℕ) (dom dim entity_counter : ℕ) (a : List ℕ) :
    Option ℕ :=
  if context.has_intermediate_map dom dim then context.localId vertex_map dom dim a else some entity_counter

/-- The variables of `build_connectivity` that its loops change. -/
structure BuildState where
  entity_vertices_map : List (List ℕ × ℕ)
  cell_entity_conn : List (List ℕ)
  entity_vertex_conn : List (List ℕ)
  entity_ids : List ℕ
  entity_counter : ℕ
  mesh : MeshTopology

section
variable (mesh_type : MeshType) (context : MeshContext) (vertex_map : ℕ → ℕ) (dom using_dim dim : ℕ)

/-- The body of the loop over the entities of the cell `c`, for the one with the
vertices `a`. -/
def buildEntity (c : ℕ) (s : BuildState) (a : List ℕ) : Option BuildState := do
  let ev := sortIds a
  let entity_id ← context.entityId vertex_map dom dim s.entity_counter a
  match s.entity_vertices_map.lookup ev with
  | some id => some { s with cell_entity_conn := s.cell_entity_conn.modify c (· ++ [id]) }
  | none =>
    -- the insertion took place
    some {
      entity_vertices_map := s.entity_vertices_map ++ [(ev, entity_id)]
      cell_entity_conn := s.cell_entity_conn.modify c (· ++ [entity_id])
      entity_vertex_conn := s.entity_vertex_conn ++ [a]
      entity_ids := s.entity_ids ++ [entity_id]
      entity_counter := s.entity_counter + 1
      mesh := mesh_type.create_entity s.mesh dom dim a.length entity_id }

/-- The loop over the entities of a cell, with the position in the buffer. -/
def buildCell (s : BuildState) (c : ℕ) : Option BuildState :=
  if s.cell_entity_conn.length ≤ c then none
  else do
    let (sv, entity_vertices) := mesh_type.create_entities using_dim c dim (s.mesh.connectivity dom dom)
    let (s, _) ← sv.foldlM (fun (p : BuildState × ℕ) m => do
      let s ← buildEntity mesh_type context vertex_map dom dim c p.1 ((entity_vertices.drop p.2).take m)
      some (s, p.2 + m)) (s, 0)
    some s

end

namespace MeshTopology

section
variable (mesh : MeshTopology) (mesh_type : MeshType) (context : MeshContext) (dom dim using_dim : ℕ)

def buildConnectivity : Option MeshTopology :=
  -- "shouldn't be in here"
  if using_dim ≤ 1 ∨ mesh_type.num_dimensions < using_dim then none
  else if (mesh.connectivity dom dom using_dim 0).empty then none
  else do
    let cell_entity_conn := List.replicate (mesh.num_entities using_dim dom) []
    let gis_to_cis := context.reverse_index_map using_dim dom
    let s ← gis_to_cis.foldlM
      (fun s citr => buildCell mesh_type context (mesh.index_map 0 dom) dom using_dim dim s citr.2)
      ⟨[], cell_entity_conn, [], [], 0, mesh⟩
    -- Entities may have been created out of order
    let entity_vertex_conn ←
      (if context.has_intermediate_map dom dim then reorderDestructive s.entity_ids s.entity_vertex_conn
        else some s.entity_vertex_conn : Option (List (List ℕ)))
    some ((s.mesh.setConnectivity dom dom dim 0 (Connectivity.init entity_vertex_conn)).setConnectivity
      dom dom using_dim dim (Connectivity.init s.cell_entity_conn))

end

end MeshTopology

-- ---------------------------------------------------------------------------
-- Keys
-- ---------------------------------------------------------------------------

theorem sortIds_perm (ids : List ℕ) : (sortIds ids).Perm ids := List.mergeSort_perm ids _

theorem sortIds_eq_iff {a b : List ℕ} : sortIds a = sortIds b ↔ a.Perm b := by
  constructor
  · intro h
    exact (sortIds_perm a).symm.trans (h ▸ sortIds_perm b)
  · intro h
    have hperm : (sortIds a).Perm (sortIds b) := (sortIds_perm a).trans (h.trans (sortIds_perm b).symm)
    exact hperm.eq_of_pairwise (fun _ _ _ _ => le_antisymm) (pairwise_sort a) (pairwise_sort b)

theorem localId_congr (context : MeshContext) (vertex_map : ℕ → ℕ) (dom dim : ℕ) {a b : List ℕ} (h : a.Perm b) :
    context.localId vertex_map dom dim a = context.localId vertex_map dom dim b := by
  rw [MeshContext.localId, sortIds_eq_iff.mpr (h.map vertex_map)]
  rfl

section
variable {κ ι : Type*} [BEq κ] [LawfulBEq κ]

theorem lookup_zip {keys : List κ} {ids : List ι} {j : ℕ} (hn : keys.Nodup) (hj : keys[j]? = some k) :
    (keys.zip ids).lookup k = ids[j]? := by
  induction keys generalizing ids j with
  | nil => cases hj
  | cons key keys ih =>
    cases ids with
    | nil => rfl
    | cons id ids =>
      cases j with
      | zero =>
        obtain rfl : key = k := Option.some.inj hj
        exact List.lookup_cons_self
      | succ j =>
        have hne : k ≠ key := fun h => (List.nodup_cons.mp hn).1 (h ▸ List.mem_of_getElem? hj)
        rw [List.zip_cons_cons, List.lookup_cons, beq_false_of_ne hne]
        exact ih (List.nodup_cons.mp hn).2 hj

theorem lookup_zip_eq_none {keys : List κ} {ids : List ι} (h : k ∉ keys) : (keys.zip ids).lookup k = none := by
  refine List.lookup_eq_none_iff.mpr fun p hp => ?_
  have hne : k ≠ p.1 := fun heq => h (heq ▸ (List.of_mem_zip hp).1)
  simpa using hne

end

/-- The entities of a cell, by their vertices. -/
def MeshTopology.vertexLists (mesh : MeshTopology) (mesh_type : MeshType) (dom dim using_dim c : ℕ) : List (List ℕ) :=
  let (sv, entity_vertices) := mesh_type.create_entities using_dim c dim (mesh.connectivity dom dom)
  sv.splitLengths entity_vertices

/-- A loop that takes pieces of a buffer is a loop over the pieces. -/
theorem foldlM_splitLengths {σ : Type} (f : σ → List ℕ → Option σ) (sv e : List ℕ) (pos : ℕ) (s : σ) :
    (sv.foldlM (fun (p : σ × ℕ) m => do
      let s ← f p.1 ((e.drop p.2).take m)
      some (s, p.2 + m)) (s, pos) : Option (σ × ℕ)).map Prod.fst = (sv.splitLengths (e.drop pos)).foldlM f s := by
  induction sv generalizing pos s with
  | nil => rfl
  | cons m sv ih =>
    rw [List.splitLengths_cons, List.foldlM_cons, List.foldlM_cons]
    simp only [Option.bind_eq_bind]
    cases f s ((e.drop pos).take m) with
    | none => rfl
    | some s' =>
      rw [List.drop_drop]
      exact ih (pos + m) s'

-- ---------------------------------------------------------------------------
-- The loops
-- ---------------------------------------------------------------------------

/-- Everything is the same but for `k` more entities of one dimension. -/
structure Grown (mesh mesh' : MeshTopology) (dom dim k : ℕ) : Prop where
  num_entities : ∀ d dm, mesh'.num_entities d dm =
    if d = dim ∧ dm = dom then mesh.num_entities d dm + k else mesh.num_entities d dm
  connectivity : mesh'.connectivity = mesh.connectivity
  index_map : mesh'.index_map = mesh.index_map

theorem Grown.create {mesh_type : MeshType} (hcreates : mesh_type.Creates) {mesh mesh' : MeshTopology} {dom dim k : ℕ}
    (h : Grown mesh mesh' dom dim k) (m id : ℕ) :
    Grown mesh (mesh_type.create_entity mesh' dom dim m id) dom dim (k + 1) where
  num_entities d dm := by
    rw [hcreates.num_entities, h.num_entities]
    split
    · rfl
    · rfl
  connectivity := (hcreates.connectivity ..).trans h.connectivity
  index_map := (hcreates.index_map ..).trans h.index_map

section
variable {mesh_type : MeshType} {context : MeshContext} {vertex_map : ℕ → ℕ} {dom using_dim dim : ℕ}

/-- What the loops have made of the entities that cells asked for. Every list of
vertices, up to order, was given one id. -/
structure Made (context : MeshContext) (vertex_map : ℕ → ℕ) (dom dim : ℕ) (mesh : MeshTopology) (n : ℕ)
    (asked : List (ℕ × List ℕ)) (s : BuildState) : Prop where
  map_eq : s.entity_vertices_map = (s.entity_vertex_conn.map sortIds).zip s.entity_ids
  nodup : (s.entity_vertex_conn.map sortIds).Nodup
  keys : ∀ k, k ∈ s.entity_vertex_conn.map sortIds ↔ k ∈ asked.map (sortIds ·.2)
  origin : ∀ a ∈ s.entity_vertex_conn, ∃ c, (c, a) ∈ asked
  length_ids : s.entity_ids.length = s.entity_vertex_conn.length
  counter : s.entity_counter = s.entity_vertex_conn.length
  ids : ∀ (j : ℕ) a, s.entity_vertex_conn[j]? = some a →
    s.entity_ids[j]? = context.entityId vertex_map dom dim j a
  length_conn : s.cell_entity_conn.length = n
  rows : ∀ c < n, (s.cell_entity_conn.getD c []).map some =
    (itemsFor c asked).map fun a => s.entity_vertices_map.lookup (sortIds a)
  grown : Grown mesh s.mesh dom dim s.entity_vertex_conn.length

/-- An entity that was made has its id in the map. -/
theorem Made.lookup {mesh : MeshTopology} {n : ℕ} {asked : List (ℕ × List ℕ)} {s : BuildState}
    (h : Made context vertex_map dom dim mesh n asked s) {j : ℕ} (hj : s.entity_vertex_conn[j]? = some a) :
    s.entity_vertices_map.lookup (sortIds a) = s.entity_ids[j]? := by
  rw [h.map_eq]
  exact lookup_zip h.nodup (by rw [List.getElem?_map, hj, Option.map_some])

theorem Made.lookup_isSome {mesh : MeshTopology} {n : ℕ} {asked : List (ℕ × List ℕ)} {s : BuildState} {k : List ℕ}
    (h : Made context vertex_map dom dim mesh n asked s) (hk : k ∈ s.entity_vertex_conn.map sortIds) :
    (s.entity_vertices_map.lookup k).isSome := by
  obtain ⟨j, hj⟩ := List.getElem?_of_mem hk
  have hlt := (List.getElem?_eq_some_iff.mp hj).1
  rw [List.length_map, ← h.length_ids] at hlt
  rw [h.map_eq, lookup_zip h.nodup hj, List.getElem?_eq_getElem hlt]
  rfl

theorem itemsFor_concat (c c' : ℕ) (asked : List (ℕ × List ℕ)) (a : List ℕ) :
    itemsFor c' (asked ++ [(c, a)]) = itemsFor c' asked ++ if c = c' then [a] else [] := by
  rw [itemsFor_append]
  cases eq_or_ne c c' with
  | inl heq => simp [itemsFor, heq]
  | inr hne => simp [itemsFor, hne]

theorem getD_modify_concat {rows : List (List ℕ)} {c c' : ℕ} (hc : c < rows.length) (id : ℕ) :
    (rows.modify c (· ++ [id])).getD c' [] = rows.getD c' [] ++ if c = c' then [id] else [] := by
  rw [List.getD_eq_getElem?_getD, List.getElem?_modify, List.getD_eq_getElem?_getD]
  cases eq_or_ne c c' with
  | inl heq =>
    subst heq
    simp [hc]
  | inr hne => simp [hne]

theorem buildEntity_made {mesh : MeshTopology} {n c : ℕ} {asked : List (ℕ × List ℕ)} {s : BuildState}
    (hcreates : mesh_type.Creates) (h : Made context vertex_map dom dim mesh n asked s) (hc : c < n) (a : List ℕ)
    (hid : context.has_intermediate_map dom dim = true → (context.localId vertex_map dom dim a).isSome) :
    ∃ s', buildEntity mesh_type context vertex_map dom dim c s a = some s' ∧
      Made context vertex_map dom dim mesh n (asked ++ [(c, a)]) s' := by
  obtain ⟨id, hid⟩ : ∃ id, context.entityId vertex_map dom dim s.entity_counter a = some id := by
    unfold MeshContext.entityId
    cases hmap : context.has_intermediate_map dom dim with
    | false => exact ⟨_, rfl⟩
    | true => exact Option.isSome_iff_exists.mp (hid hmap)
  have hlen : c < s.cell_entity_conn.length := h.length_conn ▸ hc
  unfold buildEntity
  simp only [Option.bind_eq_bind, hid, Option.bind_some]
  cases hlookup : s.entity_vertices_map.lookup (sortIds a) with
  | some found =>
    -- another cell has asked for it
    have hmem : sortIds a ∈ s.entity_vertex_conn.map sortIds := by
      by_contra hnot
      rw [h.map_eq, lookup_zip_eq_none hnot] at hlookup
      cases hlookup
    refine ⟨_, rfl, { h with keys := fun k => ?_, origin := fun a ha => ?_, length_conn := ?_, rows := fun c' hc' => ?_ }⟩
    · rw [h.keys, List.map_append, List.mem_append, List.map_singleton, List.mem_singleton]
      refine ⟨.inl, fun hk => hk.elim (fun hk => hk) fun hk => ?_⟩
      exact hk ▸ (h.keys _).mp hmem
    · obtain ⟨c', hc'⟩ := h.origin a ha
      exact ⟨c', List.mem_append_left _ hc'⟩
    · exact (List.length_modify ..).trans h.length_conn
    · dsimp only
      rw [getD_modify_concat hlen, itemsFor_concat, List.map_append, h.rows c' hc', List.map_append]
      split
      · rw [List.map_singleton, List.map_singleton, hlookup]
      · rfl
  | none =>
    have hnew : sortIds a ∉ s.entity_vertex_conn.map sortIds := by
      intro hmem
      have hfound := h.lookup_isSome hmem
      rw [hlookup] at hfound
      cases hfound
    have hlens : (s.entity_vertex_conn.map sortIds).length = s.entity_ids.length := by
      rw [List.length_map, h.length_ids]
    refine ⟨_, rfl, ⟨?_, ?_, fun k => ?_, fun b hb => ?_, ?_, ?_, fun j b hj => ?_, ?_, fun c' hc' => ?_, ?_⟩⟩
    · dsimp only
      rw [h.map_eq, List.map_append, List.zip_append hlens]
      rfl
    · rw [List.map_append]
      exact h.nodup.append (List.nodup_singleton _) (by simpa using hnew)
    · rw [List.map_append, List.map_append, List.mem_append, List.mem_append, h.keys]
      rfl
    · obtain hb | hb := List.mem_append.mp hb
      · obtain ⟨c', hc'⟩ := h.origin b hb
        exact ⟨c', List.mem_append_left _ hc'⟩
      · exact ⟨c, List.mem_append_right _ (by rw [List.mem_singleton.mp hb]; exact List.mem_singleton_self _)⟩
    · dsimp only
      rw [List.length_append, List.length_append, h.length_ids]
      rfl
    · dsimp only
      rw [List.length_append, h.counter]
      rfl
    · dsimp only at hj ⊢
      cases Nat.lt_or_ge j s.entity_vertex_conn.length with
      | inl hlt =>
        rw [List.getElem?_append_left hlt] at hj
        rw [List.getElem?_append_left (h.length_ids ▸ hlt), h.ids j b hj]
      | inr hge =>
        rw [List.getElem?_append_right hge] at hj
        have hlast : j - s.entity_vertex_conn.length = 0 := by
          have hlt := (List.getElem?_eq_some_iff.mp hj).1
          rw [List.length_singleton] at hlt
          omega
        rw [hlast] at hj
        obtain rfl : a = b := Option.some.inj hj
        have hj : j = s.entity_counter := by
          rw [h.counter]
          omega
        rw [List.getElem?_append_right (h.length_ids ▸ hge), h.length_ids, hlast, hj, hid]
        rfl
    · exact (List.length_modify ..).trans h.length_conn
    · have hfirst : (s.entity_vertices_map ++ [(sortIds a, id)]).lookup (sortIds a) = some id := by
        rw [List.lookup_append, hlookup]
        simp
      have hold : ∀ b ∈ itemsFor c' asked, (s.entity_vertices_map ++ [(sortIds a, id)]).lookup (sortIds b) =
          s.entity_vertices_map.lookup (sortIds b) := by
        intro b hb
        have hmem : sortIds b ∈ s.entity_vertex_conn.map sortIds :=
          (h.keys _).mpr (List.mem_map.mpr ⟨(c', b), mem_itemsFor.mp hb, rfl⟩)
        obtain ⟨found, hfound⟩ := Option.isSome_iff_exists.mp (h.lookup_isSome hmem)
        rw [List.lookup_append, hfound, Option.some_or]
      dsimp only
      rw [getD_modify_concat hlen, itemsFor_concat, List.map_append, h.rows c' hc', List.map_append,
        List.map_congr_left hold]
      split
      · rw [List.map_singleton, List.map_singleton, hfirst]
      · rfl
    · dsimp only
      rw [List.length_append]
      exact h.grown.create hcreates _ _

theorem buildCell_made {mesh : MeshTopology} {n c : ℕ} {asked : List (ℕ × List ℕ)} {s : BuildState}
    (hcreates : mesh_type.Creates) (h : Made context vertex_map dom dim mesh n asked s) (hc : c < n)
    (hid : ∀ a ∈ mesh.vertexLists mesh_type dom dim using_dim c, context.has_intermediate_map dom dim = true →
      (context.localId vertex_map dom dim a).isSome) :
    ∃ s', buildCell mesh_type context vertex_map dom using_dim dim s c = some s' ∧
      Made context vertex_map dom dim mesh n
        (asked ++ (mesh.vertexLists mesh_type dom dim using_dim c).map fun a => (c, a)) s' := by
  have hloop (lists : List (List ℕ)) (hlists : ∀ a ∈ lists, context.has_intermediate_map dom dim = true →
      (context.localId vertex_map dom dim a).isSome) (asked : List (ℕ × List ℕ)) (s : BuildState)
      (h : Made context vertex_map dom dim mesh n asked s) :
      ∃ s', lists.foldlM (buildEntity mesh_type context vertex_map dom dim c) s = some s' ∧
        Made context vertex_map dom dim mesh n (asked ++ lists.map fun a => (c, a)) s' := by
    induction lists generalizing asked s with
    | nil => exact ⟨s, rfl, by simpa using h⟩
    | cons a lists ih =>
      obtain ⟨s', hs', hmade⟩ := buildEntity_made hcreates h hc a (hlists a List.mem_cons_self)
      obtain ⟨s'', hs'', hmade'⟩ := ih (fun b hb => hlists b (List.mem_cons_of_mem a hb)) _ s' hmade
      refine ⟨s'', by rw [List.foldlM_cons, hs']; exact hs'', ?_⟩
      rw [List.append_assoc] at hmade'
      exact hmade'
  obtain ⟨s', hs', hmade⟩ := hloop _ hid asked s h
  refine ⟨s', ?_, hmade⟩
  have hsplit := foldlM_splitLengths (buildEntity mesh_type context vertex_map dom dim c)
    (mesh_type.create_entities using_dim c dim (mesh.connectivity dom dom)).1
    (mesh_type.create_entities using_dim c dim (mesh.connectivity dom dom)).2 0 s
  rw [buildCell, if_neg (by rw [h.length_conn]; omega), h.grown.connectivity]
  refine Eq.trans ?_ (hsplit.trans hs')
  rw [Option.map_eq_bind]
  rfl

theorem buildCells_made {mesh : MeshTopology} {n : ℕ} {cells : List (ℕ × ℕ)} (hcreates : mesh_type.Creates)
    (hcells : ∀ c ∈ cells, c.2 < n)
    (hid : ∀ c ∈ cells, ∀ a ∈ mesh.vertexLists mesh_type dom dim using_dim c.2,
      context.has_intermediate_map dom dim = true → (context.localId vertex_map dom dim a).isSome) :
    ∃ s, cells.foldlM (fun s citr => buildCell mesh_type context vertex_map dom using_dim dim s citr.2)
        ⟨[], List.replicate n [], [], [], 0, mesh⟩ = some s ∧
      Made context vertex_map dom dim mesh n
        (cells.flatMap fun c => (mesh.vertexLists mesh_type dom dim using_dim c.2).map fun a => (c.2, a)) s := by
  induction cells using List.reverseRecOn with
  | nil =>
    refine ⟨_, rfl, ⟨rfl, List.nodup_nil, fun k => Iff.rfl, ?_, rfl, rfl, ?_, List.length_replicate, ?_, ?_⟩⟩
    · simp
    · simp
    · intro c hc
      rw [List.getD_eq_getElem?_getD, List.getElem?_replicate, if_pos hc]
      rfl
    · exact ⟨fun d dm => by simp, rfl, rfl⟩
  | append_singleton cells c ih =>
    obtain ⟨s, hs, hmade⟩ := ih (fun c hc => hcells c (List.mem_append_left _ hc))
      fun c hc => hid c (List.mem_append_left _ hc)
    have hmem : c ∈ cells ++ [c] := List.mem_append_right _ (List.mem_singleton_self c)
    obtain ⟨s', hs', hmade'⟩ := buildCell_made hcreates hmade (hcells c hmem) (hid c hmem)
    refine ⟨s', ?_, ?_⟩
    · rw [List.foldlM_append, hs]
      simp only [Option.bind_eq_bind, Option.bind_some, List.foldlM_cons, List.foldlM_nil, hs', Option.pure_def]
    · rw [List.flatMap_append, List.flatMap_singleton]
      exact hmade'

end

-- ---------------------------------------------------------------------------
-- The built tables
-- ---------------------------------------------------------------------------

namespace MeshTopology

section
variable (mesh : MeshTopology) (mesh_type : MeshType) (context : MeshContext) (dom dim using_dim : ℕ)

/-- The cells in the order of the loop. -/
def cellIds : List ℕ := (context.reverse_index_map using_dim dom).map (·.2)

/-- The entities that the cells ask for, by their vertices. -/
def requested : List (List ℕ) := (cellIds context dom using_dim).flatMap (mesh.vertexLists mesh_type dom dim using_dim)

/-- The entities that are to be made: two lists in different order are the same
entity. -/
def distinctEntities : List (List ℕ) := ((mesh.requested mesh_type context dom dim using_dim).map sortIds).dedup

/-- What `build_connectivity` takes for granted. If there is an intermediate
map, the local ids of the entities are `0` to `N - 1`. -/
structure Buildable : Prop where
  solid : 1 < using_dim ∧ using_dim ≤ mesh_type.num_dimensions
  filled : (mesh.connectivity dom dom using_dim 0).empty = false
  nodup : (cellIds context dom using_dim).Nodup
  cells : ∀ c ∈ cellIds context dom using_dim, c < mesh.num_entities using_dim dom
  numbered : context.has_intermediate_map dom dim = true →
    ((mesh.distinctEntities mesh_type context dom dim using_dim).map
      (context.localId (mesh.index_map 0 dom) dom dim)).Perm
      ((List.range (mesh.distinctEntities mesh_type context dom dim using_dim).length).map some)

/-- The tables from cells to entities and from entities to vertices agree with
what the cells asked for. -/
structure Tables (entity_vertex_conn cell_entity_conn : List (List ℕ)) : Prop where
  length_entities : entity_vertex_conn.length = (mesh.distinctEntities mesh_type context dom dim using_dim).length
  length_cells : cell_entity_conn.length = mesh.num_entities using_dim dom
  rows : ∀ c ∈ cellIds context dom using_dim,
    List.Forall₂ (fun e a => ∃ b, entity_vertex_conn[e]? = some b ∧ b.Perm a ∧
      (context.has_intermediate_map dom dim = true → context.localId (mesh.index_map 0 dom) dom dim a = some e))
      (cell_entity_conn.getD c []) (mesh.vertexLists mesh_type dom dim using_dim c)
  rest : ∀ c, c ∉ cellIds context dom using_dim → cell_entity_conn.getD c [] = []
  distinct : ∀ (e e' : ℕ) b b', entity_vertex_conn[e]? = some b → entity_vertex_conn[e']? = some b' → b.Perm b' → e = e'
  origin : ∀ b ∈ entity_vertex_conn, b ∈ mesh.requested mesh_type context dom dim using_dim

end

section
variable {mesh : MeshTopology} {mesh_type : MeshType} {context : MeshContext} {dom dim using_dim : ℕ}

theorem itemsFor_requested {cells : List ℕ} (hn : cells.Nodup) (lists : ℕ → List (List ℕ)) (c : ℕ) :
    itemsFor c (cells.flatMap fun c => (lists c).map fun a => (c, a)) = if c ∈ cells then lists c else [] := by
  induction cells with
  | nil => rfl
  | cons c' cells ih =>
    obtain ⟨hnot, hn⟩ := List.nodup_cons.mp hn
    have hone : itemsFor c ((lists c').map fun a => (c', a)) = if c = c' then lists c else [] := by
      rw [itemsFor, List.filter_map, List.map_map]
      cases eq_or_ne c c' with
      | inl heq => simp [heq, Function.comp_def]
      | inr hne => simp [hne.symm, hne, Function.comp_def]
    rw [List.flatMap_cons, itemsFor_append, hone, ih hn]
    cases eq_or_ne c c' with
    | inl heq =>
      subst heq
      simp [hnot]
    | inr hne => simp [hne]

/-- The ids of the entities that were made are those below their number. -/
theorem Buildable.ids_perm (h : Buildable mesh mesh_type context dom dim using_dim) {s : BuildState}
    (hmade : Made context (mesh.index_map 0 dom) dom dim mesh n
      ((cellIds context dom using_dim).flatMap fun c =>
        (mesh.vertexLists mesh_type dom dim using_dim c).map fun a => (c, a)) s) :
    s.entity_ids.Perm (List.range s.entity_ids.length) ∧
      s.entity_vertex_conn.length = (mesh.distinctEntities mesh_type context dom dim using_dim).length := by
  have hkeys : (s.entity_vertex_conn.map sortIds).Perm (mesh.distinctEntities mesh_type context dom dim using_dim) := by
    refine (List.perm_ext_iff_of_nodup hmade.nodup (List.nodup_dedup _)).mpr fun k => ?_
    rw [hmade.keys, List.mem_dedup, requested, List.map_flatMap, List.map_flatMap]
    simp only [List.map_map, Function.comp_def]
  have hlen := hkeys.length_eq
  rw [List.length_map] at hlen
  refine ⟨?_, hlen⟩
  cases hmap : context.has_intermediate_map dom dim with
  | false =>
    refine List.Perm.of_eq (List.ext_getElem? fun j => ?_)
    cases Nat.lt_or_ge j s.entity_ids.length with
    | inl hlt =>
      have hj := List.getElem?_eq_getElem (hmade.length_ids ▸ hlt : j < s.entity_vertex_conn.length)
      rw [hmade.ids j _ hj, MeshContext.entityId, hmap, List.getElem?_range hlt]
      rfl
    | inr hge => rw [List.getElem?_eq_none hge, List.getElem?_eq_none (by rwa [List.length_range])]
  | true =>
    have hids : s.entity_ids.map some =
        (s.entity_vertex_conn.map sortIds).map (context.localId (mesh.index_map 0 dom) dom dim) := by
      refine List.ext_getElem? fun j => ?_
      rw [List.getElem?_map, List.getElem?_map, List.getElem?_map]
      cases hj : s.entity_vertex_conn[j]? with
      | none =>
        rw [List.getElem?_eq_none_iff, ← hmade.length_ids] at hj
        rw [List.getElem?_eq_none hj]
        rfl
      | some a =>
        have hlt := (List.getElem?_eq_some_iff.mp hj).1
        rw [← hmade.length_ids] at hlt
        have hid := hmade.ids j a hj
        rw [MeshContext.entityId, hmap, if_pos rfl, List.getElem?_eq_getElem hlt] at hid
        rw [List.getElem?_eq_getElem hlt]
        exact congrArg some (hid.trans (localId_congr _ _ _ _ (sortIds_perm a).symm))
    have hperm := (hkeys.map (context.localId (mesh.index_map 0 dom) dom dim)).trans (h.numbered hmap)
    rw [← hids, ← hlen, ← hmade.length_ids] at hperm
    have hreduce := hperm.filterMap id
    simpa using hreduce

theorem Buildable.localId_isSome (h : Buildable mesh mesh_type context dom dim using_dim)
    (hmap : context.has_intermediate_map dom dim = true)
    (ha : a ∈ mesh.requested mesh_type context dom dim using_dim) :
    (context.localId (mesh.index_map 0 dom) dom dim a).isSome := by
  have hkey : sortIds a ∈ mesh.distinctEntities mesh_type context dom dim using_dim :=
    List.mem_dedup.mpr (List.mem_map_of_mem ha)
  have hid := (h.numbered hmap).mem_iff.mp (List.mem_map_of_mem hkey)
  rw [localId_congr _ _ _ _ (sortIds_perm a)] at hid
  obtain ⟨id, -, hid⟩ := List.mem_map.mp hid
  rw [← hid]
  rfl

/-- The vertices of the entities, in the order of their ids. -/
theorem Buildable.ordered (h : Buildable mesh mesh_type context dom dim using_dim) {s : BuildState}
    (hmade : Made context (mesh.index_map 0 dom) dom dim mesh n
      ((cellIds context dom using_dim).flatMap fun c =>
        (mesh.vertexLists mesh_type dom dim using_dim c).map fun a => (c, a)) s) :
    ∃ evc, (if context.has_intermediate_map dom dim then reorderDestructive s.entity_ids s.entity_vertex_conn
        else some s.entity_vertex_conn) = some evc ∧ evc.length = s.entity_vertex_conn.length ∧
      ∀ j e : ℕ, s.entity_ids[j]? = some e → evc[e]? = s.entity_vertex_conn[j]? := by
  cases hmap : context.has_intermediate_map dom dim with
  | true =>
    exact reorderDestructive_eq (h.ids_perm hmade).1 hmade.length_ids.symm
  | false =>
    refine ⟨s.entity_vertex_conn, rfl, rfl, fun j e he => ?_⟩
    have hlt := (List.getElem?_eq_some_iff.mp he).1
    have hj := List.getElem?_eq_getElem (hmade.length_ids ▸ hlt : j < s.entity_vertex_conn.length)
    have hid := hmade.ids j _ hj
    rw [he, MeshContext.entityId, hmap] at hid
    rw [Option.some.inj hid]

theorem Buildable.tables (h : Buildable mesh mesh_type context dom dim using_dim) {s : BuildState}
    (hmade : Made context (mesh.index_map 0 dom) dom dim mesh (mesh.num_entities using_dim dom)
      ((cellIds context dom using_dim).flatMap fun c =>
        (mesh.vertexLists mesh_type dom dim using_dim c).map fun a => (c, a)) s)
    {evc : List (List ℕ)} (hlen : evc.length = s.entity_vertex_conn.length)
    (hevc : ∀ j e : ℕ, s.entity_ids[j]? = some e → evc[e]? = s.entity_vertex_conn[j]?) :
    Tables mesh mesh_type context dom dim using_dim evc s.cell_entity_conn := by
  obtain ⟨hperm, hcount⟩ := h.ids_perm hmade
  -- every id is that of one entity that was made
  have hback (e : ℕ) (b : List ℕ) (hb : evc[e]? = some b) :
      ∃ j : ℕ, s.entity_ids[j]? = some e ∧ s.entity_vertex_conn[j]? = some b := by
    have hlt := (List.getElem?_eq_some_iff.mp hb).1
    rw [hlen, ← hmade.length_ids] at hlt
    obtain ⟨j, hj⟩ := List.getElem?_of_mem (hperm.mem_iff.mpr (List.mem_range.mpr hlt))
    exact ⟨j, hj, (hevc j e hj).symm.trans hb⟩
  refine ⟨hlen.trans hcount, hmade.length_conn, fun c hc => ?_, fun c hc => ?_, fun e e' b b' hb hb' hsame => ?_,
    fun b hb => ?_⟩
  · have hrow := hmade.rows c (h.cells c hc)
    rw [itemsFor_requested h.nodup, if_pos hc, ← List.forall₂_eq_eq_eq, List.forall₂_map_left_iff,
      List.forall₂_map_right_iff] at hrow
    refine hrow.imp fun e a he => ?_
    have hmem : sortIds a ∈ s.entity_vertex_conn.map sortIds := by
      by_contra hnot
      rw [hmade.map_eq, lookup_zip_eq_none hnot] at he
      cases he
    obtain ⟨j, hj⟩ := List.getElem?_of_mem hmem
    rw [hmade.map_eq, lookup_zip hmade.nodup hj] at he
    rw [List.getElem?_map] at hj
    obtain ⟨b, hb, hkey⟩ := Option.map_eq_some_iff.mp hj
    have hsame := sortIds_eq_iff.mp hkey
    refine ⟨b, (hevc j e he.symm).trans hb, hsame, fun hmap => ?_⟩
    have hid := hmade.ids j b hb
    rw [MeshContext.entityId, hmap, if_pos rfl, ← he, localId_congr _ _ _ _ hsame] at hid
    exact hid.symm
  · cases Nat.lt_or_ge c s.cell_entity_conn.length with
    | inl hlt =>
      have hrow := hmade.rows c (hmade.length_conn ▸ hlt)
      rw [itemsFor_requested h.nodup, if_neg hc] at hrow
      exact List.map_eq_nil_iff.mp hrow
    | inr hge => exact List.getD_eq_default _ _ hge
  · obtain ⟨j, hj, hbj⟩ := hback e b hb
    obtain ⟨j', hj', hbj'⟩ := hback e' b' hb'
    have hkey : (s.entity_vertex_conn.map sortIds)[j]? = (s.entity_vertex_conn.map sortIds)[j']? := by
      rw [List.getElem?_map, List.getElem?_map, hbj, hbj', Option.map_some, Option.map_some, sortIds_eq_iff.mpr hsame]
    have hlt := (List.getElem?_eq_some_iff.mp hbj).1
    rw [← List.length_map sortIds] at hlt
    rw [(List.getElem?_inj hlt hmade.nodup).mp hkey, hj'] at hj
    exact (Option.some.inj hj).symm
  · obtain ⟨e, he⟩ := List.getElem?_of_mem hb
    obtain ⟨j, -, hj⟩ := hback e b he
    obtain ⟨c, hc⟩ := hmade.origin b (List.mem_of_getElem? hj)
    obtain ⟨c', hc', hmem⟩ := List.mem_flatMap.mp hc
    obtain ⟨b', hb', heq⟩ := List.mem_map.mp hmem
    exact List.mem_flatMap.mpr ⟨c', hc', (Prod.mk.inj heq).2 ▸ hb'⟩

theorem Buildable.buildConnectivity_eq (h : Buildable mesh mesh_type context dom dim using_dim)
    (hcreates : mesh_type.Creates) :
    ∃ mesh₁ evc conns, mesh.buildConnectivity mesh_type context dom dim using_dim =
        some ((mesh₁.setConnectivity dom dom dim 0 (Connectivity.init evc)).setConnectivity
          dom dom using_dim dim (Connectivity.init conns)) ∧
      Grown mesh mesh₁ dom dim (mesh.distinctEntities mesh_type context dom dim using_dim).length ∧
      Tables mesh mesh_type context dom dim using_dim evc conns := by
  obtain ⟨s, hs, hmade⟩ := @buildCells_made mesh_type context (mesh.index_map 0 dom) dom using_dim dim mesh
    (mesh.num_entities using_dim dom) (context.reverse_index_map using_dim dom) hcreates
    (fun c hc => h.cells c.2 (List.mem_map_of_mem hc))
    (fun c hc a ha hmap => h.localId_isSome hmap (List.mem_flatMap.mpr ⟨c.2, List.mem_map_of_mem hc, ha⟩))
  have hasked : ((context.reverse_index_map using_dim dom).flatMap fun c =>
      (mesh.vertexLists mesh_type dom dim using_dim c.2).map fun a => (c.2, a)) =
      (cellIds context dom using_dim).flatMap fun c =>
        (mesh.vertexLists mesh_type dom dim using_dim c).map fun a => (c, a) := by
    rw [cellIds, List.flatMap_map]
  rw [hasked] at hmade
  obtain ⟨evc, horder, hlen, hevc⟩ := h.ordered hmade
  refine ⟨s.mesh, evc, s.cell_entity_conn, ?_, (h.ids_perm hmade).2 ▸ hmade.grown, h.tables hmade hlen hevc⟩
  have hsolid : ¬(using_dim ≤ 1 ∨ mesh_type.num_dimensions < using_dim) := by
    have hbounds := h.solid
    omega
  rw [buildConnectivity, if_neg hsolid, h.filled, if_neg (by simp)]
  dsimp only
  rw [hs]
  simp only [Option.bind_eq_bind, Option.bind_some, horder]

theorem getElem?_of_forall₂ {R : α → β → Prop} {xs : List α} {ys : List β} {i : ℕ} {y : β} (h : List.Forall₂ R xs ys)
    (hy : ys[i]? = some y) : ∃ x, xs[i]? = some x ∧ R x y := by
  induction h generalizing i with
  | nil => cases hy
  | cons hr _ ih =>
    cases i with
    | zero =>
      obtain rfl := Option.some.inj hy
      exact ⟨_, rfl, hr⟩
    | succ i => exact ih hy

theorem Tables.row_eq {evc conns : List (List ℕ)} (h : Buildable mesh mesh_type context dom dim using_dim)
    (htables : Tables mesh mesh_type context dom dim using_dim evc conns) (hc : c ∈ cellIds context dom using_dim) :
    (Connectivity.init conns).row c = conns.getD c [] := by
  have hlt : c < conns.length := htables.length_cells ▸ h.cells c hc
  rw [Connectivity.row_init hlt, List.getD_eq_getElem _ _ hlt]

end

/-- An entity is added. -/
def make (mesh : MeshTopology) (dom dim : ℕ) : MeshTopology :=
  { mesh with num_entities := fun d dm => if d = dim ∧ dm = dom then mesh.num_entities d dm + 1 else mesh.num_entities d dm }

/-- Cells ask for the given entities. -/
def asking (entities : List (List ℕ)) : MeshType where
  num_dimensions := 2
  create_entities _ _ _ _ := (entities.map List.length, entities.flatten)
  create_entity mesh dom dim _ _ := mesh.make dom dim

/-- A triangle without edges. -/
def triangle : MeshTopology where
  num_entities dim _ := if dim = 0 then 3 else if dim = 1 then 0 else 1
  connectivity _ _ f t := if f = 2 ∧ t = 0 then Connectivity.init [[0, 1, 2]] else ⟨[], []⟩
  index_map _ _ id := id

end MeshTopology

end Flecsi.Topology
