import Flecsi.Topology.ComputeConnectivity

/-!
# Which computations come back

A connectivity that holds no ids counts as not computed. So a dimension whose
entities exist without vertices is asked for again and again, and so is one
that the cells have no entities of. `Answerable` says when neither happens.
-/

namespace Flecsi.Topology

namespace MeshTopology

/-- `create_entities` reads the vertices of the cells. -/
def ReadsVertices (mesh_type : MeshType) : Prop :=
  ∀ cell_dim c dim dc dc', dc cell_dim 0 = dc' cell_dim 0 →
    mesh_type.create_entities cell_dim c dim dc = mesh_type.create_entities cell_dim c dim dc'

section
variable (mesh_type : MeshType) (context : MeshContext) (dom : ℕ)

/-- A mesh of two or three dimensions whose cells have vertices. Connectivities
that are set have a row for each entity, and those from vertices and to vertices
agree. -/
structure MeshState (mesh : MeshTopology) : Prop where
  dims : mesh_type.num_dimensions = 2 ∨ mesh_type.num_dimensions = 3
  cells : (mesh.connectivity dom dom mesh_type.num_dimensions 0).empty = false
  stored : ∀ f ≤ mesh_type.num_dimensions, ∀ t ≤ mesh_type.num_dimensions,
    (mesh.connectivity dom dom f t).empty = false →
    Stored (mesh.connectivity dom dom f t) (mesh.num_entities f dom) (mesh.num_entities t dom)
  converse : ∀ t ≤ mesh_type.num_dimensions, 0 < t → (mesh.connectivity dom dom 0 t).empty = false →
    (mesh.connectivity dom dom t 0).empty = false →
    ∀ v < mesh.num_entities 0 dom, ∀ e < mesh.num_entities t dom,
      e ∈ (mesh.connectivity dom dom 0 t).row v ↔ v ∈ (mesh.connectivity dom dom t 0).row e

/-- The maps number what is missing in a mesh. -/
structure Fits (mesh : MeshTopology) : Prop where
  nodup : ∀ dim ≤ mesh_type.num_dimensions, mesh.num_entities dim dom = 0 →
    (cellIds context dom (mesh.usingDim mesh_type dom dim)).Nodup
  cells : ∀ dim ≤ mesh_type.num_dimensions, mesh.num_entities dim dom = 0 →
    ∀ c ∈ cellIds context dom (mesh.usingDim mesh_type dom dim),
    c < mesh.num_entities (mesh.usingDim mesh_type dom dim) dom
  numbered : ∀ dim ≤ mesh_type.num_dimensions, mesh.num_entities dim dom = 0 →
    context.has_intermediate_map dom dim = true →
    ((mesh.distinctEntities mesh_type context dom dim (mesh.usingDim mesh_type dom dim)).map
      (context.localId (mesh.index_map 0 dom) dom dim)).Perm
      ((List.range (mesh.distinctEntities mesh_type context dom dim (mesh.usingDim mesh_type dom dim)).length).map some)
  vertices : ∀ dim ≤ mesh_type.num_dimensions, mesh.num_entities dim dom = 0 →
    ∀ a ∈ mesh.requested mesh_type context dom dim (mesh.usingDim mesh_type dom dim),
    ∀ v ∈ a, v < mesh.num_entities 0 dom

/-- The meshes on the way while missing entities are built. -/
inductive Prepared (mesh : MeshTopology) : MeshTopology → Prop
  | refl : Prepared mesh mesh
  | build : Prepared mesh m → dim ≤ mesh_type.num_dimensions → m.buildMissing mesh_type context dom dim = some m' →
      Prepared mesh m'

structure Sound (mesh : MeshTopology) : Prop where
  state : MeshState mesh_type dom mesh
  fits : ∀ m, Prepared mesh_type context dom mesh m → Fits mesh_type context dom m

end

/-- What was set or made before is as it was. -/
structure Extends (mesh mesh' : MeshTopology) : Prop where
  kept : ∀ fd td f t, (mesh.connectivity fd td f t).empty = false →
    mesh'.connectivity fd td f t = mesh.connectivity fd td f t
  num_entities : ∀ d dm, mesh.num_entities d dm ≠ 0 → mesh'.num_entities d dm = mesh.num_entities d dm

theorem Extends.refl (mesh : MeshTopology) : Extends mesh mesh := ⟨fun _ _ _ _ _ => rfl, fun _ _ _ => rfl⟩

theorem Extends.trans {mesh m mesh' : MeshTopology} (h : Extends mesh m) (h' : Extends m mesh') : Extends mesh mesh' where
  kept fd td f t hfilled := by
    have hm := h.kept fd td f t hfilled
    rw [h'.kept fd td f t (by rwa [hm]), hm]
  num_entities d dm hne := by
    have hm := h.num_entities d dm hne
    rw [h'.num_entities d dm (by rwa [hm]), hm]

theorem Extends.filled {mesh mesh' : MeshTopology} (h : Extends mesh mesh')
    (hfilled : (mesh.connectivity fd td f t).empty = false) : (mesh'.connectivity fd td f t).empty = false := by
  rw [h.kept fd td f t hfilled]
  exact hfilled

theorem Prepared.trans {mesh_type : MeshType} {context : MeshContext} {dom : ℕ} {mesh m m' : MeshTopology}
    (h : Prepared mesh_type context dom mesh m) (h' : Prepared mesh_type context dom m m') :
    Prepared mesh_type context dom mesh m' := by
  induction h' with
  | refl => exact h
  | build _ hd hbuild ih => exact .build ih hd hbuild

theorem Stored.ne_zero {c : Connectivity} {n m : ℕ} (h : Stored c n m) : n ≠ 0 ∧ m ≠ 0 := by
  obtain ⟨⟨rows, rfl, hlen, hrows⟩, hfilled⟩ := h
  have hne : ¬∀ row ∈ rows, row = [] := by
    rw [← empty_init, hfilled]
    simp
  push Not at hne
  obtain ⟨row, hrow, hnil⟩ := hne
  obtain ⟨i, hi⟩ := List.exists_mem_of_ne_nil _ hnil
  have hpos := List.length_pos_of_mem hrow
  have hlt := hrows row hrow i hi
  omega

theorem stored_init {rows : List (List ℕ)} {n m : ℕ} (hlen : rows.length = n) (hrows : ∀ row ∈ rows, ∀ i ∈ row, i < m)
    (hfilled : (Connectivity.init rows).empty = false) : Stored (Connectivity.init rows) n m :=
  ⟨⟨rows, rfl, hlen, hrows⟩, hfilled⟩

-- ---------------------------------------------------------------------------
-- Missing entities
-- ---------------------------------------------------------------------------

section
variable {mesh_type : MeshType} {context : MeshContext} {dom : ℕ} {mesh : MeshTopology}

theorem MeshState.cells_ne_zero (h : MeshState mesh_type dom mesh) : mesh.num_entities mesh_type.num_dimensions dom ≠ 0 :=
  (h.stored _ le_rfl 0 (Nat.zero_le _) h.cells).ne_zero.1

theorem MeshState.vertices_ne_zero (h : MeshState mesh_type dom mesh) : mesh.num_entities 0 dom ≠ 0 :=
  (h.stored _ le_rfl 0 (Nat.zero_le _) h.cells).ne_zero.2

/-- Entities can be missing between the vertices and the cells. -/
theorem MeshState.between (h : MeshState mesh_type dom mesh) (hd : d ≤ mesh_type.num_dimensions)
    (hzero : mesh.num_entities d dom = 0) : 0 < d ∧ d < mesh_type.num_dimensions := by
  constructor
  · refine Nat.pos_of_ne_zero fun heq => ?_
    subst heq
    exact h.vertices_ne_zero hzero
  · refine Nat.lt_of_le_of_ne hd fun heq => ?_
    subst heq
    exact h.cells_ne_zero hzero

/-- What is known of the dimension that entities are built with. -/
theorem MeshState.usingDim_spec (h : MeshState mesh_type dom mesh) (hd : 0 < d ∧ d < mesh_type.num_dimensions) :
    d < mesh.usingDim mesh_type dom d ∧ mesh.usingDim mesh_type dom d ≤ mesh_type.num_dimensions ∧
      (mesh.connectivity dom dom (mesh.usingDim mesh_type dom d) 0).empty = false := by
  unfold usingDim
  cases hnext : (mesh.connectivity dom dom (d + 1) 0).empty with
  | true => exact ⟨hd.2, le_rfl, h.cells⟩
  | false => exact ⟨Nat.lt_succ_self d, hd.2, hnext⟩

theorem MeshState.cellsToVertices_eq (h : MeshState mesh_type dom mesh) : mesh.cellsToVertices mesh_type dom = some mesh := by
  unfold cellsToVertices
  dsimp only
  rw [h.cells]
  rfl

/-- What `build_connectivity` has done to a mesh without entities of `d`. -/
structure Built (mesh_type : MeshType) (context : MeshContext) (dom : ℕ) (mesh : MeshTopology) (d : ℕ)
    (mesh' : MeshTopology) (evc conns : List (List ℕ)) : Prop where
  tables : Tables mesh mesh_type context dom d (mesh.usingDim mesh_type dom d) evc conns
  num_entities : ∀ d' dm, mesh'.num_entities d' dm =
    if d' = d ∧ dm = dom then mesh.num_entities d' dm + evc.length else mesh.num_entities d' dm
  vertices : mesh'.connectivity dom dom d 0 = Connectivity.init evc
  cells : mesh'.connectivity dom dom (mesh.usingDim mesh_type dom d) d = Connectivity.init conns
  others : ∀ fd td f t, ¬(fd = dom ∧ td = dom ∧ f = d ∧ t = 0) →
    ¬(fd = dom ∧ td = dom ∧ f = mesh.usingDim mesh_type dom d ∧ t = d) →
    mesh'.connectivity fd td f t = mesh.connectivity fd td f t

theorem MeshState.buildable (h : MeshState mesh_type dom mesh) (hfits : Fits mesh_type context dom mesh)
    (hd : d ≤ mesh_type.num_dimensions) (hzero : mesh.num_entities d dom = 0) :
    Buildable mesh mesh_type context dom d (mesh.usingDim mesh_type dom d) := by
  obtain ⟨hlt, hle, hfilled⟩ := h.usingDim_spec (h.between hd hzero)
  have hpos := (h.between hd hzero).1
  exact ⟨⟨by omega, hle⟩, hfilled, hfits.nodup d hd hzero, hfits.cells d hd hzero, hfits.numbered d hd hzero⟩

theorem MeshState.build (h : MeshState mesh_type dom mesh) (hcreates : mesh_type.Creates)
    (hfits : Fits mesh_type context dom mesh) (hd : d ≤ mesh_type.num_dimensions)
    (hzero : mesh.num_entities d dom = 0) :
    ∃ mesh' evc conns, mesh.buildMissing mesh_type context dom d = some mesh' ∧
      Built mesh_type context dom mesh d mesh' evc conns := by
  obtain ⟨hlt, -, -⟩ := h.usingDim_spec (h.between hd hzero)
  obtain ⟨mesh₁, evc, conns, hmesh, hgrown, htables⟩ := (h.buildable hfits hd hzero).buildConnectivity_eq hcreates
  refine ⟨_, evc, conns, (if_pos hzero).trans hmesh, htables, fun d' dm => ?_, ?_, setConnectivity_self _ _ _ _ _ _,
    fun fd td f t hvertices hcells => ?_⟩
  · rw [htables.length_entities]
    exact hgrown.num_entities d' dm
  · refine ((setConnectivity_unchanged _ dom dom _ d _).connectivity _ _ _ _ ?_).trans (setConnectivity_self _ _ _ _ _ _)
    omega
  · rw [(setConnectivity_unchanged _ dom dom _ d _).connectivity _ _ _ _ hcells,
      (setConnectivity_unchanged _ dom dom d 0 _).connectivity _ _ _ _ hvertices, hgrown.connectivity]

/-- Without entities there are no connections. -/
theorem MeshState.empty_of_zero (h : MeshState mesh_type dom mesh) (hf : f ≤ mesh_type.num_dimensions)
    (ht : t ≤ mesh_type.num_dimensions) (hzero : mesh.num_entities f dom = 0 ∨ mesh.num_entities t dom = 0) :
    (mesh.connectivity dom dom f t).empty = true := by
  cases hfilled : (mesh.connectivity dom dom f t).empty with
  | true => rfl
  | false =>
    have hne := (h.stored f hf t ht hfilled).ne_zero
    exact (hzero.elim hne.1 hne.2).elim

theorem Built.extends {mesh' : MeshTopology} {evc conns : List (List ℕ)} (h : MeshState mesh_type dom mesh)
    (hd : d ≤ mesh_type.num_dimensions) (hzero : mesh.num_entities d dom = 0)
    (hbuilt : Built mesh_type context dom mesh d mesh' evc conns) : Extends mesh mesh' where
  kept fd td f t hfilled := by
    refine hbuilt.others fd td f t ?_ ?_
    · rintro ⟨rfl, rfl, rfl, rfl⟩
      rw [h.empty_of_zero hd (Nat.zero_le _) (.inl hzero)] at hfilled
      cases hfilled
    · rintro ⟨rfl, rfl, rfl, rfl⟩
      rw [h.empty_of_zero (h.usingDim_spec (h.between hd hzero)).2.1 hd (.inr hzero)] at hfilled
      cases hfilled
  num_entities d' dm hne := by
    rw [hbuilt.num_entities, if_neg]
    rintro ⟨rfl, rfl⟩
    exact hne hzero

theorem vertexLists_congr (hreads : ReadsVertices mesh_type) {mesh' : MeshTopology} {using_dim : ℕ}
    (h : mesh'.connectivity dom dom using_dim 0 = mesh.connectivity dom dom using_dim 0) (d c : ℕ) :
    mesh'.vertexLists mesh_type dom d using_dim c = mesh.vertexLists mesh_type dom d using_dim c := by
  rw [vertexLists, hreads using_dim c d _ _ h]
  rfl

theorem requested_congr (hreads : ReadsVertices mesh_type) {mesh' : MeshTopology} {using_dim : ℕ}
    (h : mesh'.connectivity dom dom using_dim 0 = mesh.connectivity dom dom using_dim 0) (d : ℕ) :
    mesh'.requested mesh_type context dom d using_dim = mesh.requested mesh_type context dom d using_dim := by
  unfold requested
  congr 1
  funext c
  exact vertexLists_congr hreads h d c

theorem usingDim_congr {mesh' : MeshTopology}
    (h : mesh'.connectivity dom dom (d + 1) 0 = mesh.connectivity dom dom (d + 1) 0) :
    mesh'.usingDim mesh_type dom d = mesh.usingDim mesh_type dom d := by
  rw [usingDim, h]
  rfl

/-- A table that `build_connectivity` has made. -/
inductive MadeTable (mesh_type : MeshType) (context : MeshContext) (dom : ℕ) (mesh : MeshTopology) : ℕ → ℕ → Prop
  /-- Every entity has the vertices of one that a cell asked for. -/
  | vertices : (mesh.connectivity dom dom using_dim 0).empty = false →
      (mesh.connectivity dom dom d 0).from_size = mesh.num_entities d dom →
      (∀ e < mesh.num_entities d dom, ∃ c ∈ cellIds context dom using_dim,
        (mesh.connectivity dom dom d 0).row e ∈ mesh.vertexLists mesh_type dom d using_dim c) →
      MadeTable mesh_type context dom mesh d 0
  /-- Every cell has the entities that it asked for. -/
  | entities : 0 < d → (mesh.connectivity dom dom using_dim 0).empty = false →
      (mesh.connectivity dom dom using_dim d).from_size = mesh.num_entities using_dim dom →
      (∀ c ∈ cellIds context dom using_dim,
        List.Forall₂ (fun e a => e < mesh.num_entities d dom ∧ ((mesh.connectivity dom dom d 0).row e).Perm a)
          ((mesh.connectivity dom dom using_dim d).row c) (mesh.vertexLists mesh_type dom d using_dim c)) →
      MadeTable mesh_type context dom mesh using_dim d

theorem Tables.lt {evc conns : List (List ℕ)} (h : Tables mesh mesh_type context dom d using_dim evc conns) :
    ∀ row ∈ conns, ∀ e ∈ row, e < evc.length := by
  intro row hrow e he
  obtain ⟨c, hc, rfl⟩ := List.getElem_of_mem hrow
  rw [← List.getD_eq_getElem _ [] hc] at he
  cases Decidable.em (c ∈ cellIds context dom using_dim) with
  | inl hmem =>
    obtain ⟨i, hi⟩ := List.getElem?_of_mem he
    obtain ⟨a, -, b, hb, -⟩ := getElem?_of_forall₂ (h.rows c hmem).flip hi
    exact (List.getElem?_eq_some_iff.mp hb).1
  | inr hnot =>
    rw [h.rest c hnot] at he
    cases he

section
variable {mesh' : MeshTopology} {evc conns : List (List ℕ)} (h : MeshState mesh_type dom mesh)
  (hd : d ≤ mesh_type.num_dimensions) (hzero : mesh.num_entities d dom = 0)
  (hbuilt : Built mesh_type context dom mesh d mesh' evc conns)

include hzero hbuilt in
theorem Built.num_entities_self : mesh'.num_entities d dom = evc.length := by
  rw [hbuilt.num_entities, if_pos ⟨rfl, rfl⟩, hzero, Nat.zero_add]

include hbuilt in
theorem Built.num_entities_ne (hne : d' ≠ d) : mesh'.num_entities d' dom = mesh.num_entities d' dom := by
  rw [hbuilt.num_entities, if_neg fun heq => hne heq.1]

include h hd hzero hbuilt in
/-- Connectivities from the vertices are not built. -/
theorem Built.from_vertices (t : ℕ) : mesh'.connectivity dom dom 0 t = mesh.connectivity dom dom 0 t := by
  have hbetween := h.between hd hzero
  have hlt := (h.usingDim_spec hbetween).1
  refine hbuilt.others dom dom 0 t ?_ ?_ <;> omega

include h hd hzero hbuilt in
/-- Connectivities of other entities to their vertices are not built. -/
theorem Built.to_vertices (hne : f ≠ d) : mesh'.connectivity dom dom f 0 = mesh.connectivity dom dom f 0 := by
  have hbetween := h.between hd hzero
  refine hbuilt.others dom dom f 0 ?_ ?_ <;> omega

include h hd hzero hbuilt in
theorem Built.state (hfits : Fits mesh_type context dom mesh) : MeshState mesh_type dom mesh' := by
  have hextends := hbuilt.extends h hd hzero
  have hbetween := h.between hd hzero
  obtain ⟨hlt, hle, -⟩ := h.usingDim_spec hbetween
  refine ⟨h.dims, hextends.filled h.cells, fun f hf t ht hfilled => ?_, fun t ht hpos hout hin v hv e he => ?_⟩
  · cases Decidable.em (f = d ∧ t = 0) with
    | inl heq =>
      obtain ⟨rfl, rfl⟩ := heq
      rw [hbuilt.vertices] at hfilled ⊢
      refine stored_init (hbuilt.num_entities_self hzero).symm (fun a ha v hv => ?_) hfilled
      rw [hbuilt.num_entities_ne hbetween.1.ne]
      exact hfits.vertices f hd hzero a (hbuilt.tables.origin a ha) v hv
    | inr hvertices =>
      cases Decidable.em (f = mesh.usingDim mesh_type dom d ∧ t = d) with
      | inl heq =>
        obtain ⟨rfl, rfl⟩ := heq
        rw [hbuilt.cells] at hfilled ⊢
        refine stored_init ?_ (fun row hrow e he => ?_) hfilled
        · rw [hbuilt.num_entities_ne hlt.ne']
          exact hbuilt.tables.length_cells
        · rw [hbuilt.num_entities_self hzero]
          exact hbuilt.tables.lt row hrow e he
      | inr hcells =>
        have hsame := hbuilt.others dom dom f t (by omega) (by omega)
        rw [hsame] at hfilled ⊢
        have hstored := h.stored f hf t ht hfilled
        rwa [hextends.num_entities f dom hstored.ne_zero.1, hextends.num_entities t dom hstored.ne_zero.2]
  · rw [hbuilt.from_vertices h hd hzero] at hout ⊢
    have hne : t ≠ d := by
      rintro rfl
      rw [h.empty_of_zero (Nat.zero_le _) hd (.inr hzero)] at hout
      cases hout
    rw [hbuilt.to_vertices h hd hzero hne] at hin ⊢
    rw [hbuilt.num_entities_ne hbetween.1.ne] at hv
    rw [hbuilt.num_entities_ne hne] at he
    exact h.converse t ht hpos hout hin v hv e he

include h hd hzero hbuilt in
theorem Built.made (hreads : ReadsVertices mesh_type) (hfits : Fits mesh_type context dom mesh) :
    MadeTable mesh_type context dom mesh' d 0 ∧
    MadeTable mesh_type context dom mesh' (mesh.usingDim mesh_type dom d) d := by
  have hbetween := h.between hd hzero
  obtain ⟨hlt, -, hfilled⟩ := h.usingDim_spec hbetween
  have hsame := hbuilt.to_vertices h hd hzero hlt.ne'
  have hself := hbuilt.num_entities_self hzero
  have hrow (e : ℕ) (b : List ℕ) (hb : evc[e]? = some b) : (Connectivity.init evc).row e = b := by
    obtain ⟨he, heq⟩ := List.getElem?_eq_some_iff.mp hb
    rw [Connectivity.row_init he, heq]
  constructor
  · refine .vertices (hsame ▸ hfilled) ?_ fun e he => ?_
    · rw [hbuilt.vertices, Connectivity.from_size_init, hself]
    · rw [hself] at he
      rw [hbuilt.vertices, hrow e _ (List.getElem?_eq_getElem he)]
      obtain ⟨c, hc, hmem⟩ := List.mem_flatMap.mp (hbuilt.tables.origin _ (List.getElem_mem he))
      refine ⟨c, hc, ?_⟩
      rwa [vertexLists_congr hreads hsame]
  · refine .entities hbetween.1 (hsame ▸ hfilled) ?_ fun c hc => ?_
    · rw [hbuilt.cells, Connectivity.from_size_init, hbuilt.num_entities_ne hlt.ne', hbuilt.tables.length_cells]
    · rw [vertexLists_congr hreads hsame, hbuilt.cells, hbuilt.vertices, hself,
        hbuilt.tables.row_eq (h.buildable hfits hd hzero) hc]
      refine (hbuilt.tables.rows c hc).imp ?_
      rintro e a ⟨b, hb, hperm, -⟩
      rw [hrow e b hb]
      exact ⟨(List.getElem?_eq_some_iff.mp hb).1, hperm⟩

include h hd hzero hbuilt in
/-- If the cells have nothing to build, they are asked in vain again. -/
theorem Built.nothing (hreads : ReadsVertices mesh_type) (hnone : mesh'.num_entities d dom = 0) :
    mesh'.requested mesh_type context dom d (mesh'.usingDim mesh_type dom d) = [] := by
  have hbetween := h.between hd hzero
  have hlt := (h.usingDim_spec hbetween).1
  rw [usingDim_congr (hbuilt.to_vertices h hd hzero (Nat.succ_ne_self d)),
    requested_congr hreads (hbuilt.to_vertices h hd hzero hlt.ne')]
  rw [hbuilt.num_entities_self hzero, hbuilt.tables.length_entities, List.length_eq_zero_iff, distinctEntities,
    List.dedup_eq_nil, List.map_eq_nil_iff] at hnone
  exact hnone

end

/-- A table that was made stays one. -/
theorem MadeTable.extends (hreads : ReadsVertices mesh_type) {mesh' : MeshTopology} (hextends : Extends mesh mesh')
    (h : MadeTable mesh_type context dom mesh f t) (hfilled : (mesh.connectivity dom dom f t).empty = false)
    (hvertices : t = 0 ∨ (mesh.connectivity dom dom t 0).empty = false) (hf : mesh.num_entities f dom ≠ 0)
    (ht : mesh.num_entities t dom ≠ 0) : MadeTable mesh_type context dom mesh' f t := by
  have hkept := hextends.kept dom dom f t hfilled
  cases h with
  | vertices husing hsize hrows =>
    have husing' := hextends.kept _ _ _ _ husing
    refine .vertices (husing' ▸ husing) (by rw [hkept, hsize, hextends.num_entities _ _ hf]) fun e he => ?_
    rw [hextends.num_entities _ _ hf] at he
    obtain ⟨c, hc, hmem⟩ := hrows e he
    refine ⟨c, hc, ?_⟩
    rwa [hkept, vertexLists_congr hreads husing']
  | entities hpos husing hsize hrows =>
    have husing' := hextends.kept _ _ _ _ husing
    refine .entities hpos (husing' ▸ husing) (by rw [hkept, hsize, hextends.num_entities _ _ hf]) fun c hc => ?_
    rw [hextends.num_entities _ _ ht, hextends.kept _ _ _ _ (hvertices.resolve_left hpos.ne'), hkept, vertexLists_congr hreads husing']
    exact hrows c hc

/-- One of the two places where missing entities are built. -/
structure BuildStep (mesh_type : MeshType) (context : MeshContext) (dom : ℕ) (mesh : MeshTopology) (d : ℕ)
    (mesh' : MeshTopology) : Prop where
  sound : Sound mesh_type context dom mesh'
  toExtends : Extends mesh mesh'
  same : mesh.num_entities d dom ≠ 0 → mesh' = mesh
  num_entities : ∀ d' ≠ d, mesh'.num_entities d' dom = mesh.num_entities d' dom
  to_vertices : ∀ f ≠ d, mesh'.connectivity dom dom f 0 = mesh.connectivity dom dom f 0
  upper : ∀ f t, f = 0 ∨ f < t → mesh'.connectivity dom dom f t = mesh.connectivity dom dom f t
  made : ∀ f t, mesh'.connectivity dom dom f t = mesh.connectivity dom dom f t ∨
    MadeTable mesh_type context dom mesh' f t ∧ (t = 0 ∨ mesh.num_entities t dom = 0)
  nothing : mesh'.num_entities d dom = 0 →
    mesh'.requested mesh_type context dom d (mesh'.usingDim mesh_type dom d) = []
  in_vain : (mesh.connectivity dom dom d 0).empty = true →
    (mesh.num_entities d dom = 0 → mesh.requested mesh_type context dom d (mesh.usingDim mesh_type dom d) = []) →
    (mesh'.connectivity dom dom d 0).empty = true

theorem Sound.buildMissing (h : Sound mesh_type context dom mesh) (hcreates : mesh_type.Creates)
    (hreads : ReadsVertices mesh_type) (hd : d ≤ mesh_type.num_dimensions) :
    ∃ mesh', mesh.buildMissing mesh_type context dom d = some mesh' ∧ BuildStep mesh_type context dom mesh d mesh' := by
  cases Decidable.em (mesh.num_entities d dom = 0) with
  | inr hne =>
    refine ⟨mesh, if_neg hne, ?_⟩
    exact ⟨h, .refl mesh, fun _ => rfl, fun _ _ => rfl, fun _ _ => rfl, fun _ _ _ => rfl, fun _ _ => .inl rfl,
      fun hzero => absurd hzero hne, fun hempty _ => hempty⟩
  | inl hzero =>
    have hfits := h.fits mesh .refl
    obtain ⟨mesh', evc, conns, hmesh, hbuilt⟩ := h.state.build hcreates hfits hd hzero
    have hbetween := h.state.between hd hzero
    have hlt := (h.state.usingDim_spec hbetween).1
    have hmade := hbuilt.made h.state hd hzero hreads hfits
    refine ⟨mesh', hmesh, ?_⟩
    refine ⟨⟨hbuilt.state h.state hd hzero hfits, fun m hm => h.fits m ((Prepared.refl.build hd hmesh).trans hm)⟩,
      hbuilt.extends h.state hd hzero, fun hne => absurd hzero hne, fun d' hne => hbuilt.num_entities_ne hne,
      fun f hne => hbuilt.to_vertices h.state hd hzero hne, fun f t hft => ?_, fun f t => ?_,
      hbuilt.nothing h.state hd hzero hreads, fun _ hnothing => ?_⟩
    · refine hbuilt.others dom dom f t ?_ ?_ <;> omega
    · cases Decidable.em (f = d ∧ t = 0) with
      | inl heq =>
        obtain ⟨rfl, rfl⟩ := heq
        exact .inr ⟨hmade.1, .inl rfl⟩
      | inr hvertices =>
        cases Decidable.em (f = mesh.usingDim mesh_type dom d ∧ t = d) with
        | inl heq =>
          obtain ⟨rfl, rfl⟩ := heq
          exact .inr ⟨hmade.2, .inr hzero⟩
        | inr hcells => exact .inl (hbuilt.others dom dom f t (by omega) (by omega))
    · rw [hbuilt.vertices, empty_init]
      intro a ha
      have hmem := hbuilt.tables.origin a ha
      rw [hnothing hzero] at hmem
      cases hmem

/-- What is known of a mesh when a call begins to call itself. -/
structure PrepareStep (mesh_type : MeshType) (context : MeshContext) (dom : ℕ) (mesh : MeshTopology) (from_dim to_dim : ℕ)
    (mesh' : MeshTopology) : Prop where
  sound : Sound mesh_type context dom mesh'
  toExtends : Extends mesh mesh'
  upper : ∀ f t, f = 0 ∨ f < t → mesh'.connectivity dom dom f t = mesh.connectivity dom dom f t
  made : ∀ f t, f ≤ mesh_type.num_dimensions → t ≤ mesh_type.num_dimensions →
    (mesh.connectivity dom dom f t).empty = true → (mesh'.connectivity dom dom f t).empty = false →
    (t = 0 ∨ (mesh'.connectivity dom dom t 0).empty = false) →
    MadeTable mesh_type context dom mesh' f t
  new : ∀ f t, (mesh.connectivity dom dom f t).empty = true → (mesh'.connectivity dom dom f t).empty = false →
    t = 0 ∨ mesh.num_entities t dom = 0
  nothing_from : to_dim ≤ from_dim → mesh'.num_entities from_dim dom = 0 →
    mesh'.requested mesh_type context dom from_dim (mesh'.usingDim mesh_type dom from_dim) = []
  nothing_to : mesh'.num_entities to_dim dom = 0 →
    mesh'.requested mesh_type context dom to_dim (mesh'.usingDim mesh_type dom to_dim) = []
  in_vain_from : to_dim = 0 → (mesh.connectivity dom dom from_dim 0).empty = true →
    (mesh.num_entities from_dim dom = 0 →
      mesh.requested mesh_type context dom from_dim (mesh.usingDim mesh_type dom from_dim) = []) →
    (mesh'.connectivity dom dom from_dim 0).empty = true
  in_vain_to : from_dim = 0 → (mesh.connectivity dom dom to_dim 0).empty = true →
    (mesh.num_entities to_dim dom = 0 →
      mesh.requested mesh_type context dom to_dim (mesh.usingDim mesh_type dom to_dim) = []) →
    (mesh'.connectivity dom dom to_dim 0).empty = true

theorem Sound.prepare_step (h : Sound mesh_type context dom mesh) (hcreates : mesh_type.Creates)
    (hreads : ReadsVertices mesh_type) (hf : from_dim ≤ mesh_type.num_dimensions) (ht : to_dim ≤ mesh_type.num_dimensions) :
    ∃ mesh', mesh.prepare mesh_type context dom from_dim to_dim = some mesh' ∧
      PrepareStep mesh_type context dom mesh from_dim to_dim mesh' := by
  obtain ⟨m, hm, hfrom⟩ := h.buildMissing hcreates hreads hf
  obtain ⟨mesh', hmesh, hto⟩ := hfrom.sound.buildMissing hcreates hreads ht
  refine ⟨mesh', ?_, hto.sound, hfrom.toExtends.trans hto.toExtends, fun f t hft => ?_,
    fun f t hfD htD hempty hfilled hvertices => ?_, fun f t hempty hfilled => ?_, fun hle hzero => ?_, hto.nothing,
    fun heq hempty hnothing => ?_, fun heq hempty hnothing => ?_⟩
  · rw [MeshTopology.prepare, h.state.cellsToVertices_eq, Option.bind_some, hm, Option.bind_some, hmesh]
  · rw [hto.upper f t hft, hfrom.upper f t hft]
  · cases hto.made f t with
    | inr hmade => exact hmade.1
    | inl hsame =>
      cases hfrom.made f t with
      | inl hsame' =>
        rw [hsame, hsame', hempty] at hfilled
        cases hfilled
      | inr hmade =>
        rw [hsame] at hfilled
        have hne := (hfrom.sound.state.stored f hfD t htD hfilled).ne_zero
        refine hmade.1.extends hreads hto.toExtends hfilled (hvertices.imp_right fun hvertices => ?_) hne.1 hne.2
        cases eq_or_ne t to_dim with
        | inl heq =>
          subst heq
          rwa [hto.same hne.2] at hvertices
        | inr hne => rwa [hto.to_vertices t hne] at hvertices
  · cases hto.made f t with
    | inr hmade =>
      refine hmade.2.imp_right fun hzero => ?_
      by_contra hne
      exact hne ((hfrom.toExtends.num_entities t dom hne).symm.trans hzero)
    | inl hsame =>
      cases hfrom.made f t with
      | inl hsame' =>
        rw [hsame, hsame', hempty] at hfilled
        cases hfilled
      | inr hmade => exact hmade.2
  · cases eq_or_lt_of_le hle with
    | inl heq =>
      subst heq
      exact hto.nothing hzero
    | inr hlt =>
      rw [hto.num_entities from_dim hlt.ne'] at hzero
      have husing := (hfrom.sound.state.usingDim_spec (hfrom.sound.state.between hf hzero)).1
      rw [usingDim_congr (hto.to_vertices (from_dim + 1) (by omega)),
        requested_congr hreads (hto.to_vertices _ (by omega))]
      exact hfrom.nothing hzero
  · subst heq
    rw [hto.same hfrom.sound.state.vertices_ne_zero]
    exact hfrom.in_vain hempty hnothing
  · subst heq
    rw [hfrom.same h.state.vertices_ne_zero] at hto
    exact hto.in_vain hempty hnothing

end

end MeshTopology

end Flecsi.Topology
