import Flecsi.Topology.ComputeRuns

/-!
# What computations answer

The calls of `compute_connectivity` one by one: to and from the vertices, and
between dimensions whose entities have vertices. `Answerable` puts together when
a request comes back, and then it leaves the incidence relation.
-/

namespace Flecsi.Topology

namespace MeshTopology

section
variable (mesh_type : MeshType) (context : MeshContext) (dom : ℕ) (mesh : MeshTopology)

/-- The relation to fill in. Downwards, entities are connected through their
vertices, and vertices through their cells. -/
def Incidence (from_dim to_dim f t : ℕ) : Prop :=
  if from_dim < to_dim then f ∈ (mesh.connectivity dom dom to_dim from_dim).row t
  else mesh.Connected dom from_dim to_dim (if from_dim = 0 then mesh_type.num_dimensions else 0) f t

structure HasIncidence (from_dim to_dim : ℕ) : Prop where
  from_size : (mesh.connectivity dom dom from_dim to_dim).from_size = mesh.num_entities from_dim dom
  rows : ∀ f < mesh.num_entities from_dim dom, ∀ t, t ∈ (mesh.connectivity dom dom from_dim to_dim).row f ↔
    t < mesh.num_entities to_dim dom ∧ mesh.Incidence mesh_type dom from_dim to_dim f t

/-- What a request may leave where nothing was set. -/
inductive Filled (from_dim to_dim : ℕ) : Prop
  | nothing : mesh.num_entities from_dim dom = 0 → mesh.num_entities to_dim dom = 0 →
      (mesh.connectivity dom dom from_dim to_dim).empty = true → Filled from_dim to_dim
  | made : MadeTable mesh_type context dom mesh from_dim to_dim → Filled from_dim to_dim
  | incidence : HasIncidence mesh_type dom mesh from_dim to_dim → Filled from_dim to_dim

/-- The entities of a dimension have vertices. -/
def Ready (dim : ℕ) : Prop := dim = 0 ∨ (mesh.connectivity dom dom dim 0).empty = false

end

/-- A step that fills at most one table. -/
structure TableStep (mesh_type : MeshType) (dom : ℕ) (mesh : MeshTopology) (f t : ℕ) (mesh' : MeshTopology) : Prop where
  state : MeshState mesh_type dom mesh'
  toExtends : Extends mesh mesh'
  num_entities : mesh'.num_entities = mesh.num_entities
  others : ∀ f' t', ¬(f' = f ∧ t' = t) → mesh'.connectivity dom dom f' t' = mesh.connectivity dom dom f' t'

section
variable {mesh_type : MeshType} {context : MeshContext} {dom : ℕ} {mesh mesh' : MeshTopology}

theorem TableStep.refl (h : MeshState mesh_type dom mesh) (f t : ℕ) : TableStep mesh_type dom mesh f t mesh :=
  ⟨h, .refl mesh, rfl, fun _ _ _ => rfl⟩

/-- An empty table is set. Tables to the vertices are not. -/
theorem MeshState.set (h : MeshState mesh_type dom mesh) {out : Connectivity}
    (hempty : (mesh.connectivity dom dom f t).empty = true) (hshape : t = 0 → f = 0)
    (hstored : out.empty = false → Stored out (mesh.num_entities f dom) (mesh.num_entities t dom))
    (hconverse : f = 0 → 0 < t → ∀ v < mesh.num_entities 0 dom, ∀ e < mesh.num_entities t dom,
      e ∈ out.row v ↔ v ∈ (mesh.connectivity dom dom t 0).row e) :
    TableStep mesh_type dom mesh f t (mesh.setConnectivity dom dom f t out) := by
  have hunchanged := setConnectivity_unchanged mesh dom dom f t out
  have hothers : ∀ f' t', ¬(f' = f ∧ t' = t) →
      (mesh.setConnectivity dom dom f t out).connectivity dom dom f' t' = mesh.connectivity dom dom f' t' :=
    fun f' t' hne => hunchanged.connectivity dom dom f' t' fun heq => hne heq.2.2
  have hextends : Extends mesh (mesh.setConnectivity dom dom f t out) := by
    refine ⟨fun fd td f' t' hfilled => hunchanged.connectivity fd td f' t' ?_, fun _ _ _ => rfl⟩
    rintro ⟨rfl, rfl, rfl, rfl⟩
    rw [hempty] at hfilled
    cases hfilled
  refine ⟨⟨h.dims, hextends.filled h.cells, fun f' hf' t' ht' hfilled => ?_, fun t' ht' hpos hout hin => ?_⟩,
    hextends, rfl, hothers⟩
  · cases Decidable.em (f' = f ∧ t' = t) with
    | inl heq =>
      obtain ⟨rfl, rfl⟩ := heq
      rw [setConnectivity_self] at hfilled ⊢
      exact hstored hfilled
    | inr hne =>
      rw [hothers f' t' hne] at hfilled ⊢
      exact h.stored f' hf' t' ht' hfilled
  · have hto : ¬(t' = f ∧ 0 = t) := by
      rintro ⟨rfl, rfl⟩
      exact hpos.ne' (hshape rfl)
    rw [hothers t' 0 hto] at hin ⊢
    cases Decidable.em (0 = f ∧ t' = t) with
    | inl heq =>
      obtain ⟨rfl, rfl⟩ := heq
      rw [setConnectivity_self]
      exact hconverse rfl hpos
    | inr hne =>
      rw [hothers 0 t' hne] at hout ⊢
      exact h.converse t' ht' hpos hout hin

theorem MeshState.prepare_eq (h : MeshState mesh_type dom mesh) (hf : mesh.num_entities from_dim dom ≠ 0)
    (ht : mesh.num_entities to_dim dom ≠ 0) : mesh.prepare mesh_type context dom from_dim to_dim = some mesh := by
  unfold prepare buildMissing
  rw [h.cellsToVertices_eq, Option.bind_some, if_neg hf, Option.bind_some, if_neg ht]

/-- Upwards, from a table that is there. -/
theorem MeshState.transpose (h : MeshState mesh_type dom mesh) (hf : f ≤ mesh_type.num_dimensions)
    (ht : t ≤ mesh_type.num_dimensions) (hlt : f < t) (hin : (mesh.connectivity dom dom t f).empty = false)
    (hempty : (mesh.connectivity dom dom f t).empty = true) :
    ∃ mesh', mesh.transpose dom dom f t = some mesh' ∧ TableStep mesh_type dom mesh f t mesh' ∧
      (mesh'.connectivity dom dom f t).empty = false ∧ HasIncidence mesh_type dom mesh' f t := by
  obtain ⟨out, hout, hconverse⟩ := (h.stored t ht f hf hin).transpose_eq hempty
  have hmem (v : ℕ) (hv : v < mesh.num_entities f dom) (e : ℕ) (he : e < mesh.num_entities t dom) :
      e ∈ out.row v ↔ v ∈ (mesh.connectivity dom dom t f).row e := by
    rw [← List.count_pos_iff, hconverse.count v hv e he, List.count_pos_iff]
  have hstep := h.set hempty (fun heq => by omega) (fun _ => hconverse.stored) fun heq _ => heq ▸ hmem
  refine ⟨_, hout, hstep, ?_, ?_, fun v hv e => ?_⟩
  · rw [setConnectivity_self]
    exact hconverse.stored.filled
  · rw [setConnectivity_self]
    obtain ⟨rows, rfl, hlen, -⟩ := hconverse.stored.rows
    rw [Connectivity.from_size_init, hlen]
    rfl
  · rw [setConnectivity_self, Incidence, if_pos hlt, hstep.others t f (by omega)]
    constructor
    · intro he
      have hlt := hconverse.stored.lt_of_mem_row hv he
      exact ⟨hlt, (hmem v hv e hlt).mp he⟩
    · rintro ⟨hlt, he⟩
      exact (hmem v hv e hlt).mpr he

variable (context) in
/-- From the vertices to entities that have vertices. -/
theorem MeshState.from_vertices (h : MeshState mesh_type dom mesh) (ht : t ≤ mesh_type.num_dimensions) (hpos : 0 < t)
    (hready : (mesh.connectivity dom dom t 0).empty = false) :
    ∃ mesh', Computes mesh_type context dom mesh 0 t mesh' ∧ TableStep mesh_type dom mesh 0 t mesh' ∧
      (mesh'.connectivity dom dom 0 t).empty = false := by
  cases hempty : (mesh.connectivity dom dom 0 t).empty with
  | false => exact ⟨mesh, .set hempty, .refl h 0 t, hempty⟩
  | true =>
    have hne := (h.stored t ht 0 (Nat.zero_le _) hready).ne_zero
    obtain ⟨mesh', hmesh, hstep, hfilled, -⟩ := h.transpose (Nat.zero_le _) ht hpos hready hempty
    exact ⟨mesh', .up hempty (h.prepare_eq hne.2 hne.1) (fun hzero => hne.1 hzero.2) hpos (.set hready) hmesh, hstep,
      hfilled⟩

theorem connected_congr {f t : ℕ}
    (hfrom : mesh'.connectivity dom dom from_dim dim = mesh.connectivity dom dom from_dim dim)
    (hto : mesh'.connectivity dom dom to_dim dim = mesh.connectivity dom dom to_dim dim) :
    mesh'.Connected dom from_dim to_dim dim f t ↔ mesh.Connected dom from_dim to_dim dim f t := by
  rw [Connected, Connected, Incident, Incident, hfrom, hto]

/-- Downwards, through a dimension that both know. -/
theorem MeshState.intersect (h : MeshState mesh_type dom mesh) (hlinked : Linked mesh dom from_dim to_dim dim)
    (hempty : (mesh.connectivity dom dom from_dim to_dim).empty = true) (hle : to_dim ≤ from_dim)
    (hshape : to_dim = 0 → from_dim = 0) (hdim : dim = if from_dim = 0 then mesh_type.num_dimensions else 0)
    (hne : dim ≠ to_dim) :
    ∃ mesh', mesh.intersect dom dom from_dim to_dim dim = some mesh' ∧
      TableStep mesh_type dom mesh from_dim to_dim mesh' ∧ HasIncidence mesh_type dom mesh' from_dim to_dim := by
  obtain ⟨rows, hrows, hlen, hmem⟩ := hlinked.intersect_eq hempty
  have hbound : ∀ row ∈ rows, ∀ i ∈ row, i < mesh.num_entities to_dim dom := by
    intro row hrow i hi
    obtain ⟨f, hf, rfl⟩ := List.getElem_of_mem hrow
    rw [← List.getD_eq_getElem _ [] hf] at hi
    exact (((hmem f (hlen ▸ hf)).2 i).mp hi).1
  have hstep := h.set hempty hshape (stored_init hlen hbound) fun hzero hpos => by omega
  refine ⟨_, hrows, hstep, ?_, fun f hf t => ?_⟩
  · rw [setConnectivity_self, Connectivity.from_size_init, hlen]
    rfl
  · have hlt : f < rows.length := hlen ▸ hf
    have hcongr : (mesh.setConnectivity dom dom from_dim to_dim (Connectivity.init rows)).Connected dom from_dim to_dim
        dim f t ↔ mesh.Connected dom from_dim to_dim dim f t :=
      connected_congr (hstep.others from_dim dim fun heq => hne heq.2) (hstep.others to_dim dim fun heq => hne heq.2)
    rw [setConnectivity_self, Connectivity.row_init hlt, ← List.getD_eq_getElem _ [] hlt, (hmem f hf).2, Incidence,
      if_neg (Nat.not_lt.mpr hle), ← hdim, hcongr]
    rfl

variable (context) in
/-- Vertices through the cells they share. -/
theorem MeshState.vertices (h : MeshState mesh_type dom mesh) :
    ∃ mesh', Computes mesh_type context dom mesh 0 0 mesh' ∧ MeshState mesh_type dom mesh' ∧ Extends mesh mesh' ∧
      mesh'.num_entities = mesh.num_entities ∧
      (∀ f t, f ≠ 0 → mesh'.connectivity dom dom f t = mesh.connectivity dom dom f t) ∧
      ((mesh.connectivity dom dom 0 0).empty = true → HasIncidence mesh_type dom mesh' 0 0) := by
  cases hempty : (mesh.connectivity dom dom 0 0).empty with
  | false => exact ⟨mesh, .set hempty, h, .refl mesh, rfl, fun _ _ _ => rfl, fun hout => by cases hout⟩
  | true =>
    have hpos : 0 < mesh_type.num_dimensions := by
      have hdims := h.dims
      omega
    obtain ⟨m, hm, hstep, hfilled⟩ := h.from_vertices context le_rfl hpos h.cells
    have hstate := hstep.state
    have hout : (m.connectivity dom dom 0 0).empty = true := by
      rw [hstep.others 0 0 (by omega)]
      exact hempty
    have hlinked : Linked m dom 0 0 mesh_type.num_dimensions := by
      refine ⟨hstate.stored 0 (Nat.zero_le _) _ le_rfl hfilled, hstate.stored 0 (Nat.zero_le _) _ le_rfl hfilled,
        hstate.stored _ le_rfl 0 (Nat.zero_le _) hstate.cells, fun d hd t ht => ?_⟩
      exact (hstate.converse _ le_rfl hpos hfilled hstate.cells t ht d hd).symm
    obtain ⟨mesh', hmesh, hstep', hincidence⟩ := hstate.intersect hlinked hout le_rfl (fun _ => rfl)
      (if_pos rfl).symm hpos.ne'
    refine ⟨mesh', .vertices hempty (h.prepare_eq h.vertices_ne_zero h.vertices_ne_zero) h.vertices_ne_zero hm
      (.set hstate.cells) hmesh, hstep'.state, hstep.toExtends.trans hstep'.toExtends,
      hstep'.num_entities.trans hstep.num_entities, fun f t hf => ?_, fun _ => hincidence⟩
    rw [hstep'.others f t fun heq => hf heq.1, hstep.others f t fun heq => hf heq.1]

variable (context) in
/-- The calls of a request downwards, between dimensions that are ready. -/
theorem MeshState.down (h : MeshState mesh_type dom mesh) (hf : from_dim ≤ mesh_type.num_dimensions)
    (hle : to_dim ≤ from_dim) (hpos : 0 < from_dim) (hfrom : Ready dom mesh from_dim) (hto : Ready dom mesh to_dim) :
    ∃ m m' mesh', Computes mesh_type context dom mesh from_dim 0 m ∧ Computes mesh_type context dom m 0 to_dim m' ∧
      m'.intersect dom dom from_dim to_dim 0 = some mesh' ∧ MeshState mesh_type dom mesh' ∧ Extends mesh mesh' ∧
      mesh'.num_entities = mesh.num_entities ∧
      (∀ f t, f ≠ 0 → f < t → mesh'.connectivity dom dom f t = mesh.connectivity dom dom f t) ∧
      (0 < to_dim → (mesh.connectivity dom dom from_dim to_dim).empty = true →
        HasIncidence mesh_type dom mesh' from_dim to_dim) := by
  have hfrom := hfrom.resolve_left hpos.ne'
  cases Nat.eq_zero_or_pos to_dim with
  | inl hzero =>
    subst hzero
    obtain ⟨m, hm, hstate, hextends, hnum, hothers, -⟩ := h.vertices context
    refine ⟨mesh, m, m, .set hfrom, hm, ?_, hstate, hextends, hnum, fun f t hne _ => hothers f t hne, fun hlt => ?_⟩
    · rw [MeshTopology.intersect, hextends.filled hfrom]
      rfl
    · cases hlt
  | inr hto_pos =>
    have hto := hto.resolve_left hto_pos.ne'
    have ht := hle.trans hf
    obtain ⟨m, hm, hstep, hfilled⟩ := h.from_vertices context ht hto_pos hto
    have hstate := hstep.state
    have hupper (f t : ℕ) (hne : f ≠ 0) : m.connectivity dom dom f t = mesh.connectivity dom dom f t :=
      hstep.others f t fun heq => hne heq.1
    cases hempty : (mesh.connectivity dom dom from_dim to_dim).empty with
    | false =>
      refine ⟨mesh, m, m, .set hfrom, hm, ?_, hstate, hstep.toExtends, hstep.num_entities,
        fun f t hne _ => hupper f t hne, fun _ hout => by cases hout⟩
      rw [MeshTopology.intersect, hstep.toExtends.filled hempty]
      rfl
    | true =>
      have hlinked : Linked m dom from_dim to_dim 0 :=
        ⟨hstate.stored _ hf 0 (Nat.zero_le _) (hstep.toExtends.filled hfrom),
          hstate.stored _ ht 0 (Nat.zero_le _) (hstep.toExtends.filled hto),
          hstate.stored 0 (Nat.zero_le _) _ ht hfilled,
          hstate.converse _ ht hto_pos hfilled (hstep.toExtends.filled hto)⟩
      obtain ⟨mesh', hmesh, hstep', hincidence⟩ := hstate.intersect hlinked
        (by rw [hupper from_dim to_dim hpos.ne', hempty]) hle (fun heq => absurd heq hto_pos.ne')
        (if_neg hpos.ne').symm hto_pos.ne
      refine ⟨mesh, m, mesh', .set hfrom, hm, hmesh, hstep'.state, hstep.toExtends.trans hstep'.toExtends,
        hstep'.num_entities.trans hstep.num_entities, fun f t hne hlt => ?_, fun _ _ => hincidence⟩
      rw [hstep'.others f t fun heq => by omega, hupper f t hne]

end

-- ---------------------------------------------------------------------------
-- Requests that do not come back
-- ---------------------------------------------------------------------------

section
variable {mesh_type : MeshType} {context : MeshContext} {dom : ℕ} (hcreates : mesh_type.Creates)
  (hreads : ReadsVertices mesh_type) {mesh mesh' : MeshTopology}

include hcreates hreads in
/-- The vertices of entities that have none, and that cells do not make, are
asked for forever. -/
theorem Computes.ready (hcomputes : Computes mesh_type context dom mesh f t mesh') (h : Sound mesh_type context dom mesh)
    (hf : f ≤ mesh_type.num_dimensions) (hpos : 0 < f) (ht : t = 0)
    (hnothing : mesh.num_entities f dom = 0 →
      mesh.requested mesh_type context dom f (mesh.usingDim mesh_type dom f) = []) :
    (mesh.connectivity dom dom f 0).empty = false := by
  induction hcomputes with
  | set hfilled => exact ht ▸ hfilled
  | none _ hm _ hzero =>
    subst ht
    obtain ⟨m, hm', hstep⟩ := h.prepare_step hcreates hreads hf (Nat.zero_le _)
    obtain rfl := Option.some.inj (hm.symm.trans hm')
    exact absurd hzero hstep.sound.state.vertices_ne_zero
  | up _ _ _ hlt _ _ _ => omega
  | vertices _ _ _ _ _ _ _ _ => cases hpos
  | down _ hm _ _ _ _ _ _ ih _ =>
    subst ht
    obtain ⟨m, hm', hstep⟩ := h.prepare_step hcreates hreads hf (Nat.zero_le _)
    obtain rfl := Option.some.inj (hm.symm.trans hm')
    have hready := ih hstep.sound hf hpos rfl (hstep.nothing_from (Nat.zero_le _))
    by_contra hempty
    rw [hstep.in_vain_from rfl (by simpa using hempty) hnothing] at hready
    cases hready

end

-- ---------------------------------------------------------------------------
-- Requests that come back
-- ---------------------------------------------------------------------------

section
variable (mesh_type : MeshType) (context : MeshContext) (dom : ℕ)

/-- Some entity of the first dimension is connected to one of the second, once
what is missing was built. -/
def Related (mesh : MeshTopology) (from_dim to_dim : ℕ) : Prop :=
  ∃ m, mesh.prepare mesh_type context dom from_dim to_dim = some m ∧
    ((m.connectivity dom dom from_dim to_dim).empty = false ∨
      ∃ f < m.num_entities from_dim dom, ∃ t < m.num_entities to_dim dom, m.Connected dom from_dim to_dim 0 f t)

/-- The requests that come back: the table is set; or there is nothing to
connect; or, downwards, both dimensions have vertices; or, upwards, the request
downwards comes back and finds a connection. -/
inductive Answerable : MeshTopology → ℕ → ℕ → Prop
  | set : (mesh.connectivity dom dom from_dim to_dim).empty = false → Answerable mesh from_dim to_dim
  | nothing : mesh.prepare mesh_type context dom from_dim to_dim = some m → m.num_entities from_dim dom = 0 →
      m.num_entities to_dim dom = 0 → Answerable mesh from_dim to_dim
  | down : mesh.prepare mesh_type context dom from_dim to_dim = some m → to_dim ≤ from_dim → Ready dom m from_dim →
      Ready dom m to_dim → Answerable mesh from_dim to_dim
  | up : mesh.prepare mesh_type context dom from_dim to_dim = some m → from_dim < to_dim →
      Answerable m to_dim from_dim → Related mesh_type context dom m to_dim from_dim → Answerable mesh from_dim to_dim

end

section
variable {mesh_type : MeshType} {context : MeshContext} {dom : ℕ} {mesh m : MeshTopology} {from_dim to_dim : ℕ}
  (hreads : ReadsVertices mesh_type) (hf : from_dim ≤ mesh_type.num_dimensions) (ht : to_dim ≤ mesh_type.num_dimensions)
  (hempty : (mesh.connectivity dom dom from_dim to_dim).empty = true)
  (hm : mesh.prepare mesh_type context dom from_dim to_dim = some m)
  (hstep : PrepareStep mesh_type context dom mesh from_dim to_dim m) (h : MeshState mesh_type dom mesh)

include hempty hm hstep in
theorem PrepareStep.nothing (hf : from_dim ≤ mesh_type.num_dimensions) (ht : to_dim ≤ mesh_type.num_dimensions)
    (hfrom : m.num_entities from_dim dom = 0) (hto : m.num_entities to_dim dom = 0) :
    Computes mesh_type context dom mesh from_dim to_dim m ∧ Filled mesh_type context dom m from_dim to_dim :=
  ⟨.none hempty hm hfrom hto, .nothing hfrom hto (hstep.sound.state.empty_of_zero hf ht (.inl hfrom))⟩

include hreads hf ht hempty hm hstep h in
/-- A request downwards between dimensions that are ready. -/
theorem PrepareStep.down (hle : to_dim ≤ from_dim) (hfrom : Ready dom m from_dim) (hto : Ready dom m to_dim) :
    ∃ mesh', Computes mesh_type context dom mesh from_dim to_dim mesh' ∧ MeshState mesh_type dom mesh' ∧
      Extends m mesh' ∧ Filled mesh_type context dom mesh' from_dim to_dim ∧
      (∀ f t, f ≠ 0 → f < t → mesh'.connectivity dom dom f t = mesh.connectivity dom dom f t) ∧
      (0 < to_dim → (m.connectivity dom dom from_dim to_dim).empty = true →
        HasIncidence mesh_type dom mesh' from_dim to_dim) := by
  cases Nat.eq_zero_or_pos from_dim with
  | inl hzero =>
    subst hzero
    obtain rfl : to_dim = 0 := Nat.le_zero.mp hle
    obtain rfl := Option.some.inj ((h.prepare_eq h.vertices_ne_zero h.vertices_ne_zero).symm.trans hm)
    obtain ⟨mesh', hmesh, hstate, hextends, -, hothers, hincidence⟩ := h.vertices context
    exact ⟨mesh', hmesh, hstate, hextends, .incidence (hincidence hempty), fun f t hne _ => hothers f t hne,
      fun _ => hincidence⟩
  | inr hpos =>
    obtain ⟨m₁, m₂, mesh', hm₁, hm₂, hmesh, hstate, hextends, -, hupper, hincidence⟩ :=
      hstep.sound.state.down context hf hle hpos hfrom hto
    have hfrom := hfrom.resolve_left hpos.ne'
    have hne := (hstep.sound.state.stored _ hf 0 (Nat.zero_le _) hfrom).ne_zero
    refine ⟨mesh', .down hempty hm (fun hzero => hne.1 hzero.1) hle (fun hzero => hpos.ne' hzero.1) hm₁ hm₂ hmesh, hstate,
      hextends, ?_, fun f t hf' hlt => ?_, hincidence⟩
    · cases hout : (m.connectivity dom dom from_dim to_dim).empty with
      | false =>
        have hmade := hstep.made from_dim to_dim hf ht hempty hout hto
        have hne := (hstep.sound.state.stored _ hf _ ht hout).ne_zero
        exact .made (hmade.extends hreads hextends hout hto hne.1 hne.2)
      | true =>
        have hto_pos : 0 < to_dim := by
          refine Nat.pos_of_ne_zero fun heq => ?_
          rw [heq, hfrom] at hout
          cases hout
        exact .incidence (hincidence hto_pos hout)
    · rw [hupper f t hf' hlt, hstep.upper f t (.inr hlt)]

end

section
variable {mesh_type : MeshType} {context : MeshContext} {dom : ℕ} (hcreates : mesh_type.Creates)
  (hreads : ReadsVertices mesh_type) {mesh mesh' : MeshTopology} {from_dim to_dim : ℕ}
  (h : Sound mesh_type context dom mesh) (hf : from_dim ≤ mesh_type.num_dimensions)
  (ht : to_dim ≤ mesh_type.num_dimensions)

/-- What the call downwards leaves for a request upwards. -/
structure Turned (mesh_type : MeshType) (context : MeshContext) (dom : ℕ) (mesh m : MeshTopology) (from_dim to_dim : ℕ)
    (m' : MeshTopology) : Prop where
  computes : Computes mesh_type context dom m to_dim from_dim m'
  state : MeshState mesh_type dom m'
  toExtends : Extends m m'
  out : (m'.connectivity dom dom from_dim to_dim).empty = true
  num_entities : m'.num_entities to_dim dom ≠ 0
  related : (m'.connectivity dom dom to_dim from_dim).empty = false ↔ Related mesh_type context dom m to_dim from_dim

theorem Stored.exists_mem {c : Connectivity} {n m : ℕ} (h : Stored c n m) : ∃ k < n, ∃ i, i ∈ c.row k := by
  obtain ⟨⟨rows, rfl, hlen, -⟩, hfilled⟩ := h
  have hne : ¬∀ row ∈ rows, row = [] := by
    rw [← empty_init, hfilled]
    simp
  push Not at hne
  obtain ⟨row, hrow, hnil⟩ := hne
  obtain ⟨i, hi⟩ := List.exists_mem_of_ne_nil _ hnil
  obtain ⟨k, hk, rfl⟩ := List.getElem_of_mem hrow
  exact ⟨k, hlen ▸ hk, i, by rwa [Connectivity.row_init hk]⟩

theorem filled_of_mem {c : Connectivity} (h : i ∈ c.row k) : c.empty = false := by
  cases hempty : c.empty with
  | false => rfl
  | true =>
    rw [Connectivity.row, List.isEmpty_iff.mp hempty] at h
    simp at h

include hcreates hreads h hf ht in
/-- The request downwards in one upwards: it finds a connection if there is
one. -/
theorem Sound.turned {m : MeshTopology} (hlt : from_dim < to_dim)
    (hempty : (mesh.connectivity dom dom from_dim to_dim).empty = true)
    (hm : mesh.prepare mesh_type context dom from_dim to_dim = some m)
    (hsome : ¬(m.num_entities from_dim dom = 0 ∧ m.num_entities to_dim dom = 0))
    (hanswerable : Answerable mesh_type context dom m to_dim from_dim) :
    ∃ m', Turned mesh_type context dom mesh m from_dim to_dim m' := by
  obtain ⟨m', hm', hstep⟩ := h.prepare_step hcreates hreads hf ht
  obtain rfl := Option.some.inj (hm.symm.trans hm')
  obtain ⟨m₁, hm₁, hstep₁⟩ := hstep.sound.prepare_step hcreates hreads ht hf
  have hout : (m.connectivity dom dom from_dim to_dim).empty = true := by
    rw [hstep.upper from_dim to_dim (.inr hlt)]
    exact hempty
  have hset (hfilled : (m.connectivity dom dom to_dim from_dim).empty = false) :
      Turned mesh_type context dom mesh m from_dim to_dim m :=
    ⟨.set hfilled, hstep.sound.state, .refl m, hout, (hstep.sound.state.stored _ ht _ hf hfilled).ne_zero.1,
      iff_of_true hfilled ⟨m₁, hm₁, .inl (hstep₁.toExtends.filled hfilled)⟩⟩
  cases hanswerable with
  | set hfilled => exact ⟨m, hset hfilled⟩
  | nothing hm₂ hto hfrom =>
    obtain rfl := Option.some.inj (hm₁.symm.trans hm₂)
    refine absurd ⟨?_, ?_⟩ hsome
    · by_contra hne
      exact hne ((hstep₁.toExtends.num_entities _ _ hne).symm.trans hfrom)
    · by_contra hne
      exact hne ((hstep₁.toExtends.num_entities _ _ hne).symm.trans hto)
  | up _ hlt' _ _ => omega
  | down hm₂ _ hto hfrom =>
    obtain rfl := Option.some.inj (hm₁.symm.trans hm₂)
    have hto_vertices := hto.resolve_left (Nat.ne_of_gt (Nat.lt_of_le_of_lt (Nat.zero_le _) hlt))
    cases hin : (m.connectivity dom dom to_dim from_dim).empty with
    | false => exact ⟨m, hset hin⟩
    | true =>
      cases Nat.eq_zero_or_pos from_dim with
      | inl hzero =>
        -- nothing more was built, so the vertices were there before
        subst hzero
        rw [hstep₁.in_vain_from rfl hin hstep.nothing_to] at hto_vertices
        cases hto_vertices
      | inr hpos =>
        have hfrom_vertices := hfrom.resolve_left hpos.ne'
        obtain ⟨m', hm', hstate, hextends, -, hupper, hincidence⟩ :=
          hstep₁.down hreads ht hf hin hm₁ hstep.sound.state hlt.le hto hfrom
        have hto_ne := (hstep₁.sound.state.stored _ ht 0 (Nat.zero_le _) hto_vertices).ne_zero.1
        have hto_num := hextends.num_entities to_dim dom hto_ne
        refine ⟨m', hm', hstate, hstep₁.toExtends.trans hextends, ?_, ?_, ?_⟩
        · rw [hupper _ _ hpos.ne' hlt]
          exact hout
        · rw [hto_num]
          exact hto_ne
        · have hfrom_num := hextends.num_entities from_dim dom
            (hstep₁.sound.state.stored _ hf 0 (Nat.zero_le _) hfrom_vertices).ne_zero.1
          have hcongr (t f : ℕ) : m'.Incidence mesh_type dom to_dim from_dim t f ↔
              m₁.Connected dom to_dim from_dim 0 t f := by
            rw [Incidence, if_neg (Nat.not_lt.mpr hlt.le), if_neg (by omega)]
            exact connected_congr (hextends.kept _ _ _ _ hto_vertices) (hextends.kept _ _ _ _ hfrom_vertices)
          constructor
          · intro hfilled
            refine ⟨m₁, hm₁, ?_⟩
            cases hin₁ : (m₁.connectivity dom dom to_dim from_dim).empty with
            | false => exact .inl rfl
            | true =>
              obtain ⟨t, ht', f, hmem⟩ := (hstate.stored _ ht _ hf hfilled).exists_mem
              obtain ⟨hf', hrel⟩ := ((hincidence hpos hin₁).rows t ht' f).mp hmem
              exact .inr ⟨t, hto_num ▸ ht', f, hfrom_num ▸ hf', (hcongr t f).mp hrel⟩
          · rintro ⟨m₂, hm₂, hrel⟩
            obtain rfl := Option.some.inj (hm₁.symm.trans hm₂)
            cases hin₁ : (m₁.connectivity dom dom to_dim from_dim).empty with
            | false => exact hextends.filled hin₁
            | true =>
              obtain ⟨t, ht', f, hf', hconnected⟩ := hrel.resolve_left (by rw [hin₁]; simp)
              exact filled_of_mem (((hincidence hpos hin₁).rows t (hto_num ▸ ht') f).mpr
                ⟨hfrom_num ▸ hf', (hcongr t f).mpr hconnected⟩)

include hcreates hreads h hf ht in
theorem Answerable.computes (hanswerable : Answerable mesh_type context dom mesh from_dim to_dim) :
    ∃ mesh', Computes mesh_type context dom mesh from_dim to_dim mesh' ∧ Extends mesh mesh' ∧
      ((mesh.connectivity dom dom from_dim to_dim).empty = true →
        Filled mesh_type context dom mesh' from_dim to_dim) := by
  cases hempty : (mesh.connectivity dom dom from_dim to_dim).empty with
  | false => exact ⟨mesh, .set hempty, .refl mesh, fun hout => by cases hout⟩
  | true =>
    obtain ⟨m, hm, hstep⟩ := h.prepare_step hcreates hreads hf ht
    have hnothing (hfrom : m.num_entities from_dim dom = 0) (hto : m.num_entities to_dim dom = 0) :
        ∃ mesh', Computes mesh_type context dom mesh from_dim to_dim mesh' ∧ Extends mesh mesh' ∧
          (true = true → Filled mesh_type context dom mesh' from_dim to_dim) := by
      obtain ⟨hcomputes, hfilled⟩ := hstep.nothing hempty hm hf ht hfrom hto
      exact ⟨m, hcomputes, hstep.toExtends, fun _ => hfilled⟩
    cases hanswerable with
    | set hfilled =>
      rw [hempty] at hfilled
      cases hfilled
    | nothing hm' hfrom hto =>
      obtain rfl := Option.some.inj (hm.symm.trans hm')
      exact hnothing hfrom hto
    | down hm' hle hfrom hto =>
      obtain rfl := Option.some.inj (hm.symm.trans hm')
      obtain ⟨mesh', hcomputes, -, hextends, hfilled, -⟩ := hstep.down hreads hf ht hempty hm h.state hle hfrom hto
      exact ⟨mesh', hcomputes, hstep.toExtends.trans hextends, fun _ => hfilled⟩
    | up hm' hlt hrec hrelated =>
      obtain rfl := Option.some.inj (hm.symm.trans hm')
      cases Decidable.em (m.num_entities from_dim dom = 0 ∧ m.num_entities to_dim dom = 0) with
      | inl hzero => exact hnothing hzero.1 hzero.2
      | inr hsome =>
        obtain ⟨m', hturned⟩ := h.turned hcreates hreads hf ht hlt hempty hm hsome hrec
        obtain ⟨mesh', hmesh, hset, -, hincidence⟩ :=
          hturned.state.transpose hf ht hlt (hturned.related.mpr hrelated) hturned.out
        exact ⟨mesh', .up hempty hm hsome hlt hturned.computes hmesh,
          hstep.toExtends.trans (hturned.toExtends.trans hset.toExtends), fun _ => .incidence hincidence⟩

end

end MeshTopology

end Flecsi.Topology
