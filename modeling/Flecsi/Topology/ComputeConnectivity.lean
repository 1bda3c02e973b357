import Flecsi.Topology.BuildConnectivity

/-!
# Computed connectivities

`compute_connectivity` fills the connectivity between two dimensions from those
that are there, by calls of itself for other pairs. It has no measure: that a
call comes back depends on what the calls before have filled. The recursion is
a function with fuel here, and `Computes` holds of the calls that come back.
-/

namespace Flecsi.Topology

/-- Why a call has no result. -/
inductive Stop
  | assertion
  | fuel
  deriving DecidableEq, Repr

def checked : Option α → Except Stop α
  | some a => .ok a
  | none => .error .assertion

theorem bind_ok {x : Except ε α} {f : α → Except ε β} : x >>= f = .ok b ↔ ∃ a, x = .ok a ∧ f a = .ok b := by
  cases x <;> simp [bind, Except.bind]

theorem checked_ok {x : Option α} : checked x = .ok a ↔ x = some a := by
  cases x
  · exact ⟨fun h => (nomatch h), fun h => (nomatch h)⟩
  · simp [checked]

namespace MeshTopology

section
variable (mesh_type : MeshType) (context : MeshContext) (dom : ℕ)

/-- If there are no cell to vertex connectivities, they are built through the
faces or edges. -/
def cellsToVertices (mesh : MeshTopology) : Option MeshTopology :=
  let D := mesh_type.num_dimensions
  if (mesh.connectivity dom dom D 0).empty then
    if (mesh.connectivity dom dom (D - 1) 0).empty then none
    else do
      -- assume we have cell -> faces, so invert it to get faces -> cells
      let mesh ← mesh.transpose dom dom (D - 1) D
      -- invert faces -> vertices to get vertices -> faces
      let mesh ← mesh.transpose dom dom 0 (D - 1)
      mesh.intersect dom dom D 0 (D - 1)
  else some mesh

/-- The dimension whose entities say what the entities of `dim` are. -/
def usingDim (mesh : MeshTopology) (dim : ℕ) : ℕ :=
  if (mesh.connectivity dom dom (dim + 1) 0).empty then mesh_type.num_dimensions else dim + 1

/-- Check if we need to build entities, e.g: edges or faces. -/
def buildMissing (dim : ℕ) (mesh : MeshTopology) : Option MeshTopology :=
  if mesh.num_entities dim dom = 0 then
    mesh.buildConnectivity mesh_type context dom dim (mesh.usingDim mesh_type dom dim)
  else some mesh

/-- What a call does before it calls itself. -/
def prepare (mesh : MeshTopology) (from_dim to_dim : ℕ) : Option MeshTopology :=
  (mesh.cellsToVertices mesh_type dom).bind fun mesh =>
  (mesh.buildMissing mesh_type context dom from_dim).bind fun mesh =>
  mesh.buildMissing mesh_type context dom to_dim

def computeConnectivity : ℕ → MeshTopology → ℕ → ℕ → Except Stop MeshTopology
  | 0, _, _, _ => .error .fuel
  | fuel + 1, mesh, from_dim, to_dim =>
    -- Check if we have already computed it
    if !(mesh.connectivity dom dom from_dim to_dim).empty then .ok mesh
    else do
      let mesh ← checked (mesh.prepare mesh_type context dom from_dim to_dim)
      if mesh.num_entities from_dim dom = 0 ∧ mesh.num_entities to_dim dom = 0 then .ok mesh
      else if from_dim < to_dim then do
        let mesh ← computeConnectivity fuel mesh to_dim from_dim
        checked (mesh.transpose dom dom from_dim to_dim)
      else if from_dim = 0 ∧ to_dim = 0 then do
        -- compute vertex to vertex connectivities through shared cells.
        let mesh ← computeConnectivity fuel mesh from_dim mesh_type.num_dimensions
        let mesh ← computeConnectivity fuel mesh mesh_type.num_dimensions to_dim
        checked (mesh.intersect dom dom from_dim to_dim mesh_type.num_dimensions)
      else do
        -- computer connectivities through shared vertices.
        let mesh ← computeConnectivity fuel mesh from_dim 0
        let mesh ← computeConnectivity fuel mesh 0 to_dim
        checked (mesh.intersect dom dom from_dim to_dim 0)

/-- A call that comes back: the calls below it come back, and no assertion
fails. -/
inductive Computes : MeshTopology → ℕ → ℕ → MeshTopology → Prop
  | set : (mesh.connectivity dom dom from_dim to_dim).empty = false → Computes mesh from_dim to_dim mesh
  | none : (mesh.connectivity dom dom from_dim to_dim).empty = true →
      mesh.prepare mesh_type context dom from_dim to_dim = some mesh' →
      mesh'.num_entities from_dim dom = 0 → mesh'.num_entities to_dim dom = 0 → Computes mesh from_dim to_dim mesh'
  | up : (mesh.connectivity dom dom from_dim to_dim).empty = true →
      mesh.prepare mesh_type context dom from_dim to_dim = some m →
      ¬(m.num_entities from_dim dom = 0 ∧ m.num_entities to_dim dom = 0) → from_dim < to_dim →
      Computes m to_dim from_dim m' → m'.transpose dom dom from_dim to_dim = some mesh' →
      Computes mesh from_dim to_dim mesh'
  | vertices : (mesh.connectivity dom dom 0 0).empty = true →
      mesh.prepare mesh_type context dom 0 0 = some m → m.num_entities 0 dom ≠ 0 →
      Computes m 0 mesh_type.num_dimensions m' → Computes m' mesh_type.num_dimensions 0 m'' →
      m''.intersect dom dom 0 0 mesh_type.num_dimensions = some mesh' → Computes mesh 0 0 mesh'
  | down : (mesh.connectivity dom dom from_dim to_dim).empty = true →
      mesh.prepare mesh_type context dom from_dim to_dim = some m →
      ¬(m.num_entities from_dim dom = 0 ∧ m.num_entities to_dim dom = 0) → to_dim ≤ from_dim →
      ¬(from_dim = 0 ∧ to_dim = 0) → Computes m from_dim 0 m' → Computes m' 0 to_dim m'' →
      m''.intersect dom dom from_dim to_dim 0 = some mesh' → Computes mesh from_dim to_dim mesh'

end

section
variable {mesh_type : MeshType} {context : MeshContext} {dom : ℕ}

/-- A call that comes back does so with any fuel from some depth on. -/
theorem Computes.ok {mesh mesh' : MeshTopology} {from_dim to_dim : ℕ}
    (h : Computes mesh_type context dom mesh from_dim to_dim mesh') :
    ∃ depth, ∀ fuel, computeConnectivity mesh_type context dom (depth + fuel) mesh from_dim to_dim = .ok mesh' := by
  induction h with
  | set hfilled =>
    refine ⟨1, fun fuel => ?_⟩
    rw [Nat.add_comm, computeConnectivity, hfilled]
    rfl
  | none hempty hm hfrom hto =>
    refine ⟨1, fun fuel => ?_⟩
    rw [Nat.add_comm, computeConnectivity, hempty, hm]
    simp only [Bool.not_true, Bool.false_eq_true, if_false]
    exact if_pos ⟨hfrom, hto⟩
  | up hempty hm hsome hlt _ hout ih =>
    obtain ⟨depth, hrec⟩ := ih
    refine ⟨depth + 1, fun fuel => ?_⟩
    rw [Nat.add_right_comm, computeConnectivity, hempty, hm]
    simp only [Bool.not_true, Bool.false_eq_true, if_false]
    refine bind_ok.mpr ⟨_, rfl, ?_⟩
    rw [if_neg hsome, if_pos hlt]
    exact bind_ok.mpr ⟨_, hrec fuel, checked_ok.mpr hout⟩
  | vertices hempty hm hsome _ _ hout ih ih' =>
    obtain ⟨depth, hrec⟩ := ih
    obtain ⟨depth', hrec'⟩ := ih'
    refine ⟨depth + depth' + 1, fun fuel => ?_⟩
    rw [Nat.add_right_comm, computeConnectivity, hempty, hm]
    simp only [Bool.not_true, Bool.false_eq_true, if_false]
    refine bind_ok.mpr ⟨_, rfl, ?_⟩
    rw [if_neg fun h => hsome h.1, if_neg (Nat.lt_irrefl 0), if_pos ⟨trivial, trivial⟩]
    have hfirst := hrec (depth' + fuel)
    have hsecond := hrec' (depth + fuel)
    rw [← Nat.add_assoc] at hfirst
    rw [← Nat.add_assoc, Nat.add_comm depth'] at hsecond
    exact bind_ok.mpr ⟨_, hfirst, bind_ok.mpr ⟨_, hsecond, checked_ok.mpr hout⟩⟩
  | down hempty hm hsome hle hzero _ _ hout ih ih' =>
    obtain ⟨depth, hrec⟩ := ih
    obtain ⟨depth', hrec'⟩ := ih'
    refine ⟨depth + depth' + 1, fun fuel => ?_⟩
    rw [Nat.add_right_comm, computeConnectivity, hempty, hm]
    simp only [Bool.not_true, Bool.false_eq_true, if_false]
    refine bind_ok.mpr ⟨_, rfl, ?_⟩
    rw [if_neg hsome, if_neg (Nat.not_lt.mpr hle), if_neg hzero]
    have hfirst := hrec (depth' + fuel)
    have hsecond := hrec' (depth + fuel)
    rw [← Nat.add_assoc] at hfirst
    rw [← Nat.add_assoc, Nat.add_comm depth'] at hsecond
    exact bind_ok.mpr ⟨_, hfirst, bind_ok.mpr ⟨_, hsecond, checked_ok.mpr hout⟩⟩

/-- The same call has one result. -/
theorem Computes.unique {mesh m m' : MeshTopology} {from_dim to_dim : ℕ}
    (h : Computes mesh_type context dom mesh from_dim to_dim m)
    (h' : Computes mesh_type context dom mesh from_dim to_dim m') : m = m' := by
  obtain ⟨depth, hok⟩ := h.ok
  obtain ⟨depth', hok'⟩ := h'.ok
  have heq := (hok depth').symm.trans (Nat.add_comm depth depth' ▸ hok' depth)
  exact Except.ok.inj heq

end

end MeshTopology

end Flecsi.Topology
