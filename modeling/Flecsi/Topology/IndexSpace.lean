import Mathlib

/-!
# Entities are made in an index space

An index space has a buffer of entities and one of ids, both of a fixed capacity. `make` appends an
id and constructs the entity behind the ones there are; `make` with an id stores both where the id
says. Only the first counts.
-/

namespace Flecsi.Topology

/-- `utils::id_t`. -/
structure Id where
  dimension : ℕ
  domain : ℕ
  partition : ℕ
  entity : ℕ
  flags : ℕ
  global : ℕ
  deriving DecidableEq, Repr

def Id.make (dimension domain local_id partition_id : ℕ) : Id := ⟨dimension, domain, partition_id, local_id, 0, 0⟩

/-- `vector_ref`: an array, and how many of its elements exist. -/
structure VectorRef (α : Type) where
  s : List α
  size : ℕ
  deriving DecidableEq

/-- `push_back`, which throws when the array is full. -/
def VectorRef.pushBack (v : VectorRef α) (x : α) : Option (VectorRef α) :=
  if v.size = v.s.length then none else some ⟨v.s.set v.size x, v.size + 1⟩

/-- An assignment to `v[i]`. -/
def VectorRef.assign (v : VectorRef α) (i : ℕ) (x : α) : VectorRef α := { v with s := v.s.set i x }

/-- The elements from `begin()` to `end()`. -/
def VectorRef.view (v : VectorRef α) : List α := v.s.take v.size

/-- An entity, from what its constructor was given. -/
structure MeshEntity (α : Type) where
  args : α
  global_id : Id
  deriving DecidableEq

structure IndexSpace (α : Type) where
  data : List (Option (MeshEntity α))
  ids : VectorRef Id
  deriving DecidableEq

namespace IndexSpace

variable {α : Type}

def make2 (is : IndexSpace α) (index : ℕ) (global : Id) (args : α) : IndexSpace α :=
  { is with data := is.data.set index (some ⟨args, global⟩) }

/-- `make(args...)`. -/
def make (dimension domain color : ℕ) (is : IndexSpace α) (args : α) : Option (IndexSpace α) := do
  let i := is.ids.size
  let global := Id.make dimension domain i color
  let ids ← is.ids.pushBack global
  some ({ is with ids }.make2 i global args)

/-- `make(id, args...)`. -/
def makeId (is : IndexSpace α) (id : Id) (args : α) : IndexSpace α :=
  let entity := id.entity
  { is with ids := is.ids.assign entity id }.make2 entity id args

def num_entities (is : IndexSpace α) : ℕ := is.ids.size

/-- The entities a traversal sees. -/
def entities (is : IndexSpace α) : List (Option (MeshEntity α)) :=
  is.ids.view.map fun id => is.data.getD id.entity none

-- ---------------------------------------------------------------------------
-- Both ways to make all entities
-- ---------------------------------------------------------------------------

/-- What `init_entities` sets up for a write-only index space. -/
structure WriteOnly (is : IndexSpace α) (n : ℕ) : Prop where
  size : is.ids.size = 0
  ids : is.ids.s.length = n
  data : is.data.length = n

section
variable (dimension domain color : ℕ)

def makeAppending (is : IndexSpace α) (args : ℕ → α) (n : ℕ) : Option (IndexSpace α) :=
  (List.range n).foldlM (fun is k => is.make dimension domain color (args k)) is

/-- Every id of `order` is made with its own arguments. -/
def makeEach (is : IndexSpace α) (args : ℕ → α) (order : List ℕ) : IndexSpace α :=
  order.foldl (fun is k => is.makeId (Id.make dimension domain k color) (args k)) is

/-- An index space is what appending calls give: all entities are there and are seen. -/
structure Complete (appended : Option (IndexSpace α)) (args : ℕ → α) (n : ℕ) (is : IndexSpace α) : Prop where
  same : appended = some is
  num_entities : is.num_entities = n
  ids : is.ids.view = (List.range n).map fun k => Id.make dimension domain k color
  slot : ∀ k < n, is.data[k]? = some (some ⟨args k, Id.make dimension domain k color⟩)
  entities : is.entities = (List.range n).map fun k => some ⟨args k, Id.make dimension domain k color⟩

end

theorem getElem?_foldl_set (f : ℕ → β) (order : List ℕ) (l : List β) (i : ℕ) :
    (order.foldl (fun l k => l.set k (f k)) l)[i]? = if i ∈ order ∧ i < l.length then some (f i) else l[i]? := by
  induction order generalizing l with
  | nil => simp
  | cons k order ih =>
    rw [List.foldl_cons, ih, List.length_set]
    by_cases hi : i ∈ order ∧ i < l.length
    · rw [if_pos hi, if_pos ⟨List.mem_cons_of_mem k hi.1, hi.2⟩]
    · rw [if_neg hi, List.getElem?_set]
      by_cases hk : k = i
      · subst hk
        by_cases hlt : k < l.length
        · simp [hlt]
        · simp [hlt]
      · have hmem : ¬(i ∈ k :: order ∧ i < l.length) := by
          rintro ⟨hmem, hlt⟩
          obtain rfl | hmem := List.mem_cons.mp hmem
          · exact hk rfl
          · exact hi ⟨hmem, hlt⟩
        rw [if_neg hk, if_neg hmem]

theorem length_foldl_set (f : ℕ → β) (order : List ℕ) (l : List β) :
    (order.foldl (fun l k => l.set k (f k)) l).length = l.length := by
  induction order generalizing l with
  | nil => rfl
  | cons k order ih => rw [List.foldl_cons, ih, List.length_set]

/-- Every place is set once, in any order. -/
theorem foldl_set_perm (f : ℕ → β) {order : List ℕ} {l : List β} {n : ℕ} (h : order.Perm (List.range n))
    (hl : l.length = n) : order.foldl (fun l k => l.set k (f k)) l = (List.range n).map f := by
  refine List.ext_getElem? fun i => ?_
  have hmem : i ∈ order ∧ i < l.length ↔ i < n := by rw [h.mem_iff, List.mem_range, hl, and_self]
  rw [getElem?_foldl_set, List.getElem?_map]
  by_cases hi : i < n
  · rw [if_pos (hmem.mpr hi), List.getElem?_range hi]
    rfl
  · rw [if_neg (mt hmem.mp hi), List.getElem?_eq_none (by omega), List.getElem?_eq_none (by simpa using hi)]
    rfl

variable {dimension domain color : ℕ}

theorem makeEach_foldl (is : IndexSpace α) (args : ℕ → α) (order : List ℕ) :
    makeEach dimension domain color is args order =
      ⟨order.foldl (fun l k => l.set k (some ⟨args k, Id.make dimension domain k color⟩)) is.data,
        ⟨order.foldl (fun l k => l.set k (Id.make dimension domain k color)) is.ids.s, is.ids.size⟩⟩ := by
  unfold makeEach
  induction order generalizing is with
  | nil => rfl
  | cons k order ih =>
    rw [List.foldl_cons, ih]
    rfl

theorem makeAppending_foldl {is : IndexSpace α} {n : ℕ} (h : WriteOnly is n) (args : ℕ → α) :
    ∀ k ≤ n, makeAppending dimension domain color is args k =
      some ⟨(List.range k).foldl (fun l k => l.set k (some ⟨args k, Id.make dimension domain k color⟩)) is.data,
        ⟨(List.range k).foldl (fun l k => l.set k (Id.make dimension domain k color)) is.ids.s, k⟩⟩ := by
  intro k hk
  induction k with
  | zero =>
    obtain ⟨data, s, size⟩ := is
    obtain rfl : size = 0 := h.size
    rfl
  | succ k ih =>
    have hlen : ((List.range k).foldl (fun l k => l.set k (Id.make dimension domain k color)) is.ids.s).length = n := by
      rw [length_foldl_set, h.ids]
    have hroom : ¬k = ((List.range k).foldl (fun l k => l.set k (Id.make dimension domain k color)) is.ids.s).length := by
      omega
    unfold makeAppending at ih ⊢
    rw [List.range_succ, List.foldlM_append, ih (Nat.le_of_succ_le hk), List.foldl_append, List.foldl_append]
    simp only [Option.bind_eq_bind, Option.bind_some, List.foldlM_cons, List.foldlM_nil, make, VectorRef.pushBack,
      if_neg hroom]
    rfl

/-- Appending gives every entity in its place. -/
theorem makeAppending_complete {is : IndexSpace α} {n : ℕ} (h : WriteOnly is n) (args : ℕ → α) :
    makeAppending dimension domain color is args n =
      some ⟨(List.range n).map fun k => some ⟨args k, Id.make dimension domain k color⟩,
        ⟨(List.range n).map fun k => Id.make dimension domain k color, n⟩⟩ := by
  rw [makeAppending_foldl h args n le_rfl, foldl_set_perm _ (List.Perm.refl _) h.data,
    foldl_set_perm _ (List.Perm.refl _) h.ids]

/-- Making by id fills the same places, but leaves the index space without any entity. -/
theorem makeEach_eq {is : IndexSpace α} {n : ℕ} (h : WriteOnly is n) (args : ℕ → α) {order : List ℕ}
    (horder : order.Perm (List.range n)) : makeEach dimension domain color is args order =
      ⟨(List.range n).map fun k => some ⟨args k, Id.make dimension domain k color⟩,
        ⟨(List.range n).map fun k => Id.make dimension domain k color, 0⟩⟩ := by
  rw [makeEach_foldl, foldl_set_perm _ horder h.data, foldl_set_perm _ horder h.ids, h.size]

/-- Entities made by id are those of appending calls only if there are none. -/
theorem makeEach_complete_iff {is : IndexSpace α} {n : ℕ} (h : WriteOnly is n) (args : ℕ → α) {order : List ℕ}
    (horder : order.Perm (List.range n)) : Complete dimension domain color
      (makeAppending dimension domain color is args n) args n (makeEach dimension domain color is args order) ↔ n = 0 := by
  constructor
  · intro hcomplete
    have hnum := hcomplete.num_entities
    rw [makeEach_eq h args horder] at hnum
    exact hnum.symm
  · rintro rfl
    have heach := @makeEach_eq α dimension domain color is 0 h args order horder
    refine ⟨(makeAppending_complete h args).trans (congrArg some heach.symm), ?_, ?_, ?_, ?_⟩
    · rw [heach]
      rfl
    · rw [heach]
      rfl
    · intro k hk
      cases hk
    · rw [heach]
      rfl

/-- An index space of one element, of which nothing exists yet. -/
def oneSlot : IndexSpace Unit := ⟨[none], ⟨[Id.make 0 0 0 0], 0⟩⟩

theorem makeEach_complete_iff_none :
    Complete 1 0 0 (makeAppending 1 0 0 (⟨[], ⟨[], 0⟩⟩ : IndexSpace Unit) (fun _ => ()) 0) (fun _ => ()) 0
      (makeEach 1 0 0 ⟨[], ⟨[], 0⟩⟩ (fun _ => ()) []) :=
  (makeEach_complete_iff ⟨rfl, rfl, rfl⟩ _ (List.Perm.refl [])).mpr rfl

/-- One entity that is made by its id does not count. -/
theorem one_entity_lost : WriteOnly oneSlot 1 ∧ (makeEach 1 0 0 oneSlot (fun _ => ()) [0]).num_entities = 0 ∧
    ¬Complete 1 0 0 (makeAppending 1 0 0 oneSlot (fun _ => ()) 1) (fun _ => ()) 1
      (makeEach 1 0 0 oneSlot (fun _ => ()) [0]) := by
  refine ⟨⟨rfl, rfl, rfl⟩, rfl, fun hcomplete => ?_⟩
  have hnum : 0 = 1 := hcomplete.num_entities
  cases hnum

end IndexSpace

end Flecsi.Topology
