import Flecsi.Topology.Connectivity

/-!
# Transposed connectivities

`transpose` counts how often each entity is named, cuts the new connectivity into rows of these
lengths, fills them in a second pass and sorts every row by global id. Rows are first those of the
converse relation, in the order of the connected entities.
-/

namespace Flecsi.Topology

open PackedBuffer

/-- The entities and connectivities of a mesh. Domains and dimensions are given in the order of
`get_connectivity`: the domain and the dimension from, then to. -/
structure MeshTopology where
  num_entities : ℕ → ℕ → ℕ
  connectivity : ℕ → ℕ → ℕ → ℕ → Connectivity
  index_map : ℕ → ℕ → ℕ → ℕ

namespace MeshTopology

def setConnectivity (mesh : MeshTopology) (from_domain to_domain from_dim to_dim : ℕ) (c : Connectivity) :
    MeshTopology :=
  { mesh with
    connectivity := fun fd td f t =>
      if fd = from_domain ∧ td = to_domain ∧ f = from_dim ∧ t = to_dim then c else mesh.connectivity fd td f t }

/-- `entity_ids` of an entity, whose connectivity must not be empty. -/
def entityIds (mesh : MeshTopology) (from_domain to_domain from_dim dim e : ℕ) : Option (List ℕ) :=
  let c := mesh.connectivity from_domain to_domain from_dim dim
  if c.empty then none else some (c.row e)

def transpose (mesh : MeshTopology) (from_dom to_dom from_dim to_dim : ℕ) : Option MeshTopology := do
  let out_conn := mesh.connectivity from_dom to_dom from_dim to_dim
  if !out_conn.empty then some mesh
  else
    let to_entities := List.range (mesh.num_entities to_dim to_dom)
    -- Count how many connectivities go into each slot
    let pos ← to_entities.foldlM (fun pos to_entity => do
      let ids ← mesh.entityIds to_dom from_dom to_dim from_dim to_entity
      some (ids.foldl (fun pos from_id => pos.modify from_id (· + 1)) pos))
      (List.replicate (mesh.num_entities from_dim from_dom) 0)
    let out_conn := out_conn.resize pos
    let pos := List.replicate pos.length 0
    -- now do the actual transpose
    let (out_conn, _) ← to_entities.foldlM (fun (s : Connectivity × List ℕ) to_entity => do
      let ids ← mesh.entityIds to_dom from_dom to_dim from_dim to_entity
      some (ids.foldl (fun s from_lid =>
        (s.1.set from_lid to_entity (s.2.getD from_lid 0), s.2.modify from_lid (· + 1))) s)) (out_conn, pos)
    -- do the final sort of the connectivity arrays
    let out_conn ← (List.range (mesh.num_entities from_dim from_dom)).foldlM (fun (out_conn : Connectivity) from_id => do
      let conn ← out_conn.getEntities from_id
      let gids := conn.map fun id => (mesh.index_map to_dim to_dom id, id)
      let gids := gids.mergeSort fun a b => a.1 ≤ b.1
      some (out_conn.putRow from_id (gids.map (·.2)))) out_conn
    some (mesh.setConnectivity from_dom to_dom from_dim to_dim out_conn)

end MeshTopology

-- ---------------------------------------------------------------------------
-- The converse relation
-- ---------------------------------------------------------------------------

/-- The pairs of a relation given by rows, turned round. -/
def turned (rows : List (List ℕ)) : List (ℕ × ℕ) := rows.zipIdx.flatMap fun row => row.1.map fun i => (i, row.2)

/-- The rows of the converse of a relation to `n` entities. -/
def converse (n : ℕ) (rows : List (List ℕ)) : List (List ℕ) := List.ofFn fun i : Fin n => itemsFor i (turned rows)

def sortRow (gid : ℕ → ℕ) (row : List ℕ) : List ℕ :=
  ((row.map fun id => (gid id, id)).mergeSort fun a b => a.1 ≤ b.1).map (·.2)

theorem sortRow_perm (gid : ℕ → ℕ) (row : List ℕ) : (sortRow gid row).Perm row := by
  have hperm := (List.mergeSort_perm (row.map fun id => (gid id, id)) fun a b => a.1 ≤ b.1).map (·.2)
  rw [List.map_map] at hperm
  refine hperm.trans (List.Perm.of_eq ?_)
  exact List.map_id' row

theorem sortRow_pairwise (gid : ℕ → ℕ) (row : List ℕ) : (sortRow gid row).Pairwise (gid · ≤ gid ·) := by
  have hsorted := @List.pairwise_mergeSort (ℕ × ℕ) (fun a b => a.1 ≤ b.1)
    (fun a b c => by simpa using Nat.le_trans) (fun a b => by simpa using Nat.le_total a.1 b.1)
    (row.map fun id => (gid id, id))
  refine List.pairwise_map.mpr (hsorted.imp_of_mem fun {a b} ha hb hle => ?_)
  have hpair (a : ℕ × ℕ) (ha : a ∈ (row.map fun id => (gid id, id)).mergeSort fun a b => a.1 ≤ b.1) : gid a.2 = a.1 := by
    obtain ⟨id, -, rfl⟩ := List.mem_map.mp (List.mem_mergeSort.mp ha)
    rfl
  rw [hpair a ha, hpair b hb]
  simpa using hle

theorem count_itemsFor [DecidableEq ρ] (items : List (ℕ × ρ)) (p : ℕ) (x : ρ) :
    (itemsFor p items).count x = items.count (p, x) := by
  induction items with
  | nil => rfl
  | cons it items ih =>
    have hcons : itemsFor p (it :: items) = itemsFor p [it] ++ itemsFor p items := itemsFor_append p [it] items
    rw [hcons, List.count_append, ih, List.count_cons, Nat.add_comm]
    obtain ⟨q, y⟩ := it
    by_cases hq : q = p
    · subst hq
      simp [itemsFor, List.count_singleton]
    · simp [itemsFor, hq]

theorem turned_concat (rows : List (List ℕ)) (row : List ℕ) :
    turned (rows ++ [row]) = turned rows ++ row.map fun i => (i, rows.length) := by
  simp [turned, List.zipIdx_append]

theorem count_turned (rows : List (List ℕ)) (i j : ℕ) : (turned rows).count (i, j) = (rows.getD j []).count i := by
  induction rows using List.reverseRecOn with
  | nil => rfl
  | append_singleton rows row ih =>
    have hlast : (row.map fun i => (i, rows.length)).count (i, j) = if j = rows.length then row.count i else 0 := by
      split
      · subst j
        exact List.count_map_of_injective row _ (fun a b h => (Prod.mk.inj h).1) i
      · refine List.count_eq_zero.mpr fun hmem => ?_
        obtain ⟨i', -, heq⟩ := List.mem_map.mp hmem
        exact ‹¬j = rows.length› (Prod.mk.inj heq).2.symm
    rw [turned_concat, List.count_append, ih, hlast]
    obtain hlt | rfl | hgt := lt_trichotomy j rows.length
    · rw [List.getD_append _ _ _ _ hlt, if_neg hlt.ne, Nat.add_zero]
    · rw [if_pos rfl, List.getD_eq_default _ _ le_rfl, List.getD_append_right _ _ _ _ le_rfl, Nat.sub_self]
      simp
    · rw [if_neg hgt.ne', List.getD_eq_default _ _ hgt.le, List.getD_eq_default _ _ (by simpa using hgt)]
      rfl

theorem mem_turned {rows : List (List ℕ)} {e : ℕ × ℕ} : e ∈ turned rows ↔ e.1 ∈ rows.getD e.2 [] := by
  obtain ⟨i, j⟩ := e
  rw [← List.count_pos_iff, count_turned, List.count_pos_iff]

/-- The converse has each connection as often as the relation. -/
theorem count_converse {rows : List (List ℕ)} {n : ℕ} (hi : i < n) (j : ℕ) :
    ((converse n rows).getD i []).count j = (rows.getD j []).count i := by
  have hrow : (converse n rows).getD i [] = itemsFor i (turned rows) := by
    rw [converse, List.getD_eq_getElem _ _ (by simpa using hi), List.getElem_ofFn]
  rw [hrow, count_itemsFor, count_turned]

-- ---------------------------------------------------------------------------
-- The passes
-- ---------------------------------------------------------------------------

/-- A loop over all entities and their rows is a loop over the turned pairs. -/
theorem foldlM_turned {ids : ℕ → Option (List ℕ)} (rows : List (List ℕ))
    (h : ∀ j (hj : j < rows.length), ids j = some rows[j]) (f : ℕ → σ → ℕ → σ) (s : σ) :
    (List.range rows.length).foldlM (fun s j => do
      let row ← ids j
      some (row.foldl (f j) s)) s = some ((turned rows).foldl (fun s e => f e.2 s e.1) s) := by
  induction rows using List.reverseRecOn with
  | nil => rfl
  | append_singleton rows row ih =>
    have hinit : ∀ j (hj : j < rows.length), ids j = some rows[j] := fun j hj => by
      rw [h j (by simp; omega), List.getElem_append_left hj]
    have hlast : ids rows.length = some row := by
      rw [h rows.length (by simp), List.getElem_append_right le_rfl]
      simp
    rw [List.length_append, List.length_singleton, List.range_succ, List.foldlM_append, ih hinit, turned_concat,
      List.foldl_append, List.foldl_map]
    simp only [Option.bind_eq_bind, Option.bind_some, List.foldlM_cons, List.foldlM_nil, hlast, Option.pure_def]

theorem length_converse (n : ℕ) (rows : List (List ℕ)) : (converse n rows).length = n := List.length_ofFn

theorem segment_turned (rows : List (List ℕ)) (r : ℕ) :
    PackedBuffer.segment ((turned rows).map fun e => (e.1, [e.2])) r = itemsFor r (turned rows) :=
  (segment_map (turned rows) (fun x => [x]) r).trans (List.flatMap_singleton' _)

/-- The count pass gives the lengths of the rows. -/
theorem countPass_turned (n : ℕ) (rows : List (List ℕ)) :
    (turned rows).foldl (fun pos e => pos.modify e.1 (· + 1)) (List.replicate n 0) =
      (converse n rows).map List.length := by
  have hcount := countPass_eq n ((turned rows).map fun e => (e.1, [e.2]))
  rw [countPass, List.map_map, List.foldl_map] at hcount
  refine hcount.trans ?_
  rw [converse, List.map_ofFn]
  congr 1
  funext r
  rw [segment_turned]
  rfl

/-- Entries set one by one at the position of their row are those of a fill pass. -/
theorem foldl_set_eq {n : ℕ} {d : List ℕ} {c : Connectivity} (hd : ∀ i < n, c.offsets.getD i 0 = d.getD i 0)
    {es : List (ℕ × ℕ)} (hes : ∀ e ∈ es, e.1 < n) (pos : List ℕ) :
    es.foldl (fun (s : Connectivity × List ℕ) e => (s.1.set e.1 e.2 (s.2.getD e.1 0), s.2.modify e.1 (· + 1))) (c, pos) =
      (⟨c.offsets, ((es.map fun e => (e.1, [e.2])).foldl (fillStep d) (pos, c.ids)).2⟩,
        ((es.map fun e => (e.1, [e.2])).foldl (fillStep d) (pos, c.ids)).1) := by
  induction es generalizing c pos with
  | nil => rfl
  | cons e es ih =>
    rw [List.foldl_cons, List.map_cons, List.foldl_cons]
    have hstep : fillStep d (pos, c.ids) (e.1, [e.2]) =
        (pos.modify e.1 (· + 1), (c.set e.1 e.2 (pos.getD e.1 0)).ids) := by
      rw [Connectivity.set, hd e.1 (hes e (List.mem_cons_self ..))]
      rfl
    rw [hstep]
    exact @ih (c.set e.1 e.2 (pos.getD e.1 0)) hd (fun e he => hes e (List.mem_cons_of_mem _ he)) _

/-- The fill pass gives the rows themselves. -/
theorem fillPass_turned {n : ℕ} {rows : List (List ℕ)} (hrows : ∀ row ∈ rows, ∀ i ∈ row, i < n) (c : Connectivity) :
    ((turned rows).foldl (fun (s : Connectivity × List ℕ) e =>
      (s.1.set e.1 e.2 (s.2.getD e.1 0), s.2.modify e.1 (· + 1)))
      (c.resize ((converse n rows).map List.length), List.replicate n 0)).1 = Connectivity.init (converse n rows) := by
  have hturned : ∀ e ∈ turned rows, e.1 < n := by
    intro e he
    have hmem := mem_turned.mp he
    have hlt : e.2 < rows.length := by
      by_contra hge
      rw [List.getD_eq_default _ _ (Nat.le_of_not_lt hge)] at hmem
      cases hmem
    rw [List.getD_eq_getElem _ _ hlt] at hmem
    exact hrows _ (List.getElem_mem hlt) _ hmem
  have hlens : countPass n ((turned rows).map fun e => (e.1, 1)) = (converse n rows).map List.length := by
    rw [← countPass_turned, countPass, List.foldl_map]
  have hlen : ((converse n rows).map List.length).length = n := by rw [List.length_map, length_converse]
  have hpack := @packMessages_items ℕ ℕ n _ (turned rows) (fun x => [x]) (fun _ => 1) (fun _ => rfl) hturned
  rw [packMessages, hlens] at hpack
  have htotal : (displs ((converse n rows).map List.length)).getD n 0 = ((converse n rows).map List.length).sum := by
    rw [displs_getD hlen.ge, List.take_of_length_le hlen.le]
  have hbuf := congrArg Buffer.buf hpack
  dsimp only at hbuf
  rw [htotal] at hbuf
  rw [Connectivity.resize_eq, foldl_set_eq (d := displs ((converse n rows).map List.length)) (n := n) ?_ hturned]
  · rw [Connectivity.init_eq]
    refine congrArg (Connectivity.mk _) (hbuf.trans ?_)
    have hrow (i : Fin n) : (itemsFor i (turned rows)).flatMap (fun x => [x]) = itemsFor i (turned rows) :=
      List.flatMap_singleton' _
    simp only [pack, converse, hrow]
  · intro i hi
    rw [Connectivity.getD_foldl_addCount (by omega), displs_getD (by omega)]

/-- The sort of all rows. -/
theorem foldlM_sortRow (gid : ℕ → ℕ) (rows : List (List ℕ)) :
    (List.range rows.length).foldlM (fun (c : Connectivity) i => do
      let conn ← c.getEntities i
      let gids := conn.map fun id => (gid id, id)
      let gids := gids.mergeSort fun a b => a.1 ≤ b.1
      some (c.putRow i (gids.map (·.2)))) (Connectivity.init rows) =
      some (Connectivity.init (rows.map (sortRow gid))) := by
  have hloop : ∀ k ≤ rows.length, (List.range k).foldlM (fun (c : Connectivity) i => do
      let conn ← c.getEntities i
      let gids := conn.map fun id => (gid id, id)
      let gids := gids.mergeSort fun a b => a.1 ≤ b.1
      some (c.putRow i (gids.map (·.2)))) (Connectivity.init rows) =
      some (Connectivity.init ((rows.take k).map (sortRow gid) ++ rows.drop k)) := by
    intro k hk
    induction k with
    | zero => rfl
    | succ k ih =>
      have hlen : ((rows.take k).map (sortRow gid)).length = k := by
        rw [List.length_map, List.length_take, Nat.min_eq_left (Nat.le_of_succ_le hk)]
      have hlt : k < ((rows.take k).map (sortRow gid) ++ rows.drop k).length := by
        rw [List.length_append, hlen, List.length_drop]
        omega
      have hget : ((rows.take k).map (sortRow gid) ++ rows.drop k)[k] = rows[k] := by
        refine (List.getElem?_eq_some_iff.mp ?_).2
        rw [List.getElem?_append_right hlen.le, hlen, Nat.sub_self, List.getElem?_drop, Nat.add_zero,
          List.getElem?_eq_getElem (Nat.lt_of_succ_le hk)]
      have hput := Connectivity.putRow_init ((rows.take k).map (sortRow gid)) (rows.drop (k + 1))
        (sortRow_perm gid rows[k]).length_eq
      rw [hlen, ← List.drop_eq_getElem_cons] at hput
      rw [List.range_succ, List.foldlM_append, ih (Nat.le_of_succ_le hk)]
      simp only [Option.bind_eq_bind, Option.bind_some, List.foldlM_cons, List.foldlM_nil, Option.pure_def,
        Connectivity.getEntities_init hlt, hget]
      refine congrArg some (hput.trans ?_)
      rw [← List.take_append_getElem (Nat.lt_of_succ_le hk), List.map_append, List.append_assoc]
      rfl
  have hall := hloop rows.length le_rfl
  rwa [List.take_length, List.drop_length, List.append_nil] at hall

-- ---------------------------------------------------------------------------
-- The transposed mesh
-- ---------------------------------------------------------------------------

namespace MeshTopology

/-- A connectivity has rows for `n` entities to entities below `m`, and is not empty. -/
structure Stored (c : Connectivity) (n m : ℕ) : Prop where
  rows : ∃ rows, c = Connectivity.init rows ∧ rows.length = n ∧ ∀ row ∈ rows, ∀ i ∈ row, i < m
  filled : c.empty = false

/-- What one connectivity of a mesh is after it was computed as the converse of the connectivity
`c`, to entities with the global ids `gid`. -/
structure ConverseOf (c : Connectivity) (gid : ℕ → ℕ) (n m : ℕ) (out : Connectivity) : Prop where
  stored : Stored out n m
  count : ∀ i < n, ∀ j < m, (out.row i).count j = (c.row j).count i
  sorted : ∀ i < n, (out.row i).Pairwise (gid · ≤ gid ·)
  isolated : ∀ i < n, (∀ j < m, i ∉ c.row j) → out.row i = []

/-- Everything but one connectivity is the same. -/
structure Unchanged (mesh mesh' : MeshTopology) (from_dom to_dom from_dim to_dim : ℕ) : Prop where
  num_entities : mesh'.num_entities = mesh.num_entities
  index_map : mesh'.index_map = mesh.index_map
  connectivity : ∀ fd td f t, ¬(fd = from_dom ∧ td = to_dom ∧ f = from_dim ∧ t = to_dim) →
    mesh'.connectivity fd td f t = mesh.connectivity fd td f t

variable {mesh : MeshTopology} {from_dom to_dom from_dim to_dim : ℕ}

@[simp] theorem setConnectivity_self (mesh : MeshTopology) (from_dom to_dom from_dim to_dim : ℕ) (c : Connectivity) :
    (mesh.setConnectivity from_dom to_dom from_dim to_dim c).connectivity from_dom to_dom from_dim to_dim = c :=
  if_pos ⟨rfl, rfl, rfl, rfl⟩

theorem setConnectivity_unchanged (mesh : MeshTopology) (from_dom to_dom from_dim to_dim : ℕ) (c : Connectivity) :
    Unchanged mesh (mesh.setConnectivity from_dom to_dom from_dim to_dim c) from_dom to_dom from_dim to_dim :=
  ⟨rfl, rfl, fun _ _ _ _ h => if_neg h⟩

/-- The transposed connectivity, by rows. -/
theorem transpose_eq {rows : List (List ℕ)}
    (hconn : mesh.connectivity to_dom from_dom to_dim from_dim = Connectivity.init rows)
    (hlen : rows.length = mesh.num_entities to_dim to_dom)
    (hrows : ∀ row ∈ rows, ∀ i ∈ row, i < mesh.num_entities from_dim from_dom)
    (hfilled : (Connectivity.init rows).empty = false)
    (hout : (mesh.connectivity from_dom to_dom from_dim to_dim).empty = true) :
    mesh.transpose from_dom to_dom from_dim to_dim =
      some (mesh.setConnectivity from_dom to_dom from_dim to_dim (Connectivity.init
        ((converse (mesh.num_entities from_dim from_dom) rows).map (sortRow (mesh.index_map to_dim to_dom))))) := by
  have hids : ∀ j (hj : j < rows.length), mesh.entityIds to_dom from_dom to_dim from_dim j = some rows[j] := by
    intro j hj
    simp only [entityIds, hconn, hfilled, Connectivity.row_init hj]
    rfl
  have hcount := foldlM_turned rows hids (fun _ (pos : List ℕ) i => pos.modify i (· + 1))
    (List.replicate (mesh.num_entities from_dim from_dom) 0)
  have hfill := foldlM_turned rows hids (fun j (s : Connectivity × List ℕ) i =>
    (s.1.set i j (s.2.getD i 0), s.2.modify i (· + 1)))
    ((mesh.connectivity from_dom to_dom from_dim to_dim).resize
      ((converse (mesh.num_entities from_dim from_dom) rows).map List.length),
      List.replicate (mesh.num_entities from_dim from_dom) 0)
  have hsort := foldlM_sortRow (mesh.index_map to_dim to_dom) (converse (mesh.num_entities from_dim from_dom) rows)
  rw [hlen, countPass_turned] at hcount
  rw [hlen] at hfill
  rw [length_converse] at hsort
  unfold transpose
  simp only [hout, Bool.not_true, Bool.false_eq_true, if_false]
  refine Option.bind_eq_some_iff.mpr ⟨_, hcount, ?_⟩
  rw [List.length_map, length_converse]
  refine Option.bind_eq_some_iff.mpr ⟨_, hfill, ?_⟩
  rw [fillPass_turned hrows]
  exact Option.bind_eq_some_iff.mpr ⟨_, hsort, rfl⟩

theorem empty_init (rows : List (List ℕ)) : (Connectivity.init rows).empty = true ↔ ∀ row ∈ rows, row = [] := by
  rw [Connectivity.init_eq, Connectivity.empty, List.isEmpty_iff, List.flatten_eq_nil_iff]

theorem converse_sorted {rows : List (List ℕ)} {n : ℕ} (gid : ℕ → ℕ) (hi : i < n) :
    (Connectivity.init ((converse n rows).map (sortRow gid))).row i = sortRow gid ((converse n rows).getD i []) := by
  have hlen : i < ((converse n rows).map (sortRow gid)).length := by rwa [List.length_map, length_converse]
  rw [Connectivity.row_init hlen, List.getElem_map, List.getD_eq_getElem _ _ (by rwa [length_converse])]

/-- The converse of a stored connectivity is stored. -/
theorem converseOf_sorted {rows : List (List ℕ)} {n m : ℕ} (hlen : rows.length = m)
    (hrows : ∀ row ∈ rows, ∀ i ∈ row, i < n) (hfilled : (Connectivity.init rows).empty = false) (gid : ℕ → ℕ) :
    ConverseOf (Connectivity.init rows) gid n m (Connectivity.init ((converse n rows).map (sortRow gid))) := by
  have hrow (j : ℕ) (hj : j < m) : (Connectivity.init rows).row j = rows.getD j [] := by
    rw [Connectivity.row_init (hlen ▸ hj), List.getD_eq_getElem _ _ (hlen ▸ hj)]
  have hmem {i j : ℕ} (hi : i < n) : j ∈ (converse n rows).getD i [] ↔ i ∈ rows.getD j [] := by
    rw [← List.count_pos_iff, count_converse hi, List.count_pos_iff]
  have hbound {i j : ℕ} (h : i ∈ rows.getD j []) : j < m := by
    by_contra hge
    rw [List.getD_eq_default _ _ (by omega)] at h
    cases h
  refine ⟨⟨⟨_, rfl, by rw [List.length_map, length_converse], ?_⟩, ?_⟩, ?_, ?_, ?_⟩
  · intro row hmemrow j hj
    obtain ⟨row', hrow', rfl⟩ := List.mem_map.mp hmemrow
    rw [(sortRow_perm gid row').mem_iff] at hj
    obtain ⟨i, hi, rfl⟩ := List.getElem_of_mem hrow'
    rw [length_converse] at hi
    rw [← List.getD_eq_getElem _ [], hmem hi] at hj
    exact hbound hj
  · refine Bool.eq_false_iff.mpr fun hempty => ?_
    rw [empty_init] at hempty
    refine Bool.eq_false_iff.mp hfilled ((empty_init rows).mpr fun row hmemrow => ?_)
    refine List.eq_nil_iff_forall_not_mem.mpr fun i hi => ?_
    obtain ⟨j, hj, rfl⟩ := List.getElem_of_mem hmemrow
    have hin := hrows _ hmemrow i hi
    rw [← List.getD_eq_getElem _ [], ← hmem hin] at hi
    have hnil := hempty (sortRow gid ((converse n rows).getD i []))
      (List.mem_map.mpr ⟨_, by rw [List.getD_eq_getElem _ _ (by rwa [length_converse])]; exact List.getElem_mem _, rfl⟩)
    have hlength := (sortRow_perm gid ((converse n rows).getD i [])).length_eq
    rw [hnil] at hlength
    rw [List.eq_nil_of_length_eq_zero hlength.symm] at hi
    cases hi
  · intro i hi j hj
    rw [converse_sorted gid hi, (sortRow_perm gid _).count_eq, count_converse hi, hrow j hj]
  · intro i hi
    rw [converse_sorted gid hi]
    exact sortRow_pairwise gid _
  · intro i hi hnone
    rw [converse_sorted gid hi]
    refine List.eq_nil_iff_forall_not_mem.mpr fun j hj => ?_
    rw [(sortRow_perm gid _).mem_iff, hmem hi] at hj
    exact hnone j (hbound hj) (by rwa [hrow j (hbound hj)])

theorem Stored.transpose_eq
    (hstored : Stored (mesh.connectivity to_dom from_dom to_dim from_dim) (mesh.num_entities to_dim to_dom)
      (mesh.num_entities from_dim from_dom))
    (hout : (mesh.connectivity from_dom to_dom from_dim to_dim).empty = true) :
    ∃ out, mesh.transpose from_dom to_dom from_dim to_dim =
        some (mesh.setConnectivity from_dom to_dom from_dim to_dim out) ∧
      ConverseOf (mesh.connectivity to_dom from_dom to_dim from_dim) (mesh.index_map to_dim to_dom)
        (mesh.num_entities from_dim from_dom) (mesh.num_entities to_dim to_dom) out := by
  obtain ⟨⟨rows, hconn, hlen, hrows⟩, hfilled⟩ := hstored
  rw [hconn] at hfilled ⊢
  exact ⟨_, MeshTopology.transpose_eq hconn hlen hrows hfilled hout, converseOf_sorted hlen hrows hfilled _⟩

/-- Two triangles with an edge in common, given by their vertices. -/
def triangles : MeshTopology where
  num_entities dim _ := if dim = 0 then 4 else 2
  connectivity fd td f t :=
    if fd = 0 ∧ td = 0 ∧ f = 2 ∧ t = 0 then Connectivity.init [[0, 1, 2], [1, 3, 2]] else ⟨[], []⟩
  index_map _ _ id := id

end MeshTopology

end Flecsi.Topology
