import Flecsi.Lib.SortedMerge
import Flecsi.Topology.Transpose

/-!
# Intersected connectivities

`intersect` reaches the entities to connect through a dimension in between, and
keeps those that pass a test on the entities of that dimension. A vector of
flags holds which were visited; only those that can be reached are reset.
-/

namespace Flecsi.Topology

open SortedMerge

-- ---------------------------------------------------------------------------
-- intersect
-- ---------------------------------------------------------------------------

/-- One `to_id` of the inner loop: skipped if it was visited, and otherwise
marked and, if it is accepted, added. -/
def visit (accept : ℕ → Option Bool) (s : List Bool × List ℕ) (to_id : ℕ) :
    Option (List Bool × List ℕ) := do
  let visited ← s.1[to_id]?
  if visited then some s
  else do
    let add ← accept to_id
    some (s.1.set to_id true, if add then s.2 ++ [to_id] else s.2)

namespace MeshTopology

section
variable (mesh : MeshTopology) (from_dom to_dom from_dim to_dim dim : ℕ)

/-- The test on a `to_id`. -/
def accept (from_verts : List ℕ) (from_id to_id : ℕ) : Option Bool :=
  -- If the topological dimensions are the same, always add to id
  if from_dim = to_dim then some (from_id ≠ to_id)
  else do
    let to_verts ← (mesh.connectivity to_dom to_dom to_dim dim).getEntities to_id
    let to_verts := to_verts.mergeSort (· ≤ ·)
    some (if dim < to_dim then includes from_verts to_verts else intersects from_verts to_verts)

/-- The loop over the `to_id`s of the entities in between. -/
def throughEntities (from_id : ℕ) (step : σ → ℕ → Option σ) (s : σ) : Option σ := do
  let from_ents2 ← mesh.entityIds from_dom from_dom from_dim dim from_id
  from_ents2.foldlM (fun s from_ent2 => do
    let to_ids ← mesh.entityIds to_dom to_dom dim to_dim from_ent2
    to_ids.foldlM step s) s

/-- The connections of one entity. -/
def intersectEntity (visited : List Bool) (from_id : ℕ) : Option (List Bool × List ℕ) := do
  let from_verts ← (mesh.connectivity from_dom from_dom from_dim dim).getEntities from_id
  let from_verts := from_verts.mergeSort (· ≤ ·)
  -- initially set all to id's to unvisited
  let visited ← mesh.throughEntities from_dom to_dom from_dim to_dim dim from_id
    (fun visited to_id => some (visited.set to_id false)) visited
  mesh.throughEntities from_dom to_dom from_dim to_dim dim from_id
    (visit (mesh.accept to_dom from_dim to_dim dim from_verts from_id)) (visited, [])

def intersect : Option MeshTopology := do
  if !(mesh.connectivity from_dom to_dom from_dim to_dim).empty then some mesh
  else if (mesh.connectivity from_dom from_dom from_dim dim).empty ∨
      (mesh.connectivity to_dom to_dom to_dim dim).empty then none
  else
    let conns := List.replicate (mesh.num_entities from_dim from_dom) []
    let visited := List.replicate (mesh.num_entities to_dim from_dom) false
    let (_, conns) ← (List.range (mesh.num_entities from_dim from_dom)).foldlM
      (fun (s : List Bool × List (List ℕ)) from_id => do
        let (visited, ents) ← mesh.intersectEntity from_dom to_dom from_dim to_dim dim s.1 from_id
        some (visited, s.2.set from_id ents)) (visited, conns)
    -- Finally create the connection from the temporary conns
    some (mesh.setConnectivity from_dom to_dom from_dim to_dim (Connectivity.init conns))

end

end MeshTopology

-- ---------------------------------------------------------------------------
-- Flags
-- ---------------------------------------------------------------------------

/-- The loop that resets flags. -/
def reset (visited : List Bool) (ids : List ℕ) : List Bool :=
  ids.foldl (fun visited to_id => visited.set to_id false) visited

theorem length_reset (visited : List Bool) (ids : List ℕ) :
    (reset visited ids).length = visited.length := by
  induction ids using List.reverseRecOn with
  | nil => rfl
  | append_singleton ids i ih =>
    rw [reset, List.foldl_append, List.foldl_cons, List.foldl_nil, List.length_set]
    exact ih

theorem getElem?_reset {visited : List Bool} {ids : List ℕ} (h : t ∈ ids) (ht : t < visited.length) :
    (reset visited ids)[t]? = some false := by
  induction ids using List.reverseRecOn with
  | nil => cases h
  | append_singleton ids i ih =>
    rw [← length_reset visited ids] at ht
    rw [reset, List.foldl_append, List.foldl_cons, List.foldl_nil]
    cases eq_or_ne i t with
    | inl hi =>
      subst hi
      exact List.getElem?_set_self ht
    | inr hi =>
      rw [List.getElem?_set_ne hi]
      exact ih ((List.mem_append.mp h).resolve_right fun h => hi (List.mem_singleton.mp h).symm)

/-- From reset flags the loop adds what is accepted, each once. -/
theorem foldlM_visit {accept : ℕ → Option Bool} {ok : ℕ → Bool} {visited : List Bool} (ids : List ℕ)
    (hreset : ∀ t ∈ ids, visited[t]? = some false) (hok : ∀ t ∈ ids, accept t = some (ok t)) :
    ∃ s, ids.foldlM (visit accept) (visited, []) = some s ∧ s.1.length = visited.length ∧
      (∀ t, s.1[t]? = if t ∈ ids then some true else visited[t]?) ∧
      s.2.Nodup ∧ ∀ t, t ∈ s.2 ↔ t ∈ ids ∧ ok t = true := by
  induction ids using List.reverseRecOn with
  | nil => exact ⟨_, rfl, rfl, by simp, List.nodup_nil, by simp⟩
  | append_singleton ids i ih =>
    obtain ⟨s, hs, hlen, hseen, hnodup, hmem⟩ := ih (fun t ht => hreset t (by simp [ht]))
      fun t ht => hok t (by simp [ht])
    rw [List.foldlM_append, hs]
    simp only [Option.bind_eq_bind, Option.bind_some, List.foldlM_cons, List.foldlM_nil,
      List.mem_append, List.mem_singleton]
    cases Decidable.em (i ∈ ids) with
    | inl hi =>
      have hor : ∀ t, t ∈ ids ∨ t = i ↔ t ∈ ids := fun t => or_iff_left_of_imp fun h => h ▸ hi
      refine ⟨s, by rw [visit, hseen, if_pos hi]; rfl, hlen, fun t => ?_, hnodup, fun t => ?_⟩
      · rw [hseen, if_congr (hor t) rfl rfl]
      · rw [hmem, hor]
    | inr hi =>
      have hnew : s.1[i]? = some false := by rw [hseen, if_neg hi, hreset i (by simp)]
      obtain ⟨hlt, -⟩ := List.getElem?_eq_some_iff.mp hnew
      have hstep : visit accept s i = some (s.1.set i true, if ok i then s.2 ++ [i] else s.2) := by
        rw [visit, hnew, hok i (by simp)]
        rfl
      rw [hstep]
      refine ⟨_, rfl, by rw [List.length_set, hlen], fun t => ?_, ?_, fun t => ?_⟩
      · cases eq_or_ne i t with
        | inl ht =>
          subst ht
          simp [hlt]
        | inr ht =>
          rw [List.getElem?_set_ne ht, hseen]
          simp [ht.symm]
      · have hnot : i ∉ s.2 := fun h => hi ((hmem i).mp h).1
        cases ok i with
        | false => exact hnodup
        | true => exact hnodup.append (List.nodup_singleton i) (by simpa using hnot)
      · cases hok : ok i with
        | false =>
          simp only [Bool.false_eq_true, if_false, hmem]
          refine ⟨fun h => ⟨.inl h.1, h.2⟩, fun h => ⟨h.1.resolve_right fun ht => ?_, h.2⟩⟩
          rw [ht, hok] at h
          cases h.2
        | true =>
          simp only [if_true, List.mem_append, List.mem_singleton, hmem]
          constructor
          · rintro (h | rfl)
            · exact ⟨.inl h.1, h.2⟩
            · exact ⟨.inr rfl, hok⟩
          · rintro ⟨h | rfl, ht⟩
            · exact .inl ⟨h, ht⟩
            · exact .inr rfl

-- ---------------------------------------------------------------------------
-- The connections of one entity
-- ---------------------------------------------------------------------------

namespace MeshTopology

theorem Stored.getEntities {c : Connectivity} (h : Stored c n m) (hk : k < n) :
    c.getEntities k = some (c.row k) := by
  obtain ⟨rows, rfl, hlen, -⟩ := h.rows
  rw [Connectivity.getEntities_init (hlen ▸ hk), Connectivity.row_init (hlen ▸ hk)]

theorem Stored.lt_of_mem_row {c : Connectivity} (h : Stored c n m) (hk : k < n) (hi : i ∈ c.row k) :
    i < m := by
  obtain ⟨rows, rfl, hlen, hrows⟩ := h.rows
  rw [Connectivity.row_init (hlen ▸ hk)] at hi
  exact hrows _ (List.getElem_mem _) i hi

/-- The dimension in between, stored both ways. -/
structure Between (mesh : MeshTopology) (dom from_dim to_dim dim : ℕ) : Prop where
  from_stored : Stored (mesh.connectivity dom dom from_dim dim) (mesh.num_entities from_dim dom)
    (mesh.num_entities dim dom)
  to_stored : Stored (mesh.connectivity dom dom to_dim dim) (mesh.num_entities to_dim dom)
    (mesh.num_entities dim dom)
  back_stored : Stored (mesh.connectivity dom dom dim to_dim) (mesh.num_entities dim dom)
    (mesh.num_entities to_dim dom)
  converse : ∀ d < mesh.num_entities dim dom, ∀ t < mesh.num_entities to_dim dom,
    t ∈ (mesh.connectivity dom dom dim to_dim).row d ↔ d ∈ (mesh.connectivity dom dom to_dim dim).row t
  covered : ∀ t < mesh.num_entities to_dim dom, (mesh.connectivity dom dom to_dim dim).row t ≠ []

/-- The same, where a `to` entity may be without entities in between. -/
structure Linked (mesh : MeshTopology) (dom from_dim to_dim dim : ℕ) : Prop where
  from_stored : Stored (mesh.connectivity dom dom from_dim dim) (mesh.num_entities from_dim dom)
    (mesh.num_entities dim dom)
  to_stored : Stored (mesh.connectivity dom dom to_dim dim) (mesh.num_entities to_dim dom)
    (mesh.num_entities dim dom)
  back_stored : Stored (mesh.connectivity dom dom dim to_dim) (mesh.num_entities dim dom)
    (mesh.num_entities to_dim dom)
  converse : ∀ d < mesh.num_entities dim dom, ∀ t < mesh.num_entities to_dim dom,
    t ∈ (mesh.connectivity dom dom dim to_dim).row d ↔ d ∈ (mesh.connectivity dom dom to_dim dim).row t

theorem Between.linked {mesh : MeshTopology} {dom from_dim to_dim dim : ℕ}
    (h : Between mesh dom from_dim to_dim dim) : Linked mesh dom from_dim to_dim dim :=
  ⟨h.from_stored, h.to_stored, h.back_stored, h.converse⟩

/-- The `to_id`s met on the way through the dimension in between. -/
def reached (mesh : MeshTopology) (dom from_dim to_dim dim from_id : ℕ) : List ℕ :=
  ((mesh.connectivity dom dom from_dim dim).row from_id).flatMap
    (mesh.connectivity dom dom dim to_dim).row

/-- What the test on a `to_id` comes out as. -/
def accepted (mesh : MeshTopology) (dom from_dim to_dim dim from_id to_id : ℕ) : Bool :=
  let from_verts := ((mesh.connectivity dom dom from_dim dim).row from_id).mergeSort (· ≤ ·)
  let to_verts := ((mesh.connectivity dom dom to_dim dim).row to_id).mergeSort (· ≤ ·)
  if from_dim = to_dim then from_id ≠ to_id
  else if dim < to_dim then includes from_verts to_verts else intersects from_verts to_verts

section
variable {mesh : MeshTopology} {dom from_dim to_dim dim : ℕ}
  (h : Linked mesh dom from_dim to_dim dim)

include h in
theorem Linked.throughEntities_eq (from_id : ℕ) (step : σ → ℕ → Option σ) (s : σ) :
    mesh.throughEntities dom dom from_dim to_dim dim from_id step s =
      (mesh.reached dom from_dim to_dim dim from_id).foldlM step s := by
  have hids : ∀ d, mesh.entityIds dom dom dim to_dim d =
      some ((mesh.connectivity dom dom dim to_dim).row d) := fun d => by
    simp [entityIds, h.back_stored.filled]
  have hfrom : mesh.entityIds dom dom from_dim dim from_id =
      some ((mesh.connectivity dom dom from_dim dim).row from_id) := by
    simp [entityIds, h.from_stored.filled]
  rw [throughEntities, hfrom, reached]
  simp only [Option.bind_eq_bind, Option.bind_some, hids]
  induction (mesh.connectivity dom dom from_dim dim).row from_id generalizing s with
  | nil => rfl
  | cons d ds ih =>
    rw [List.flatMap_cons, List.foldlM_append, List.foldlM_cons]
    exact congrArg _ (funext ih)

include h in
theorem Linked.reached_lt (hf : f < mesh.num_entities from_dim dom)
    (ht : t ∈ mesh.reached dom from_dim to_dim dim f) : t < mesh.num_entities to_dim dom := by
  obtain ⟨d, hd, ht⟩ := List.mem_flatMap.mp ht
  exact h.back_stored.lt_of_mem_row (h.from_stored.lt_of_mem_row hf hd) ht

include h in
theorem Linked.accept_eq (ht : t < mesh.num_entities to_dim dom) (f : ℕ) :
    mesh.accept dom from_dim to_dim dim
      (((mesh.connectivity dom dom from_dim dim).row f).mergeSort (· ≤ ·)) f t =
      some (mesh.accepted dom from_dim to_dim dim f t) := by
  unfold accept accepted
  cases Decidable.em (from_dim = to_dim) with
  | inl heq => simp only [heq, if_true]
  | inr hne => simp only [hne, if_false, h.to_stored.getEntities ht, Option.bind_eq_bind, Option.bind_some]

include h in
theorem Linked.intersectEntity_eq (hf : f < mesh.num_entities from_dim dom) {visited : List Bool}
    (hvisited : visited.length = mesh.num_entities to_dim dom) :
    ∃ s, mesh.intersectEntity dom dom from_dim to_dim dim visited f = some s ∧
      s.1.length = visited.length ∧ s.2.Nodup ∧
      ∀ t, t ∈ s.2 ↔ t ∈ mesh.reached dom from_dim to_dim dim f ∧
        mesh.accepted dom from_dim to_dim dim f t = true := by
  have hreset : mesh.throughEntities dom dom from_dim to_dim dim f
      (fun visited to_id => some (visited.set to_id false)) visited =
      some (reset visited (mesh.reached dom from_dim to_dim dim f)) := by
    rw [h.throughEntities_eq]
    exact List.foldlM_pure
  obtain ⟨s, hs, hlen, -, hnodup, hmem⟩ := foldlM_visit (mesh.reached dom from_dim to_dim dim f)
    (fun t ht => getElem?_reset ht (hvisited ▸ h.reached_lt hf ht))
    (fun t ht => h.accept_eq (h.reached_lt hf ht) f)
  refine ⟨s, ?_, hlen.trans (length_reset _ _), hnodup, hmem⟩
  rw [intersectEntity, h.from_stored.getEntities hf]
  simp only [Option.bind_eq_bind, Option.bind_some, hreset, h.throughEntities_eq]
  exact hs

include h in
/-- The loop over all entities; the flags need no more than their number. -/
theorem Linked.foldlM_intersectEntity : ∃ s, (List.range (mesh.num_entities from_dim dom)).foldlM
    (fun (s : List Bool × List (List ℕ)) from_id => do
      let (visited, ents) ← mesh.intersectEntity dom dom from_dim to_dim dim s.1 from_id
      some (visited, s.2.set from_id ents))
    (List.replicate (mesh.num_entities to_dim dom) false,
      List.replicate (mesh.num_entities from_dim dom) []) = some s ∧
    s.2.length = mesh.num_entities from_dim dom ∧
    ∀ f < mesh.num_entities from_dim dom, (s.2.getD f []).Nodup ∧
      ∀ t, t ∈ s.2.getD f [] ↔ t ∈ mesh.reached dom from_dim to_dim dim f ∧
        mesh.accepted dom from_dim to_dim dim f t = true := by
  have run : ∀ k ≤ mesh.num_entities from_dim dom, ∃ s, (List.range k).foldlM
      (fun (s : List Bool × List (List ℕ)) from_id => do
        let (visited, ents) ← mesh.intersectEntity dom dom from_dim to_dim dim s.1 from_id
        some (visited, s.2.set from_id ents))
      (List.replicate (mesh.num_entities to_dim dom) false,
        List.replicate (mesh.num_entities from_dim dom) []) = some s ∧
      s.1.length = mesh.num_entities to_dim dom ∧ s.2.length = mesh.num_entities from_dim dom ∧
      ∀ f < k, (s.2.getD f []).Nodup ∧
        ∀ t, t ∈ s.2.getD f [] ↔ t ∈ mesh.reached dom from_dim to_dim dim f ∧
          mesh.accepted dom from_dim to_dim dim f t = true := by
    intro k hk
    induction k with
    | zero => exact ⟨_, rfl, List.length_replicate, List.length_replicate, by simp⟩
    | succ k ih =>
      obtain ⟨s, hs, hvisited, hlen, hrows⟩ := ih (by omega)
      obtain ⟨⟨visited, ents⟩, hent, hlen', hnodup, hmem⟩ := h.intersectEntity_eq hk hvisited
      refine ⟨(visited, s.2.set k ents), ?_, hlen'.trans hvisited, by rw [List.length_set, hlen], ?_⟩
      · rw [List.range_succ, List.foldlM_append, hs]
        simp only [Option.bind_eq_bind, Option.bind_some, List.foldlM_cons, List.foldlM_nil, hent,
          Option.pure_def]
      · intro f hf
        cases Nat.lt_succ_iff_lt_or_eq.mp hf with
        | inl hlt =>
          rw [List.getD_eq_getElem?_getD, List.getElem?_set_ne hlt.ne', ← List.getD_eq_getElem?_getD]
          exact hrows f hlt
        | inr heq =>
          subst heq
          rw [List.getD_eq_getElem?_getD, List.getElem?_set_self (hlen ▸ hk), Option.getD_some]
          exact ⟨hnodup, hmem⟩
  obtain ⟨s, hs, -, hlen, hrows⟩ := run _ le_rfl
  exact ⟨s, hs, hlen, hrows⟩

-- ---------------------------------------------------------------------------
-- Incidence
-- ---------------------------------------------------------------------------

/-- When a `to` entity is connected to a `from` entity, through the entities of
the dimension in between that both name. A lower dimension counts how often an
entity is named. -/
def Incident (mesh : MeshTopology) (dom from_dim to_dim dim f t : ℕ) : Prop :=
  let from_row := (mesh.connectivity dom dom from_dim dim).row f
  let to_row := (mesh.connectivity dom dom to_dim dim).row t
  if from_dim = to_dim then t ≠ f ∧ ∃ d ∈ from_row, d ∈ to_row
  else if dim < to_dim then to_row.Subperm from_row
  else ∃ d ∈ from_row, d ∈ to_row

include h in
theorem Linked.mem_reached (hf : f < mesh.num_entities from_dim dom) :
    t ∈ mesh.reached dom from_dim to_dim dim f ↔ t < mesh.num_entities to_dim dom ∧
      ∃ d ∈ (mesh.connectivity dom dom from_dim dim).row f,
        d ∈ (mesh.connectivity dom dom to_dim dim).row t := by
  constructor
  · intro ht
    have hlt := h.reached_lt hf ht
    obtain ⟨d, hd, ht⟩ := List.mem_flatMap.mp ht
    exact ⟨hlt, d, hd, (h.converse d (h.from_stored.lt_of_mem_row hf hd) t hlt).mp ht⟩
  · rintro ⟨hlt, d, hd, ht⟩
    exact List.mem_flatMap.mpr ⟨d, hd, (h.converse d (h.from_stored.lt_of_mem_row hf hd) t hlt).mpr ht⟩

/-- What `intersect` connects: entities that meet, and pass its test. -/
def Connected (mesh : MeshTopology) (dom from_dim to_dim dim f t : ℕ) : Prop :=
  (∃ d ∈ (mesh.connectivity dom dom from_dim dim).row f, d ∈ (mesh.connectivity dom dom to_dim dim).row t) ∧
    mesh.Incident dom from_dim to_dim dim f t

include h in
theorem Linked.connected_iff (hf : f < mesh.num_entities from_dim dom) :
    (t ∈ mesh.reached dom from_dim to_dim dim f ∧ mesh.accepted dom from_dim to_dim dim f t = true) ↔
      t < mesh.num_entities to_dim dom ∧ mesh.Connected dom from_dim to_dim dim f t := by
  rw [h.mem_reached hf, and_assoc, Connected]
  refine and_congr_right fun ht => and_congr_right fun hmeet => ?_
  unfold accepted Incident
  cases Decidable.em (from_dim = to_dim) with
  | inl heq =>
    subst heq
    simp only [if_true, decide_eq_true_eq]
    rw [and_iff_left hmeet, ne_comm]
  | inr hne =>
    cases Decidable.em (dim < to_dim) with
    | inl hlt => simp only [hne, hlt, if_true, if_false, includes_sort_iff]
    | inr hge => simp only [hne, hge, if_false, intersects_sort_iff]

/-- Covered entities meet where they are incident. -/
theorem Between.connected_iff (hb : Between mesh dom from_dim to_dim dim) (ht : t < mesh.num_entities to_dim dom) :
    mesh.Connected dom from_dim to_dim dim f t ↔ mesh.Incident dom from_dim to_dim dim f t := by
  refine and_iff_right_of_imp fun hinc => ?_
  unfold Incident at hinc
  cases Decidable.em (from_dim = to_dim) with
  | inl heq =>
    simp only [heq, if_true] at hinc
    rw [heq]
    exact hinc.2
  | inr hne =>
    cases Decidable.em (dim < to_dim) with
    | inl hlt =>
      simp only [hne, hlt, if_true, if_false] at hinc
      -- a covered entity with all it names in the row is met there
      obtain ⟨d, hd⟩ := List.exists_mem_of_ne_nil _ (hb.covered t ht)
      exact ⟨d, hinc.subset hd, hd⟩
    | inr hge =>
      simp only [hne, hge, if_false] at hinc
      exact hinc

include h in
theorem Linked.intersect_eq (hout : (mesh.connectivity dom dom from_dim to_dim).empty = true) :
    ∃ rows, mesh.intersect dom dom from_dim to_dim dim =
        some (mesh.setConnectivity dom dom from_dim to_dim (Connectivity.init rows)) ∧
      rows.length = mesh.num_entities from_dim dom ∧
      ∀ f < mesh.num_entities from_dim dom, (rows.getD f []).Nodup ∧
        ∀ t, t ∈ rows.getD f [] ↔ t < mesh.num_entities to_dim dom ∧
          mesh.Connected dom from_dim to_dim dim f t := by
  obtain ⟨s, hs, hlen, hrows⟩ := h.foldlM_intersectEntity
  refine ⟨s.2, ?_, hlen, fun f hf => ⟨(hrows f hf).1, fun t => ?_⟩⟩
  · have hstored : ¬((mesh.connectivity dom dom from_dim dim).empty = true ∨
        (mesh.connectivity dom dom to_dim dim).empty = true) := by
      rw [h.from_stored.filled, h.to_stored.filled]
      simp
    rw [intersect, hout, if_neg (by simp), if_neg hstored]
    dsimp only
    rw [hs]
    rfl
  · rw [(hrows f hf).2, h.connected_iff hf]

/-- What `intersect` leaves, by rows. -/
theorem Between.intersect_eq (hb : Between mesh dom from_dim to_dim dim)
    (hout : (mesh.connectivity dom dom from_dim to_dim).empty = true) :
    ∃ mesh', mesh.intersect dom dom from_dim to_dim dim = some mesh' ∧
      Unchanged mesh mesh' dom dom from_dim to_dim ∧
      (mesh'.connectivity dom dom from_dim to_dim).from_size = mesh.num_entities from_dim dom ∧
      ∀ f < mesh.num_entities from_dim dom, ((mesh'.connectivity dom dom from_dim to_dim).row f).Nodup ∧
        ∀ t, t ∈ (mesh'.connectivity dom dom from_dim to_dim).row f ↔
          t < mesh.num_entities to_dim dom ∧ mesh.Incident dom from_dim to_dim dim f t := by
  obtain ⟨rows, hmesh, hlen, hrows⟩ := hb.linked.intersect_eq hout
  refine ⟨_, hmesh, setConnectivity_unchanged _ _ _ _ _ _, ?_, fun f hf => ?_⟩
  · rw [setConnectivity_self, Connectivity.from_size_init, hlen]
  · rw [setConnectivity_self, Connectivity.row_init (hlen ▸ hf), ← List.getD_eq_getElem _ [] (hlen ▸ hf)]
    refine ⟨(hrows f hf).1, fun t => ?_⟩
    rw [(hrows f hf).2]
    exact and_congr_right hb.connected_iff

end

end MeshTopology

end Flecsi.Topology
