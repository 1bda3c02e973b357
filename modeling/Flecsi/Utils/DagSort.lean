import Flecsi.Utils.Dag

/-!
# Sorting a graph

`sort` is right on every graph whose nodes carry the hashes the edges name. A node that
`Dag.node` has created carries the hash zero, and the edges from it are never released.
-/

namespace Flecsi.Utils

open TopoOrder

variable {α : Type}

-- ---------------------------------------------------------------------------
-- Built graphs
-- ---------------------------------------------------------------------------

/-- What holds of every graph the calls build. -/
structure Dag.Built (d : Dag α) : Prop where
  hash : ∀ (k : ℕ) (n : DagNode α), d.nodes[k]? = some n → n.hash = k ∨ n.hash = 0
  closed : ∀ target source, d.Edge target source → source ∈ d.nodes

section
variable {d : Dag α} {policy : α}

theorem Dag.getElem?_set (d : Dag α) (k k' : ℕ) (n : DagNode α) :
    (d.set k n).nodes[k']? = if k = k' then some n else d.nodes[k']? := by
  simp [Dag.set, Std.TreeMap.getElem?_insert]

theorem Dag.mem_set {k k' : ℕ} {n : DagNode α} : k' ∈ (d.set k n).nodes ↔ k = k' ∨ k' ∈ d.nodes := by
  simp [Dag.set]

theorem Dag.at_eq {k : ℕ} {n : DagNode α} (h : d.nodes[k]? = some n) : d.at_ policy k = n := by
  rw [Dag.at_, Std.TreeMap.getD_eq_getD_getElem?, h]
  rfl

theorem Dag.at_missing {k : ℕ} (h : k ∉ d.nodes) : d.at_ policy k = .default policy := by
  rw [Dag.at_, Std.TreeMap.getD_eq_fallback h]

theorem Dag.at_cases (d : Dag α) (policy : α) (k : ℕ) :
    d.nodes[k]? = some (d.at_ policy k) ∨ (k ∉ d.nodes ∧ d.at_ policy k = .default policy) := by
  cases h : d.nodes[k]? with
  | some n => exact .inl (congrArg some (Dag.at_eq h).symm)
  | none =>
    have hk : k ∉ d.nodes := fun hmem => by
      rw [Std.TreeMap.mem_iff_isSome_getElem?, h] at hmem
      cases hmem
    exact .inr ⟨hk, Dag.at_missing hk⟩

/-- A node stored with sources that are there keeps a built graph. -/
theorem Dag.Built.set (h : d.Built) {k : ℕ} {n : DagNode α} (hhash : n.hash = k ∨ n.hash = 0)
    (hedges : ∀ source ∈ n.edges, source ∈ d.nodes) : (d.set k n).Built where
  hash k' n' hn' := by
    rw [Dag.getElem?_set] at hn'
    split at hn'
    · rename_i hk
      cases hn'
      exact hk ▸ hhash
    · exact h.hash k' n' hn'
  closed target source := by
    rintro ⟨n', hn', hs⟩
    rw [Dag.getElem?_set] at hn'
    rw [Dag.mem_set]
    split at hn'
    · cases hn'
      exact .inr (hedges source hs)
    · exact .inr (h.closed target source ⟨n', hn', hs⟩)

theorem Dag.Built.at_edges (h : d.Built) (k : ℕ) : ∀ source ∈ (d.at_ policy k).edges, source ∈ d.nodes := by
  intro source hs
  obtain hk | ⟨_, hk⟩ := d.at_cases policy k
  · exact h.closed k source ⟨_, hk, hs⟩
  · rw [hk] at hs
    cases hs

theorem Dag.Built.at_hash (h : d.Built) (k : ℕ) : (d.at_ policy k).hash = k ∨ (d.at_ policy k).hash = 0 := by
  obtain hk | ⟨_, hk⟩ := d.at_cases policy k
  · exact h.hash k _ hk
  · rw [hk]
    exact .inr rfl

theorem Dag.Built.add_missing (h : d.Built) (policy : α) (k : ℕ) : (d.add_missing policy k).Built := by
  unfold Dag.add_missing
  split
  · exact h
  · exact h.set (.inl rfl) fun _ hs => absurd hs List.not_mem_nil

theorem Dag.mem_add_missing {k k' : ℕ} : k' ∈ (d.add_missing policy k).nodes ↔ k' = k ∨ k' ∈ d.nodes := by
  unfold Dag.add_missing
  split
  · rename_i hk
    exact ⟨.inr, fun h => h.elim (fun he => he ▸ hk) id⟩
  · rw [Dag.mem_set, eq_comm]

theorem Dag.Built.call (h : d.Built) (c : DagCall α) : (d.call policy c).Built := by
  cases c with
  | node hash => exact h.set (h.at_hash hash) (h.at_edges hash)
  | initialize_node node => exact h.set (.inl rfl) (h.at_edges node.hash)
  | add_edge target source =>
    have hboth := (h.add_missing policy target).add_missing policy source
    refine hboth.set (hboth.at_hash target) fun s hs => ?_
    obtain hs | hs := List.mem_append.mp hs
    · exact hboth.at_edges target s hs
    · rw [List.mem_singleton.mp hs]
      exact Dag.mem_add_missing.mpr (.inl rfl)

theorem Dag.build_built (policy : α) (calls : List (DagCall α)) : (Dag.build policy calls).Built := by
  suffices h : ∀ d : Dag α, d.Built → (calls.foldl (Dag.call policy) d).Built from
    h ⟨∅⟩ ⟨fun k n hn => by simp at hn, fun target source ⟨n, hn, _⟩ => by simp at hn⟩
  induction calls with
  | nil => exact fun d hd => hd
  | cons c calls ih => exact fun d hd => ih _ (hd.call c)

end

-- ---------------------------------------------------------------------------
-- Releasing edges
-- ---------------------------------------------------------------------------

/-- The node stored at `k` with the edges from `done` removed. -/
def Dag.Residual (d : Dag α) (done : List ℕ) (n : DagNode α) (k : ℕ) : Prop :=
  ∃ stored, d.nodes[k]? = some stored ∧ n = { stored with edges := stored.edges.filter (· ∉ done) }

section
variable {d : Dag α} {done : List ℕ} {root : ℕ} {hash : ℕ}

theorem Dag.Residual.ready {n : DagNode α} {k : ℕ} (h : d.Residual done n k) (hn : n.edges = []) :
    d.sorted_node n k ∧ ∀ f, d.Edge k f → f ∈ done := by
  obtain ⟨stored, hk, rfl⟩ := h
  refine ⟨⟨stored, hk, by simp only at hn; rw [hn]⟩, ?_⟩
  rintro f ⟨stored', hk', hf⟩
  cases hk.symm.trans hk'
  by_contra hdone
  have hmem : f ∈ stored.edges.filter (· ∉ done) := List.mem_filter.mpr ⟨hf, by simpa using hdone⟩
  simp only at hn
  rw [hn] at hmem
  cases hmem

theorem Dag.Residual.blocked {n : DagNode α} {k : ℕ} (h : d.Residual done n k) (hn : n.edges ≠ []) :
    ∃ f, d.Edge k f ∧ f ∉ done := by
  obtain ⟨stored, hk, rfl⟩ := h
  obtain ⟨f, hf⟩ := List.exists_mem_of_ne_nil _ hn
  obtain ⟨hf, hdone⟩ := List.mem_filter.mp hf
  exact ⟨f, ⟨stored, hk, hf⟩, by simpa using hdone⟩

/-- Removing the edges with the hash of `root` removes the edges from `root`. -/
theorem Dag.Residual.filter (hnamed : d.Named) {stored : DagNode α} (hroot : d.nodes[root]? = some stored)
    {n : DagNode α} {k : ℕ} (h : d.Residual done n k) :
    d.Residual (done ++ [root]) { n with edges := n.edges.filter (· ≠ stored.hash) } k := by
  obtain ⟨n', hk, rfl⟩ := h
  refine ⟨n', hk, ?_⟩
  simp only [DagNode.mk.injEq, true_and, and_true, List.filter_filter]
  refine List.filter_congr fun f hf => ?_
  have hname := hnamed k f ⟨n', hk, hf⟩ root stored hroot
  have hiff : f = stored.hash ↔ f = root := by rw [eq_comm, hname, eq_comm]
  simp only [List.mem_append, List.mem_singleton, not_or, ne_eq, hiff, Bool.decide_and, Bool.and_comm]

theorem release_cons (hash : ℕ) (n : DagNode α) (nodes : List (DagNode α)) :
    release hash (n :: nodes) =
      if hash ∈ n.edges then
        if n.edges.filter (· ≠ hash) = [] then
          ({ n with edges := n.edges.filter (· ≠ hash) } :: (release hash nodes).1, (release hash nodes).2)
        else ((release hash nodes).1, { n with edges := n.edges.filter (· ≠ hash) } :: (release hash nodes).2)
      else ((release hash nodes).1, n :: (release hash nodes).2) := rfl

theorem release_spec (hnamed : d.Named) {stored : DagNode α} (hroot : d.nodes[root]? = some stored)
    {nodes : List (DagNode α)} {keys : List ℕ} (h : List.Forall₂ (d.Residual done) nodes keys)
    (hne : ∀ n ∈ nodes, n.edges ≠ []) :
    ∃ ready rest, (ready ++ rest).Perm keys ∧
      List.Forall₂ (d.Residual (done ++ [root])) (release stored.hash nodes).1 ready ∧
      List.Forall₂ (d.Residual (done ++ [root])) (release stored.hash nodes).2 rest ∧
      (∀ n ∈ (release stored.hash nodes).1, n.edges = []) ∧
      ∀ n ∈ (release stored.hash nodes).2, n.edges ≠ [] := by
  induction h with
  | nil => exact ⟨[], [], .refl _, .nil, .nil, by simp [release], by simp [release]⟩
  | @cons n k nodes keys hn _ ih =>
    obtain ⟨ready, rest, hperm, hready, hrest, hempty, hfull⟩ :=
      ih fun m hm => hne m (List.mem_cons_of_mem _ hm)
    have hstripped := hn.filter hnamed hroot
    have hmiddle : (ready ++ k :: rest).Perm (k :: keys) := List.perm_middle.trans (hperm.cons k)
    rw [release_cons]
    split
    · split
      · rename_i hnil
        exact ⟨k :: ready, rest, hperm.cons k, .cons hstripped hready, hrest,
          List.forall_mem_cons.mpr ⟨hnil, hempty⟩, hfull⟩
      · rename_i hcons
        exact ⟨ready, k :: rest, hmiddle, hready, .cons hstripped hrest, hempty,
          List.forall_mem_cons.mpr ⟨hcons, hfull⟩⟩
    · rename_i hmem
      have hsame : n.edges.filter (· ≠ stored.hash) = n.edges :=
        List.filter_eq_self.mpr fun f hf => decide_eq_true fun he => hmem (he ▸ hf)
      rw [hsame] at hstripped
      exact ⟨ready, k :: rest, hmiddle, hready, .cons hstripped hrest, hempty,
        List.forall_mem_cons.mpr ⟨hne n List.mem_cons_self, hfull⟩⟩

theorem length_release (hash : ℕ) (nodes : List (DagNode α)) :
    (release hash nodes).1.length + (release hash nodes).2.length = nodes.length := by
  induction nodes with
  | nil => rfl
  | cons n nodes ih =>
    rw [release_cons]
    split
    · split
      · simp only [List.length_cons]
        omega
      · simp only [List.length_cons]
        omega
    · simp only [List.length_cons]
      omega

-- ---------------------------------------------------------------------------
-- The loop
-- ---------------------------------------------------------------------------

/-- The sorted nodes are a topological order of what they reach, and everything else waits
for a node that is not sorted. -/
theorem sortLoop_spec (hnamed : d.Named) (fuel : ℕ) {q nodes sorted : List (DagNode α)}
    {queued waiting : List ℕ} (hfuel : q.length + nodes.length ≤ fuel)
    (hsorted : List.Forall₂ d.sorted_node sorted done) (horder : Ordered d.Edge done)
    (hq : List.Forall₂ d.sorted_node q queued) (hready : ∀ k ∈ queued, ∀ f, d.Edge k f → f ∈ done)
    (hnodes : List.Forall₂ (d.Residual done) nodes waiting) (hne : ∀ n ∈ nodes, n.edges ≠ []) :
    ∃ keys rest, (keys ++ rest).Perm (done ++ queued ++ waiting) ∧
      List.Forall₂ d.sorted_node (sortLoop fuel q nodes sorted) keys ∧ Ordered d.Edge keys ∧
      ∀ k ∈ rest, ∃ f, d.Edge k f ∧ f ∉ keys := by
  induction fuel generalizing q nodes sorted queued waiting done with
  | zero =>
    have hqnil : q = [] := List.length_eq_zero_iff.mp (by omega)
    have hnil : nodes = [] := List.length_eq_zero_iff.mp (by omega)
    subst hqnil hnil
    cases hq
    cases hnodes
    exact ⟨done, [], by simp, hsorted, horder, fun _ hk => absurd hk List.not_mem_nil⟩
  | succ fuel ih =>
    cases hq with
    | nil =>
      refine ⟨done, waiting, by simp, hsorted, horder, fun k hk => ?_⟩
      obtain ⟨i, hi, rfl⟩ := List.mem_iff_getElem.mp hk
      have hi' : i < nodes.length := hnodes.length_eq.symm ▸ hi
      exact (hnodes.get hi' hi).blocked (hne _ (List.getElem_mem hi'))
    | @cons n k q queued hroot hq =>
      obtain ⟨stored, hstored, rfl⟩ := hroot
      obtain ⟨ready, rest, hperm, hfree, hrest, hempty, hfull⟩ := release_spec hnamed hstored hnodes hne
      have hlen := length_release stored.hash nodes
      have hfreed : ∀ m ∈ ready, ∀ f, d.Edge m f → f ∈ done ++ [k] := by
        intro m hm
        obtain ⟨i, hi, rfl⟩ := List.mem_iff_getElem.mp hm
        have hi' : i < (release stored.hash nodes).1.length := hfree.length_eq.symm ▸ hi
        exact ((hfree.get hi' hi).ready (hempty _ (List.getElem_mem hi'))).2
      have hsortedReady : List.Forall₂ d.sorted_node (release stored.hash nodes).1 ready :=
        (List.forall₂_iff_get.mpr ⟨hfree.length_eq, fun i hi hi' =>
          ((hfree.get hi hi').ready (hempty _ (List.get_mem _ _))).1⟩)
      have hsorted' : List.Forall₂ d.sorted_node (sorted ++ [{ stored with edges := [] }]) (done ++ [k]) :=
        List.rel_append hsorted (.cons ⟨stored, hstored, rfl⟩ .nil)
      have hready' : ∀ m ∈ queued ++ ready, ∀ f, d.Edge m f → f ∈ done ++ [k] := by
        intro m hm f hf
        obtain hm | hm := List.mem_append.mp hm
        · exact List.mem_append_left _ (hready m (List.mem_cons_of_mem _ hm) f hf)
        · exact hfreed m hm f hf
      obtain ⟨keys, left, hkeys, hresult⟩ := ih
        (by simp only [List.length_append, List.length_cons] at hfuel ⊢; omega)
        hsorted' (horder.concat (hready k List.mem_cons_self)) (List.rel_append hq hsortedReady) hready'
        hrest hfull
      refine ⟨keys, left, hkeys.trans ?_, hresult⟩
      have hsplit : done ++ [k] ++ (queued ++ ready) ++ rest = done ++ k :: queued ++ (ready ++ rest) := by
        simp
      rw [hsplit]
      exact hperm.append_left _

end

-- ---------------------------------------------------------------------------
-- The whole sort
-- ---------------------------------------------------------------------------

section
variable {d : Dag α}

theorem Dag.residual_toList (d : Dag α) (p : ℕ × DagNode α → Bool) :
    List.Forall₂ (d.Residual []) ((d.nodes.toList.filter p).map (·.2)) ((d.nodes.toList.filter p).map (·.1)) := by
  rw [List.forall₂_map_left_iff, List.forall₂_map_right_iff, List.forall₂_same]
  intro x hx
  refine ⟨x.2, Std.TreeMap.mem_toList_iff_getElem?_eq_some.mp (List.mem_of_mem_filter hx), ?_⟩
  simp

/-- What the loop leaves, for a graph whose edges name its nodes. -/
theorem Dag.sort_loop (hnamed : d.Named) :
    ∃ sorted keys rest, (keys ++ rest).Perm d.nodes.keys ∧
      d.sort.1 = (if sorted.length ≠ d.nodes.size then none else some sorted) ∧
      List.Forall₂ d.sorted_node sorted keys ∧ Ordered d.Edge keys ∧
      ∀ k ∈ rest, ∃ f, d.Edge k f ∧ f ∉ keys := by
  have hroots := d.residual_toList fun x => decide (x.2.edges = [])
  have hnodes := d.residual_toList fun x => decide (x.2.edges ≠ [])
  have hq : (d.nodes.toList.map (·.2)).filter (·.edges = []) =
      (d.nodes.toList.filter fun x => decide (x.2.edges = [])).map (·.2) := List.filter_map
  have hrest : (d.nodes.toList.map (·.2)).filter (·.edges ≠ []) =
      (d.nodes.toList.filter fun x => decide (x.2.edges ≠ [])).map (·.2) := List.filter_map
  have hempty : ∀ n ∈ (d.nodes.toList.filter fun x => decide (x.2.edges = [])).map (·.2), n.edges = [] := by
    intro n hn
    obtain ⟨x, hx, rfl⟩ := List.mem_map.mp hn
    exact of_decide_eq_true (List.mem_filter.mp hx).2
  have hfull : ∀ n ∈ (d.nodes.toList.filter fun x => decide (x.2.edges ≠ [])).map (·.2), n.edges ≠ [] := by
    intro n hn
    obtain ⟨x, hx, rfl⟩ := List.mem_map.mp hn
    exact of_decide_eq_true (List.mem_filter.mp hx).2
  have hready {i : ℕ} (h₁ h₂) := (hroots.get (i := i) h₁ h₂).ready (hempty _ (List.get_mem _ _))
  have hsortedRoots := List.forall₂_iff_get.mpr
    ⟨hroots.length_eq, fun i h₁ h₂ => (hready h₁ h₂).1⟩
  have hperm : ((d.nodes.toList.filter fun x => decide (x.2.edges = [])).map (·.1) ++
      (d.nodes.toList.filter fun x => decide (x.2.edges ≠ [])).map (·.1)).Perm d.nodes.keys := by
    rw [← List.map_append, ← Std.TreeMap.map_fst_toList_eq_keys]
    have hsplit := List.filter_append_perm (fun x : ℕ × DagNode α => decide (x.2.edges = [])) d.nodes.toList
    simp only [← decide_not] at hsplit
    exact hsplit.map _
  have hfuel : ((d.nodes.toList.filter fun x => decide (x.2.edges = [])).map (·.2)).length +
      ((d.nodes.toList.filter fun x => decide (x.2.edges ≠ [])).map (·.2)).length ≤
      (d.nodes.toList.map (·.2)).length := by
    have hlen := hperm.length_eq
    simp only [List.length_append, List.length_map, Std.TreeMap.length_keys, Std.TreeMap.length_toList] at hlen ⊢
    exact hlen.le
  obtain ⟨keys, rest, hkeys, hsorted, horder, hwait⟩ := sortLoop_spec hnamed _ hfuel .nil ordered_nil
    hsortedRoots (fun k hk f hf => by
      obtain ⟨i, hi, rfl⟩ := List.mem_iff_getElem.mp hk
      exact (hready (hroots.length_eq.symm ▸ hi) hi).2 f hf) hnodes hfull
  rw [List.nil_append] at hkeys
  refine ⟨_, keys, rest, hkeys.trans hperm, ?_, hsorted, horder, hwait⟩
  simp only [Dag.sort, hq, hrest]

theorem Dag.Named.sortCorrect (hnamed : d.Named) (hbuilt : d.Built) : d.SortCorrect := by
  obtain ⟨sorted, keys, rest, hperm, hsort, hsorted, horder, hwait⟩ := Dag.sort_loop hnamed
  have hlen : sorted.length + rest.length = d.nodes.size := by
    rw [hsorted.length_eq, ← List.length_append, hperm.length_eq, Std.TreeMap.length_keys]
  refine ⟨fun hacyclic => ?_, fun hcyclic => ?_⟩
  · have hnil : rest = [] := by
      by_contra hne
      obtain ⟨k, hk, hfree⟩ := TopoOrder.Acyclic.exists_free hacyclic hne
      obtain ⟨f, hf, hnot⟩ := hwait k hk
      have hmem : f ∈ keys ++ rest :=
        hperm.mem_iff.mpr (Std.TreeMap.mem_keys.mpr (hbuilt.closed k f hf))
      exact (List.mem_append.mp hmem).elim hnot (hfree f hf)
    subst hnil
    rw [List.append_nil] at hperm
    rw [List.length_nil, Nat.add_zero] at hlen
    refine ⟨sorted, by rw [hsort, if_neg (not_not.mpr hlen)], keys, hperm, hsorted, ?_⟩
    rintro target source ⟨n, hn, hs⟩
    refine horder.before (hperm.nodup_iff.mpr Std.TreeMap.nodup_keys) ⟨n, hn, hs⟩ (hperm.mem_iff.mpr ?_)
    rw [Std.TreeMap.mem_keys, Std.TreeMap.mem_iff_isSome_getElem?, hn]
    rfl
  · rw [hsort, if_pos]
    intro hall
    have hnil : rest = [] := List.length_eq_zero_iff.mp (by omega)
    subst hnil
    rw [List.append_nil] at hperm
    refine hcyclic (horder.acyclic fun k f hf => hperm.mem_iff.mpr ?_)
    obtain ⟨n, hn, _⟩ := hf
    rw [Std.TreeMap.mem_keys, Std.TreeMap.mem_iff_isSome_getElem?, hn]
    rfl

-- ---------------------------------------------------------------------------
-- Nodes without their hash
-- ---------------------------------------------------------------------------

theorem hash_release (hash : ℕ) {nodes : List (DagNode α)} {P : ℕ → Prop} (h : ∀ n ∈ nodes, P n.hash) :
    (∀ n ∈ (release hash nodes).1, P n.hash) ∧ ∀ n ∈ (release hash nodes).2, P n.hash := by
  induction nodes with
  | nil => exact ⟨fun _ hn => absurd hn List.not_mem_nil, fun _ hn => absurd hn List.not_mem_nil⟩
  | cons n nodes ih =>
    obtain ⟨hn, hnodes⟩ := List.forall_mem_cons.mp h
    obtain ⟨hready, hrest⟩ := ih hnodes
    rw [release_cons]
    split
    · split
      · exact ⟨List.forall_mem_cons.mpr ⟨hn, hready⟩, hrest⟩
      · exact ⟨hready, List.forall_mem_cons.mpr ⟨hn, hrest⟩⟩
    · exact ⟨hready, List.forall_mem_cons.mpr ⟨hn, hrest⟩⟩

theorem release_keeps {hash source : ℕ} (hne : hash ≠ source) {nodes : List (DagNode α)}
    (h : ∃ n ∈ nodes, source ∈ n.edges) : ∃ n ∈ (release hash nodes).2, source ∈ n.edges := by
  induction nodes with
  | nil => exact absurd h (by simp)
  | cons n nodes ih =>
    obtain ⟨m, hm, hs⟩ := h
    rw [release_cons]
    have hkept : ∀ m : DagNode α, source ∈ m.edges → source ∈ m.edges.filter (· ≠ hash) := fun m hs =>
      List.mem_filter.mpr ⟨hs, decide_eq_true hne.symm⟩
    obtain rfl | hm := List.mem_cons.mp hm
    · split
      · rw [if_neg (List.ne_nil_of_mem (hkept m hs))]
        exact ⟨_, List.mem_cons_self, hkept m hs⟩
      · exact ⟨m, List.mem_cons_self, hs⟩
    · obtain ⟨m, hm, hs⟩ := ih ⟨m, hm, hs⟩
      split
      · split
        · exact ⟨m, hm, hs⟩
        · exact ⟨m, List.mem_cons_of_mem _ hm, hs⟩
      · exact ⟨m, List.mem_cons_of_mem _ hm, hs⟩

/-- A node that waits for a hash no node carries is never sorted. -/
theorem sortLoop_stuck (source fuel : ℕ) {q nodes : List (DagNode α)} (sorted : List (DagNode α))
    (hq : ∀ n ∈ q, n.hash ≠ source) (hnodes : ∀ n ∈ nodes, n.hash ≠ source)
    (hwait : ∃ n ∈ nodes, source ∈ n.edges) :
    (sortLoop fuel q nodes sorted).length < q.length + nodes.length + sorted.length := by
  have hpos : 0 < nodes.length := by
    obtain ⟨w, hw, _⟩ := hwait
    exact List.length_pos_of_mem hw
  induction fuel generalizing q nodes sorted with
  | zero =>
    rw [sortLoop]
    omega
  | succ fuel ih =>
    cases q with
    | nil =>
      rw [sortLoop]
      omega
    | cons root q =>
      have hroot := hq root List.mem_cons_self
      obtain ⟨hready, hrest⟩ := hash_release root.hash (P := fun h => h ≠ source) hnodes
      have hlen := length_release root.hash nodes
      have hkeeps := release_keeps hroot hwait
      have hpos' : 0 < (release root.hash nodes).2.length := by
        obtain ⟨w, hw, _⟩ := hkeeps
        exact List.length_pos_of_mem hw
      have hstep := ih (sorted ++ [root])
        (List.forall_mem_append.mpr ⟨fun n hn => hq n (List.mem_cons_of_mem _ hn), hready⟩) hrest hkeeps hpos'
      have hunfold : sortLoop (fuel + 1) (root :: q) nodes sorted =
          sortLoop fuel (q ++ (release root.hash nodes).1) (release root.hash nodes).2 (sorted ++ [root]) := rfl
      rw [hunfold]
      simp only [List.length_append, List.length_cons, List.length_nil] at hstep ⊢
      omega

theorem Dag.Unnamed.sort_eq_none (h : d.Unnamed) (hbuilt : d.Built) : d.sort.1 = none := by
  obtain ⟨target, source, n, ⟨stored, hstored, hs⟩, hn, hhash⟩ := h
  have hzero : source ≠ 0 := fun hz =>
    (hbuilt.hash source n hn).elim hhash fun h0 => hhash (h0.trans hz.symm)
  have hnone : ∀ x ∈ d.nodes.toList, x.2.hash ≠ source := by
    intro x hx hsource
    have hx := Std.TreeMap.mem_toList_iff_getElem?_eq_some.mp hx
    obtain hkey | h0 := hbuilt.hash x.1 x.2 hx
    · rw [← hkey, hsource, hn] at hx
      exact hhash (Option.some.inj hx ▸ hsource)
    · exact hzero (hsource.symm.trans h0)
  have hall : ∀ m ∈ d.nodes.toList.map (·.2), m.hash ≠ source := by
    intro m hm
    obtain ⟨x, hx, rfl⟩ := List.mem_map.mp hm
    exact hnone x hx
  have hmem : stored ∈ d.nodes.toList.map (·.2) :=
    List.mem_map_of_mem (Std.TreeMap.mem_toList_iff_getElem?_eq_some.mpr hstored)
  have hwait : ∃ m ∈ (d.nodes.toList.map (·.2)).filter (·.edges ≠ []), source ∈ m.edges :=
    ⟨stored, List.mem_filter.mpr ⟨hmem, decide_eq_true (List.ne_nil_of_mem hs)⟩, hs⟩
  have hroots : ∀ m ∈ (d.nodes.toList.map (·.2)).filter (·.edges = []), m.hash ≠ source :=
    fun m hm => hall m (List.mem_of_mem_filter hm)
  have hlt := sortLoop_stuck source (d.nodes.toList.map (·.2)).length [] hroots
    (fun m hm => hall m (List.mem_of_mem_filter hm)) hwait
  have hsplit := (List.filter_append_perm (fun m : DagNode α => decide (m.edges = []))
    (d.nodes.toList.map (·.2))).length_eq
  simp only [← decide_not, List.length_append, List.length_map, Std.TreeMap.length_toList] at hsplit
  rw [hsplit, List.length_nil, Nat.add_zero] at hlt
  simp only [Dag.sort]
  exact if_pos hlt.ne

end

/-- `sort` on every graph that the calls build. It is right when the edges name the hashes of
their nodes; if a source lacks its hash, it reports an error, cycle or not. -/
theorem sort_build (policy : α) (calls : List (DagCall α)) :
    ((Dag.build policy calls).Named → (Dag.build policy calls).SortCorrect) ∧
    ((Dag.build policy calls).Unnamed →
      ((Dag.build policy calls).SortCorrect ↔ ¬(Dag.build policy calls).Acyclic)) ∧
    (Dag.build policy calls).sort.2 = Dag.build policy calls := by
  have hbuilt := Dag.build_built policy calls
  refine ⟨fun h => h.sortCorrect hbuilt, fun h => ?_, rfl⟩
  have hnone := h.sort_eq_none hbuilt
  refine ⟨fun hsort hacyclic => ?_, fun hcyclic => ⟨fun h => absurd h hcyclic, fun _ => hnone⟩⟩
  obtain ⟨sorted, hsorted, _⟩ := hsort.1 hacyclic
  cases hnone.symm.trans hsorted

/-- Node 5 is looked up before an edge names it, and nothing initialises it. -/
def lookedUp : List (DagCall Unit) := [.node 5, .add_edge 7 5]

theorem lookedUp_edge {target source : ℕ} (h : (Dag.build () lookedUp).Edge target source) :
    target = 7 ∧ source = 5 := by
  obtain ⟨n, hn, hs⟩ := h
  have hlist : (Dag.build () lookedUp).nodes.toList = [(5, ⟨0, "", [], ()⟩), (7, ⟨7, "", [5], ()⟩)] := by
    decide
  have hmem := Std.TreeMap.mem_toList_iff_getElem?_eq_some.mpr hn
  rw [hlist] at hmem
  obtain hmem | hmem := List.mem_cons.mp hmem
  · cases hmem
    cases hs
  · cases List.mem_singleton.mp hmem
    exact ⟨rfl, List.mem_singleton.mp hs⟩

/-- An acyclic graph that is not sorted. -/
theorem lookedUp_not_sorted :
    (Dag.build () lookedUp).Acyclic ∧ (Dag.build () lookedUp).sort.1 = none := by
  refine ⟨?_, by decide⟩
  have horder : Ordered (Dag.build () lookedUp).Edge [5, 7] := by
    have hfive : ∀ f, (Dag.build () lookedUp).Edge 5 f → f ∈ ([] : List ℕ) := by
      intro f hf
      obtain ⟨htarget, _⟩ := lookedUp_edge hf
      cases htarget
    refine (ordered_nil.concat hfive).concat fun f hf => ?_
    rw [(lookedUp_edge hf).2]
    exact List.mem_singleton_self 5
  refine horder.acyclic fun k f hf => ?_
  rw [(lookedUp_edge hf).1]
  decide

end Flecsi.Utils
