import Flecsi.ControlModel.Control

/-!
# Action graphs

What the graphs of the registry hold after any commands, and what sorting them gives.
-/

namespace Flecsi.ControlModel

open Flecsi.Utils

variable {A σ : Type}

-- ---------------------------------------------------------------------------
-- One graph
-- ---------------------------------------------------------------------------

/-- A graph with the actions of a phase and the edges between them. -/
structure Represents (d : Dag (Option A)) (actions : ℕ → Option A) (depends : ℕ → ℕ → Prop) : Prop where
  stored : ∀ (k : ℕ) (n : DagNode (Option A)), d.nodes[k]? = some n → n.hash = k ∧ n.policy = actions k
  registered : ∀ (k : ℕ), (actions k).isSome → k ∈ d.nodes
  edge : ∀ (target source : ℕ), d.Edge target source ↔ depends target source
  closed : ∀ (target source : ℕ), depends target source → source ∈ d.nodes

section
variable {d : Dag (Option A)} {actions : ℕ → Option A} {depends : ℕ → ℕ → Prop}

theorem represents_empty : Represents (⟨∅⟩ : Dag (Option A)) (fun _ => none) (fun _ _ => False) where
  stored k n hn := by simp at hn
  registered k hk := by cases hk
  edge target source := ⟨fun ⟨n, hn, _⟩ => by simp at hn, False.elim⟩
  closed target source h := h.elim

theorem Represents.named (h : Represents d actions depends) : d.Named := by
  intro target source _ k n hn
  rw [(h.stored k n hn).1]

theorem Represents.built (h : Represents d actions depends) : d.Built where
  hash k n hn := .inl (h.stored k n hn).1
  closed target source he := h.closed target source ((h.edge target source).mp he)

theorem mem_at_edges {k source : ℕ} : source ∈ (d.at_ none k).edges ↔ d.Edge k source := by
  obtain hk | ⟨hk, hat⟩ := d.at_cases none k
  · refine ⟨fun hs => ⟨_, hk, hs⟩, ?_⟩
    rintro ⟨n, hn, hs⟩
    cases hk.symm.trans hn
    exact hs
  · rw [hat]
    refine ⟨fun hs => absurd hs List.not_mem_nil, ?_⟩
    rintro ⟨n, hn, _⟩
    refine absurd ?_ hk
    rw [Std.TreeMap.mem_iff_isSome_getElem?, hn]
    rfl

theorem edge_set {k target source : ℕ} {n : DagNode (Option A)} :
    (d.set k n).Edge target source ↔ if k = target then source ∈ n.edges else d.Edge target source := by
  unfold Dag.Edge
  rw [Dag.getElem?_set]
  split
  · simp
  · rfl

/-- A node stored with its hash, its action and more edges. -/
theorem Represents.set (h : Represents d actions depends) {k : ℕ} {n : DagNode (Option A)} (hhash : n.hash = k)
    {actions' : ℕ → Option A} (hactions : actions' = Function.update actions k n.policy)
    {depends' : ℕ → ℕ → Prop}
    (hdepends : ∀ target source, depends' target source ↔
      if k = target then source ∈ n.edges else depends target source)
    (hclosed : ∀ source ∈ n.edges, source ∈ d.nodes) : Represents (d.set k n) actions' depends' where
  stored k' n' hn' := by
    subst hactions
    rw [Dag.getElem?_set] at hn'
    split at hn'
    · rename_i hk
      cases hn'
      rw [← hk, Function.update_self]
      exact ⟨hhash, rfl⟩
    · rename_i hk
      rw [Function.update_of_ne (Ne.symm hk)]
      exact h.stored k' n' hn'
  registered k' hk' := by
    subst hactions
    rw [Dag.mem_set]
    obtain rfl | hne := eq_or_ne k k'
    · exact .inl rfl
    · rw [Function.update_of_ne hne.symm] at hk'
      exact .inr (h.registered k' hk')
  edge target source := by
    rw [edge_set, hdepends]
    split
    · rfl
    · exact h.edge target source
  closed target source hdep := by
    rw [Dag.mem_set]
    rw [hdepends] at hdep
    split at hdep
    · exact .inr (hclosed source hdep)
    · exact .inr (h.closed target source hdep)

theorem Represents.at_closed (h : Represents d actions depends) (k : ℕ) :
    ∀ source ∈ (d.at_ none k).edges, source ∈ d.nodes :=
  fun source hs => h.closed k source ((h.edge k source).mp (mem_at_edges.mp hs))

theorem Represents.at_depends (h : Represents d actions depends) (k target source : ℕ) :
    depends target source ↔ if k = target then source ∈ (d.at_ none k).edges else depends target source := by
  split
  · rename_i hk
    rw [mem_at_edges, h.edge, hk]
  · rfl

theorem Represents.register (h : Represents d actions depends) (hash : ℕ) (label : String) (action : A) :
    Represents (d.call none (.initialize_node ⟨hash, label, [], some action⟩))
      (Function.update actions hash (some action)) depends :=
  h.set (n := (d.at_ none hash).initialized ⟨hash, label, [], some action⟩) rfl rfl
    (h.at_depends hash) (h.at_closed hash)

theorem Represents.add_missing (h : Represents d actions depends) (k : ℕ) :
    Represents (d.add_missing none k) actions depends := by
  unfold Dag.add_missing
  split
  · exact h
  · rename_i hk
    have hnone : actions k = none := by
      cases ha : actions k with
      | none => rfl
      | some action => exact absurd (h.registered k (by rw [ha]; rfl)) hk
    refine h.set (n := ⟨k, "", [], none⟩) rfl ?_ (fun target source => ?_)
      fun _ hs => absurd hs List.not_mem_nil
    · exact (Function.update_eq_self_iff.mpr hnone.symm).symm
    · have := h.at_depends k target source
      rwa [Dag.at_missing hk] at this

theorem Represents.add_edge (h : Represents d actions depends) (target source : ℕ) :
    Represents (d.call none (.add_edge target source)) actions
      (fun t s => depends t s ∨ (t = target ∧ s = source)) := by
  have hboth := (h.add_missing target).add_missing source
  have hsource : source ∈ ((d.add_missing none target).add_missing none source).nodes :=
    Dag.mem_add_missing.mpr (.inl rfl)
  have htarget : target ∈ ((d.add_missing none target).add_missing none source).nodes :=
    Dag.mem_add_missing.mpr (.inr (Dag.mem_add_missing.mpr (.inl rfl)))
  have hcall : d.call none (.add_edge target source) =
      ((d.add_missing none target).add_missing none source).set target
        { ((d.add_missing none target).add_missing none source).at_ none target with
          edges := (((d.add_missing none target).add_missing none source).at_ none target).edges ++ [source] } :=
    rfl
  rw [hcall]
  generalize (d.add_missing none target).add_missing none source = d' at hboth hsource htarget
  obtain hat | ⟨hmissing, _⟩ := d'.at_cases none target
  · obtain ⟨hhash, hpolicy⟩ := hboth.stored _ _ hat
    refine hboth.set (by exact hhash) ?_ (fun t s => ?_) fun s hs => ?_
    · exact (Function.update_eq_self_iff.mpr hpolicy).symm
    · have hdep := hboth.at_depends target t s
      split
      · rename_i ht
        rw [if_pos ht] at hdep
        simp only [List.mem_append, List.mem_singleton, hdep, ht, true_and]
      · rename_i ht
        exact or_iff_left fun heq => ht heq.1.symm
    · obtain hs | hs := List.mem_append.mp hs
      · exact hboth.at_closed target s hs
      · exact List.mem_singleton.mp hs ▸ hsource
  · exact absurd htarget hmissing

end

-- ---------------------------------------------------------------------------
-- The registry
-- ---------------------------------------------------------------------------

section
variable {c c' : Control A}

@[simp] theorem Control.dag_phase_map (c : Control A) (phase v : ℕ) : (c.phase_map phase).dag v = c.dag v := by
  unfold Control.phase_map
  split
  · rfl
  · rename_i hphase
    simp only [Control.dag, Std.TreeMap.getD_insert]
    split
    · rename_i hv
      rw [← Std.LawfulEqOrd.eq_of_compare hv, Std.TreeMap.getD_eq_fallback hphase]
    · rfl

@[simp] theorem Control.sorted_phase_map_eq (c : Control A) (phase : ℕ) :
    (c.phase_map phase).sorted = c.sorted := by
  unfold Control.phase_map
  split <;> rfl

theorem Control.dag_update (c : Control A) (phase v : ℕ) (call : DagCall (Option A)) :
    (c.update phase call).dag v = if phase = v then (c.dag v).call none call else c.dag v := by
  have hsame := Control.dag_phase_map c phase v
  unfold Control.dag at hsame
  simp only [Control.update, Control.dag, Std.TreeMap.getD_insert, Nat.compare_eq_eq]
  split
  · rename_i hv
    subst hv
    rw [hsame]
  · exact hsame

end

-- ---------------------------------------------------------------------------
-- Commands
-- ---------------------------------------------------------------------------

/-- The registry holds what the commands asked for. -/
def Control.Holds (c : Control A) (commands : List (Command A)) : Prop :=
  ∀ phase, Represents (c.dag phase) (lastAction commands phase) (Depends commands phase)

theorem lastAction_register (commands : List (Command A)) (phase hash : ℕ) (label : String) (action : A) (v : ℕ) :
    lastAction (commands ++ [.register phase hash label action]) v =
      if phase = v then Function.update (lastAction commands v) hash (some action) else lastAction commands v := by
  funext k
  simp only [lastAction, List.foldl_append, List.foldl_cons, List.foldl_nil]
  split <;> rename_i hcond
  · rw [if_pos hcond.1, hcond.2, Function.update_self]
  · split
    · rename_i hphase
      rw [Function.update_of_ne fun hk => hcond ⟨hphase, hk.symm⟩]
      rfl
    · rfl

theorem lastAction_add_edge (commands : List (Command A)) (phase target source v : ℕ) :
    lastAction (commands ++ [.add_edge phase target source]) v = lastAction commands v := by
  funext k
  simp [lastAction]

theorem lastAction_write (commands : List (Command A)) (v : ℕ) :
    lastAction (commands ++ [.write]) v = lastAction commands v := by
  funext k
  simp [lastAction]

theorem depends_concat {commands : List (Command A)} {c : Command A} {v target source : ℕ} :
    Depends (commands ++ [c]) v target source ↔ Depends commands v target source ∨ c = .add_edge v target source := by
  unfold Depends
  rw [List.mem_append, List.mem_singleton, eq_comm (a := c)]

theorem depends_of_ne {commands : List (Command A)} {c : Command A} {v : ℕ}
    (hc : ∀ target source, c ≠ .add_edge v target source) : Depends (commands ++ [c]) v = Depends commands v := by
  funext target source
  rw [depends_concat, eq_iff_iff]
  exact or_iff_left (hc target source)

section
variable {c c' : Control A} {commands : List (Command A)}

theorem Phases.write_dag (policy : Phases σ) (c : Control A) (v : ℕ) : (policy.write c).dag v = c.dag v := by
  induction policy generalizing c with
  | nil => rfl
  | phase value rest ih =>
    rw [Phases.write, ih]
    split
    · rw [Control.dag_phase_map, Control.dag_phase_map]
    · rw [Control.dag_phase_map]
  | cycle predicate body rest ihbody ih =>
    rw [Phases.write, ih, ← ihbody c]
    split
    · cases body.begin <;> cases body.end <;> simp
    · rfl

theorem Phases.write_sorted (policy : Phases σ) (c : Control A) : (policy.write c).sorted = c.sorted := by
  induction policy generalizing c with
  | nil => rfl
  | phase value rest ih =>
    rw [Phases.write, ih]
    split
    · rw [Control.sorted_phase_map_eq, Control.sorted_phase_map_eq]
    · rw [Control.sorted_phase_map_eq]
  | cycle predicate body rest ihbody ih =>
    rw [Phases.write, ih, ← ihbody c]
    split
    · cases body.begin <;> cases body.end <;> simp
    · rfl

theorem Control.sort_phases_dag (h : c.sort_phases = some c') (v : ℕ) : c'.dag v = c.dag v := by
  unfold Control.sort_phases at h
  split at h
  · obtain ⟨sorted, _, rfl⟩ := Option.map_eq_some_iff.mp h
    rfl
  · cases h
    rfl

theorem Control.Holds.of_dag (h : c.Holds commands) (hdag : ∀ v, c'.dag v = c.dag v) : c'.Holds commands :=
  fun v => (hdag v).symm ▸ h v

theorem Control.Holds.command {policy : Phases σ} (h : c.Holds commands) {command : Command A}
    (hc : c.command policy command = some c') : c'.Holds (commands ++ [command]) := by
  intro v
  cases command with
  | register phase hash label action =>
    cases hc
    rw [Control.dag_update, lastAction_register, depends_of_ne fun _ _ he => by cases he]
    split
    · exact (h v).register hash label action
    · exact h v
  | add_edge phase target source =>
    cases hc
    rw [Control.dag_update, lastAction_add_edge]
    split
    · rename_i hphase
      convert (h v).add_edge target source using 1
      funext t s
      rw [depends_concat, eq_iff_iff, hphase, Command.add_edge.injEq]
      simp only [true_and, eq_comm]
    · rename_i hphase
      rw [depends_of_ne fun t s he => hphase (Command.add_edge.inj he).1]
      exact h v
  | write =>
    obtain ⟨sorted, hsort, rfl⟩ := Option.map_eq_some_iff.mp hc
    rw [Phases.write_dag, Control.sort_phases_dag hsort, lastAction_write, depends_of_ne fun _ _ he => by cases he]
    exact h v

-- ---------------------------------------------------------------------------
-- Sorted phases
-- ---------------------------------------------------------------------------

theorem sortAll_spec {dags : List (ℕ × Dag (Option A))} (hn : (dags.map (·.1)).Nodup)
    {sorted sorted' : Std.TreeMap ℕ (List (DagNode (Option A)))} (h : sortAll sorted dags = some sorted') :
    (∀ v ∉ dags.map (·.1), sorted'[v]? = sorted[v]?) ∧
      ∀ x ∈ dags, ∃ l, x.2.sort.1 = some l ∧ sorted'[x.1]? = some l := by
  induction dags generalizing sorted with
  | nil =>
    cases h
    exact ⟨fun _ _ => rfl, fun _ hx => absurd hx List.not_mem_nil⟩
  | cons x dags ih =>
    rw [List.map_cons, List.nodup_cons] at hn
    unfold sortAll at h
    rw [List.foldlM_cons] at h
    obtain ⟨next, hnext, h⟩ := Option.bind_eq_some_iff.mp h
    obtain ⟨l, hl, rfl⟩ := Option.map_eq_some_iff.mp hnext
    obtain ⟨hframe, hall⟩ := ih hn.2 h
    refine ⟨fun v hv => ?_, List.forall_mem_cons.mpr ⟨?_, hall⟩⟩
    · rw [List.map_cons, List.mem_cons, not_or] at hv
      rw [hframe v hv.2, Std.TreeMap.getElem?_insert]
      exact if_neg fun he => hv.1 (Std.LawfulEqOrd.eq_of_compare he).symm
    · exact ⟨l, hl, by rw [hframe x.1 hn.1, Std.TreeMap.getElem?_insert_self]⟩

theorem sortAll_isSome {dags : List (ℕ × Dag (Option A))} (h : ∀ x ∈ dags, x.2.sort.1.isSome)
    (sorted : Std.TreeMap ℕ (List (DagNode (Option A)))) : (sortAll sorted dags).isSome := by
  induction dags generalizing sorted with
  | nil => rfl
  | cons x dags ih =>
    obtain ⟨l, hl⟩ := Option.isSome_iff_exists.mp (h x List.mem_cons_self)
    unfold sortAll
    rw [List.foldlM_cons, hl]
    exact ih (fun y hy => h y (List.mem_cons_of_mem _ hy)) _

/-- What is sorted is what the registry holds now. -/
def Control.Cached (c : Control A) (phases : List ℕ) : Prop :=
  ∀ phase ∈ phases, (c.dag phase).sort.1 = some (c.sorted.getD phase [])

theorem Control.sort_phases_cached (h : c.sort_phases = some c') (hzero : c.sorted.size = 0) (phases : List ℕ) :
    c'.Cached phases := by
  intro v _
  unfold Control.sort_phases at h
  rw [if_pos hzero] at h
  obtain ⟨sorted, hsort, rfl⟩ := Option.map_eq_some_iff.mp h
  have hn : (c.registry.toList.map (·.1)).Nodup := by
    rw [Std.TreeMap.map_fst_toList_eq_keys]
    exact Std.TreeMap.nodup_keys
  obtain ⟨hframe, hall⟩ := sortAll_spec hn hsort
  rw [Std.TreeMap.getD_eq_getD_getElem?]
  cases hv : c.registry[v]? with
  | some d =>
    have hd : c.dag v = d := by
      rw [Control.dag, Std.TreeMap.getD_eq_getD_getElem?, hv]
      rfl
    obtain ⟨l, hl, hsorted⟩ := hall (v, d) (Std.TreeMap.mem_toList_iff_getElem?_eq_some.mpr hv)
    simp only at hl hsorted
    change (c.dag v).sort.1 = _
    rw [hd, hl, hsorted]
    rfl
  | none =>
    have hmem : v ∉ c.registry := fun hmem => by
      rw [Std.TreeMap.mem_iff_isSome_getElem?, hv] at hmem
      cases hmem
    have hdag : c.dag v = ⟨∅⟩ := Std.TreeMap.getD_eq_fallback hmem
    rw [hframe v (by rwa [Std.TreeMap.map_fst_toList_eq_keys, Std.TreeMap.mem_keys])]
    have hempty : c.sorted[v]? = none :=
      Std.TreeMap.getElem?_of_isEmpty (by rw [Std.TreeMap.isEmpty_eq_size_eq_zero, hzero]; rfl)
    change (c.dag v).sort.1 = _
    rw [hdag, hempty]
    rfl

/-- `sort_phases` ends the program only at a graph with a cycle. -/
theorem Control.Holds.sort_phases_isSome (h : c.Holds commands) (hacyclic : ∀ phase, (c.dag phase).Acyclic) :
    c.sort_phases.isSome := by
  unfold Control.sort_phases
  split
  · rw [Option.isSome_map]
    refine sortAll_isSome (fun x hx => ?_) _
    have hdag : c.dag x.1 = x.2 := by
      rw [Control.dag, Std.TreeMap.getD_eq_getD_getElem?, Std.TreeMap.mem_toList_iff_getElem?_eq_some.mp hx]
      rfl
    obtain ⟨sorted, hsorted, _⟩ := ((h x.1).named.sortCorrect (h x.1).built).1 (hacyclic x.1)
    rw [← hdag, hsorted]
    rfl
  · rfl

end

-- ---------------------------------------------------------------------------
-- Sorted actions
-- ---------------------------------------------------------------------------

theorem exists_actions {nodes : List (DagNode (Option A))} (h : ∀ n ∈ nodes, n.policy.isSome) :
    ∃ rest : List (ℕ × A), nodes.map (fun n => (n.hash, n.policy)) = rest.map (fun x => (x.1, some x.2)) := by
  induction nodes with
  | nil => exact ⟨[], rfl⟩
  | cons n nodes ih =>
    obtain ⟨action, haction⟩ := Option.isSome_iff_exists.mp (h n List.mem_cons_self)
    obtain ⟨rest, hrest⟩ := ih fun m hm => h m (List.mem_cons_of_mem _ hm)
    exact ⟨(n.hash, action) :: rest, by rw [List.map_cons, List.map_cons, hrest, haction]⟩

theorem map_hash_eq {nodes : List (DagNode (Option A))} {rest : List (ℕ × A)}
    (h : nodes.map (fun n => (n.hash, n.policy)) = rest.map (fun x => (x.1, some x.2))) :
    rest.map (·.1) = nodes.map (·.hash) := by
  have hmap := congrArg (List.map Prod.fst) h
  rw [List.map_map, List.map_map] at hmap
  exact hmap.symm

section
variable {d : Dag (Option A)} {commands : List (Command A)} {phase : ℕ} {sorted : List (DagNode (Option A))}

theorem Represents.topological (h : Represents d (lastAction commands phase) (Depends commands phase))
    (hsort : d.sort.1 = some sorted) : d.TopologicalSort sorted := by
  have hcorrect := h.named.sortCorrect h.built
  have hacyclic : d.Acyclic := by_contra fun hcyclic => by cases hsort.symm.trans (hcorrect.2 hcyclic)
  obtain ⟨sorted', hsort', horder⟩ := hcorrect.1 hacyclic
  cases hsort.symm.trans hsort'
  exact horder

theorem Represents.sorted_action (h : Represents d (lastAction commands phase) (Depends commands phase))
    (hsort : d.sort.1 = some sorted) {n : DagNode (Option A)} (hn : n ∈ sorted) :
    ∃ x ∈ d.nodes.toList, n.policy = x.2.policy := by
  obtain ⟨keys, _, hkeys, _⟩ := h.topological hsort
  obtain ⟨i, hi, rfl⟩ := List.mem_iff_getElem.mp hn
  obtain ⟨stored, hstored, heq⟩ := hkeys.get hi (hkeys.length_eq ▸ hi)
  exact ⟨(_, stored), Std.TreeMap.mem_toList_iff_getElem?_eq_some.mpr hstored, congrArg (·.policy) heq⟩

/-- The nodes of a sorted graph are what a complete visit runs. -/
theorem Represents.complete (h : Represents d (lastAction commands phase) (Depends commands phase))
    (hsort : d.sort.1 = some sorted) {rest : List (ℕ × A)}
    (hrest : sorted.map (fun n => (n.hash, n.policy)) = rest.map (fun x => (x.1, some x.2))) :
    Visit.Complete ⟨phase, commands, rest⟩ := by
  obtain ⟨keys, hperm, hkeys, horder⟩ := h.topological hsort
  have hstored : List.Forall₂ (fun n k => n.hash = k ∧ n.policy = lastAction commands phase k) sorted keys := by
    refine hkeys.imp fun n k => ?_
    rintro ⟨stored, hstored, rfl⟩
    exact h.stored k stored hstored
  have hhash : rest.map (·.1) = keys := by
    rw [map_hash_eq hrest]
    have := List.forall₂_map_left_iff.mpr (hstored.imp fun n k hn => hn.1)
    exact List.forall₂_eq_eq_eq ▸ this
  refine ⟨hhash ▸ hperm.nodup_iff.mpr Std.TreeMap.nodup_keys, fun hash action => ?_, fun target source hdep => ?_⟩
  · have hmem : (hash, action) ∈ rest ↔ ∃ n ∈ sorted, n.hash = hash ∧ n.policy = some action := by
      have hin : (hash, some action) ∈ rest.map (fun x => (x.1, some x.2)) ↔ (hash, action) ∈ rest := by
        simp
      rw [← hin, ← hrest]
      simp
    rw [hmem]
    constructor
    · rintro ⟨n, hn, rfl, hpolicy⟩
      obtain ⟨i, hi, rfl⟩ := List.mem_iff_getElem.mp hn
      have := hstored.get hi (hstored.length_eq ▸ hi)
      rw [← hpolicy]
      exact (this.1 ▸ this.2).symm
    · intro haction
      have hk : hash ∈ keys := by
        rw [hperm.mem_iff, Std.TreeMap.mem_keys]
        exact h.registered hash (by rw [haction]; rfl)
      obtain ⟨i, hi, rfl⟩ := List.mem_iff_getElem.mp hk
      have := hstored.get (hstored.length_eq.symm ▸ hi) hi
      exact ⟨_, List.get_mem _ _, this.1, this.2.trans haction⟩
  · simp only [hhash]
    exact horder target source ((h.edge target source).mpr hdep)

end

end Flecsi.ControlModel
