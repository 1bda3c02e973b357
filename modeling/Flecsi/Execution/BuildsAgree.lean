import Flecsi.Execution.OneSidedDense

/-!
# The two builds compute the same fields

Aggregated messages fetch ghosts before a task that reads them, one-sided copies after every
task that may have changed what they stand for. Tasks that compute from what their accessors
let them see leave the same exclusive and shared elements in both builds.
-/

namespace Flecsi.Execution

open Coloring

/-- The bytes a task may see: exclusive and shared elements, and ghosts it reads. -/
def Visible (r : Registry n) (args : List DenseAccessor) (f : ℕ) (p : Fin n) (i : ℕ) : Prop :=
  i < r.ghostData f p ∨ ∃ a ∈ args, a.fid = f ∧ a.ghost = .ro

/-- A task with its accessors. It changes what they may write, and what it writes depends on
what it sees. -/
structure Task (r : Registry n) where
  args : List DenseAccessor
  run : (Fin n → ℕ → List UInt8) → Fin n → ℕ → List UInt8
  ghosts : ∀ a ∈ args, a.ghost = .na ∨ a.ghost = .ro
  length : ∀ data p f, (run data p f).length = (data p f).length
  frame : ∀ data p f i, ¬Writable r args f p i → (run data p f)[i]? = (data p f)[i]?
  visible : ∀ data data', (∀ p f i, Visible r args f p i → (data p f)[i]? = (data' p f)[i]?) →
    ∀ p f i, i < r.ghostData f p → (run data p f)[i]? = (run data' p f)[i]?

variable {r : Registry n} {info : ℕ → Fin n → ColoringInfo}

def Task.execute (t : Task r) (s : Fin n → DenseContext) (p : Fin n) : DenseContext :=
  { s p with field_data := t.run (fun p => (s p).field_data) p }

theorem Task.performs (t : Task r) (s : Fin n → DenseContext) : Performs r t.args s (t.execute s) where
  flags _ := rfl
  length p f := t.length _ p f
  frame p f i hi := t.frame _ p f i hi

/-- `execute_task` with `FLECSI_USE_AGGCOMM`. -/
def Task.aggregated (s : Fin n → DenseContext) (t : Task r) : Option (Fin n → DenseContext) :=
  (startTask r t.args s).map fun b => finishTask t.args (t.execute b)

/-- `execute_task` without it. -/
def Task.oneSided (info : ℕ → Fin n → ColoringInfo) (s : Fin n → DenseContext) (t : Task r) :
    Option (Fin n → DenseContext) :=
  OneSided.epilog r info t.args (t.execute s)

/-- Equal exclusive and shared elements. -/
def SamePrimary (r : Registry n) (s s' : Fin n → DenseContext) : Prop :=
  ∀ p f i, i < r.ghostData f p → ((s p).field_data f)[i]? = ((s' p).field_data f)[i]?

/-- Coherent ghosts of equal shared elements are equal. -/
theorem SamePrimary.ghosts (hr : ∀ i, ExchangeColoring (r.coloring i)) {s s' : Fin n → DenseContext}
    (h : SamePrimary r s s') (hlen : ∀ p f, ((s p).field_data f).length = r.dataSize f p)
    (hlen' : ∀ p f, ((s' p).field_data f).length = r.dataSize f p) {f : ℕ} (hf : Coherent r s f)
    (hf' : Coherent r s' f) (p : Fin n) (i : ℕ) :
    ((s p).field_data f)[i]? = ((s' p).field_data f)[i]? := by
  rcases Nat.lt_or_ge i (r.ghostData f p) with hi | hi
  · exact h p f i hi
  rcases Nat.lt_or_ge i (r.dataSize f p) with hlt | hge
  · -- the byte `b` of the ghost `k`
    obtain ⟨j, rfl⟩ := Nat.exists_eq_add_of_le hi
    have hj : j < (r.fieldColoring f p).ghost.length * r.size f := by
      unfold Registry.dataSize at hlt
      omega
    have hsize : 0 < r.size f := Nat.pos_of_mul_pos_left (Nat.zero_lt_of_lt hj)
    have hk : j / r.size f < (r.fieldColoring f p).ghost.length := Nat.div_lt_of_lt_mul (by rwa [Nat.mul_comm])
    have hb : j % r.size f < r.size f := Nat.mod_lt _ hsize
    have hsplit : j = j / r.size f * r.size f + j % r.size f := (Nat.div_add_mod' j _).symm
    obtain ⟨q, hq, -⟩ := (hr (r.fields f).index_space).ghost p _ (List.getElem_mem hk)
    have hghost := List.getElem?_eq_getElem hk
    obtain ⟨e, he, -, hoff, -⟩ := (hr (r.fields f).index_space).owner (List.getElem_mem hk) hq
    have howner := shared_lt (hoff ▸ (hr (r.fields f).index_space).offset_lt he) hb
    have hbyte := getElem?_of_element (hf p _ _ hghost q hq) hb
    have hbyte' := getElem?_of_element (hf' p _ _ hghost q hq) hb
    rw [ghost_index, shared_index, ← hsplit] at hbyte hbyte'
    rw [hbyte, hbyte', h q f _ howner]
  · rw [List.getElem?_eq_none (by rw [hlen]; exact hge), List.getElem?_eq_none (by rw [hlen']; exact hge)]

/-- The prolog changes ghosts only. -/
theorem startTask_primary (hr : ∀ i, ExchangeColoring (r.coloring i)) {s b : Fin n → DenseContext}
    (h : DenseInv r s) {args : List DenseAccessor} (hb : startTask r args s = some b) : SamePrimary r b s := by
  obtain ⟨readable, hread⟩ := h.agree
  rw [startTask_eq hread] at hb
  obtain ⟨data, hlaunch, rfl⟩ := Option.map_eq_some_iff.mp hb
  exact fun p f i hi => (launch_exchanged hr h.length hlaunch).frame p f i (.inr hi)

/-- The states of the two builds after the same tasks. -/
structure Agree (r : Registry n) (s s' : Fin n → DenseContext) : Prop where
  aggregated : DenseInv r s
  oneSided : OneSided.Inv r s'
  same : SamePrimary r s s'

section
variable (hr : ∀ i, ExchangeColoring (r.coloring i)) (hinfo : ∀ i p, Described (info i p) (r.coloring i p))
  (hfit : OneSided.DisplacementsFit r)
include hr

theorem Agree.initial : Agree r (initialContext r) (initialContext r) :=
  ⟨initial_inv hr, OneSided.initial_inv hr, fun _ _ _ _ => rfl⟩

include hinfo hfit

theorem Agree.step {s s' next : Fin n → DenseContext} (h : Agree r s s') (t : Task r)
    (hstep : Task.aggregated s t = some next) :
    ∃ next', Task.oneSided info s' t = some next' ∧ Agree r next next' := by
  obtain ⟨b, hb, rfl⟩ := Option.map_eq_some_iff.mp hstep
  obtain ⟨hinv, hread⟩ := h.aggregated.start hr hb
  have hsame : SamePrimary r b s' := fun p f i hi =>
    (startTask_primary hr h.aggregated hb p f i hi).trans (h.same p f i hi)
  obtain ⟨next', hrun, hinv', hprimary⟩ := h.oneSided.finish hr hinfo hfit t.ghosts (t.performs s')
  refine ⟨next', hrun, hinv.performs t.ghosts (t.performs b), hinv', fun p f i hi => ?_⟩
  have hbody : (t.run (fun p => (b p).field_data) p f)[i]? = (t.run (fun p => (s' p).field_data) p f)[i]? := by
    refine t.visible _ _ (fun p f i hvisible => ?_) p f i hi
    rcases hvisible with hlt | ⟨a, ha, rfl, hro⟩
    · exact hsame p f i hlt
    · have hcoherent : Coherent r b a.fid := fun p => hinv.coherent p _ (hread p a ha hro) p
      exact hsame.ghosts hr hinv.length h.oneSided.length hcoherent (h.oneSided.coherent _) p i
  exact hbody.trans (hprimary p f i hi).symm

theorem Agree.run {s s' last : Fin n → DenseContext} (h : Agree r s s') (tasks : List (Task r))
    (hrun : tasks.foldlM Task.aggregated s = some last) :
    ∃ last', tasks.foldlM (Task.oneSided info) s' = some last' ∧ Agree r last last' := by
  induction tasks generalizing s s' with
  | nil =>
    obtain rfl := Option.some.inj hrun
    exact ⟨s', rfl, h⟩
  | cons t tasks ih =>
    rw [List.foldlM_cons] at hrun
    obtain ⟨next, hnext, hrest⟩ := Option.bind_eq_some_iff.mp hrun
    obtain ⟨next', hnext', hagree⟩ := h.step hr hinfo hfit t hnext
    obtain ⟨last', hlast', hfinal⟩ := ih hagree hrest
    refine ⟨last', ?_, hfinal⟩
    rw [List.foldlM_cons, hnext']
    exact hlast'

end

/-- A run of tasks that completes with aggregated messages completes with one-sided copies, and
leaves the same exclusive and shared elements, and the same ghosts of the fields whose flag is set. -/
theorem builds_agree (r : Registry n) (info : ℕ → Fin n → ColoringInfo)
    (hr : ∀ i, ExchangeColoring (r.coloring i)) (hinfo : ∀ i p, Described (info i p) (r.coloring i p))
    (hfit : OneSided.DisplacementsFit r) (tasks : List (Task r)) (s : Fin n → DenseContext)
    (hs : tasks.foldlM Task.aggregated (initialContext r) = some s) :
    ∃ s', tasks.foldlM (Task.oneSided info) (initialContext r) = some s' ∧ SamePrimary r s s' ∧
      ∀ p f, (s p).ghost_is_readable f = true → (s p).field_data f = (s' p).field_data f := by
  obtain ⟨s', hrun, h⟩ := (Agree.initial hr).run hr hinfo hfit tasks hs
  refine ⟨s', hrun, h.same, fun p f hf => List.ext_getElem? fun i => ?_⟩
  exact h.same.ghosts hr h.aggregated.length h.oneSided.length (h.aggregated.coherent p f hf)
    (h.oneSided.coherent f) p i

/-- Two ranks with one shared element each, and fields of at most one byte an element. -/
structure PairFields (r : Registry 2) : Prop where
  coloring : r.coloring = fun _ => pairColoring
  size_le : ∀ f, r.size f ≤ 1
  size_zero : r.size 0 = 1

theorem pairRegistry_fields : PairFields pairRegistry := ⟨rfl, fun _ => le_rfl, rfl⟩

section
variable {r : Registry 2} (h : PairFields r)
include h

theorem PairFields.exchange (i : ℕ) : ExchangeColoring (r.coloring i) := by
  rw [h.coloring]
  exact pairColoring_exchange

theorem PairFields.writable (ghost : Privilege) (p : Fin 2) : Writable r [⟨0, .rw, .rw, ghost⟩] 0 p 0 := by
  refine ⟨_, List.mem_singleton_self _, rfl, .inr (.inl ⟨?_, ?_, .inr rfl⟩)⟩
  · simp [Registry.sharedData, Registry.fieldColoring, h.coloring, pairColoring]
  · simp [Registry.ghostData, Registry.sharedData, Registry.fieldColoring, h.coloring, h.size_zero, pairColoring]

theorem PairFields.messagesFit {args : List DenseAccessor} (hargs : args.length ≤ 1) (readable : ℕ → Bool) :
    MessagesFit r args readable := by
  have hsize (f : ℕ) (p q : Fin 2) : (r.metadata f p).ghost_field_sizes q ≤ 1 := by
    rw [ghost_size_eq, Registry.fieldColoring, h.coloring]
    have hlen : (ghostEntries (pairColoring p) q).length ≤ 1 := by
      refine (List.length_filter_le _ _).trans ?_
      simp [pairColoring]
    exact (Nat.mul_le_mul hlen (h.size_le f)).trans_eq (Nat.mul_one 1)
  have hfields : (modifiedFields args readable).length ≤ 1 := by
    cases args with
    | nil => simp [modifiedFields]
    | cons a args =>
      obtain rfl : args = [] := List.eq_nil_of_length_eq_zero (Nat.le_zero.mp (Nat.le_of_succ_le_succ hargs))
      simp only [modifiedFields, List.foldl_cons, List.foldl_nil, prologDense]
      split <;> simp
  intro p q
  refine lt_of_le_of_lt (List.sum_le_card_nsmul _ 1 fun x hx => ?_) ?_
  · obtain ⟨f, -, rfl⟩ := List.mem_map.mp hx
    exact hsize f p q
  · simp only [List.length_map, smul_eq_mul, Nat.mul_one]
    omega

theorem PairFields.aggregated_some {s : Fin 2 → DenseContext} (hs : DenseInv r s) (t : Task r)
    (ht : t.args.length ≤ 1) : ∃ next, Task.aggregated s t = some next ∧ DenseInv r next := by
  obtain ⟨b, hb⟩ := hs.startTask_some h.exchange fun p => h.messagesFit ht _
  have hinv := (hs.start h.exchange hb).1
  exact ⟨finishTask t.args (t.execute b), by rw [Task.aggregated, hb]; rfl, hinv.performs t.ghosts (t.performs b)⟩

end

/-- Rank 0 writes its shared byte. -/
def writer {r : Registry 2} (h : PairFields r) : Task r where
  args := [⟨0, .rw, .rw, .na⟩]
  run data p f := if p.val = 0 ∧ f = 0 then (data p f).set 0 7 else data p f
  ghosts := by simp
  length data p f := by
    split <;> simp
  frame data p f i hw := by
    split
    · rename_i hpf
      obtain ⟨-, rfl⟩ := hpf
      refine List.getElem?_set_ne ?_
      rintro rfl
      exact hw (h.writable _ _)
    · rfl
  visible data data' hvisible p f i hi := by
    split
    · rw [List.getElem?_set', List.getElem?_set', hvisible p f i (.inl hi)]
    · exact hvisible p f i (.inl hi)

/-- Rank 1 copies its ghost byte to its shared byte. -/
def reader {r : Registry 2} (h : PairFields r) : Task r where
  args := [⟨0, .rw, .rw, .ro⟩]
  run data p f := if p.val = 1 ∧ f = 0 then (data p f).set 0 ((data p f)[1]?.getD 0) else data p f
  ghosts := by simp
  length data p f := by
    split <;> simp
  frame data p f i hw := by
    split
    · rename_i hpf
      obtain ⟨-, rfl⟩ := hpf
      refine List.getElem?_set_ne ?_
      rintro rfl
      exact hw (h.writable _ _)
    · rfl
  visible data data' hvisible p f i hi := by
    split
    · rename_i hpf
      obtain ⟨-, rfl⟩ := hpf
      have hghost := hvisible p 0 1 (.inr ⟨_, List.mem_singleton_self _, rfl, rfl⟩)
      rw [List.getElem?_set', List.getElem?_set', hvisible p 0 i (.inl hi), hghost]
    · exact hvisible p f i (.inl hi)

theorem PairFields.writer_reader {r : Registry 2} (h : PairFields r) {s : Fin 2 → DenseContext} (hs : DenseInv r s) :
    ∃ last, [writer h, reader h].foldlM Task.aggregated s = some last := by
  obtain ⟨mid, hmid, hinv⟩ := h.aggregated_some hs (writer h) (by simp [writer])
  obtain ⟨last, hlast, -⟩ := h.aggregated_some hinv (reader h) (by simp [reader])
  exact ⟨last, by simp [hmid, hlast]⟩

theorem builds_agree_pair : ∃ s s', [writer pairRegistry_fields, reader pairRegistry_fields].foldlM
      Task.aggregated (initialContext pairRegistry) = some s ∧
    [writer pairRegistry_fields, reader pairRegistry_fields].foldlM (Task.oneSided fun _ => OneSided.pairInfo)
      (initialContext pairRegistry) = some s' ∧ SamePrimary pairRegistry s s' := by
  obtain ⟨s, hrun⟩ := pairRegistry_fields.writer_reader (initial_inv pairRegistry_fields.exchange)
  obtain ⟨s', hrun', hsame, -⟩ := builds_agree pairRegistry (fun _ => OneSided.pairInfo) (fun _ => pairColoring_exchange)
    (fun _ => OneSided.pairInfo_described) OneSided.pairRegistry_fits _ s hrun
  exact ⟨s, s', hrun, hrun', hsame⟩

end Flecsi.Execution
