import Flecsi.Execution.OneSidedRows
import Flecsi.Execution.SparseExchange

/-!
# Runs with one-sided copies of ragged fields

The epilog copies the ghosts of an accessor that may have changed shared rows, the handles of
mutators are finalized with a copy. As long as the shared rows fit their slots, every task
leaves the ghost rows as their owners have them.
-/

namespace Flecsi.Execution.OneSidedRows

open Coloring

variable {α : Type}

/-- The fields that all ranks have registered, with the size of a slot. -/
structure Fields (n : ℕ) where
  index_space : ℕ → ℕ
  max_entries_per_index : ℕ → ℕ
  coloring : ℕ → Fin n → IndexColoring
  info : ℕ → Fin n → ColoringInfo

variable (r : Fields n)

def Fields.fieldColoring (f : ℕ) (p : Fin n) : IndexColoring := r.coloring (r.index_space f) p

def Fields.num_exclusive (f : ℕ) (p : Fin n) : ℕ := (r.fieldColoring f p).exclusive.length
def Fields.num_shared (f : ℕ) (p : Fin n) : ℕ := (r.fieldColoring f p).shared.length
def Fields.num_ghost (f : ℕ) (p : Fin n) : ℕ := (r.fieldColoring f p).ghost.length

/-- The rows of every field on every rank. -/
abbrev Rows (n : ℕ) (α : Type) := Fin n → ℕ → List (List α)

section
variable (fresh : Fin n → Fresh α)

def copyField (tag : ℕ → ℕ) (f : ℕ) (rows : Rows n α) : Option (Rows n α) := do
  let copied ← copyGhosts (r.max_entries_per_index f) tag (r.info (r.index_space f)) (r.fieldColoring f)
    fresh fun p => rows p f
  some fun p => Function.update (rows p) f (copied p)

/-- `task_epilog_t::handle`; the messages carry the ids as tags. -/
def epilogHandle (rows : Rows n α) : Sparse.Reference → Option (Rows n α)
  | .raggedAccessor fid _ shared ghost | .sparseAccessor fid _ shared ghost =>
    if shared = .ro ∨ ghost = .rw ∨ ghost = .wo then some rows else copyField r fresh id fid rows
  | .raggedMutator _ | .sparseMutator _ => some rows

/-- `finalize_handles_t::handle`; all messages carry one tag. -/
def finalizeHandle (rows : Rows n α) : Sparse.Reference → Option (Rows n α)
  | .raggedMutator fid | .sparseMutator fid => copyField r fresh (fun _ => 99) fid rows
  | .raggedAccessor .. | .sparseAccessor .. => some rows

/-- What follows the body of a task. -/
def finishTask (args : List Sparse.Reference) (rows : Rows n α) : Option (Rows n α) := do
  let rows ← args.foldlM (epilogHandle r fresh) rows
  args.foldlM (finalizeHandle r fresh) rows

end

/-- The rows a handle lets a task change. -/
def Touches (f : ℕ) (p : Fin n) (k : ℕ) : Sparse.Reference → Prop
  | .raggedAccessor fid exclusive shared _ | .sparseAccessor fid exclusive shared _ =>
    fid = f ∧ (k < r.num_exclusive f p ∧ exclusive.Writes ∨
      r.num_exclusive f p ≤ k ∧ k < r.num_exclusive f p + r.num_shared f p ∧ shared.Writes)
  | .raggedMutator fid | .sparseMutator fid => fid = f ∧ k < r.num_exclusive f p + r.num_shared f p

/-- The body of a task: any change of the rows its handles allow. -/
structure Performs (args : List Sparse.Reference) (rows rows' : Rows n α) : Prop where
  length : ∀ p f, (rows' p f).length = (rows p f).length
  frame : ∀ p f (k : ℕ), (∀ a ∈ args, ¬Touches r f p k a) → (rows' p f)[k]? = (rows p f)[k]?

/-- No shared row is longer than its slot. -/
def SlotsFit (rows : Rows n α) : Prop :=
  ∀ f p, ∀ i < r.num_shared f p, ∀ row, (rows p f)[r.num_exclusive f p + i]? = some row →
    row.length ≤ r.max_entries_per_index f

/-- One task on all ranks, with ghost permissions `na` and `ro`, that leaves its shared rows
within their slots. -/
def TaskStep (args : List Sparse.Reference) (rows rows' : Rows n α) : Prop :=
  (∀ a ∈ args, a.GhostsKept) ∧
    ∃ b fresh, Performs r args rows b ∧ SlotsFit r b ∧ finishTask r fresh args b = some rows'

/-- All rows empty. -/
def initialRows (α : Type) : Rows n α := fun p f =>
  List.replicate (r.num_exclusive f p + r.num_shared f p + r.num_ghost f p) []

def Reachable (rows : Rows n α) : Prop :=
  Relation.ReflTransGen (fun rows rows' => ∃ args, TaskStep r args rows rows') (initialRows r α) rows

/-- Every ghost row of a field is its owner's row. -/
def Coherent (rows : Rows n α) (f : ℕ) : Prop :=
  ∀ (p : Fin n) (k : ℕ) (g : EntityInfo), (r.fieldColoring f p).ghost[k]? = some g → ∀ q : Fin n, g.rank = q →
    (rows p f)[r.num_exclusive f p + r.num_shared f p + k]? = (rows q f)[r.num_exclusive f q + g.offset]?

-- ---------------------------------------------------------------------------
-- One copy
-- ---------------------------------------------------------------------------

section
variable {r : Fields n} (hr : ∀ i, ExchangeColoring (r.coloring i))
  (hinfo : ∀ i p, Described (r.info i p) (r.coloring i p)) (hmax : ∀ f, r.max_entries_per_index f < 2 ^ 31)

/-- Every rank has a row for each of its entities. -/
def Complete (r : Fields n) (rows : Rows n α) : Prop :=
  ∀ p f, (rows p f).length = r.num_exclusive f p + r.num_shared f p + r.num_ghost f p

/-- What the copies for some handles do. -/
structure Refreshed (r : Fields n) (copied : ℕ → Prop) (rows rows' : Rows n α) : Prop where
  length : ∀ p f, (rows' p f).length = (rows p f).length
  primary : ∀ p f, ∀ k < r.num_exclusive f p + r.num_shared f p, (rows' p f)[k]? = (rows p f)[k]?
  keeps : ∀ f, Coherent r rows f → Coherent r rows' f
  fetched : ∀ f, copied f → Coherent r rows' f

theorem Refreshed.refl (rows : Rows n α) : Refreshed r (fun _ => False) rows rows :=
  ⟨fun _ _ => rfl, fun _ _ _ _ => rfl, fun _ h => h, fun _ h => h.elim⟩

theorem Refreshed.trans {rows₁ rows₂ rows₃ : Rows n α} {c c' : ℕ → Prop} (h : Refreshed r c rows₁ rows₂)
    (h' : Refreshed r c' rows₂ rows₃) : Refreshed r (fun f => c f ∨ c' f) rows₁ rows₃ where
  length p f := (h'.length p f).trans (h.length p f)
  primary p f k hk := (h'.primary p f k hk).trans (h.primary p f k hk)
  keeps f hf := h'.keeps f (h.keeps f hf)
  fetched f hf := hf.elim (fun hc => h'.keeps f (h.fetched f hc)) (h'.fetched f)

theorem Refreshed.complete {rows rows' : Rows n α} {c : ℕ → Prop} (h : Refreshed r c rows rows')
    (hc : Complete r rows) : Complete r rows' := fun p f => (h.length p f).trans (hc p f)

theorem Refreshed.slotsFit {rows rows' : Rows n α} {c : ℕ → Prop} (h : Refreshed r c rows rows')
    (hs : SlotsFit r rows) : SlotsFit r rows' := by
  intro f p i hi row hrow
  rw [h.primary p f _ (by omega)] at hrow
  exact hs f p i hi row hrow

theorem SlotsFit.fits {rows : Rows n α} (hs : SlotsFit r rows) (hr : ∀ i, ExchangeColoring (r.coloring i))
    (f : ℕ) : Fits (r.max_entries_per_index f) (r.fieldColoring f) fun p => rows p f where
  shared p i hi row hrow := by
    have hshort := hs f p i hi row hrow
    have hend : (i + 1) * r.max_entries_per_index f ≤ _ := Nat.mul_le_mul_right (r.max_entries_per_index f) hi
    rw [Nat.succ_mul] at hend
    omega
  ghost p k g hg q hq row hrow := by
    obtain ⟨e, he, -, hoff, -⟩ := (hr (r.index_space f)).owner (List.mem_of_getElem? hg) hq
    have hin : g.offset < r.num_shared f q := by
      rw [hoff]
      exact (hr (r.index_space f)).offset_lt he
    have hshort := hs f q g.offset hin row hrow
    have hk : k < (r.fieldColoring f p).ghost.length := (List.getElem?_eq_some_iff.mp hg).1
    have hend : (k + 1) * r.max_entries_per_index f ≤ _ := Nat.mul_le_mul_right (r.max_entries_per_index f) hk
    rw [Nat.succ_mul] at hend
    omega

include hr hinfo hmax in
theorem copyField_refreshed (fresh : Fin n → Fresh α) (tag : ℕ → ℕ) (f : ℕ) {rows : Rows n α}
    (hc : Complete r rows) (hs : SlotsFit r rows) :
    ∃ rows', copyField r fresh tag f rows = some rows' ∧ Refreshed r (· = f) rows rows' := by
  obtain ⟨hsome, hspec⟩ := one_sided_rows (r.max_entries_per_index f) tag (r.info (r.index_space f))
    (r.fieldColoring f) (hr _) (hinfo _) (hmax f) fresh (fun p => rows p f) (fun p => hc p f)
    fun p i hi row hrow => (hs f p i hi row hrow).trans_lt (hmax f)
  obtain ⟨copied, hrun⟩ := Option.isSome_iff_exists.mp (hsome.mpr (hs.fits hr f))
  have hcopied := hspec copied hrun
  have hcoherent : Coherent r (fun p => Function.update (rows p) f (copied p)) f := by
    intro p k g hg q hq
    obtain ⟨e, he, -, hoff, -⟩ := (hr (r.index_space f)).owner (List.mem_of_getElem? hg) hq
    have hin : g.offset < r.num_shared f q := by
      rw [hoff]
      exact (hr (r.index_space f)).offset_lt he
    have hrow : (rows q f)[(r.fieldColoring f q).exclusive.length + g.offset]? =
        some (ownerRow (r.fieldColoring f) (fun p => rows p f) g) :=
      exists_ownerRow (hr (r.index_space f)) (fun p => hc p f) (List.mem_of_getElem? hg) hq
    obtain ⟨row', hrow', hlength, htake⟩ := hcopied.ghosts p k g hg q hq _ hrow
    have hshort := hs f q g.offset hin _ hrow
    rw [List.take_of_length_le (hlength ▸ hshort), List.take_of_length_le hshort] at htake
    simp only [Function.update_self]
    exact (hrow'.trans (congrArg some htake)).trans
      (((hcopied.kept q _ (Nat.add_lt_add_left hin _)).trans hrow).symm)
  refine ⟨fun p => Function.update (rows p) f (copied p), ?_, fun p f' => ?_, fun p f' k hk => ?_, fun f' h => ?_,
    fun f' hf => hf ▸ hcoherent⟩
  · rw [copyField, hrun]
    rfl
  · by_cases hf : f' = f
    · rw [hf, Function.update_self, hcopied.length]
    · rw [Function.update_of_ne hf]
  · by_cases hf : f' = f
    · subst hf
      rw [Function.update_self]
      exact hcopied.kept p k hk
    · rw [Function.update_of_ne hf]
  · by_cases hf : f' = f
    · exact hf ▸ hcoherent
    · intro p k g hg q hq
      simp only [Function.update_of_ne hf]
      exact h p k g hg q hq

-- ---------------------------------------------------------------------------
-- Tasks
-- ---------------------------------------------------------------------------

/-- The epilog copies the ghosts of a field. -/
def EpilogCopies (f : ℕ) : Sparse.Reference → Prop
  | .raggedAccessor fid _ shared _ | .sparseAccessor fid _ shared _ => fid = f ∧ shared ≠ .ro
  | .raggedMutator _ | .sparseMutator _ => False

/-- The finalization copies them. -/
def FinalizeCopies (f : ℕ) : Sparse.Reference → Prop
  | .raggedMutator fid | .sparseMutator fid => fid = f
  | .raggedAccessor .. | .sparseAccessor .. => False

/-- A walk over the handles, each of which copies a field or does nothing. -/
theorem walk_refreshed {ι : Type} {handle : Rows n α → ι → Option (Rows n α)} (copies : ℕ → ι → Prop)
    (args : List ι)
    (hstep : ∀ a ∈ args, ∀ rows, Complete r rows → SlotsFit r rows →
      ∃ rows', handle rows a = some rows' ∧ Refreshed r (copies · a) rows rows')
    {rows : Rows n α} (hc : Complete r rows) (hs : SlotsFit r rows) :
    ∃ rows', args.foldlM handle rows = some rows' ∧
      Refreshed r (fun f => ∃ a ∈ args, copies f a) rows rows' := by
  induction args generalizing rows with
  | nil =>
    refine ⟨rows, rfl, ?_⟩
    have hnone : (fun f => ∃ a ∈ ([] : List ι), copies f a) = fun _ => False := by simp
    rw [hnone]
    exact Refreshed.refl rows
  | cons a args ih =>
    obtain ⟨mid, hmid, hone⟩ := hstep a (by simp) rows hc hs
    obtain ⟨rows', hrest, hall⟩ := ih (fun b hb => hstep b (by simp [hb])) (hone.complete hc) (hone.slotsFit hs)
    refine ⟨rows', ?_, ?_⟩
    · rw [List.foldlM_cons, hmid]
      exact hrest
    · have hcopies : (fun f => ∃ b ∈ a :: args, copies f b) = fun f => copies f a ∨ ∃ b ∈ args, copies f b := by
        simp
      rw [hcopies]
      exact hone.trans hall

theorem Refreshed.mono {rows rows' : Rows n α} {c c' : ℕ → Prop} (h : Refreshed r c rows rows')
    (hc : ∀ f, c' f → c f) : Refreshed r c' rows rows' :=
  { h with fetched := fun f hf => h.fetched f (hc f hf) }

include hr hinfo hmax in
theorem epilogHandle_refreshed (fresh : Fin n → Fresh α) {a : Sparse.Reference} (ha : a.GhostsKept)
    {rows : Rows n α} (hc : Complete r rows) (hs : SlotsFit r rows) :
    ∃ rows', epilogHandle r fresh rows a = some rows' ∧ Refreshed r (EpilogCopies · a) rows rows' := by
  have haccessor (fid : ℕ) (shared ghost : Privilege) (hghost : ghost = .na ∨ ghost = .ro) :
      ∃ rows', (if shared = .ro ∨ ghost = .rw ∨ ghost = .wo then some rows
        else copyField r fresh id fid rows) = some rows' ∧
          Refreshed r (fun f => fid = f ∧ shared ≠ .ro) rows rows' := by
    by_cases hro : shared = .ro
    · refine ⟨rows, if_pos (.inl hro), (Refreshed.refl rows).mono fun f hf => hf.2 hro⟩
    · have hcopy : ¬(shared = .ro ∨ ghost = .rw ∨ ghost = .wo) := by
        rcases hghost with rfl | rfl <;> simpa using hro
      obtain ⟨rows', hrun, href⟩ := copyField_refreshed hr hinfo hmax fresh id fid hc hs
      exact ⟨rows', (if_neg hcopy).trans hrun, href.mono fun f hf => hf.1.symm⟩
  cases a with
  | raggedAccessor fid exclusive shared ghost => exact haccessor fid shared ghost ha
  | sparseAccessor fid exclusive shared ghost => exact haccessor fid shared ghost ha
  | raggedMutator fid => exact ⟨rows, rfl, (Refreshed.refl rows).mono fun _ h => h⟩
  | sparseMutator fid => exact ⟨rows, rfl, (Refreshed.refl rows).mono fun _ h => h⟩

include hr hinfo hmax in
theorem finalizeHandle_refreshed (fresh : Fin n → Fresh α) (a : Sparse.Reference)
    {rows : Rows n α} (hc : Complete r rows) (hs : SlotsFit r rows) :
    ∃ rows', finalizeHandle r fresh rows a = some rows' ∧ Refreshed r (FinalizeCopies · a) rows rows' := by
  have hmutator (fid : ℕ) : ∃ rows', copyField r fresh (fun _ => 99) fid rows = some rows' ∧
      Refreshed r (fid = ·) rows rows' := by
    obtain ⟨rows', hrun, href⟩ := copyField_refreshed hr hinfo hmax fresh (fun _ => 99) fid hc hs
    exact ⟨rows', hrun, href.mono fun f hf => hf.symm⟩
  cases a with
  | raggedAccessor => exact ⟨rows, rfl, (Refreshed.refl rows).mono fun _ h => h⟩
  | sparseAccessor => exact ⟨rows, rfl, (Refreshed.refl rows).mono fun _ h => h⟩
  | raggedMutator fid => exact hmutator fid
  | sparseMutator fid => exact hmutator fid

/-- A task that neither walk copies a field for leaves its shared and ghost rows alone. -/
theorem not_touches {f k : ℕ} {p : Fin n} {a : Sparse.Reference} (hk : r.num_exclusive f p ≤ k)
    (he : ¬EpilogCopies f a) (hf : ¬FinalizeCopies f a) : ¬Touches r f p k a := by
  cases a with
  | raggedAccessor fid exclusive shared ghost =>
    rintro ⟨hfid, h | h⟩
    · exact absurd h.1 (by omega)
    · exact he ⟨hfid, fun hro => by simp [hro, Privilege.Writes] at h⟩
  | sparseAccessor fid exclusive shared ghost =>
    rintro ⟨hfid, h | h⟩
    · exact absurd h.1 (by omega)
    · exact he ⟨hfid, fun hro => by simp [hro, Privilege.Writes] at h⟩
  | raggedMutator fid => exact fun h => hf h.1
  | sparseMutator fid => exact fun h => hf h.1

/-- The state between two tasks. -/
structure Inv (r : Fields n) (rows : Rows n α) : Prop where
  complete : Complete r rows
  coherent : ∀ f, Coherent r rows f

theorem initial_inv (hr : ∀ i, ExchangeColoring (r.coloring i)) : Inv r (initialRows r α) where
  complete _ _ := List.length_replicate
  coherent f p k g hg q hq := by
    obtain ⟨e, he, -, hoff, -⟩ := (hr (r.index_space f)).owner (List.mem_of_getElem? hg) hq
    have hin : g.offset < r.num_shared f q := by
      rw [hoff]
      exact (hr (r.index_space f)).offset_lt he
    have hk : k < r.num_ghost f p := (List.getElem?_eq_some_iff.mp hg).1
    simp only [initialRows, List.getElem?_replicate]
    rw [if_pos (by omega), if_pos (by omega)]

include hr hinfo hmax in
/-- What follows a task's body completes when the shared rows fit their slots. -/
theorem Inv.finish {rows b : Rows n α} (h : Inv r rows) {args : List Sparse.Reference}
    (hargs : ∀ a ∈ args, a.GhostsKept) (hb : Performs r args rows b) (hs : SlotsFit r b)
    (fresh : Fin n → Fresh α) : ∃ rows', finishTask r fresh args b = some rows' ∧ Inv r rows' := by
  have hc : Complete r b := fun p f => (hb.length p f).trans (h.complete p f)
  obtain ⟨mid, hepilog, href⟩ := walk_refreshed EpilogCopies args
    (fun a ha rows hc hs => epilogHandle_refreshed hr hinfo hmax fresh (hargs a ha) hc hs) hc hs
  obtain ⟨rows', hfinalize, href'⟩ := walk_refreshed FinalizeCopies args
    (fun a _ rows hc hs => finalizeHandle_refreshed hr hinfo hmax fresh a hc hs) (href.complete hc) (href.slotsFit hs)
  have hall := href.trans href'
  refine ⟨rows', ?_, hall.complete hc, fun f => ?_⟩
  · rw [finishTask, hepilog]
    exact hfinalize
  · by_cases hcopied : (∃ a ∈ args, EpilogCopies f a) ∨ ∃ a ∈ args, FinalizeCopies f a
    · exact hall.fetched f hcopied
    · rw [not_or] at hcopied
      have hsame (p : Fin n) (k : ℕ) (hk : r.num_exclusive f p ≤ k) : (b p f)[k]? = (rows p f)[k]? :=
        hb.frame p f k fun a ha => not_touches hk (fun he => hcopied.1 ⟨a, ha, he⟩)
          fun hf => hcopied.2 ⟨a, ha, hf⟩
      refine hall.keeps f fun p k g hg q hq => ?_
      rw [hsame p _ (by omega), hsame q _ (by omega)]
      exact h.coherent f p k g hg q hq

end

/-- Between any two tasks that leave shared rows within their slots, every ghost row is its owner's
row, and the copies after the next such task complete. -/
theorem one_sided_rows_coherent (r : Fields n) (hr : ∀ i, ExchangeColoring (r.coloring i))
    (hinfo : ∀ i p, Described (r.info i p) (r.coloring i p)) (hmax : ∀ f, r.max_entries_per_index f < 2 ^ 31)
    (rows : Rows n α) (hrows : Reachable r rows) :
    (∀ f, Coherent r rows f) ∧ ∀ args, (∀ a ∈ args, a.GhostsKept) → ∀ b, Performs r args rows b →
      SlotsFit r b → ∀ fresh, ∃ rows', finishTask r fresh args b = some rows' := by
  have hinv : Inv r rows := by
    refine Runs.invariant (fun s s' hs ⟨args, hargs, b, fresh, hb, hfit, hrun⟩ => ?_) (initial_inv hr) hrows
    obtain ⟨s'', hrun', hinv⟩ := hs.finish hr hinfo hmax hargs hb hfit fresh
    rw [hrun] at hrun'
    obtain rfl := Option.some.inj hrun'
    exact hinv
  refine ⟨hinv.coherent, fun args hargs b hb hfit fresh => ?_⟩
  obtain ⟨rows', hrun, -⟩ := hinv.finish hr hinfo hmax hargs hb hfit fresh
  exact ⟨rows', hrun⟩

def pairFields : Fields 2 := ⟨fun _ => 0, fun _ => 2, fun _ => pairColoring, fun _ => OneSided.pairInfo⟩

/-- A mutator on rank 0 has put two entries in its shared row. -/
def pairMutated : Rows 2 ℕ := fun p f => if p.val = 0 ∧ f = 0 then [[1, 2], []] else [[], []]

theorem pairMutated_performs : Performs pairFields [.raggedMutator 0] (initialRows pairFields ℕ) pairMutated where
  length p f := by
    unfold pairMutated
    split <;> rfl
  frame p f k hk := by
    unfold pairMutated
    split
    · rename_i hpf
      obtain ⟨-, rfl⟩ := hpf
      cases k with
      | zero => exact absurd ⟨rfl, Nat.zero_lt_one⟩ (hk _ (List.mem_singleton_self _))
      | succ k => rfl
    · rfl

theorem pairMutated_fits : SlotsFit pairFields pairMutated := by
  intro f p i hi row hrow
  obtain rfl : i = 0 := Nat.lt_one_iff.mp hi
  unfold pairMutated at hrow
  split at hrow
  · obtain rfl : [1, 2] = row := Option.some.inj hrow
    exact Nat.le_refl 2
  · obtain rfl : [] = row := Option.some.inj hrow
    exact Nat.zero_le 2

theorem one_sided_rows_coherent_pair : ∃ rows', finishTask pairFields (fun _ => ⟨fun _ => 0, fun _ => 0⟩)
    [.raggedMutator 0] pairMutated = some rows' ∧ Coherent pairFields rows' 0 := by
  have h := one_sided_rows_coherent (α := ℕ) pairFields (fun _ => pairColoring_exchange)
    (fun _ => OneSided.pairInfo_described) (fun _ => (by decide : 2 < 2 ^ 31))
  have hargs : ∀ a ∈ [Sparse.Reference.raggedMutator 0], a.GhostsKept := by
    intro a ha
    rw [List.mem_singleton.mp ha]
    trivial
  obtain ⟨rows', hrun⟩ := (h _ Relation.ReflTransGen.refl).2 _ hargs _ pairMutated_performs pairMutated_fits
    fun _ => ⟨fun _ => 0, fun _ => 0⟩
  exact ⟨rows', hrun, (h rows' (.single ⟨_, hargs, _, _, pairMutated_performs, pairMutated_fits, hrun⟩)).1 0⟩

end Flecsi.Execution.OneSidedRows
