import Flecsi.Execution.SparseCoherence

/-!
# Runs of tasks on ragged and sparse fields

The prolog, the exchanges, the task and the finalization each keep what is known about
the ghost rows; the flags never claim more than that.
-/

namespace Flecsi.Execution.Sparse

open Coloring PackedBuffer SlotCopy

-- ---------------------------------------------------------------------------
-- The prolog
-- ---------------------------------------------------------------------------

/-- The handle asks for current ghost rows. -/
def Reference.Exchanges : Reference → Prop
  | .raggedAccessor _ _ _ ghost | .sparseAccessor _ _ _ ghost => ¬(ghost = .na ∨ ghost = .wo)
  | .raggedMutator _ | .sparseMutator _ => True

/-- What one handle adds to the walk. -/
structure Prolog.Handled (t t' : Prolog) (a : Reference) : Prop where
  flag : t'.ghost_was_resized = t.ghost_was_resized
  kept : ∀ f, t.ghost_is_readable f = true → t'.ghost_is_readable f = true
  readable : ∀ f, t'.ghost_is_readable f = true ↔
    t.ghost_is_readable f = true ∨ (f = a.fid ∧ a.Exchanges)
  modified : ∀ f, f ∈ t'.modified_sparse_fields ↔ f ∈ t.modified_sparse_fields ∨
    (f = a.fid ∧ t.ghost_is_readable f = false ∧ a.Exchanges)
  resized : ∀ f, f ∈ t'.resized_sparse_fields ↔ f ∈ t.resized_sparse_fields ∨
    (f = a.fid ∧ t.ghost_is_readable f = false ∧ t.ghost_was_resized f = true)

theorem Prolog.accessor_handled (t : Prolog) (fid : ℕ) (exclusive shared ghost : Privilege) :
    t.Handled (t.accessor fid ghost) (.raggedAccessor fid exclusive shared ghost) := by
  cases hread : t.ghost_is_readable fid <;> cases hres : t.ghost_was_resized fid <;>
    by_cases hghost : ghost = .na ∨ ghost = .wo <;>
    constructor <;>
    simp [Prolog.accessor, Prolog.modify, Prolog.resize, Reference.fid, Reference.Exchanges, hread,
      hres, hghost, Function.update_apply] <;> grind

theorem Prolog.mutator_handled (t : Prolog) (fid : ℕ) :
    t.Handled (t.mutator fid) (.raggedMutator fid) := by
  cases hread : t.ghost_is_readable fid <;> cases hres : t.ghost_was_resized fid <;>
    constructor <;>
    simp [Prolog.mutator, Prolog.modify, Prolog.resize, Reference.fid, Reference.Exchanges, hread,
      hres, Function.update_apply] <;> grind

theorem Prolog.handle_handled (t : Prolog) (a : Reference) : t.Handled (t.handle a) a := by
  cases a with
  | raggedAccessor fid exclusive shared ghost => exact t.accessor_handled fid exclusive shared ghost
  | sparseAccessor fid exclusive shared ghost =>
    have h := t.accessor_handled fid exclusive shared ghost
    exact ⟨h.flag, h.kept, h.readable, h.modified, h.resized⟩
  | raggedMutator fid => exact t.mutator_handled fid
  | sparseMutator fid =>
    have h := t.mutator_handled fid
    exact ⟨h.flag, h.kept, h.readable, h.modified, h.resized⟩

/-- The walk so far, from the flags `readable` and `resized`, over the handles `args`. -/
structure Prolog.Walked (readable resized : ℕ → Bool) (args : List Reference) (t : Prolog) : Prop where
  flag : t.ghost_was_resized = resized
  readable : ∀ f, t.ghost_is_readable f = true ↔ readable f = true ∨ f ∈ t.modified_sparse_fields
  named : ∀ f ∈ t.modified_sparse_fields, ∃ a ∈ args, a.fid = f
  exchanged : ∀ a ∈ args, a.Exchanges → t.ghost_is_readable a.fid = true
  /-- A flag set in the walk comes with the resizing of the field. -/
  noted : ∀ f, t.ghost_is_readable f = true → resized f = true → f ∈ t.resized_sparse_fields
  resized : ∀ a ∈ args, resized a.fid = true → a.fid ∈ t.resized_sparse_fields

theorem Prolog.Walked.handle {readable resized : ℕ → Bool} {args : List Reference} {t : Prolog}
    (h : t.Walked readable resized args) (a : Reference) :
    (t.handle a).Walked readable resized (args ++ [a]) := by
  have hstep := t.handle_handled a
  have hnoted : resized a.fid = true → a.fid ∈ (t.handle a).resized_sparse_fields := by
    intro hres
    rw [hstep.resized]
    cases hread : t.ghost_is_readable a.fid with
    | true => exact .inl (h.noted _ hread hres)
    | false => exact .inr ⟨rfl, rfl, by rw [h.flag, hres]⟩
  refine ⟨hstep.flag.trans h.flag, fun f => ?_, fun f hf => ?_, fun b hb hex => ?_,
    fun f hf hres => ?_, fun b hb hres => ?_⟩
  · rw [hstep.readable, hstep.modified, h.readable]
    constructor
    · rintro (hf | ⟨rfl, hex⟩)
      · exact hf.imp_right .inl
      · cases hread : t.ghost_is_readable a.fid with
        | true => exact ((h.readable _).mp hread).imp_right .inl
        | false => exact .inr (.inr ⟨rfl, rfl, hex⟩)
    · rintro (hf | hf | ⟨rfl, -, hex⟩)
      · exact .inl (.inl hf)
      · exact .inl (.inr hf)
      · exact .inr ⟨rfl, hex⟩
  · rcases (hstep.modified f).mp hf with hf | ⟨rfl, -⟩
    · obtain ⟨b, hb, hbf⟩ := h.named f hf
      exact ⟨b, by simp [hb], hbf⟩
    · exact ⟨a, by simp, rfl⟩
  · rw [hstep.readable]
    rcases List.mem_append.mp hb with hb | hb
    · exact .inl (h.exchanged b hb hex)
    · obtain rfl := List.mem_singleton.mp hb
      exact .inr ⟨rfl, hex⟩
  · rcases (hstep.readable f).mp hf with hf | ⟨rfl, -⟩
    · exact (hstep.resized f).mpr (.inl (h.noted f hf hres))
    · exact hnoted hres
  · rcases List.mem_append.mp hb with hb | hb
    · exact (hstep.resized _).mpr (.inl (h.resized b hb hres))
    · obtain rfl := List.mem_singleton.mp hb
      exact hnoted hres

theorem Prolog.walk_walked {readable resized : ℕ → Bool} (args : List Reference)
    (h : ∀ f, resized f = true → readable f = false) :
    (Prolog.walk args readable resized).Walked readable resized args := by
  have hfold (done args : List Reference) (t : Prolog) (ht : t.Walked readable resized done) :
      (args.foldl Prolog.handle t).Walked readable resized (done ++ args) := by
    induction args generalizing done t with
    | nil => simpa using ht
    | cons a args ih => simpa using ih (done ++ [a]) _ (ht.handle a)
  refine hfold [] args _ ⟨rfl, by simp, by simp, by simp, fun f hf hres => ?_, by simp⟩
  simp only at hf
  simp [h f hres] at hf

-- ---------------------------------------------------------------------------
-- The epilog and the finalization
-- ---------------------------------------------------------------------------

def Reference.IsMutator : Reference → Prop
  | .raggedMutator _ | .sparseMutator _ => True
  | .raggedAccessor .. | .sparseAccessor .. => False

/-- The handle may change shared rows. -/
def Reference.WritesShared : Reference → Prop
  | .raggedAccessor _ _ shared _ | .sparseAccessor _ _ shared _ => shared.Writes
  | .raggedMutator _ | .sparseMutator _ => True

theorem epilogSparse_accessor {readable : ℕ → Bool} {a : Reference} (ha : a.GhostsKept)
    (h : epilogSparse readable a f = true) :
    readable f = true ∧ (a.fid = f → a.WritesShared → a.IsMutator) := by
  have haccessor (fid : ℕ) (shared ghost : Privilege) (hghost : ghost = .na ∨ ghost = .ro)
      (h : (if ghost = .rw ∨ ghost = .wo then Function.update readable fid true
        else if shared = .rw ∨ shared = .wo then Function.update readable fid false
        else readable) f = true) : readable f = true ∧ (fid = f → ¬shared.Writes) := by
    rw [if_neg (by rcases hghost with rfl | rfl <;> simp)] at h
    split at h
    · by_cases hf : f = fid
      · simp [hf] at h
      · rw [Function.update_of_ne hf] at h
        exact ⟨h, fun hfid => absurd hfid.symm hf⟩
    · rename_i hshared
      exact ⟨h, fun _ hw => hshared hw.symm⟩
  cases a with
  | raggedAccessor fid exclusive shared ghost =>
    obtain ⟨hread, hw⟩ := haccessor fid shared ghost ha h
    exact ⟨hread, fun hf hs => absurd hs (hw hf)⟩
  | sparseAccessor fid exclusive shared ghost =>
    obtain ⟨hread, hw⟩ := haccessor fid shared ghost ha h
    exact ⟨hread, fun hf hs => absurd hs (hw hf)⟩
  | raggedMutator fid => exact ⟨h, fun _ _ => trivial⟩
  | sparseMutator fid => exact ⟨h, fun _ _ => trivial⟩

theorem foldl_epilogSparse {readable : ℕ → Bool} {args : List Reference}
    (hargs : ∀ a ∈ args, a.GhostsKept) (h : args.foldl epilogSparse readable f = true) :
    readable f = true ∧ ∀ a ∈ args, a.fid = f → a.WritesShared → a.IsMutator := by
  induction args generalizing readable with
  | nil => exact ⟨h, by simp⟩
  | cons a args ih =>
    obtain ⟨hread, hrest⟩ := ih (fun b hb => hargs b (by simp [hb])) h
    obtain ⟨hread, ha⟩ := epilogSparse_accessor (hargs a (by simp)) hread
    refine ⟨hread, fun b hb => ?_⟩
    cases hb with
    | head => exact ha
    | tail _ hb => exact hrest b hb

theorem foldl_finalizeSparse (args : List Reference) (flags : (ℕ → Bool) × (ℕ → Bool)) (f : ℕ) :
    ((args.foldl finalizeSparse flags).1 f = true ↔
      flags.1 f = true ∧ ∀ a ∈ args, a.fid = f → ¬a.IsMutator) ∧
    ((args.foldl finalizeSparse flags).2 f = true ↔
      flags.2 f = true ∨ ∃ a ∈ args, a.fid = f ∧ a.IsMutator) := by
  induction args generalizing flags with
  | nil => simp
  | cons a args ih =>
    obtain ⟨h₁, h₂⟩ := ih (finalizeSparse flags a)
    rw [List.foldl_cons, h₁, h₂]
    cases a with
    | raggedMutator fid | sparseMutator fid =>
      by_cases hf : f = fid
      · simp [finalizeSparse, Reference.fid, Reference.IsMutator, hf]
      · simp [finalizeSparse, Reference.fid, Reference.IsMutator, hf, Ne.symm hf]
    | raggedAccessor fid exclusive shared ghost | sparseAccessor fid exclusive shared ghost =>
      simp [finalizeSparse, Reference.IsMutator]

-- ---------------------------------------------------------------------------
-- The invariant
-- ---------------------------------------------------------------------------

section
variable {r : Registry n}

/-- What is known of a state with these flags, the contents of the ghost rows for the
fields in `known`. -/
structure SparseInv (r : Registry n) (readable resized known : ℕ → Bool) (s : Fin n → Context) :
    Prop where
  readable_eq : ∀ p, (s p).ghost_is_readable = readable
  resized_eq : ∀ p, (s p).ghost_was_resized = resized
  maps : Maps r s
  wellFormed : ∀ p f k, ((s p).rows (f, k)).WellFormed (r.entry_size f)
  length : ∀ p f, ((s p).ghost_row_sizes f).length = (r.fieldColoring f p).ghost.length
  apart : ∀ f, resized f = true → known f = false
  sizes : ∀ f, resized f = false → SizesAgree r s f
  contents : ∀ f, known f = true → PrefixAgree r s f

variable (hr : ∀ i, ExchangeColoring (r.coloring i))

include hr in
/-- The owners' rows are shared rows. -/
theorem ownerRow_congr {s s' : Fin n → Context} {p : Fin n}
    (h : ∀ q k, k < r.ghostRow f q → (s' q).rows (f, k) = (s q).rows (f, k)) (i : ℕ) :
    ownerRow r s' p f i = ownerRow r s p f i := by
  have hiff (s₁ s₂ : Fin n → Context)
      (h : ∀ q k, k < r.ghostRow f q → (s₂ q).rows (f, k) = (s₁ q).rows (f, k)) (row : RowVector)
      (hrow : row ∈ ownerRow r s₁ p f i) : row ∈ ownerRow r s₂ p f i := by
    obtain ⟨ghost, q, hghost, hq, rfl⟩ := mem_ownerRow.mp hrow
    obtain ⟨e, he, -, hoff, -⟩ :=
      (hr (r.fields f).index_space).owner (List.mem_of_getElem? hghost) hq
    have hlt := (hr (r.fields f).index_space).offset_lt he
    refine mem_ownerRow.mpr ⟨ghost, q, hghost, hq, (h q _ ?_).symm⟩
    rw [hoff]
    simp only [Registry.ghostRow, Registry.num_shared, Registry.fieldColoring]
    omega
  refine Option.ext fun row => ⟨fun hrow => ?_, fun hrow => ?_⟩
  · exact hiff s' s (fun q k hk => (h q k hk).symm) row hrow
  · exact hiff s s' h row hrow

omit hr in
theorem SizesAgree.congr {s s' : Fin n → Context} (h : SizesAgree r s f)
    (hcount : ∀ p k, ((s' p).rows (f, k)).count = ((s p).rows (f, k)).count)
    (hsizes : ∀ p, (s' p).ghost_row_sizes f = (s p).ghost_row_sizes f) : SizesAgree r s' f := by
  intro p i row hrow
  obtain ⟨ghost, q, hghost, hq, rfl⟩ := mem_ownerRow.mp hrow
  rw [hcount, hcount, hsizes]
  exact h p i _ (mem_ownerRow.mpr ⟨ghost, q, hghost, hq, rfl⟩)

include hr in
theorem PrefixAgree.congr {s s' : Fin n → Context} (h : PrefixAgree r s f)
    (hrows : ∀ p k, (s' p).rows (f, k) = (s p).rows (f, k)) : PrefixAgree r s' f := by
  intro p i row hrow
  rw [ownerRow_congr hr (fun q k _ => hrows q k)] at hrow
  rw [hrows]
  exact h p i row hrow

include hr in
theorem initial_inv : SparseInv r (fun _ => true) (fun _ => false) (fun _ => true) (initialContext r) := by
  refine ⟨fun _ => rfl, fun _ => rfl, initial_maps hr, fun _ _ _ => ⟨le_rfl, by simp [initialContext]⟩,
    fun p f => List.length_replicate, by simp, fun f _ p i row hrow => ?_, fun f _ p i row hrow => ?_⟩
  · obtain ⟨ghost, q, hghost, -, rfl⟩ := mem_ownerRow.mp hrow
    have hi := (List.getElem?_eq_some_iff.mp hghost).1
    refine ⟨rfl, ?_⟩
    simp [initialContext, hi]
  · obtain ⟨ghost, q, hghost, -, rfl⟩ := mem_ownerRow.mp hrow
    exact fun b _ => rfl

-- ---------------------------------------------------------------------------
-- The start of a task
-- ---------------------------------------------------------------------------

section
variable {readable resized : ℕ → Bool} {s : Fin n → Context}
  (h : SparseInv r readable resized readable s) (args : List Reference)
include h

theorem SparseInv.walked_eq (p : Fin n) : walked args s p = Prolog.walk args readable resized := by
  rw [walked, h.readable_eq, h.resized_eq]

include hr in
theorem SparseInv.resizeRows_eq (fresh : Fin n → ℕ × ℕ → ℕ → UInt8)
    (hmid : resizeRows r fresh args s = some mid) :
    ∃ s₁, SizesExchanged r (Prolog.walk args readable resized).resized_sparse_fields
        (fun p => { s p with
          ghost_is_readable := (Prolog.walk args readable resized).ghost_is_readable }) s₁ ∧
      ∀ p, RowsResized r (fresh p) p args (s₁ p) (mid p) := by
  obtain ⟨s₁, hlaunch, hmid⟩ := Option.bind_eq_some_iff.mp hmid
  obtain rfl := Option.some.inj hmid
  simp only [h.walked_eq] at hlaunch
  have hmaps : Maps r fun p => { s p with
      ghost_is_readable := (Prolog.walk args readable resized).ghost_is_readable } :=
    ⟨h.maps.ghost, h.maps.shared, h.maps.keys⟩
  have hspec := launchRowsize_spec hr hmaps h.length hlaunch
  refine ⟨s₁, hspec, fun p => ?_⟩
  exact foldl_rowResize hr (fresh p) p args (s₁ p) fun f q => hspec.maps.ghost p q f

include hr in
theorem SparseInv.resizeRows_some (fresh : Fin n → ℕ × ℕ → ℕ → UInt8)
    (hfit : ∀ p q : Fin n,
      (rowCounts (s p).ghost_indices (walked args s p).resized_sparse_fields q).isSome) :
    ∃ mid, resizeRows r fresh args s = some mid := by
  simp only [h.walked_eq] at hfit
  have hmaps : Maps r fun p => { s p with
      ghost_is_readable := (Prolog.walk args readable resized).ghost_is_readable } :=
    ⟨h.maps.ghost, h.maps.shared, h.maps.keys⟩
  obtain ⟨s₁, hs₁⟩ := launchRowsize_some hr hmaps h.length hfit
  simp only [resizeRows, h.walked_eq, hs₁, Option.bind_eq_bind, Option.bind_some]
  exact ⟨_, rfl⟩

/-- After the rows are resized. -/
def named (args : List Reference) (f : ℕ) : Bool := args.any (·.fid = f)

omit h in
theorem named_iff {args : List Reference} : named args f = true ↔ ∃ a ∈ args, a.fid = f := by
  simp [named]

include hr in
/-- Shared rows are left alone. -/
theorem SparseInv.resizeRows_shared (fresh : Fin n → ℕ × ℕ → ℕ → UInt8)
    (hmid : resizeRows r fresh args s = some mid) (hk : k < r.ghostRow f p) :
    (mid p).rows (f, k) = (s p).rows (f, k) := by
  obtain ⟨s₁, hex, hres⟩ := h.resizeRows_eq hr args fresh hmid
  have hout : ¬(r.ghostRow f p ≤ k ∧ k - r.ghostRow f p < (r.fieldColoring f p).ghost.length) := by
    omega
  rw [(hres p).rows, resizedRow, if_neg hout, ite_self, hex.rows]

include hr in
theorem SparseInv.afterResize (fresh : Fin n → ℕ × ℕ → ℕ → UInt8)
    (hmid : resizeRows r fresh args s = some mid) :
    SparseInv r (Prolog.walk args readable resized).ghost_is_readable
      (fun f => resized f && !named args f) readable mid := by
  obtain ⟨s₁, hex, hres⟩ := h.resizeRows_eq hr args fresh hmid
  have hwalk := Prolog.walk_walked args h.apart
  have hresized (p : Fin n) : (s₁ p).ghost_was_resized = resized := (hex.resized p).trans (h.resized_eq p)
  have hsame (f : ℕ) (hf : resized f = false) (p : Fin n) (k : ℕ) :
      (mid p).rows (f, k) = (s p).rows (f, k) := by
    rw [(hres p).rows, hresized, if_neg (by simp [hf]), hex.rows]
  have hshared (f : ℕ) (p : Fin n) (k : ℕ) (hk : k < r.ghostRow f p) :=
    h.resizeRows_shared hr args fresh hmid hk
  have hstored (f : ℕ) (hf : f ∈ (Prolog.walk args readable resized).resized_sparse_fields) (p : Fin n)
      (i : ℕ) (row : RowVector) (hrow : row ∈ ownerRow r s p f i) :
      ((mid p).ghost_row_sizes f)[i]? = some row.count := by
    rw [(hres p).sizes]
    exact hex.sizes p f hf i row hrow
  refine ⟨fun p => ?_, fun p => ?_, ?_, fun p f k => ?_, fun p f => ?_, fun f hf => ?_,
    fun f hf => ?_, fun f hf => ?_⟩
  · rw [(hres p).readable, hex.readable]
  · funext f
    rw [(hres p).resized, hresized, named]
  · refine ⟨fun p q f => ?_, fun p q f => ?_, fun p q f => ?_⟩
    · rw [(hres p).ghost, hex.maps.ghost]
    · rw [(hres q).shared, hex.maps.shared]
    · rw [(hres p).ghost, (hres q).shared, hex.maps.keys]
  · rw [(hres p).rows]
    have hwf : ((s₁ p).rows (f, k)).WellFormed (r.entry_size f) := by
      rw [hex.rows]
      exact h.wellFormed p f k
    unfold resizedRow
    split
    · split
      · exact hwf.resize _ _
      · exact hwf
    · exact hwf
  · rw [(hres p).sizes, hex.length]
    exact h.length p f
  · simp only [Bool.and_eq_true, Bool.not_eq_true'] at hf
    exact h.apart f hf.1
  · intro p i row hrow
    rw [ownerRow_congr hr (hshared f)] at hrow
    cases hold : resized f with
    | false =>
      obtain ⟨hcount, hsize⟩ := h.sizes f hold p i row hrow
      rw [hsame f hold]
      refine ⟨hcount, ?_⟩
      by_cases hmem : f ∈ (Prolog.walk args readable resized).resized_sparse_fields
      · exact hstored f hmem p i row hrow
      · rw [(hres p).sizes, hex.frame p f hmem]
        exact hsize
    | true =>
      obtain ⟨a, ha, rfl⟩ := named_iff.mp (by simpa [hold] using hf)
      have hsize := hstored _ (hwalk.resized a ha hold) p i row hrow
      refine ⟨?_, hsize⟩
      obtain ⟨ghost, q, hghost, -, -⟩ := mem_ownerRow.mp hrow
      have hi := (List.getElem?_eq_some_iff.mp hghost).1
      have hrow' : (mid p).rows (a.fid, r.ghostRow a.fid p + i) =
          resizedRow r (fresh p) p (s₁ p) (a.fid, r.ghostRow a.fid p + i) := by
        rw [(hres p).rows, hresized]
        exact if_pos ⟨hold, named_iff.mpr ⟨a, ha, rfl⟩⟩
      rw [(hres p).sizes] at hsize
      rw [hrow', resizedRow, if_pos ⟨Nat.le_add_right _ _, by simpa using hi⟩,
        RowVector.count_resize, Nat.add_sub_cancel_left, List.getD_eq_getElem?_getD, hsize]
      rfl
  · have hold : resized f = false := by
      by_contra hres
      rw [Bool.not_eq_false] at hres
      simp [h.apart f hres] at hf
    exact (h.contents f hf).congr hr (hsame f hold)

omit h in
/-- The fields whose rows are sent were resized before, if at all. -/
theorem modified_sizes {mid : Fin n → Context} {readable readable' known : ℕ → Bool} {t : Prolog}
    (hmid : SparseInv r readable (fun f => resized f && !named args f) known mid)
    (hwalk : t.Walked readable' resized args) : ∀ f ∈ t.modified_sparse_fields, SizesAgree r mid f := by
  intro f hf
  refine hmid.sizes f ?_
  rw [named_iff.mpr (hwalk.named f hf)]
  simp

include hr in
theorem SparseInv.start_eq (fresh : Fin n → ℕ × ℕ → ℕ → UInt8)
    (hb : startTask r fresh args s = some b) :
    ∃ mid, resizeRows r fresh args s = some mid ∧
      RowsExchanged r (Prolog.walk args readable resized).modified_sparse_fields mid b := by
  obtain ⟨mid, hmid, hb⟩ := Option.bind_eq_some_iff.mp hb
  simp only [h.walked_eq] at hb
  have hinv := h.afterResize hr args fresh hmid
  have hwalk := Prolog.walk_walked args h.apart
  exact ⟨mid, hmid, launchSparse_spec hr hinv.maps hinv.wellFormed (modified_sizes args hinv hwalk) hb⟩

include hr in
theorem SparseInv.start (fresh : Fin n → ℕ × ℕ → ℕ → UInt8)
    (hb : startTask r fresh args s = some b) :
    SparseInv r (Prolog.walk args readable resized).ghost_is_readable
      (fun f => resized f && !named args f)
      (Prolog.walk args readable resized).ghost_is_readable b := by
  obtain ⟨mid, hmid, hex⟩ := h.start_eq hr args fresh hb
  have hinv := h.afterResize hr args fresh hmid
  have hwalk := Prolog.walk_walked args h.apart
  refine ⟨fun p => ?_, fun p => ?_, hex.maps, fun p f k => ?_, fun p f => ?_, fun f hf => ?_,
    fun f hf => ?_, fun f hf => ?_⟩
  · rw [hex.readable, hinv.readable_eq]
  · rw [hex.resized, hinv.resized_eq]
  · obtain ⟨hcount, hlength⟩ := hinv.wellFormed p f k
    exact ⟨by rw [hex.count, hex.capacity]; exact hcount,
      by rw [hex.length, hex.capacity]; exact hlength⟩
  · rw [hex.sizes]
    exact hinv.length p f
  · rw [Bool.and_eq_true, Bool.not_eq_true'] at hf
    by_contra hread
    rcases (hwalk.readable f).mp (by simpa using hread) with hread | hmem
    · simp [h.apart f hf.1] at hread
    · simp [named_iff.mpr (hwalk.named f hmem)] at hf
  · exact (hinv.sizes f hf).congr (fun p k => hex.count p (f, k)) fun p => by rw [hex.sizes]
  · by_cases hmem : f ∈ (Prolog.walk args readable resized).modified_sparse_fields
    · intro p i row hrow
      rw [ownerRow_congr hr (fun q k hk => hex.rows_eq (.inr hk))] at hrow
      exact hex.arrived f hmem p i row hrow
    · have hread := ((hwalk.readable f).mp hf).resolve_right hmem
      exact (hinv.contents f hread).congr hr fun p k => hex.rows_eq (.inl hmem)

include hr in
theorem SparseInv.start_some (fresh : Fin n → ℕ × ℕ → ℕ → UInt8)
    (hmid : resizeRows r fresh args s = some mid)
    (hfit : ∀ p q : Fin n,
      (recvBytes r (walked args s p).modified_sparse_fields (mid p) q).isSome) :
    ∃ b, startTask r fresh args s = some b := by
  simp only [h.walked_eq] at hfit
  have hinv := h.afterResize hr args fresh hmid
  have hwalk := Prolog.walk_walked args h.apart
  obtain ⟨b, hb⟩ := launchSparse_some hr hinv.maps hinv.wellFormed (modified_sizes args hinv hwalk) hfit
  refine ⟨b, ?_⟩
  simp only [startTask, hmid, h.walked_eq, Option.bind_eq_bind, Option.bind_some]
  exact hb

end

-- ---------------------------------------------------------------------------
-- The task and its end
-- ---------------------------------------------------------------------------

omit hr in
theorem mutator_mem {args : List Reference} (h : .raggedMutator f ∈ args ∨ .sparseMutator f ∈ args) :
    ∃ a ∈ args, a.fid = f ∧ a.IsMutator := by
  rcases h with h | h
  · exact ⟨_, h, rfl, trivial⟩
  · exact ⟨_, h, rfl, trivial⟩

omit hr in
theorem SparseInv.performs {readable resized : ℕ → Bool} {s s' : Fin n → Context}
    (h : SparseInv r readable resized readable s) {args : List Reference}
    (hargs : ∀ a ∈ args, a.GhostsKept) (hs : Performs r args s s') :
    ∃ readable' resized', SparseInv r readable' resized' readable' (finishTask args s') := by
  have hrest (p : Fin n) : (s' p).shared_indices = (s p).shared_indices ∧
      (s' p).ghost_indices = (s p).ghost_indices ∧ (s' p).ghost_row_sizes = (s p).ghost_row_sizes ∧
      (s' p).ghost_is_readable = readable ∧ (s' p).ghost_was_resized = resized := by
    rw [hs.rest p]
    exact ⟨rfl, rfl, rfl, h.readable_eq p, h.resized_eq p⟩
  let flags := args.foldl finalizeSparse (args.foldl epilogSparse readable, resized)
  have hflags (f : ℕ) := foldl_finalizeSparse args (args.foldl epilogSparse readable, resized) f
  have hcount (f : ℕ) (hf : ∀ a ∈ args, a.fid = f → ¬a.IsMutator) (p : Fin n) (k : ℕ) :
      ((s' p).rows (f, k)).count = ((s p).rows (f, k)).count := by
    refine hs.count p f k fun hmut => ?_
    obtain ⟨a, ha, hfid, hm⟩ := mutator_mem hmut.2
    exact hf a ha hfid hm
  refine ⟨flags.1, flags.2, fun p => ?_, fun p => ?_, ?_, fun p f k => hs.wellFormed p f k,
    fun p f => ?_, fun f hf => ?_, fun f hf => ?_, fun f hf => ?_⟩
  · simp only [finishTask, hrest p, flags]
  · simp only [finishTask, hrest p, flags]
  · refine ⟨fun p q f => ?_, fun p q f => ?_, fun p q f => ?_⟩ <;> simp only [finishTask, hrest]
    · exact h.maps.ghost p q f
    · exact h.maps.shared p q f
    · exact h.maps.keys p q f
  · simp only [finishTask, hrest]
    exact h.length p f
  · by_contra hread
    obtain ⟨hepilog, hno⟩ := (hflags f).1.mp (by simpa using hread)
    rcases (hflags f).2.mp hf with hres | ⟨a, ha, hfid, hm⟩
    · have hold := (foldl_epilogSparse hargs hepilog).1
      simp [h.apart f hres] at hold
    · exact hno a ha hfid hm
  · have hboth : ¬(resized f = true ∨ ∃ a ∈ args, a.fid = f ∧ a.IsMutator) := by
      rw [← (hflags f).2]
      simpa using hf
    rw [not_or] at hboth
    have hno : ∀ a ∈ args, a.fid = f → ¬a.IsMutator := fun a ha hfid hm =>
      hboth.2 ⟨a, ha, hfid, hm⟩
    refine (h.sizes f (by simpa using hboth.1)).congr (fun p k => hcount f hno p k) fun p => ?_
    simp only [finishTask, hrest]
  · obtain ⟨hepilog, hno⟩ := (hflags f).1.mp hf
    obtain ⟨hread, hwrites⟩ := foldl_epilogSparse hargs hepilog
    have hkeep (p : Fin n) (k : ℕ) (hk : r.num_exclusive f p ≤ k) :
        (s' p).rows (f, k) = (s p).rows (f, k) := by
      refine hs.frame p f k (fun hmut => ?_) ?_
      · obtain ⟨a, ha, hfid, hm⟩ := mutator_mem hmut.2
        exact hno a ha hfid hm
      · rintro ⟨exclusive, shared, ghost, hmem, hw | hw | hw⟩
        · exact absurd hw.1 (by omega)
        · rcases hmem with hmem | hmem
          · exact hwrites _ hmem rfl hw.2.2
          · exact hwrites _ hmem rfl hw.2.2
        · rcases hmem with hmem | hmem
          · rcases hargs _ hmem with hg | hg <;> simp [hg, Privilege.Writes] at hw
          · rcases hargs _ hmem with hg | hg <;> simp [hg, Privilege.Writes] at hw
    intro p i row hrow b hb
    obtain ⟨ghost, q, hghost, hq, rfl⟩ := mem_ownerRow.mp hrow
    have hold := h.contents f hread p i _ (mem_ownerRow.mpr ⟨ghost, q, hghost, hq, rfl⟩) b
    simp only [finishTask] at hb ⊢
    rw [hkeep q _ (Nat.le_add_left _ _)] at hb ⊢
    rw [hkeep p _ (by simp only [Registry.ghostRow]; omega)]
    exact hold hb

/-- A state between two tasks. -/
def Settled (r : Registry n) (s : Fin n → Context) : Prop :=
  ∃ readable resized, SparseInv r readable resized readable s

include hr in
theorem Reachable.settled {s : Fin n → Context} (hs : Reachable r s) : Settled r s := by
  refine Runs.invariant ?_ ⟨_, _, initial_inv hr⟩ hs
  rintro a a' ⟨readable, resized, h⟩ ⟨args, hargs, fresh, b, b', hb, hrun, rfl⟩
  exact (h.start hr args fresh hb).performs hargs hrun

omit hr in
theorem SparseInv.coherent {readable resized : ℕ → Bool} {s : Fin n → Context}
    (h : SparseInv r readable resized readable s) (hread : readable f = true) (hf : Unpadded r f) :
    Coherent r s f := by
  intro p i ghost hghost q hq
  have hres : resized f = false := by
    by_contra hres
    simp [h.apart f (by simpa using hres)] at hread
  have hrow : (s q).rows (f, ghost.offset + r.num_exclusive f q) ∈ ownerRow r s p f i :=
    mem_ownerRow.mpr ⟨ghost, q, hghost, hq, rfl⟩
  have hcount := (h.sizes f hres p i _ hrow).1
  have hbytes := h.contents f hread p i _ hrow
  rw [Nat.add_comm ghost.offset] at hcount hbytes
  refine ⟨hcount, ?_⟩
  refine List.ext_getElem? fun b => ?_
  simp only [RowVector.bytes, List.getElem?_take, hcount]
  split
  · rename_i hb
    exact hbytes b (hf ▸ hb)
  · rfl

end

/-- When a task with handles that read ghost rows starts, the ghost rows are those of the
owners, for every field whose entries have the registered size. The two sides of every
message compute the same size, and no copy leaves its row or its buffer. -/
theorem sparse_ghosts_coherent (r : Registry n) (hr : ∀ i, ExchangeColoring (r.coloring i))
    (s : Fin n → Context) (hs : Reachable r s) (fresh : Fin n → ℕ × ℕ → ℕ → UInt8)
    (args : List Reference) :
    (∀ b, startTask r fresh args s = some b → ∀ a ∈ args, a.ReadsGhosts → Unpadded r a.fid →
      Coherent r b a.fid) ∧
    (∀ p q : Fin n, rowCounts (s p).ghost_indices (walked args s p).resized_sparse_fields q =
      rowCounts (s q).shared_indices (walked args s q).resized_sparse_fields p) ∧
    ((∀ p q : Fin n,
        (rowCounts (s p).ghost_indices (walked args s p).resized_sparse_fields q).isSome) →
      ∃ mid, resizeRows r fresh args s = some mid) ∧
    ∀ mid, resizeRows r fresh args s = some mid →
      (∀ p q : Fin n, recvBytes r (walked args s p).modified_sparse_fields (mid p) q =
        sendBytes r (walked args s q).modified_sparse_fields q (mid q) p) ∧
      ((∀ p q : Fin n, (recvBytes r (walked args s p).modified_sparse_fields (mid p) q).isSome) →
        ∃ b, startTask r fresh args s = some b) := by
  obtain ⟨readable, resized, hinv⟩ := hs.settled hr
  have hwalk := Prolog.walk_walked args hinv.apart
  refine ⟨fun b hb a ha hread hf => ?_, fun p q => ?_, hinv.resizeRows_some hr args fresh,
    fun mid hmid => ⟨fun p q => ?_, hinv.start_some hr args fresh hmid⟩⟩
  · have hexchanges : a.Exchanges := by
      cases a with
      | raggedAccessor _ _ _ ghost | sparseAccessor _ _ _ ghost =>
        have hro : ghost = .ro := hread
        simp [Reference.Exchanges, hro]
      | raggedMutator | sparseMutator => trivial
    exact (hinv.start hr args fresh hb).coherent (hwalk.exchanged a ha hexchanges) hf
  · rw [hinv.walked_eq, hinv.walked_eq]
    exact hinv.maps.rowCounts_eq _ p q hr
  · rw [hinv.walked_eq, hinv.walked_eq]
    have hmid' := hinv.afterResize hr args fresh hmid
    exact hmid'.maps.bytes_eq hr (modified_sizes args hmid' hwalk) p q

-- ---------------------------------------------------------------------------
-- A field with padded entries
-- ---------------------------------------------------------------------------

theorem entrySize_some {sizes : List ℕ} (acc : Option ℕ) (h : acc.getD 0 + sizes.sum < 2 ^ 31) :
    ∃ o, sizes.foldlM (fun size x => (toInt (size.getD 0 + x)).map some) acc = some o := by
  induction sizes generalizing acc with
  | nil => exact ⟨acc, rfl⟩
  | cons x sizes ih =>
    rw [List.sum_cons, ← Nat.add_assoc] at h
    obtain ⟨o, ho⟩ := ih (some (acc.getD 0 + x)) h
    refine ⟨o, ?_⟩
    have hx : toInt (acc.getD 0 + x) = some (acc.getD 0 + x) :=
      toInt_eq_some.mpr ⟨by omega, rfl⟩
    rw [List.foldlM_cons, hx]
    exact ho

/-- Two ranks with one shared element each, and fields of one kind on it. -/
def pairRegistry (fi : FieldInfo) : Registry 2 := ⟨fun _ => fi, fun _ => pairColoring⟩

/-- Rank 0 has put two entries in its row. -/
def twoEntries (fi : FieldInfo) : RowVector := ⟨2, 2, List.replicate (2 * fi.entry_size) 1⟩

/-- The state after a mutator has run. -/
structure Pushed (fi : FieldInfo) (s : Fin 2 → Context) : Prop where
  reachable : Reachable (pairRegistry fi) s
  row : (s 0).rows (0, 0) = twoEntries fi
  others : ∀ p k, (p, k) ≠ (0, (0, 0)) → (s p).rows k = ⟨0, 0, []⟩
  readable : ∀ p, (s p).ghost_is_readable 0 = false
  resized : ∀ p, (s p).ghost_was_resized 0 = true

theorem pair_exchange (fi : FieldInfo) (i : ℕ) : ExchangeColoring ((pairRegistry fi).coloring i) :=
  pairColoring_exchange

theorem exists_pushed (fi : FieldInfo) : ∃ s, Pushed fi s := by
  have hr := pair_exchange fi
  have hinit := initial_inv hr
  have hwalk : Prolog.walk [.sparseMutator 0] (fun _ => true) (fun _ => false) =
      ⟨fun _ => true, fun _ => false, [], []⟩ := rfl
  have hwalked (p : Fin 2) := hinit.walked_eq [.sparseMutator 0] p
  obtain ⟨mid, hmid⟩ := hinit.resizeRows_some hr [.sparseMutator 0] (fun _ _ _ => 0) fun p q => by
    rw [hwalked, hwalk]
    rfl
  obtain ⟨b, hb⟩ := hinit.start_some hr [.sparseMutator 0] (fun _ _ _ => 0) hmid fun p q => by
    rw [hwalked, hwalk]
    rfl
  have hinv := hinit.start hr [.sparseMutator 0] _ hb
  have hrows (p : Fin 2) (k : ℕ × ℕ) : (b p).rows k = ⟨0, 0, []⟩ := by
    obtain ⟨mid', hmid', hex⟩ := hinit.start_eq hr _ _ hb
    obtain ⟨s₁, hsizes, hres⟩ := hinit.resizeRows_eq hr _ _ hmid'
    have hflag : (s₁ p).ghost_was_resized k.1 = false := by
      rw [hsizes.resized]
      rfl
    rw [hwalk] at hex
    have hrow : (mid' p).rows k = (s₁ p).rows k := by
      rw [(hres p).rows, hflag]
      simp
    rw [hex.rows_eq (f := k.1) (k := k.2) (.inl List.not_mem_nil), hrow, hsizes.rows]
    rfl
  have hout (p : Fin 2) (f k : ℕ) (hm : ¬Mutable (pairRegistry fi) [.sparseMutator 0] f p k) :
      ¬(p = 0 ∧ (f, k) = (0, 0)) := by
    rintro ⟨rfl, hk⟩
    obtain ⟨rfl, rfl⟩ := Prod.ext_iff.mp hk
    exact hm ⟨Nat.zero_lt_one, .inr (by simp)⟩
  refine ⟨finishTask [.sparseMutator 0] fun p => { b p with
    rows := fun k => if p = 0 ∧ k = (0, 0) then twoEntries fi else (b p).rows k },
    ⟨?_, rfl, fun p k hk => ?_, fun p => rfl, fun p => rfl⟩⟩
  · refine Relation.ReflTransGen.single ⟨[.sparseMutator 0], by simp [Reference.GhostsKept],
      fun _ _ _ => 0, b, _, hb, ⟨fun p => rfl, fun p f k => ?_, fun p f k hm => ?_,
        fun p f k hm _ => ?_⟩, rfl⟩
    · simp only
      split
      · exact ⟨le_rfl, by simp [twoEntries, pairRegistry, Registry.entry_size]⟩
      · exact hinv.wellFormed p f k
    · simp only [if_neg (hout p f k hm)]
    · simp only [if_neg (hout p f k hm)]
  · have hne : ¬(p = 0 ∧ k = (0, 0)) := fun h => hk (by rw [h.1, h.2])
    simp only [finishTask, if_neg hne]
    exact hrows p k

section
variable {fi : FieldInfo} {s : Fin 2 → Context} (h : Pushed fi s)
include h

theorem Pushed.count_le (p : Fin 2) (k : ℕ × ℕ) : ((s p).rows k).count ≤ 2 := by
  by_cases hk : (p, k) = (0, (0, 0))
  · obtain ⟨rfl, rfl⟩ := Prod.ext_iff.mp hk
    rw [h.row]
    exact le_rfl
  · rw [h.others p k hk]
    exact Nat.zero_le _

theorem Pushed.inv : ∃ readable resized,
    SparseInv (pairRegistry fi) readable resized readable s ∧ ∀ a : Reference,
      (a = .raggedAccessor 0 .ro .ro .ro ∨ a = .sparseAccessor 0 .ro .ro .ro) →
        Prolog.walk [a] readable resized = ⟨Function.update readable 0 true, resized, [0], [0]⟩ := by
  obtain ⟨readable, resized, hinv⟩ := h.reachable.settled (pair_exchange fi)
  have hread : readable 0 = false := hinv.readable_eq 0 ▸ h.readable 0
  have hres : resized 0 = true := hinv.resized_eq 0 ▸ h.resized 0
  refine ⟨readable, resized, hinv, fun a ha => ?_⟩
  rcases ha with rfl | rfl <;>
    simp [Prolog.walk, Prolog.handle, Prolog.accessor, Prolog.modify, Prolog.resize, hread, hres]

theorem Pushed.start (hfi : fi.type_size < 2 ^ 29) (fresh : Fin 2 → ℕ × ℕ → ℕ → UInt8) (a : Reference)
    (ha : a = .raggedAccessor 0 .ro .ro .ro ∨ a = .sparseAccessor 0 .ro .ro .ro) :
    ∃ b, startTask (pairRegistry fi) fresh [a] s = some b := by
  have hr := pair_exchange fi
  obtain ⟨readable, resized, hinv, hwalk⟩ := h.inv
  have hghosts (p q : Fin 2) : (ghostEntries (pairColoring p) q).length ≤ 1 :=
    (List.length_filter_le _ _).trans (by simp [pairColoring])
  obtain ⟨mid, hmid⟩ := hinv.resizeRows_some hr [a] fresh fun p q => by
    rw [hinv.walked_eq, hwalk a ha, Option.isSome_iff_exists]
    refine entrySize_some none ?_
    have hl := congrArg List.length (hinv.maps.ghost p q 0)
    cases hg : (s p).ghost_indices 0 q with
    | none => simp [hg]
    | some l =>
      simp only [hg, Option.getD_some, List.length_map] at hl
      simp only [List.filterMap_cons, hg, Option.map_some, hl, List.filterMap_nil, List.sum_cons,
        List.sum_nil, Option.getD_none]
      have hle : (ghostEntries ((pairRegistry fi).fieldColoring 0 p) q).length ≤ 1 := hghosts p q
      omega
  have hmid' := hinv.afterResize hr [a] fresh hmid
  have hsizes : SizesAgree (pairRegistry fi) mid 0 := by
    refine hmid'.sizes 0 ?_
    have hnamed : named [a] 0 = true := by
      rcases ha with rfl | rfl <;> rfl
    rw [hnamed]
    simp
  refine hinv.start_some hr [a] fresh hmid fun p q => ?_
  rw [hinv.walked_eq, hwalk a ha, Option.isSome_iff_exists]
  refine entrySize_some none ?_
  simp only [List.flatMap_singleton, hmid'.maps.ghost p q 0, List.map_map, Option.getD_none,
    Nat.zero_add]
  refine Nat.lt_of_le_of_lt (List.sum_le_card_nsmul _ (2 * fi.type_size) fun x hx => ?_) ?_
  · obtain ⟨y, hy, rfl⟩ := List.mem_map.mp hx
    obtain ⟨hghost, hq⟩ := mem_ghostEntries.mp hy
    have hoff : y.1.offset = 0 := by
      have hmem : y.1 ∈ (pairColoring p).ghost := List.mem_of_getElem? hghost
      rw [List.mem_singleton.mp hmem]
    simp only [Function.comp_def, hsizes.size hghost hq, hoff]
    rw [hinv.resizeRows_shared hr [a] fresh hmid (by exact Nat.zero_lt_one)]
    exact Nat.mul_le_mul_right _ (h.count_le q _)
  · rw [List.length_map, smul_eq_mul]
    have := Nat.mul_le_mul_right (2 * fi.type_size) (hghosts p q)
    refine Nat.lt_of_le_of_lt this ?_
    omega

end

theorem sparse_ghosts_coherent_pair :
    ∃ s b, Reachable (pairRegistry ⟨0, .ragged, ⟨1, 1, by decide⟩⟩) s ∧
      startTask (pairRegistry ⟨0, .ragged, ⟨1, 1, by decide⟩⟩) (fun _ _ _ => 0)
        [.raggedAccessor 0 .ro .ro .ro] s = some b ∧
      Coherent (pairRegistry ⟨0, .ragged, ⟨1, 1, by decide⟩⟩) b 0 := by
  obtain ⟨s, hs⟩ := exists_pushed ⟨0, .ragged, ⟨1, 1, by decide⟩⟩
  obtain ⟨b, hb⟩ := hs.start (by decide) (fun _ _ _ => 0) _ (.inl rfl)
  have hex := pair_exchange ⟨0, .ragged, ⟨1, 1, by decide⟩⟩
  refine ⟨s, b, hs.reachable, hb, ?_⟩
  exact (sparse_ghosts_coherent _ hex s hs.reachable _ _).1 b hb _ (List.mem_singleton_self _)
    rfl rfl

/-- A sparse field of four-byte values, whose entries are padded to sixteen bytes. -/
def paddedField : FieldInfo := ⟨0, .sparse, ⟨4, 4, by decide⟩⟩

/-- The value of a second entry is not sent. -/
theorem sparse_ghost_stale :
    (∀ i, ExchangeColoring ((pairRegistry paddedField).coloring i)) ∧
    ∃ s b, Reachable (pairRegistry paddedField) s ∧
      startTask (pairRegistry paddedField) (fun _ _ _ => 0) [.sparseAccessor 0 .ro .ro .ro] s = some b ∧
      ((b 1).rows (0, 1)).storage[24]? = some 0 ∧ ((b 0).rows (0, 0)).storage[24]? = some 1 ∧
      ¬Coherent (pairRegistry paddedField) b 0 := by
  have hr := pair_exchange paddedField
  obtain ⟨s, hs⟩ := exists_pushed paddedField
  obtain ⟨readable, resized, hinv, hwalk⟩ := hs.inv
  have hwalk := hwalk (.sparseAccessor 0 .ro .ro .ro) (.inr rfl)
  obtain ⟨b, hb⟩ := hs.start (by decide) (fun _ _ _ => 0) _ (.inr rfl)
  obtain ⟨mid, hmid, hex⟩ := hinv.start_eq hr _ _ hb
  obtain ⟨s₁, hsizes, hres⟩ := hinv.resizeRows_eq hr _ _ hmid
  have hmid' := hinv.afterResize hr _ _ hmid
  have hshared : (mid 0).rows (0, 0) = twoEntries paddedField :=
    (hinv.resizeRows_shared hr _ _ hmid Nat.zero_lt_one).trans hs.row
  have hsize : ((mid 1).ghost_row_sizes 0).getD 0 0 = 2 := by
    have hagree : SizesAgree (pairRegistry paddedField) mid 0 := hmid'.sizes 0 (by simp [named, Reference.fid])
    have hghost : ((pairRegistry paddedField).fieldColoring 0 1).ghost[0]? = some ⟨0, 0, 0, ∅⟩ := rfl
    have hrank : (⟨0, 0, 0, ∅⟩ : EntityInfo).rank = (0 : Fin 2).val := rfl
    exact (hagree.size hghost hrank).trans (congrArg RowVector.count hshared)
  have hghost : ((mid 1).rows (0, 1)).storage[24]? = some 0 := by
    have hrow : (s₁ 1).rows (0, 1) = ⟨0, 0, []⟩ := by
      rw [hsizes.rows]
      exact hs.others 1 (0, 1) (by decide)
    have hflag : (s₁ 1).ghost_was_resized 0 = true :=
      (congrFun (hsizes.resized 1) 0).trans (hs.resized 1)
    have hsize' : ((s₁ 1).ghost_row_sizes 0).getD 0 0 = 2 := (hres 1).sizes ▸ hsize
    rw [(hres 1).rows, if_pos ⟨hflag, rfl⟩, resizedRow, if_pos ⟨le_rfl, Nat.zero_lt_one⟩, hrow]
    have hzero : (0, 1).2 - (pairRegistry paddedField).ghostRow (0, 1).1 1 = 0 := rfl
    rw [hzero, hsize']
    rfl
  have howner : (b 0).rows (0, 0) = twoEntries paddedField :=
    (hex.rows_eq (.inr Nat.zero_lt_one)).trans hshared
  have hstale : ((b 1).rows (0, 1)).storage[24]? = some 0 := by
    rw [hex.frame 1 0 1 24 (.inr (.inr ?_)), hghost]
    exact (congrArg (· * 12) hsize).le
  have hvalue : ((b 0).rows (0, 0)).storage[24]? = some 1 := by
    rw [howner]
    rfl
  refine ⟨hr, s, b, hs.reachable, hb, hstale, hvalue, fun hcoh => ?_⟩
  obtain ⟨hcount, hbytes⟩ := hcoh 1 0 ⟨0, 0, 0, ∅⟩ rfl 0 rfl
  have hrow : (b 0).rows (0, (pairRegistry paddedField).num_exclusive 0 0 + 0) = twoEntries paddedField :=
    howner
  rw [hrow] at hcount hbytes
  have hbyte := congrArg (·[24]?) hbytes
  simp only [RowVector.bytes, hcount] at hbyte
  have hin : 24 < (twoEntries paddedField).count * (pairRegistry paddedField).entry_size 0 := by decide
  have hone : (twoEntries paddedField).storage[24]? = some 1 := rfl
  rw [List.getElem?_take_of_lt hin, List.getElem?_take_of_lt hin, hone] at hbyte
  cases hstale.symm.trans hbyte

end Flecsi.Execution.Sparse
