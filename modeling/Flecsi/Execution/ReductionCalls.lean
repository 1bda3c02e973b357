import Flecsi.Execution.Reductions

/-!
# Reductions of buffers and of shared elements

The wrapper for MPI combines two buffers. The functions that are not exclusive
swap eight bytes at the element they are called for, also for narrower types, for
which the bytes of a union that the value leaves are not specified.
-/

namespace Flecsi.Execution.Reductions

open ArrayShift ByteCast CompareSwap PackedBuffer ReductionTrees
open Relation (ReflTransGen)

section
variable {α : Type} (layout : Layout α) (r : Reduction α)

def mpi_wrapper (rhs lhs : List α) (len : ℕ) : Option (List α) :=
  (List.range len).foldlM (fun lhs i => do put lhs i (r.apply (← lhs[i]?) (← rhs[i]?))) lhs

theorem mpi_wrapper_eq {rhs lhs : List α} {len : ℕ} (hrhs : len ≤ rhs.length) (hlhs : len ≤ lhs.length) :
    mpi_wrapper r rhs lhs len = some (List.zipWith r.apply (lhs.take len) (rhs.take len) ++ lhs.drop len) := by
  rw [mpi_wrapper]
  induction len with
  | zero => rfl
  | succ len ih =>
    have hlen : (List.zipWith r.apply (lhs.take len) (rhs.take len)).length = len := by simp; omega
    have hdrop : lhs.drop len = lhs[len] :: lhs.drop (len + 1) := List.drop_eq_getElem_cons hlhs
    rw [List.range_succ, List.foldlM_append, ih (by omega) (by omega), hdrop]
    have hrest : (rhs.take (len + 1)) = rhs.take len ++ [rhs[len]] := (List.take_append_getElem hrhs).symm
    have hlast : (lhs.take (len + 1)) = lhs.take len ++ [lhs[len]] := (List.take_append_getElem hlhs).symm
    have hat : (List.zipWith r.apply (lhs.take len) (rhs.take len) ++ lhs[len] :: lhs.drop (len + 1))[len]? = some lhs[len] := by
      rw [List.getElem?_append_right hlen.le, hlen, Nat.sub_self, List.getElem?_cons_zero]
    simp only [Option.bind_eq_bind, Option.bind_some, List.foldlM_cons, List.foldlM_nil, hat, List.getElem?_eq_getElem hrhs]
    have hset : (List.zipWith r.apply (lhs.take len) (rhs.take len) ++ lhs[len] :: lhs.drop (len + 1)).set len
        (r.apply lhs[len] rhs[len]) = List.zipWith r.apply (lhs.take len) (rhs.take len) ++ r.apply lhs[len] rhs[len] ::
          lhs.drop (len + 1) := by
      rw [List.set_append_right _ _ hlen.le, hlen, Nat.sub_self, List.set_cons_zero]
    have hinner : (lhs.take len).length = (rhs.take len).length := by
      rw [List.length_take, List.length_take]
      omega
    have hfits : len < (List.zipWith r.apply (lhs.take len) (rhs.take len) ++ lhs[len] :: lhs.drop (len + 1)).length := by
      rw [List.length_append, hlen, List.length_cons]
      omega
    rw [put_eq hfits, hset, hrest, hlast, List.zipWith_append hinner]
    simp only [Option.bind_some, Option.pure_def, List.zipWith_cons_cons, List.zipWith_nil_left, List.append_assoc,
      List.singleton_append]

-- ---------------------------------------------------------------------------
-- Calls on the elements of an array
-- ---------------------------------------------------------------------------

/-- A call of `apply`, or else `fold`, on an element of an array. -/
structure Call (α : Type) where
  folds : Bool
  index : ℕ
  rhs : α

namespace Call

variable (call : Call α)

/-- The first byte of the element. -/
def target : ℕ := call.index * layout.size

def exclusive (mem : List UInt8) : Option (List UInt8) := do
  let bytes ← span mem (call.target layout) layout.size
  let lhs := layout.value bytes
  write (layout.bytes (if call.folds then r.fold lhs call.rhs else r.apply lhs call.rhs)) (call.target layout) mem

end Call

/-- The loop of the calls that are not exclusive. -/
def swapping (call : ι → Call α) : Loop ι (List UInt8) (List UInt8) where
  read t mem := span mem ((call t).target layout) 8
  next t oldval newval := ∃ rest : List UInt8, rest.length = 8 - layout.size ∧
    newval = layout.bytes (r.swapped (layout.value (oldval.take layout.size)) (call t).rhs) ++ rest
  write t newval mem := write newval ((call t).target layout) mem

/-- The calls that are done have the effect of exclusive ones in some order. -/
def Serialized (call : ι → Call α) (mem : List UInt8) (s : State ι (List UInt8) (List UInt8)) : Prop :=
  ∃ order : List ι, order.Nodup ∧ (∀ t, t ∈ order ↔ s.phase t = .done) ∧
    order.foldlM (fun mem t => (call t).exclusive layout r mem) mem = some s.mem

/-- Only the elements of calls that are done have changed. -/
def OnlyTargets (call : ι → Call α) (mem : List UInt8) (s : State ι (List UInt8) (List UInt8)) : Prop :=
  ∀ p, (∀ t, s.phase t = .done → p < (call t).target layout ∨ (call t).target layout + layout.size ≤ p) → s.mem[p]? = mem[p]?

/-- Calls on an array of `n` elements do the same as exclusive ones in every
interleaving. -/
def NonExclusive : Prop :=
  ∀ (ι : Type) [DecidableEq ι] (call : ι → Call α) (mem : List UInt8) (n : ℕ), n * layout.size ≤ mem.length →
    (∀ t, (call t).index < n) → ∀ s, ReflTransGen (Step (swapping layout r call)) (initial mem) s →
      Serialized layout r call mem s ∧ OnlyTargets layout call mem s

variable {layout r} {op : α → α → α}

theorem exclusive_eq (h : Does r op) (call : Call α) (mem : List UInt8) :
    call.exclusive layout r mem = (span mem (call.target layout) layout.size).bind fun bytes =>
      write (layout.bytes (op (layout.value bytes) call.rhs)) (call.target layout) mem := by
  rw [Call.exclusive, h.fold_eq, h.apply_eq]
  simp only [ite_self]
  rfl

/-- Eight bytes leave nothing of the union unspecified. -/
theorem exclusive_of_atomic (h : Does r op) (hsize : layout.size = 8) {call : ι → Call α} {t : ι} {mem mem' : List UInt8}
    (hatomic : Atomic (swapping layout r call) t mem mem') : (call t).exclusive layout r mem = some mem' := by
  obtain ⟨oldval, newval, hread, ⟨rest, hrest, rfl⟩, hwrite⟩ := hatomic
  change span mem _ 8 = some oldval at hread
  change write _ _ mem = some mem' at hwrite
  have hold : oldval.take layout.size = oldval := by
    rw [hsize, ← length_span hread, List.take_length]
  rw [hsize, Nat.sub_self, List.length_eq_zero_iff] at hrest
  rw [hrest, List.append_nil, hold, h.swapped_eq] at hwrite
  rw [exclusive_eq h, hsize, hread, Option.bind_some, hwrite]

theorem exclusive_outside (h : Does r op) {call : Call α} {mem mem' : List UInt8}
    (hexclusive : call.exclusive layout r mem = some mem') {p : ℕ}
    (hp : p < call.target layout ∨ call.target layout + layout.size ≤ p) : mem'[p]? = mem[p]? := by
  rw [exclusive_eq h] at hexclusive
  obtain ⟨bytes, -, hwrite⟩ := Option.bind_eq_some_iff.mp hexclusive
  exact write_outside hwrite (layout.length_bytes _ ▸ hp)

theorem serialized_of_inOrder (h : Does r op) (hsize : layout.size = 8) {call : ι → Call α} {mem mem' : List UInt8}
    {order : List ι} (horder : InOrder (swapping layout r call) mem order mem') :
    order.foldlM (fun mem t => (call t).exclusive layout r mem) mem = some mem' := by
  induction horder with
  | nil => rfl
  | snoc _ hatomic ih =>
    rw [List.foldlM_append, ih]
    exact (Option.bind_fun_some _).trans (exclusive_of_atomic h hsize hatomic)

theorem foldlM_outside (h : Does r op) {call : ι → Call α} {order : List ι} {mem mem' : List UInt8}
    (hrun : order.foldlM (fun mem t => (call t).exclusive layout r mem) mem = some mem') {p : ℕ}
    (hp : ∀ t ∈ order, p < (call t).target layout ∨ (call t).target layout + layout.size ≤ p) : mem'[p]? = mem[p]? := by
  induction order generalizing mem with
  | nil =>
    cases hrun
    rfl
  | cons t order ih =>
    obtain ⟨mem1, hcall, hrest⟩ := Option.bind_eq_some_iff.mp hrun
    rw [ih hrest fun u hu => hp u (List.mem_cons_of_mem t hu), exclusive_outside h hcall (hp t List.mem_cons_self)]

/-- A narrow value beside others is swapped with what the union holds past it. -/
theorem not_onlyTargets (hsize : layout.size < 8) (hpos : 0 < layout.size) (a : α) : ¬ NonExclusive layout r := by
  intro hexclusive
  let call : Unit → Call α := fun _ => ⟨false, 0, a⟩
  let mem : List UInt8 := List.replicate 16 0
  have htarget : (call ()).target layout = 0 := Nat.zero_mul _
  let newval := layout.bytes (r.swapped (layout.value ((List.replicate 8 0).take layout.size)) a) ++
    List.replicate (8 - layout.size) 1
  have hlen : newval.length = 8 := by simp [newval, layout.length_bytes]; omega
  have hread : span mem 0 8 = some (List.replicate 8 0) := by decide
  obtain ⟨mem', hwrite, hw⟩ := @write_written _ 0 mem newval (by rw [hlen]; decide)
  have hatomic : Atomic (swapping layout r call) () mem mem' := by
    refine ⟨_, newval, ?_, ⟨_, by simp, rfl⟩, ?_⟩
    · change span mem ((call ()).target layout) 8 = _
      rw [htarget, hread]
    · change write newval ((call ()).target layout) mem = _
      rw [htarget, hwrite]
  obtain ⟨s, hrun, rfl⟩ := hatomic.run
  have hkept := (hexclusive Unit call mem 2 (by simp [mem]; omega) (by simp [call]) s hrun).2 layout.size
    fun _ _ => .inr (by rw [htarget, Nat.zero_add])
  have hclobbered := hw.written layout.size (by omega)
  rw [Nat.zero_add, hkept, List.getElem?_replicate, if_pos (by omega), List.getElem?_append_right (layout.length_bytes _).le,
    layout.length_bytes, Nat.sub_self, List.getElem?_replicate, if_pos (by omega)] at hclobbered
  cases hclobbered

theorem nonExclusive_iff (h : Does r op) (hpos : 0 < layout.size) (hle : layout.size ≤ 8) :
    NonExclusive layout r ↔ layout.size = 8 := by
  constructor
  · intro hexclusive
    by_contra hne
    exact not_onlyTargets (lt_of_le_of_ne hle hne) hpos r.identity hexclusive
  · intro hsize ι _ call mem n _ _ s hrun
    obtain ⟨order, hordered⟩ := run_ordered hrun
    have hfold := serialized_of_inOrder h hsize hordered.effect
    exact ⟨⟨order, hordered.nodup, hordered.done, hfold⟩,
      fun p hp => foldlM_outside h hfold fun t ht => hp t ((hordered.done t).mp ht)⟩

end

-- ---------------------------------------------------------------------------
-- The predefined reductions
-- ---------------------------------------------------------------------------

/-- A reduction is neutral at the values of `Neutral` and gives the result of the
lists of `Good`. -/
structure ComputesWhen {α : Type} (r : Reduction α) (IsResult : List α → α → Prop) (Neutral : α → Prop)
    (Good : List α → Prop) : Prop where
  neutral : ∀ x, NeutralAt r x ↔ Neutral x
  gives : ∀ l x, IsResult l x → (Gives r l x ↔ Good l)

section
variable {α : Type} [LinearOrder α]

def IsMin (l : List α) (m : α) : Prop := IsLeast {a | a ∈ l} m
def IsMax (l : List α) (m : α) : Prop := IsGreatest {a | a ∈ l} m

end

def IntType.IsSum {T : IntType} (l : List T.Value) (x : T.Value) : Prop := x.residue = (l.map Value.residue).sum
def IntType.IsProduct {T : IntType} (l : List T.Value) (x : T.Value) : Prop := x.residue = (l.map Value.residue).prod

theorem min_computes (T : IntType) : ComputesWhen T.min IsMin (fun _ => True) fun _ => True where
  neutral x := by simp only [neutralAt_min (min_does T), iff_true]; exact IntType.le_max x
  gives l m hm := by simp only [gives_min (min_does T) hm, iff_true]; exact IntType.le_max m

theorem max_computes (T : IntType) : ComputesWhen T.max IsMax (fun x => x = T.max_) fun l => T.max_ ∈ l where
  neutral x := by
    rw [neutralAt_max (max_does T)]
    exact ⟨fun hle => le_antisymm (IntType.le_max x) hle, fun heq => heq.ge⟩
  gives l m hm := by
    rw [gives_max (max_does T) hm]
    constructor
    · intro hle
      have heq : m = T.max_ := le_antisymm (IntType.le_max m) hle
      exact heq ▸ hm.1
    · intro hmem
      exact hm.2 hmem

theorem sum_computes (T : IntType) : ComputesWhen T.sum IntType.IsSum (fun _ => True) fun _ => True where
  neutral _ := iff_true_intro neutralAt_sum
  gives _ _ hx := iff_true_intro (gives_sum hx)

theorem product_computes (T : IntType) :
    ComputesWhen T.product IntType.IsProduct (fun x => x.residue = 0) fun l => (l.map IntType.Value.residue).prod = 0 where
  neutral _ := neutralAt_product
  gives _ _ hx := gives_product hx

theorem minReductionOp_computes : ComputesWhen MinReductionOp IsMin (fun _ => True) fun _ => True where
  neutral x := by simp only [neutralAt_min minReductionOp_does, iff_true]; exact (abs_le.mp x.2).2
  gives l m hm := by simp only [gives_min minReductionOp_does hm, iff_true]; exact (abs_le.mp m.2).2

theorem maxReductionOp_computes :
    ComputesWhen MaxReductionOp IsMax (fun x => Double.min_ ≤ x) fun l => ∃ x ∈ l, Double.min_ ≤ x where
  neutral _ := neutralAt_max maxReductionOp_does
  gives l m hm := by
    rw [gives_max maxReductionOp_does hm]
    constructor
    · intro hle
      exact ⟨m, hm.1, hle⟩
    · rintro ⟨x, hx, hle⟩
      exact hle.trans (hm.2 hx)

theorem nonExclusive_int (T : IntType) {r : Reduction T.Value} {op : T.Value → T.Value → T.Value} (h : Does r op) :
    NonExclusive T.layout r ↔ T.bytes = 8 :=
  nonExclusive_iff h T.bytes_pos T.bytes_le

theorem nonExclusive_double {r : Reduction Double} {op : Double → Double → Double} (h : Does r op) :
    NonExclusive Double.layout r :=
  (nonExclusive_iff h (by decide) (by decide)).mpr rfl

/-- Where the predefined reductions compute what they are named after. -/
theorem predefined_iff (T : IntType) {α : Type} (r : Reduction α) (rhs lhs : List α) (hlen : rhs.length = lhs.length) :
    ComputesWhen T.min IsMin (fun _ => True) (fun _ => True) ∧
    ComputesWhen T.max IsMax (fun x => x = T.max_) (fun l => T.max_ ∈ l) ∧
    ComputesWhen T.sum IntType.IsSum (fun _ => True) (fun _ => True) ∧
    ComputesWhen T.product IntType.IsProduct (fun x => x.residue = 0) (fun l => (l.map IntType.Value.residue).prod = 0) ∧
    ComputesWhen MinReductionOp IsMin (fun _ => True) (fun _ => True) ∧
    ComputesWhen MaxReductionOp IsMax (fun x => Double.min_ ≤ x) (fun l => ∃ x ∈ l, Double.min_ ≤ x) ∧
    mpi_wrapper r rhs lhs lhs.length = some (List.zipWith r.apply lhs rhs) ∧
    ((NonExclusive T.layout T.min ↔ T.bytes = 8) ∧ (NonExclusive T.layout T.max ↔ T.bytes = 8) ∧
      (NonExclusive T.layout T.sum ↔ T.bytes = 8) ∧ (NonExclusive T.layout T.product ↔ T.bytes = 8)) ∧
    NonExclusive Double.layout MinReductionOp ∧ NonExclusive Double.layout MaxReductionOp := by
  refine ⟨min_computes T, max_computes T, sum_computes T, product_computes T, minReductionOp_computes,
    maxReductionOp_computes, ?_, ⟨nonExclusive_int T (min_does T), nonExclusive_int T (max_does T),
      nonExclusive_int T (sum_does T), nonExclusive_int T (product_does T)⟩,
    nonExclusive_double minReductionOp_does, nonExclusive_double maxReductionOp_does⟩
  have hwrap := mpi_wrapper_eq r hlen.ge (le_refl lhs.length)
  rwa [List.take_length, ← hlen, List.take_length, hlen, List.drop_length, List.append_nil] at hwrap

theorem int32_bytes_pos : 0 < 4 := by decide

theorem int32_bytes_le : 4 ≤ 8 := by decide

/-- `int32_t`. -/
def int32 : IntType := ⟨4, true, int32_bytes_pos, int32_bytes_le⟩

theorem predefined_wrapped : mpi_wrapper int32.sum [⟨2#32⟩] [⟨3#32⟩] 1 = some [⟨5#32⟩] :=
  (predefined_iff int32 int32.sum [⟨2#32⟩] [⟨3#32⟩] rfl).2.2.2.2.2.2.1

/-- The greatest value is not the identity of `max`, zero not that of `product`, the
least positive value not that of `MaxReductionOp`, and four bytes are swapped with
the next four. -/
theorem not_predefined : ¬ Gives int32.max [⟨5#32⟩] ⟨5#32⟩ ∧ ¬ Gives int32.product [⟨2#32⟩, ⟨3#32⟩] ⟨6#32⟩ ∧
    ¬ Gives MaxReductionOp [⟨-1, by decide⟩] ⟨-1, by decide⟩ ∧ ¬ NonExclusive int32.layout int32.sum := by
  refine ⟨fun h => ?_, fun h => ?_, fun h => ?_, fun h => ?_⟩
  · exact absurd (h (.ofList [⟨5#32⟩]) (.refl _)) (by decide)
  · exact absurd (h (.ofList [⟨2#32⟩, ⟨3#32⟩]) (.refl _)) (by decide)
  · exact absurd (h (.ofList [⟨-1, by decide⟩]) (.refl _)) (by decide)
  · exact not_onlyTargets (by decide) (by decide) ⟨0⟩ h

end Flecsi.Execution.Reductions
