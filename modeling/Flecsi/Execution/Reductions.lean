import Flecsi.Lib.ArrayShift
import Flecsi.Lib.ByteCast
import Flecsi.Lib.CompareSwap
import Flecsi.Lib.ReductionTrees

/-!
# Predefined reductions

Minimum, maximum, sum and product of integers for MPI, and minimum and maximum of
doubles for Legion. A reduction starts from its identity, applies values and
folds partial results, in an exclusive way or by compare and swap on eight bytes.
-/

namespace Flecsi.Execution.Reductions

open ArrayShift ByteCast PackedBuffer ReductionTrees

-- ---------------------------------------------------------------------------
-- Values
-- ---------------------------------------------------------------------------

/-- An integer type of at most eight bytes. -/
structure IntType where
  bytes : ℕ
  signed : Bool
  bytes_pos : 0 < bytes
  bytes_le : bytes ≤ 8

namespace IntType

def width (T : IntType) : ℕ := 8 * T.bytes

structure Value (T : IntType) where
  bits : BitVec T.width
  deriving DecidableEq

variable {T : IntType}

/-- The number that the bits stand for. -/
def Value.toInt (x : T.Value) : ℤ := if T.signed then x.bits.toInt else x.bits.toNat

theorem Value.toInt_injective : Function.Injective (Value.toInt : T.Value → ℤ) := by
  intro x y h
  obtain ⟨x⟩ := x
  obtain ⟨y⟩ := y
  congr 1
  rw [Value.toInt, Value.toInt] at h
  split_ifs at h
  · exact BitVec.toInt_inj.mp h
  · exact BitVec.toNat_inj.mp (Int.ofNat.inj h)

instance : LinearOrder T.Value := LinearOrder.lift' Value.toInt Value.toInt_injective

/-- `std::numeric_limits<T>::max()`. -/
def max_ (T : IntType) : T.Value := ⟨if T.signed then BitVec.intMax T.width else BitVec.allOnes T.width⟩

theorem le_max (x : T.Value) : x ≤ T.max_ := by
  change x.toInt ≤ T.max_.toInt
  rw [Value.toInt, Value.toInt, max_]
  split_ifs
  · rw [BitVec.toInt_intMax]
    exact BitVec.toInt_le
  · have hlt := x.bits.isLt
    rw [BitVec.toNat_allOnes]
    exact Int.ofNat_le.mpr (by omega)

theorem toNat_lt (x : T.Value) : x.bits.toNat < 256 ^ T.bytes := by
  have hpow : 256 ^ T.bytes = 2 ^ T.width := by
    rw [width, pow_mul]
    norm_num
  exact hpow ▸ x.bits.isLt

/-- The bytes of a value, the lowest first. -/
def layout (T : IntType) : Layout T.Value where
  size := T.bytes
  bytes x := toBytes T.bytes x.bits.toNat
  value bytes := ⟨BitVec.ofNat _ (fromBytes bytes)⟩
  length_bytes _ := length_toBytes ..
  value_bytes x := by
    rw [fromBytes_toBytes, Nat.mod_eq_of_lt (toNat_lt x), BitVec.ofNat_toNat, BitVec.setWidth_eq]

end IntType

/-- A finite value of type `double`, by its place among them: the bits of a value
that is not negative, and the negated bits of the magnitude of one that is. -/
abbrev Double := {k : ℤ // |k| ≤ 0x7FEFFFFFFFFFFFFF}

namespace Double

/-- `std::numeric_limits<double>::max()` and `min()`, the least positive normal
value. -/
def max_ : Double := ⟨0x7FEFFFFFFFFFFFFF, by decide⟩
def min_ : Double := ⟨0x0010000000000000, by decide⟩

/-- The bits of a value as a number. -/
def toBits (x : Double) : ℕ := if 0 ≤ x.1 then x.1.toNat else 2 ^ 63 + (-x.1).toNat

def ofBits (bits : ℕ) : Double :=
  let k : ℤ := if bits < 2 ^ 63 then bits else 2 ^ 63 - bits
  if h : |k| ≤ 0x7FEFFFFFFFFFFFFF then ⟨k, h⟩ else ⟨0, by decide⟩

theorem ofBits_toBits (x : Double) : ofBits x.toBits = x ∧ x.toBits < 256 ^ 8 := by
  have hbounds := abs_le.mp x.2
  cases Int.le_total 0 x.1 with
  | inl hnonneg =>
    have hbits : x.toBits = x.1.toNat := if_pos hnonneg
    have hlt : x.1.toNat < 2 ^ 63 := by omega
    have hplace : (x.1.toNat : ℤ) = x.1 := Int.toNat_of_nonneg hnonneg
    refine ⟨?_, by omega⟩
    simp only [ofBits, hbits, hlt, hplace, x.2, if_true, dif_pos]
  | inr hnonpos =>
    cases eq_or_lt_of_le hnonpos with
    | inl hzero =>
      obtain rfl : x = ⟨0, by decide⟩ := Subtype.ext hzero
      decide
    | inr hneg =>
      have hbits : x.toBits = 2 ^ 63 + (-x.1).toNat := if_neg (by omega)
      have hge : ¬ 2 ^ 63 + (-x.1).toNat < 2 ^ 63 := by omega
      have hplace : (2 ^ 63 - (2 ^ 63 + (-x.1).toNat : ℕ) : ℤ) = x.1 := by omega
      refine ⟨?_, by omega⟩
      simp only [ofBits, hbits, hge, hplace, x.2, if_false, dif_pos]

def layout : Layout Double where
  size := 8
  bytes x := toBytes 8 x.toBits
  value bytes := ofBits (fromBytes bytes)
  length_bytes _ := length_toBytes ..
  value_bytes x := by
    rw [fromBytes_toBytes, Nat.mod_eq_of_lt (ofBits_toBits x).2, (ofBits_toBits x).1]

/-- What a value that is not negative amounts to, in units of `2 ^ -1074`: the
mantissa, with the leading bit and at its exponent for normal values. -/
def magnitude (k : ℕ) : ℕ :=
  if k / 2 ^ 52 = 0 then k % 2 ^ 52 else (2 ^ 52 + k % 2 ^ 52) * 2 ^ (k / 2 ^ 52 - 1)

/-- The order of the places is that of the values. -/
theorem magnitude_strictMono : StrictMono magnitude := by
  apply strictMono_nat_of_lt_succ
  intro k
  obtain ⟨hlt, hk⟩ : k % 2 ^ 52 < 2 ^ 52 ∧ 2 ^ 52 * (k / 2 ^ 52) + k % 2 ^ 52 = k :=
    ⟨Nat.mod_lt _ (by norm_num), Nat.div_add_mod ..⟩
  rw [magnitude, magnitude]
  generalize k / 2 ^ 52 = e at hk
  generalize k % 2 ^ 52 = m at hk hlt
  cases Nat.eq_or_lt_of_le (Nat.succ_le_of_lt hlt) with
  | inl heq =>
    have hdiv : (k + 1) / 2 ^ 52 = e + 1 := by omega
    have hmod : (k + 1) % 2 ^ 52 = 0 := by omega
    rw [hdiv, hmod, if_neg (Nat.succ_ne_zero e), Nat.add_zero, Nat.add_sub_cancel]
    cases e with
    | zero =>
      rw [if_pos rfl]
      omega
    | succ e =>
      rw [if_neg (Nat.succ_ne_zero e), Nat.add_sub_cancel, @Nat.pow_succ' 2 e, ← Nat.mul_assoc]
      exact Nat.mul_lt_mul_of_pos_right (by omega) (Nat.two_pow_pos e)
  | inr hlt =>
    have hdiv : (k + 1) / 2 ^ 52 = e := by omega
    have hmod : (k + 1) % 2 ^ 52 = m + 1 := by omega
    rw [hdiv, hmod]
    split_ifs
    · exact Nat.lt_succ_self m
    · exact Nat.mul_lt_mul_of_pos_right (by omega) (Nat.two_pow_pos _)

/-- What a value amounts to. -/
def value (x : Double) : ℤ := magnitude x.1.toNat - magnitude (-x.1).toNat

theorem value_strictMono : StrictMono value := by
  intro x y hlt
  change x.1 < y.1 at hlt
  rw [value, value]
  cases lt_or_ge 0 y.1 with
  | inl hpos =>
    have hup : magnitude x.1.toNat < magnitude y.1.toNat := magnitude_strictMono (by omega)
    have hdown : magnitude (-y.1).toNat ≤ magnitude (-x.1).toNat := magnitude_strictMono.monotone (by omega)
    omega
  | inr hneg =>
    have hup : magnitude x.1.toNat ≤ magnitude y.1.toNat := magnitude_strictMono.monotone (by omega)
    have hdown : magnitude (-y.1).toNat < magnitude (-x.1).toNat := magnitude_strictMono (by omega)
    omega

end Double

-- ---------------------------------------------------------------------------
-- The reductions
-- ---------------------------------------------------------------------------

/-- `std::min` and `std::max`: the first of two equal values. -/
def stdMin [LinearOrder α] (a b : α) : α := if b < a then b else a
def stdMax [LinearOrder α] (a b : α) : α := if a < b then b else a

/-- What a reduction starts with, what its exclusive functions make of the left
hand side, and what its other ones swap in for an old value. -/
structure Reduction (α : Type*) where
  identity : α
  apply : α → α → α
  fold : α → α → α
  swapped : α → α → α

namespace IntType

variable (T : IntType)

def add (a b : T.Value) : T.Value := ⟨a.bits + b.bits⟩
def mul (a b : T.Value) : T.Value := ⟨a.bits * b.bits⟩

def min : Reduction T.Value where
  identity := T.max_
  apply lhs rhs := if lhs < rhs then lhs else rhs
  fold := stdMin
  swapped := stdMin

def max : Reduction T.Value where
  identity := T.max_
  apply lhs rhs := if lhs > rhs then lhs else rhs
  fold := stdMax
  swapped := stdMax

def sum : Reduction T.Value where
  identity := ⟨0⟩
  apply := T.add
  fold := T.add
  swapped := T.add

def product : Reduction T.Value where
  identity := ⟨0⟩
  apply := T.mul
  fold := T.mul
  swapped := T.mul

end IntType

def MaxReductionOp : Reduction Double where
  identity := Double.min_
  apply := stdMax
  fold := stdMax
  swapped := stdMax

def MinReductionOp : Reduction Double where
  identity := Double.max_
  apply := stdMin
  fold := stdMin
  swapped := stdMin

section
variable {α : Type*} (r : Reduction α)

/-- Starting with the identity changes nothing for `x`. -/
def NeutralAt (x : α) : Prop :=
  (r.apply r.identity x = x ∧ r.apply x r.identity = x) ∧ r.fold r.identity x = x ∧ r.fold x r.identity = x

/-- The values come out as `x` in any order and any grouping. -/
def Gives (l : List α) (x : α) : Prop :=
  ∀ c : Combination α, c.values.Perm l → c.eval r.identity r.apply r.fold = x

/-- All functions of a reduction do one operation. -/
structure Does (op : α → α → α) : Prop where
  apply_eq : r.apply = op
  fold_eq : r.fold = op
  swapped_eq : r.swapped = op
  assoc : Std.Associative op
  comm : Std.Commutative op
  idem : op r.identity r.identity = r.identity

variable {r} {op : α → α → α}

theorem Does.neutralAt_iff (h : Does r op) {x : α} : NeutralAt r x ↔ op r.identity x = x := by
  have hcomm : op x r.identity = op r.identity x := h.comm.comm ..
  rw [NeutralAt, h.apply_eq, h.fold_eq, hcomm, and_self, and_self]

theorem Does.gives_iff (h : Does r op) {l : List α} {x : α} : Gives r l x ↔ l.foldl op r.identity = x := by
  have hassoc := h.assoc
  have hcomm := h.comm
  rw [Gives, h.apply_eq, h.fold_eq]
  constructor
  · intro hgives
    rw [← hgives (.ofList l) (by rw [Combination.values_ofList]), Combination.eval_eq h.idem, Combination.values_ofList]
  · intro hfold c hperm
    rw [Combination.eval_perm h.idem hperm, hfold]

end

section
variable {α : Type*} [LinearOrder α] {r : Reduction α} {l : List α} {x m : α}

theorem stdMin_eq : (stdMin : α → α → α) = min := by
  funext a b
  rw [stdMin, min_comm, min_def_lt]

theorem stdMax_eq : (stdMax : α → α → α) = max := by
  funext a b
  rw [stdMax, max_def_lt]

theorem Does.of_min (happly : r.apply = min) (hfold : r.fold = stdMin) (hswapped : r.swapped = stdMin) : Does r min where
  apply_eq := happly
  fold_eq := hfold.trans stdMin_eq
  swapped_eq := hswapped.trans stdMin_eq
  assoc := ⟨min_assoc⟩
  comm := ⟨min_comm⟩
  idem := min_self _

theorem Does.of_max (happly : r.apply = max) (hfold : r.fold = stdMax) (hswapped : r.swapped = stdMax) : Does r max where
  apply_eq := happly
  fold_eq := hfold.trans stdMax_eq
  swapped_eq := hswapped.trans stdMax_eq
  assoc := ⟨max_assoc⟩
  comm := ⟨max_comm⟩
  idem := max_self _

theorem neutralAt_min (h : Does r min) : NeutralAt r x ↔ x ≤ r.identity := by
  rw [h.neutralAt_iff, min_eq_right_iff]

theorem neutralAt_max (h : Does r max) : NeutralAt r x ↔ r.identity ≤ x := by
  rw [h.neutralAt_iff, max_eq_right_iff]

theorem gives_min (h : Does r min) (hm : IsLeast {a | a ∈ l} m) : Gives r l m ↔ m ≤ r.identity := by
  rw [h.gives_iff, foldl_min hm, min_eq_right_iff]

theorem gives_max (h : Does r max) (hm : IsGreatest {a | a ∈ l} m) : Gives r l m ↔ r.identity ≤ m := by
  rw [h.gives_iff, foldl_max hm, max_eq_right_iff]

end

section
variable (T : IntType)

theorem min_does : Does T.min min := by
  apply Does.of_min _ rfl rfl
  funext a b
  exact (min_def_lt a b).symm

theorem max_does : Does T.max max := by
  apply Does.of_max _ rfl rfl
  funext a b
  rw [max_comm, max_def_lt]
  rfl

theorem sum_does : Does T.sum T.add where
  apply_eq := rfl
  fold_eq := rfl
  swapped_eq := rfl
  assoc := ⟨fun _ _ _ => congrArg IntType.Value.mk (BitVec.add_assoc ..)⟩
  comm := ⟨fun _ _ => congrArg IntType.Value.mk (BitVec.add_comm ..)⟩
  idem := congrArg IntType.Value.mk (BitVec.add_zero _)

theorem product_does : Does T.product T.mul where
  apply_eq := rfl
  fold_eq := rfl
  swapped_eq := rfl
  assoc := ⟨fun _ _ _ => congrArg IntType.Value.mk (BitVec.mul_assoc ..)⟩
  comm := ⟨fun _ _ => congrArg IntType.Value.mk (BitVec.mul_comm ..)⟩
  idem := congrArg IntType.Value.mk BitVec.mul_zero

theorem maxReductionOp_does : Does MaxReductionOp max := .of_max stdMax_eq rfl rfl

theorem minReductionOp_does : Does MinReductionOp min := .of_min stdMin_eq rfl rfl

end

-- ---------------------------------------------------------------------------
-- Arithmetic modulo the width
-- ---------------------------------------------------------------------------

namespace IntType

variable {T : IntType}

def Value.residue (x : T.Value) : ZMod (2 ^ T.width) := (x.toInt : ZMod (2 ^ T.width))

theorem residue_eq (x : T.Value) : x.residue = (x.bits.toNat : ZMod (2 ^ T.width)) := by
  rw [Value.residue, Value.toInt]
  split_ifs
  · rw [BitVec.toInt_eq_toNat_bmod, ← ZMod.intCast_mod, Int.bmod_emod, ZMod.intCast_mod, Int.cast_natCast]
  · exact Int.cast_natCast _

theorem residue_injective : Function.Injective (Value.residue : T.Value → ZMod (2 ^ T.width)) := by
  intro x y h
  rw [residue_eq, residue_eq, ZMod.natCast_eq_natCast_iff', Nat.mod_eq_of_lt x.bits.isLt, Nat.mod_eq_of_lt y.bits.isLt] at h
  obtain ⟨x⟩ := x
  obtain ⟨y⟩ := y
  exact congrArg Value.mk (BitVec.toNat_inj.mp h)

theorem residue_add (a b : T.Value) : (T.add a b).residue = a.residue + b.residue := by
  rw [residue_eq, residue_eq, residue_eq, add, BitVec.toNat_add, ZMod.natCast_mod, Nat.cast_add]

theorem residue_mul (a b : T.Value) : (T.mul a b).residue = a.residue * b.residue := by
  rw [residue_eq, residue_eq, residue_eq, mul, BitVec.toNat_mul, ZMod.natCast_mod, Nat.cast_mul]

theorem residue_zero : (⟨0⟩ : T.Value).residue = 0 := by
  rw [residue_eq, BitVec.ofNat_eq_ofNat, BitVec.toNat_ofNat, Nat.zero_mod, Nat.cast_zero]

theorem residue_foldl_add (l : List T.Value) (e : T.Value) :
    (l.foldl T.add e).residue = e.residue + (l.map Value.residue).sum := by
  induction l generalizing e with
  | nil => exact (add_zero _).symm
  | cons a l ih => rw [List.foldl_cons, ih, residue_add, List.map_cons, List.sum_cons, add_assoc]

theorem residue_foldl_mul (l : List T.Value) (e : T.Value) :
    (l.foldl T.mul e).residue = e.residue * (l.map Value.residue).prod := by
  induction l generalizing e with
  | nil => exact (mul_one _).symm
  | cons a l ih => rw [List.foldl_cons, ih, residue_mul, List.map_cons, List.prod_cons, mul_assoc]

end IntType

section
variable {T : IntType} {l : List T.Value} {x : T.Value}

theorem neutralAt_sum : NeutralAt T.sum x := by
  rw [(sum_does T).neutralAt_iff]
  exact congrArg IntType.Value.mk (BitVec.zero_add _)

theorem neutralAt_product : NeutralAt T.product x ↔ x.residue = 0 := by
  rw [(product_does T).neutralAt_iff, ← IntType.residue_injective.eq_iff, IntType.residue_mul]
  change (⟨0⟩ : T.Value).residue * _ = _ ↔ _
  rw [IntType.residue_zero, zero_mul, eq_comm]

theorem gives_sum (hx : x.residue = (l.map IntType.Value.residue).sum) : Gives T.sum l x := by
  rw [(sum_does T).gives_iff, ← IntType.residue_injective.eq_iff, IntType.residue_foldl_add, hx]
  change (⟨0⟩ : T.Value).residue + _ = _
  rw [IntType.residue_zero, zero_add]

theorem gives_product (hx : x.residue = (l.map IntType.Value.residue).prod) :
    Gives T.product l x ↔ (l.map IntType.Value.residue).prod = 0 := by
  rw [(product_does T).gives_iff, ← IntType.residue_injective.eq_iff, IntType.residue_foldl_mul, hx, eq_comm]
  change _ = (⟨0⟩ : T.Value).residue * _ ↔ _
  rw [IntType.residue_zero, zero_mul]

end

end Flecsi.Execution.Reductions
