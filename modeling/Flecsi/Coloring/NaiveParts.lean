import Flecsi.Coloring.MakeDcrs
import Flecsi.Lib.UpperBound

/-!
# Naive distributions

The same rule for the sizes of parts stands in `subdivide`, in `make_dcrs` and in
`naive_coloring`, with ranks of type `int` compared to numbers of type `size_t`.
The owner of an id is found by halving.
-/

namespace Flecsi.Coloring.NaiveParts

open UpperBound

instance sizeOrder : LinearOrder UInt64 where
  le_refl _ := UInt64.le_refl _
  le_trans _ _ _ := UInt64.le_trans
  le_antisymm _ _ := UInt64.le_antisymm
  le_total _ _ := UInt64.le_total _ _
  lt_iff_le_not_ge a b := by
    rw [UInt64.lt_iff_toNat_lt, UInt64.le_iff_toNat_le, UInt64.le_iff_toNat_le]
    exact lt_iff_le_not_ge
  toDecidableLE := inferInstance

/-- The conversion of an `int` to `size_t`. -/
def toSize (x : Int32) : UInt64 := x.toInt64.toUInt64

/-- How many elements part `r` gets: the average number, and one more at the end. -/
def indices (quot rem npart r : UInt64) : UInt64 := quot + if r ≥ npart - rem then 1 else 0

/-- The boundaries that come out of one more part after another. -/
def boundaries (quot rem npart : UInt64) : List UInt64 :=
  (List.range npart.toNat).foldl (fun dist r => dist ++ [dist.getD r 0 + indices quot rem npart (.ofNat r)]) [0]

def subdivide (nelem npart : UInt64) : List UInt64 := boundaries (nelem / npart) (nelem % npart) npart

/-- `dcrs.distribution` in `make_dcrs`. -/
def distribution (num_entities : UInt64) (size : Int32) : List UInt64 :=
  boundaries (num_entities / toSize size) (num_entities % toSize size) (toSize size)

def naive_coloring (num_entities : UInt64) (size rank : Int32) : Finset UInt64 :=
  let quot := num_entities / toSize size
  let rem := num_entities % toSize size
  let init_indices := indices quot rem (toSize size) (toSize rank)
  let offset := (List.range (toSize rank).toNat).foldl
    (fun offset r => offset + indices quot rem (toSize size) (.ofNat r)) 0
  (List.range init_indices.toNat).foldl (fun primary i => insert (offset + .ofNat i) primary) ∅

/-- `std::distance` from the first boundary to the one found, less one. -/
def rank_owner [LinearOrder α] (distribution : List α) (i : α) : Option ℤ :=
  let it := upperBound i distribution
  if it ≠ distribution.length then some (it - 1) else none

-- ---------------------------------------------------------------------------
-- Machine arithmetic
-- ---------------------------------------------------------------------------

theorem toNat_toSize {x : Int32} (h : 0 ≤ x) : (toSize x).toNat = x.toInt.toNat := by
  have hint : 0 ≤ x.toInt := Int32.le_iff_toInt_le.mp h
  have hwide : x.toInt64.toInt = x.toInt := Int32.toInt_toInt64 x
  have hbits := BitVec.toInt_eq_toNat_cond x.toInt64.toBitVec
  rw [Int64.toInt_toBitVec] at hbits
  change x.toInt64.toBitVec.toNat = _
  split_ifs at hbits <;> omega

section
variable {nelem npart : UInt64}

theorem indices_eq (hpart : 0 < npart) {r : ℕ} (hr : r ≤ npart.toNat) :
    indices (nelem / npart) (nelem % npart) npart (.ofNat r) =
      .ofNat (nelem.toNat / npart.toNat + if r ≥ npart.toNat - nelem.toNat % npart.toNat then 1 else 0) := by
  have hpos : 0 < npart.toNat := UInt64.lt_iff_toNat_lt.mp hpart
  have hrem : (nelem % npart).toNat < npart.toNat := by
    rw [UInt64.toNat_mod]
    exact Nat.mod_lt _ hpos
  have hsub : (npart - nelem % npart).toNat = npart.toNat - nelem.toNat % npart.toNat := by
    rw [UInt64.toNat_sub_of_le _ _ (UInt64.le_iff_toNat_le.mpr hrem.le), UInt64.toNat_mod]
  have hplace : (UInt64.ofNat r).toNat = r := UInt64.toNat_ofNat_of_lt' (hr.trans_lt npart.toNat_lt)
  have hquot : UInt64.ofNat (nelem.toNat / npart.toNat) = nelem / npart := by
    rw [← UInt64.toNat_div, UInt64.ofNat_toNat]
  have hcond : UInt64.ofNat r ≥ npart - nelem % npart ↔ r ≥ npart.toNat - nelem.toNat % npart.toNat := by
    rw [ge_iff_le, UInt64.le_iff_toNat_le, hsub, hplace]
  simp only [indices, hcond, UInt64.ofNat_add, hquot]
  split_ifs <;> rfl

/-- No boundary is above the number of elements, so none wraps. -/
theorem subdivide_eq (hpart : 0 < npart) :
    subdivide nelem npart = (Coloring.subdivide nelem.toNat npart.toNat).map UInt64.ofNat := by
  have run : ∀ k ≤ npart.toNat, (List.range k).foldl (fun dist r =>
      dist ++ [dist.getD r 0 + indices (nelem / npart) (nelem % npart) npart (.ofNat r)]) [0] =
      ((List.range k).foldl (fun dist r => dist ++ [dist.getD r 0 + (nelem.toNat / npart.toNat +
        if r ≥ npart.toNat - nelem.toNat % npart.toNat then 1 else 0)]) [0]).map UInt64.ofNat := by
    intro k hk
    induction k with
    | zero => rfl
    | succ k ih =>
      rw [List.range_succ, List.foldl_append, ih (Nat.le_of_succ_le hk), List.foldl_append]
      simp only [List.foldl_cons, List.foldl_nil, List.map_append, List.map_cons, List.map_nil, UInt64.ofNat_add,
        indices_eq hpart (Nat.le_of_succ_le hk)]
      congr 3
      exact List.getD_map ..
  exact run _ le_rfl

end

-- ---------------------------------------------------------------------------
-- The parts
-- ---------------------------------------------------------------------------

/-- The first element of part `r`. -/
def start (nelem npart r : ℕ) : ℕ := r * (nelem / npart) + (r - (npart - nelem % npart))

theorem start_succ (nelem npart r : ℕ) :
    start nelem npart (r + 1) = start nelem npart r + (nelem / npart + if r ≥ npart - nelem % npart then 1 else 0) := by
  rw [start, start, Nat.succ_mul]
  split_ifs <;> omega

theorem start_last (nelem : ℕ) {npart : ℕ} (h : 0 < npart) : start nelem npart npart = nelem := by
  have hdiv := Nat.div_add_mod nelem npart
  have hmod := Nat.mod_lt nelem h
  rw [start]
  omega

theorem start_le (nelem : ℕ) {npart r : ℕ} (h : 0 < npart) (hr : r ≤ npart) : start nelem npart r ≤ nelem := by
  conv_rhs => rw [← start_last nelem h]
  rw [start, start]
  exact Nat.add_le_add (Nat.mul_le_mul_right _ hr) (Nat.sub_le_sub_right hr _)

section
variable {nelem npart : UInt64}

theorem length_subdivide (hpart : 0 < npart) : (subdivide nelem npart).length = npart.toNat + 1 := by
  rw [subdivide_eq hpart, Coloring.subdivide_eq, List.length_map, List.length_map, List.length_range]

theorem getElem?_subdivide (hpart : 0 < npart) {r : ℕ} (hr : r ≤ npart.toNat) :
    (subdivide nelem npart)[r]? = some (.ofNat (start nelem.toNat npart.toNat r)) := by
  rw [subdivide_eq hpart, Coloring.subdivide_eq, List.getElem?_map, List.getElem?_map,
    List.getElem?_range (Nat.lt_succ_of_le hr)]
  rfl

theorem toNat_start (hpart : 0 < npart) {r : ℕ} (hr : r ≤ npart.toNat) :
    (UInt64.ofNat (start nelem.toNat npart.toNat r)).toNat = start nelem.toNat npart.toNat r := by
  apply UInt64.toNat_ofNat_of_lt'
  exact (start_le _ (UInt64.lt_iff_toNat_lt.mp hpart) hr).trans_lt nelem.toNat_lt

theorem offset_eq (hpart : 0 < npart) {k : ℕ} (hk : k ≤ npart.toNat) :
    (List.range k).foldl (fun offset r => offset + indices (nelem / npart) (nelem % npart) npart (.ofNat r)) 0 =
      .ofNat (start nelem.toNat npart.toNat k) := by
  induction k with
  | zero =>
    rw [start, Nat.zero_mul, Nat.zero_sub]
    rfl
  | succ k ih =>
    rw [List.range_succ, List.foldl_append, ih (Nat.le_of_succ_le hk), start_succ, UInt64.ofNat_add]
    simp only [List.foldl_cons, List.foldl_nil, indices_eq hpart (Nat.le_of_succ_le hk)]

end

/-- The boundaries of `npart` parts of the ids below `nelem`, which differ in size by
one at most and are larger at the end. -/
structure EvenParts (d : List UInt64) (nelem : UInt64) (npart : ℕ) : Prop where
  length : d.length = npart + 1
  head : d[0]? = some 0
  last : d[npart]? = some nelem
  sorted : d.Pairwise (· ≤ ·)
  sizes : ∀ r r' a b a' b', r ≤ r' → d[r]? = some a → d[r + 1]? = some b → d[r']? = some a' → d[r' + 1]? = some b' →
    b.toNat - a.toNat ≤ b'.toNat - a'.toNat ∧ b'.toNat - a'.toNat ≤ b.toNat - a.toNat + 1

theorem start_mono (nelem npart : ℕ) {r r' : ℕ} (h : r ≤ r') : start nelem npart r ≤ start nelem npart r' :=
  Nat.add_le_add (Nat.mul_le_mul_right _ h) (Nat.sub_le_sub_right h _)

section
variable {nelem npart : UInt64}

/-- What is read of the boundaries. -/
theorem getElem?_subdivide_eq_some (hpart : 0 < npart) {r : ℕ} {a : UInt64} (h : (subdivide nelem npart)[r]? = some a) :
    r ≤ npart.toNat ∧ a.toNat = start nelem.toNat npart.toNat r := by
  obtain ⟨hlt, -⟩ := List.getElem?_eq_some_iff.mp h
  rw [length_subdivide hpart] at hlt
  have hr := Nat.le_of_lt_succ hlt
  rw [getElem?_subdivide hpart hr] at h
  exact ⟨hr, Option.some.inj h ▸ toNat_start hpart hr⟩

theorem subdivide_even (hpart : 0 < npart) : EvenParts (subdivide nelem npart) nelem npart.toNat where
  length := length_subdivide hpart
  head := by
    rw [getElem?_subdivide hpart (Nat.zero_le _), start, Nat.zero_mul, Nat.zero_sub]
    rfl
  last := by
    rw [getElem?_subdivide hpart le_rfl, start_last _ (UInt64.lt_iff_toNat_lt.mp hpart), UInt64.ofNat_toNat]
  sorted := by
    rw [List.pairwise_iff_getElem]
    intro i j hi hj hij
    have hlow := (getElem?_subdivide_eq_some hpart (List.getElem?_eq_getElem hi)).2
    have hhigh := (getElem?_subdivide_eq_some hpart (List.getElem?_eq_getElem hj)).2
    rw [UInt64.le_iff_toNat_le, hlow, hhigh]
    exact start_mono _ _ hij.le
  sizes r r' a b a' b' hle ha hb ha' hb' := by
    rw [(getElem?_subdivide_eq_some hpart ha).2, (getElem?_subdivide_eq_some hpart hb).2,
      (getElem?_subdivide_eq_some hpart ha').2, (getElem?_subdivide_eq_some hpart hb').2, start_succ, start_succ,
      Nat.add_sub_cancel_left, Nat.add_sub_cancel_left]
    split_ifs <;> omega

end

theorem mem_foldl_insert [DecidableEq β] (f : ℕ → β) (l : List ℕ) (s : Finset β) (x : β) :
    x ∈ l.foldl (fun s i => insert (f i) s) s ↔ x ∈ s ∨ ∃ i ∈ l, f i = x := by
  induction l generalizing s with
  | nil => simp
  | cons i l ih =>
    rw [List.foldl_cons, ih, Finset.mem_insert]
    simp only [List.exists_mem_cons_iff, @eq_comm _ x]
    tauto

theorem distribution_eq (nelem : UInt64) (size : Int32) : distribution nelem size = subdivide nelem (toSize size) := rfl

theorem toSize_rank {size rank : Int32} (hrank : 0 ≤ rank) (hlt : rank < size) :
    0 < toSize size ∧ (toSize rank).toNat < (toSize size).toNat := by
  have hint : rank.toInt < size.toInt := Int32.lt_iff_toInt_lt.mp hlt
  have hnonneg : 0 ≤ rank.toInt := Int32.le_iff_toInt_le.mp hrank
  have hpos : (0 : Int32) ≤ size := Int32.le_iff_toInt_le.mpr (hnonneg.trans hint.le)
  rw [UInt64.lt_iff_toNat_lt, toNat_toSize hpos, toNat_toSize hrank, UInt64.toNat_zero]
  omega

theorem toNat_indices {nelem npart : UInt64} (hpart : 0 < npart) {r : ℕ} (hr : r < npart.toNat) :
    (indices (nelem / npart) (nelem % npart) npart (.ofNat r)).toNat =
      start nelem.toNat npart.toNat (r + 1) - start nelem.toNat npart.toNat r := by
  have hle : start nelem.toNat npart.toNat (r + 1) ≤ nelem.toNat := start_le _ (UInt64.lt_iff_toNat_lt.mp hpart) hr
  have hlt : nelem.toNat < UInt64.size := nelem.toNat_lt
  rw [start_succ] at hle
  rw [indices_eq hpart hr.le, start_succ, Nat.add_sub_cancel_left]
  exact UInt64.toNat_ofNat_of_lt' (by omega)

theorem mem_naive_coloring {nelem : UInt64} {size rank : Int32} (hrank : 0 ≤ rank) (hlt : rank < size) (x : UInt64) :
    x ∈ naive_coloring nelem size rank ↔ ∃ a b, (subdivide nelem (toSize size))[(toSize rank).toNat]? = some a ∧
      (subdivide nelem (toSize size))[(toSize rank).toNat + 1]? = some b ∧ a ≤ x ∧ x < b := by
  obtain ⟨hpart, hr⟩ := toSize_rank hrank hlt
  have hcount : (indices (nelem / toSize size) (nelem % toSize size) (toSize size) (toSize rank)).toNat = _ :=
    UInt64.ofNat_toNat ▸ toNat_indices hpart hr
  have hlow := @getElem?_subdivide nelem _ hpart _ hr.le
  have hhigh := @getElem?_subdivide nelem _ hpart ((toSize rank).toNat + 1) hr
  have hstart := @toNat_start nelem _ hpart _ hr.le
  have hnext := @toNat_start nelem _ hpart ((toSize rank).toNat + 1) hr
  have hle : start nelem.toNat (toSize size).toNat ((toSize rank).toNat + 1) ≤ nelem.toNat :=
    start_le _ (UInt64.lt_iff_toNat_lt.mp hpart) hr
  have hbound : nelem.toNat < UInt64.size := nelem.toNat_lt
  rw [naive_coloring, mem_foldl_insert, offset_eq hpart hr.le, hcount]
  simp only [Finset.notMem_empty, false_or, List.mem_range]
  constructor
  · rintro ⟨i, hi, rfl⟩
    refine ⟨_, _, hlow, hhigh, ?_, ?_⟩
    · rw [UInt64.le_iff_toNat_le, ← UInt64.ofNat_add, hstart, UInt64.toNat_ofNat_of_lt' (by omega)]
      omega
    · rw [UInt64.lt_iff_toNat_lt, ← UInt64.ofNat_add, hnext, UInt64.toNat_ofNat_of_lt' (by omega)]
      omega
  · rintro ⟨a, b, ha, hb, hax, hxb⟩
    obtain rfl := Option.some.inj (hlow.symm.trans ha)
    obtain rfl := Option.some.inj (hhigh.symm.trans hb)
    rw [UInt64.le_iff_toNat_le, hstart] at hax
    rw [UInt64.lt_iff_toNat_lt, hnext] at hxb
    refine ⟨x.toNat - start nelem.toNat (toSize size).toNat (toSize rank).toNat, by omega, ?_⟩
    rw [← UInt64.ofNat_add, Nat.add_sub_cancel' hax, UInt64.ofNat_toNat]

-- ---------------------------------------------------------------------------
-- Owners
-- ---------------------------------------------------------------------------

/-- Part `p` has the id `i`. -/
def Owns [LinearOrder α] (d : List α) (i : α) (p : ℕ) : Prop := ∃ a b, d[p]? = some a ∧ d[p + 1]? = some b ∧ a ≤ i ∧ i < b

theorem rank_owner_eq [LinearOrder α] {d : List α} {first last i : α} (h : d.Pairwise (· ≤ ·)) (hfirst : d.head? = some first)
    (hlast : d.getLast? = some last) (hle : first ≤ i) (hlt : i < last) :
    ∃ p : ℕ, rank_owner d i = some (p : ℤ) ∧ Owns d i p ∧ ∀ q, Owns d i q → q = p := by
  obtain ⟨hlen, hbelow, habove⟩ := upperBound_splits h i
  have hfound : upperBound i d ≠ d.length := by
    intro heq
    rw [List.getLast?_eq_getElem?] at hlast
    exact absurd (hbelow _ _ hlast (by have := List.length_pos_of_mem (List.mem_of_getElem? hlast); omega)) hlt.not_ge
  have hnonzero : upperBound i d ≠ 0 := by
    intro heq
    rw [List.head?_eq_getElem?] at hfirst
    exact absurd (habove 0 _ hfirst heq.le) hle.not_gt
  obtain ⟨p, hp⟩ := Nat.exists_eq_succ_of_ne_zero hnonzero
  have hlow := List.getElem?_eq_getElem (show p < d.length by omega)
  have hhigh := List.getElem?_eq_getElem (show p + 1 < d.length by omega)
  refine ⟨p, ?_, ⟨_, _, hlow, hhigh, hbelow p _ hlow (by omega), habove (p + 1) _ hhigh hp.le⟩, ?_⟩
  · rw [rank_owner, if_pos hfound, hp]
    simp
  · rintro q ⟨a, b, ha, hb, hai, hib⟩
    have hq : ¬ upperBound i d ≤ q := fun hqle => absurd (habove q a ha hqle) hai.not_gt
    have hq' : ¬ q + 1 < upperBound i d := fun hqlt => absurd (hbelow (q + 1) b hb hqlt) hib.not_ge
    omega

/-- The three naive distributions agree, and owners are found in any distribution. -/
theorem naive_parts_agree :
    (∀ nelem npart : UInt64, 0 < npart → EvenParts (subdivide nelem npart) nelem npart.toNat) ∧
    (∀ (nelem : UInt64) (size : Int32), distribution nelem size = subdivide nelem (toSize size)) ∧
    (∀ (nelem : UInt64) (size rank : Int32), 0 ≤ rank → rank < size → ∀ x, x ∈ naive_coloring nelem size rank ↔
      Owns (subdivide nelem (toSize size)) x (toSize rank).toNat) ∧
    ∀ (α : Type) [LinearOrder α] (d : List α) (first last i : α), d.Pairwise (· ≤ ·) → d.head? = some first →
      d.getLast? = some last → first ≤ i → i < last →
      ∃ p : ℕ, rank_owner d i = some (p : ℤ) ∧ Owns d i p ∧ ∀ q, Owns d i q → q = p :=
  ⟨fun _ _ hpart => subdivide_even hpart, distribution_eq, fun _ _ _ hrank hlt x => mem_naive_coloring hrank hlt x,
    fun _ _ _ _ _ _ h hfirst hlast hle hlt => rank_owner_eq h hfirst hlast hle hlt⟩

/-- Two elements on three parts: the first part is empty. -/
theorem naive_parts_agree_three : subdivide 2 3 = [0, 0, 1, 2] ∧ EvenParts (subdivide 2 3) 2 3 ∧
    ∃ p : ℕ, rank_owner (subdivide 2 3) 0 = some (p : ℤ) ∧ Owns (subdivide 2 3) 0 p ∧
      ∀ q, Owns (subdivide 2 3) 0 q → q = p :=
  ⟨by decide, naive_parts_agree.1 2 3 (by decide),
    naive_parts_agree.2.2.2 UInt64 (subdivide 2 3) 0 2 0 (by decide) (by decide) (by decide) (by decide) (by decide)⟩

end Flecsi.Coloring.NaiveParts
