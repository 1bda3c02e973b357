import Mathlib

/-!
# Bit fields

A word is put together from components shifted to disjoint positions. A shift
and a mask give one of them back.
-/

namespace BitFields

variable {w k j : ℕ}

/-- The mask of the low `k` bits. -/
def lowMask (w k : ℕ) : BitVec w := BitVec.ofNat w (2 ^ k - 1)

theorem getLsbD_lowMask (i : ℕ) : (lowMask w k).getLsbD i = (decide (i < w) && decide (i < k)) := by
  rw [lowMask, BitVec.getLsbD_ofNat, Nat.testBit_two_pow_sub_one]

theorem range_or (a b mask : BitVec w) (s : ℕ) : (a ||| b) >>> s &&& mask = (a >>> s &&& mask) ||| (b >>> s &&& mask) := by
  ext i hi
  simp [Bool.and_or_distrib_right]

/-- The low bits of what was shifted to the range itself. -/
theorem range_self (x : BitVec w) {s : ℕ} (h : s + k ≤ w) :
    (x <<< s) >>> s &&& lowMask w k = (x.setWidth k).setWidth w := by
  apply BitVec.eq_of_getLsbD_eq
  intro i hi
  have hshift : s + i < w ∨ ¬i < k := by omega
  simp [getLsbD_lowMask]
  grind

/-- What was shifted above the range is not seen in it. -/
theorem range_above (x : BitVec w) {s t : ℕ} (h : s + k ≤ t) : (x <<< t) >>> s &&& lowMask w k = 0#w := by
  apply BitVec.eq_of_getLsbD_eq
  intro i hi
  simp [getLsbD_lowMask]
  grind

/-- A component that ends below the range is not seen in it. -/
theorem range_below (x : BitVec j) (mask : BitVec w) {s t : ℕ} (h : t + j ≤ s) :
    (x.setWidth w <<< t) >>> s &&& mask = 0#w := by
  apply BitVec.eq_of_getLsbD_eq
  intro i hi
  have hout : x.getLsbD (s + i - t) = false := BitVec.getLsbD_of_ge x _ (by omega)
  simp [hout]

/-- A component is given back. -/
theorem range_component (x : BitVec k) {s : ℕ} (h : s + k ≤ w) :
    (x.setWidth w <<< s) >>> s &&& lowMask w k = x.setWidth w := by
  have hk : k ≤ w := (Nat.le_add_left k s).trans h
  rw [range_self _ h, BitVec.setWidth_setWidth_of_le _ hk, BitVec.setWidth_eq]

/-- The component at the bottom of the word is not shifted. -/
theorem range_bottom (x : BitVec k) (h : k ≤ w) : x.setWidth w >>> 0 &&& lowMask w k = x.setWidth w := by
  have hzero := range_component x (s := 0) (by omega : 0 + k ≤ w)
  rwa [BitVec.shiftLeft_zero] at hzero

theorem range_bottom_below (x : BitVec j) (mask : BitVec w) {s : ℕ} (h : j ≤ s) : x.setWidth w >>> s &&& mask = 0#w := by
  have hzero := range_below x mask (t := 0) (by omega : 0 + j ≤ s)
  rwa [BitVec.shiftLeft_zero] at hzero

theorem setWidth_inj {x y : BitVec k} (h : k ≤ w) : x.setWidth w = y.setWidth w ↔ x = y := by
  constructor
  · intro heq
    have hback := congrArg (BitVec.setWidth k) heq
    rwa [BitVec.setWidth_setWidth_of_le _ h, BitVec.setWidth_setWidth_of_le _ h, BitVec.setWidth_eq, BitVec.setWidth_eq] at hback
  · exact congrArg _

-- ---------------------------------------------------------------------------
-- Words as numbers
-- ---------------------------------------------------------------------------

/-- A component above all others adds its multiple. -/
theorem toNat_or_shiftLeft {a b : BitVec w} {s : ℕ} (ha : a.toNat < 2 ^ s) (hb : b.toNat * 2 ^ s < 2 ^ w) :
    (a ||| b <<< s).toNat = a.toNat + b.toNat * 2 ^ s := by
  rw [BitVec.toNat_or, BitVec.toNat_shiftLeft, Nat.shiftLeft_eq, Nat.mod_eq_of_lt hb, Nat.or_comm, ← Nat.shiftLeft_eq,
    ← Nat.shiftLeft_add_eq_or_of_lt ha, Nat.shiftLeft_eq, Nat.add_comm]

/-- Numbers are compared by their upper digits first. -/
theorem add_mul_lt {m a b x y : ℕ} (ha : a < m) (hb : b < m) : a + x * m < b + y * m ↔ x < y ∨ x = y ∧ a < b := by
  obtain hlt | rfl | hgt := Nat.lt_trichotomy x y
  · have hle := Nat.mul_le_mul_right m (Nat.succ_le_of_lt hlt)
    rw [Nat.succ_mul] at hle
    simp only [hlt, true_or, iff_true]
    omega
  · simp
  · have hle := Nat.mul_le_mul_right m (Nat.succ_le_of_lt hgt)
    rw [Nat.succ_mul] at hle
    omega

theorem add_mul_inj {m a b x y : ℕ} (ha : a < m) (hb : b < m) : a + x * m = b + y * m ↔ x = y ∧ a = b := by
  have hlt := @add_mul_lt m a b x y ha hb
  have hgt := @add_mul_lt m b a y x hb ha
  omega

end BitFields
