import Flecsi.Lib.PackedBuffer

/-!
# Words as bytes

Naturals written as a fixed number of bytes, the lowest first, and lists of
64-bit words copied into and out of byte buffers.
-/

namespace ByteCast

open PackedBuffer

def toBytes : ℕ → ℕ → List UInt8
  | 0, _ => []
  | width + 1, x => UInt8.ofNat x :: toBytes width (x / 256)

def fromBytes (bytes : List UInt8) : ℕ := bytes.foldr (fun b x => b.toNat + 256 * x) 0

@[simp] theorem length_toBytes (width x : ℕ) : (toBytes width x).length = width := by
  induction width generalizing x with
  | zero => rfl
  | succ width ih => rw [toBytes, List.length_cons, ih]

/-- What the bytes hold of a number. -/
theorem fromBytes_toBytes (width x : ℕ) : fromBytes (toBytes width x) = x % 256 ^ width := by
  induction width generalizing x with
  | zero => rw [Nat.pow_zero, Nat.mod_one]; rfl
  | succ width ih =>
    have hhead : (UInt8.ofNat x).toNat = x % 256 := UInt8.toNat_ofNat'
    have hcons : fromBytes (toBytes (width + 1) x) =
        (UInt8.ofNat x).toNat + 256 * fromBytes (toBytes width (x / 256)) := rfl
    rw [hcons, ih, hhead, Nat.pow_succ', Nat.mod_mul]

/-- The bytes of a list of 64-bit words. -/
def castWords (xs : List ℕ) : List UInt8 := xs.flatMap (toBytes 8)

def wordsOf : ℕ → List UInt8 → List ℕ
  | 0, _ => []
  | n + 1, bytes => fromBytes (bytes.take 8) :: wordsOf n (bytes.drop 8)

/-- `n` words copied out of a buffer at position `i`. -/
def uncastWords (buf : List UInt8) (i n : ℕ) : Option (List ℕ) := do
  let bytes ← span buf i (8 * n)
  some (wordsOf n bytes)

theorem length_castWords (xs : List ℕ) : (castWords xs).length = 8 * xs.length := by
  induction xs with
  | nil => rfl
  | cons x xs ih =>
    rw [castWords, List.flatMap_cons, ← castWords, List.length_append, ih, length_toBytes,
      List.length_cons, Nat.mul_succ, Nat.add_comm]

theorem wordsOf_castWords {xs : List ℕ} (h : ∀ x ∈ xs, x < 2 ^ 64) :
    wordsOf xs.length (castWords xs) = xs := by
  induction xs with
  | nil => rfl
  | cons x xs ih =>
    have hlen : (toBytes 8 x).length = 8 := length_toBytes 8 x
    have htake : (toBytes 8 x ++ castWords xs).take 8 = toBytes 8 x :=
      List.take_left' hlen
    have hdrop : (toBytes 8 x ++ castWords xs).drop 8 = castWords xs :=
      List.drop_left' hlen
    have hx : x < 256 ^ 8 := (h x (by simp)).trans_eq (by norm_num)
    rw [castWords, List.flatMap_cons, ← castWords, List.length_cons, wordsOf, htake, hdrop,
      ih fun y hy => h y (by simp [hy]), fromBytes_toBytes, Nat.mod_eq_of_lt hx]

theorem uncastWords_eq {buf : List UInt8} {xs : List ℕ} (hbuf : castWords xs <+: buf.drop i) :
    uncastWords buf i xs.length = some (wordsOf xs.length (castWords xs)) := by
  rw [uncastWords, ← length_castWords, span_eq hbuf]
  rfl

theorem uncastWords_castWords {buf : List UInt8} {xs : List ℕ} (h : ∀ x ∈ xs, x < 2 ^ 64)
    (hbuf : castWords xs <+: buf.drop i) : uncastWords buf i xs.length = some xs := by
  rw [uncastWords_eq hbuf, wordsOf_castWords h]

-- ---------------------------------------------------------------------------
-- Objects as bytes
-- ---------------------------------------------------------------------------

/-- A type whose values are copied as their bytes. -/
structure Layout (α : Type*) where
  size : ℕ
  bytes : α → List UInt8
  value : List UInt8 → α
  length_bytes : ∀ a, (bytes a).length = size
  value_bytes : ∀ a, value (bytes a) = a

namespace Layout

variable {α : Type*} (layout : Layout α)

def pack (values : List α) : List UInt8 := values.flatMap layout.bytes

/-- The first `n` objects. -/
def unpack : ℕ → List UInt8 → List α
  | 0, _ => []
  | n + 1, bytes => layout.value (bytes.take layout.size) :: unpack n (bytes.drop layout.size)

@[simp] theorem pack_nil : layout.pack [] = [] := rfl

@[simp] theorem pack_cons (a : α) (values : List α) : layout.pack (a :: values) = layout.bytes a ++ layout.pack values :=
  List.flatMap_cons

theorem length_pack (values : List α) : (layout.pack values).length = values.length * layout.size := by
  induction values with
  | nil => rw [pack_nil, List.length_nil, List.length_nil, Nat.zero_mul]
  | cons a values ih =>
    rw [pack_cons, List.length_append, layout.length_bytes, ih, List.length_cons, Nat.succ_mul, Nat.add_comm]

theorem unpack_pack (values : List α) (rest : List UInt8) :
    layout.unpack values.length (layout.pack values ++ rest) = values := by
  induction values with
  | nil => rfl
  | cons a values ih =>
    rw [pack_cons, List.length_cons, unpack, List.append_assoc, List.take_left' (layout.length_bytes a),
      List.drop_left' (layout.length_bytes a), layout.value_bytes, ih]

theorem pack_take (values : List α) (n : ℕ) : layout.pack (values.take n) = (layout.pack values).take (n * layout.size) := by
  induction n generalizing values with
  | zero => rw [List.take_zero, Nat.zero_mul, List.take_zero, pack_nil]
  | succ n ih =>
    cases values with
    | nil => rw [List.take_nil, pack_nil, List.take_nil]
    | cons a values =>
      have hlen := layout.length_bytes a
      have hle : (layout.bytes a).length ≤ n * layout.size + layout.size := by omega
      rw [List.take_succ_cons, pack_cons, pack_cons, ih, Nat.succ_mul, List.take_append, List.take_of_length_le hle, hlen,
        Nat.add_sub_cancel]

end Layout

end ByteCast
