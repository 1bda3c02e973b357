import Mathlib

/-!
# Branch ids

A branch id is an unsigned integer: a leading one bit, then `dimension` bits for each level of
the tree. In base `2 ^ dimension` its digits are the child indices from the root on, under the
digit of the root.
-/

namespace Flecsi.Topology

/-- The parameters of `branch_id_u`: `sizeof(int_t)` and the dimension. -/
structure IdType where
  bytes : ℕ
  dimension : ℕ
  bytes_pos : 0 < bytes
  dimension_pos : 0 < dimension

namespace IdType

variable (T : IdType)

def bits : ℕ := T.bytes * 8

def max_depth : ℕ := (T.bits - 1) / T.dimension

/-- The position of the root's bit. -/
def lead : ℕ := (T.bits - 1) % T.dimension

def root : ℕ := 1 <<< T.lead % 2 ^ T.bits

/-- `while(id >>= dimension) ++d` -/
def depth (id : ℕ) : ℕ :=
  if id >>> T.dimension = 0 then 0 else depth (id >>> T.dimension) + 1
termination_by id
decreasing_by
  rename_i hne
  rw [Nat.shiftRight_eq_div_pow] at hne ⊢
  have := T.dimension_pos
  exact Nat.div_lt_self (Nat.pos_of_ne_zero fun h => hne (by simp [h])) (Nat.one_lt_two_pow this.ne')

/-- `push`, with its assertion. -/
def push (id bits : ℕ) : Option ℕ :=
  if bits < 2 ^ T.dimension then some (id <<< T.dimension % 2 ^ T.bits ||| bits) else none

def pop (id : ℕ) : Option ℕ := if T.depth id > 0 then some (id >>> T.dimension) else none

/-- `pop(d)`, with its assertion. -/
def popLevels (d id : ℕ) : Option ℕ := if d ≥ T.depth id then some (id >>> (d * T.dimension)) else none

def parent (id : ℕ) : ℕ := id >>> T.dimension

def truncate (id to_depth : ℕ) : ℕ :=
  if T.depth id < to_depth then id else id >>> ((T.depth id - to_depth) * T.dimension)

-- ---------------------------------------------------------------------------
-- Repeated operations
-- ---------------------------------------------------------------------------

def pushAll (id : ℕ) (children : List ℕ) : Option ℕ := children.foldlM T.push id

def popTimes : ℕ → ℕ → Option ℕ
  | 0, id => some id
  | d + 1, id => T.pop id >>= popTimes d

def numChildren : ℕ := 2 ^ T.dimension

/-- The number with given digits under the digit of the root. -/
def number (path : List ℕ) : ℕ := path.foldl (fun id c => id * T.numChildren + c) (2 ^ T.lead)

/-- Child indices from the root down to a branch that has an id. -/
structure Path (path : List ℕ) : Prop where
  child : ∀ c ∈ path, c < T.numChildren
  length : path.length ≤ T.max_depth

/-- The ids of the branches within the maximal depth. -/
def Valid (id : ℕ) : Prop := ∃ path, T.Path path ∧ id = T.number path

-- ---------------------------------------------------------------------------
-- Digits
-- ---------------------------------------------------------------------------

theorem lead_lt : T.lead < T.dimension := Nat.mod_lt _ T.dimension_pos

theorem max_depth_bits : T.max_depth * T.dimension + T.lead + 1 = T.bits := by
  have hdiv := Nat.div_add_mod' (T.bits - 1) T.dimension
  have hbits : 0 < T.bits := Nat.mul_pos T.bytes_pos (by decide)
  unfold max_depth lead
  omega

theorem one_lt_numChildren : 1 < T.numChildren := Nat.one_lt_two_pow T.dimension_pos.ne'

theorem numChildren_pow (k : ℕ) : T.numChildren ^ k = 2 ^ (k * T.dimension) := by
  rw [numChildren, ← pow_mul, Nat.mul_comm]

theorem root_eq : T.root = T.number [] := by
  have hlt : 2 ^ T.lead < 2 ^ T.bits := Nat.pow_lt_pow_right one_lt_two (by have := T.max_depth_bits; omega)
  unfold root number
  rw [Nat.one_shiftLeft, Nat.mod_eq_of_lt hlt]
  rfl

theorem number_concat (path : List ℕ) (c : ℕ) : T.number (path ++ [c]) = T.number path * T.numChildren + c := by
  simp [number]

theorem number_pos (path : List ℕ) : 0 < T.number path := by
  induction path using List.reverseRecOn with
  | nil => exact Nat.two_pow_pos _
  | append_singleton path c ih =>
    rw [number_concat]
    exact Nat.add_pos_left (Nat.mul_pos ih (zero_lt_one.trans T.one_lt_numChildren)) c

theorem shiftRight_dimension (id : ℕ) : id >>> T.dimension = id / T.numChildren :=
  Nat.shiftRight_eq_div_pow id T.dimension

variable {T}

theorem number_div {c : ℕ} (hc : c < T.numChildren) (path : List ℕ) :
    T.number (path ++ [c]) / T.numChildren = T.number path := by
  rw [number_concat, Nat.mul_comm, Nat.mul_add_div (zero_lt_one.trans T.one_lt_numChildren),
    Nat.div_eq_of_lt hc, Nat.add_zero]

theorem number_mod {c : ℕ} (hc : c < T.numChildren) (path : List ℕ) :
    T.number (path ++ [c]) % T.numChildren = c := by
  rw [number_concat, Nat.mul_comm, Nat.mul_add_mod, Nat.mod_eq_of_lt hc]

theorem Path.nil : T.Path [] := ⟨by simp, Nat.zero_le _⟩

theorem Path.left {path rest : List ℕ} (h : T.Path (path ++ rest)) : T.Path path :=
  ⟨fun c hc => h.child c (List.mem_append_left _ hc), by
    have := h.length
    rw [List.length_append] at this
    omega⟩

theorem Path.take {path : List ℕ} (h : T.Path path) (k : ℕ) : T.Path (path.take k) := by
  rw [← List.take_append_drop k path] at h
  exact h.left

theorem number_ne_zero (path : List ℕ) : T.number path ≠ 0 := (T.number_pos path).ne'

theorem depth_number {path : List ℕ} (h : ∀ c ∈ path, c < T.numChildren) : T.depth (T.number path) = path.length := by
  induction path using List.reverseRecOn with
  | nil =>
    have hroot : T.number [] >>> T.dimension = 0 := by
      rw [shiftRight_dimension]
      exact Nat.div_eq_of_lt (Nat.pow_lt_pow_right one_lt_two T.lead_lt)
    rw [depth, if_pos hroot]
    rfl
  | append_singleton path c ih =>
    have hc : c < T.numChildren := h c (by simp)
    rw [depth, shiftRight_dimension, number_div hc, if_neg (number_ne_zero path),
      ih fun c hc => h c (List.mem_append_left _ hc), List.length_append, List.length_singleton]

theorem number_lt {path : List ℕ} (h : ∀ c ∈ path, c < T.numChildren) :
    T.number path < (2 ^ T.lead + 1) * T.numChildren ^ path.length := by
  induction path using List.reverseRecOn with
  | nil => simp [number]
  | append_singleton path c ih =>
    have hc : c < T.numChildren := h c (by simp)
    have hpath := ih fun c hc => h c (List.mem_append_left _ hc)
    calc T.number (path ++ [c]) = T.number path * T.numChildren + c := T.number_concat path c
      _ < (T.number path + 1) * T.numChildren := by
        rw [Nat.add_one_mul]
        exact Nat.add_lt_add_left hc _
      _ ≤ (2 ^ T.lead + 1) * T.numChildren ^ path.length * T.numChildren := Nat.mul_le_mul_right _ hpath
      _ = (2 ^ T.lead + 1) * T.numChildren ^ (path ++ [c]).length := by
        rw [List.length_append, List.length_singleton, pow_succ, Nat.mul_assoc]

/-- Ids within the maximal depth fit in the integer. -/
theorem Path.number_lt_bits {path : List ℕ} (h : T.Path path) : T.number path < 2 ^ T.bits := by
  refine (number_lt h.child).trans_le ?_
  have hone : 2 ^ T.lead + 1 ≤ 2 ^ (T.lead + 1) := by
    have := Nat.two_pow_pos T.lead
    rw [pow_succ]
    omega
  calc (2 ^ T.lead + 1) * T.numChildren ^ path.length
      ≤ 2 ^ (T.lead + 1) * T.numChildren ^ path.length := Nat.mul_le_mul_right _ hone
    _ = 2 ^ (T.lead + 1 + path.length * T.dimension) := by rw [numChildren_pow, ← pow_add]
    _ ≤ 2 ^ T.bits := by
      refine Nat.pow_le_pow_right two_pos ?_
      have hlevels := Nat.mul_le_mul_right T.dimension h.length
      have := T.max_depth_bits
      omega

theorem number_injective {path path' : List ℕ} (h : ∀ c ∈ path, c < T.numChildren)
    (h' : ∀ c ∈ path', c < T.numChildren) (heq : T.number path = T.number path') : path = path' := by
  have hlen : path.length = path'.length := by rw [← depth_number h, heq, depth_number h']
  induction path using List.reverseRecOn generalizing path' with
  | nil => exact (List.eq_nil_of_length_eq_zero hlen.symm).symm
  | append_singleton path c ih =>
    obtain rfl | ⟨rest, d, rfl⟩ := List.eq_nil_or_concat' path'
    · simp at hlen
    · have hc : c < T.numChildren := h c (by simp)
      have hd : d < T.numChildren := h' d (by simp)
      have hlast : c = d := by rw [← number_mod hc path, heq, number_mod hd]
      have hfirst : T.number path = T.number rest := by rw [← number_div hc path, heq, number_div hd]
      have hrest := ih (fun c hc => h c (List.mem_append_left _ hc)) (fun c hc => h' c (List.mem_append_left _ hc))
        hfirst (by simpa using hlen)
      rw [hrest, hlast]

-- ---------------------------------------------------------------------------
-- Operations on paths
-- ---------------------------------------------------------------------------

theorem push_number {path : List ℕ} {c : ℕ} (h : T.Path (path ++ [c])) :
    T.push (T.number path) c = some (T.number (path ++ [c])) := by
  have hc : c < 2 ^ T.dimension := h.child c (by simp)
  have hshift : T.number path <<< T.dimension + c = T.number (path ++ [c]) := by
    rw [Nat.shiftLeft_eq, number_concat]
    rfl
  have hlt : T.number path <<< T.dimension < 2 ^ T.bits := by
    have := h.number_lt_bits
    omega
  rw [push, if_pos hc, Nat.mod_eq_of_lt hlt, ← Nat.shiftLeft_add_eq_or_of_lt hc, hshift]

theorem pushAll_number {path children : List ℕ} (h : T.Path (path ++ children)) :
    T.pushAll (T.number path) children = some (T.number (path ++ children)) := by
  induction children generalizing path with
  | nil =>
    rw [List.append_nil]
    rfl
  | cons c children ih =>
    have hsplit : path ++ c :: children = path ++ [c] ++ children := by simp
    rw [hsplit] at h ⊢
    rw [pushAll, List.foldlM_cons, push_number h.left]
    exact ih h

theorem pop_number {path : List ℕ} {c : ℕ} (h : ∀ c' ∈ path ++ [c], c' < T.numChildren) :
    T.pop (T.number (path ++ [c])) = some (T.number path) := by
  rw [pop, depth_number h, if_pos (by simp), shiftRight_dimension, number_div (h c (by simp))]

theorem popTimes_number {path : List ℕ} (h : ∀ c ∈ path, c < T.numChildren) {d : ℕ} (hd : d ≤ path.length) :
    T.popTimes d (T.number path) = some (T.number (path.take (path.length - d))) := by
  induction d generalizing path with
  | zero =>
    rw [Nat.sub_zero, List.take_length]
    rfl
  | succ d ih =>
    obtain rfl | ⟨rest, c, rfl⟩ := List.eq_nil_or_concat' path
    · simp at hd
    · have hrest : d ≤ rest.length := by simpa using hd
      have hsub : (rest ++ [c]).length - (d + 1) = rest.length - d := by simp
      rw [popTimes, pop_number h, hsub, List.take_append_of_le_length (Nat.sub_le _ _)]
      exact ih (fun c hc => h c (List.mem_append_left _ hc)) hrest

theorem shiftRight_number {path : List ℕ} (h : ∀ c ∈ path, c < T.numChildren) {d : ℕ} (hd : d ≤ path.length) :
    T.number path >>> (d * T.dimension) = T.number (path.take (path.length - d)) := by
  induction d generalizing path with
  | zero => rw [Nat.zero_mul, Nat.shiftRight_zero, Nat.sub_zero, List.take_length]
  | succ d ih =>
    obtain rfl | ⟨rest, c, rfl⟩ := List.eq_nil_or_concat' path
    · simp at hd
    · have hrest : d ≤ rest.length := by simpa using hd
      have hsub : (rest ++ [c]).length - (d + 1) = rest.length - d := by simp
      rw [Nat.succ_mul, Nat.add_comm, Nat.shiftRight_add, shiftRight_dimension, number_div (h c (by simp)), hsub,
        List.take_append_of_le_length (Nat.sub_le _ _)]
      exact ih (fun c hc => h c (List.mem_append_left _ hc)) hrest

theorem truncate_number {path : List ℕ} (h : ∀ c ∈ path, c < T.numChildren) (k : ℕ) :
    T.truncate (T.number path) k = T.number (path.take k) := by
  rw [truncate, depth_number h]
  by_cases hk : path.length < k
  · rw [if_pos hk, List.take_of_length_le hk.le]
  · rw [if_neg hk, shiftRight_number h (Nat.sub_le _ _)]
    congr 2
    omega

theorem popLevels_number {path : List ℕ} (h : ∀ c ∈ path, c < T.numChildren) {d : ℕ} (hd : d ≤ path.length) :
    T.popLevels d (T.number path) = T.popTimes d (T.number path) ↔ d = path.length := by
  rw [popLevels, depth_number h, popTimes_number h hd]
  constructor
  · intro heq
    by_contra hne
    rw [if_neg (by omega)] at heq
    cases heq
  · intro heq
    rw [if_pos heq.ge, shiftRight_number h hd]

-- ---------------------------------------------------------------------------
-- The tree of ids
-- ---------------------------------------------------------------------------

/-- The laws of a tree at a branch: below it by pushed children, above it by `d` levels popped or
a truncation to depth `k`. -/
structure TreeLaws (T : IdType) (id : ℕ) (children : List ℕ) (d k : ℕ) : Prop where
  pushAll : ∃ id', T.pushAll id children = some id' ∧ T.Valid id' ∧ T.depth id' = T.depth id + children.length
  pop_push : T.depth id < T.max_depth → ∀ c < T.numChildren,
    ∃ id', T.push id c = some id' ∧ T.pop id' = some id ∧ T.parent id' = id
  popLevels : ∃ id', T.popTimes d id = some id' ∧ T.popLevels d id = some id'
  truncate : k ≤ T.depth id → T.popTimes (T.depth id - k) id = some (T.truncate id k)
  truncate_above : T.depth id ≤ k → T.truncate id k = id
  truncate_truncate : T.truncate (T.truncate id k) k = T.truncate id k
  path : ∃! path, T.Path path ∧ T.pushAll T.root path = some id

theorem pushAll_root {path : List ℕ} (h : T.Path path) : T.pushAll T.root path = some (T.number path) := by
  rw [root_eq, pushAll_number h]
  rfl

theorem Path.unique {path : List ℕ} (h : T.Path path) :
    ∃! path', T.Path path' ∧ T.pushAll T.root path' = some (T.number path) := by
  refine ⟨path, ⟨h, pushAll_root h⟩, fun path' ⟨h', heq⟩ => ?_⟩
  rw [pushAll_root h', Option.some_inj] at heq
  exact number_injective h'.child h.child heq

/-- Ids obey the laws of a tree, but several levels are popped at once only down from their whole
depth: elsewhere the assertion of `pop(d)` fails. -/
theorem treeLaws_iff (T : IdType) {id : ℕ} (hid : T.Valid id) {children : List ℕ}
    (hchildren : ∀ c ∈ children, c < T.numChildren) (hdepth : T.depth id + children.length ≤ T.max_depth) {d : ℕ}
    (hd : d ≤ T.depth id) (k : ℕ) : TreeLaws T id children d k ↔ d = T.depth id := by
  obtain ⟨path, hpath, rfl⟩ := hid
  have hlen := depth_number hpath.child
  rw [hlen] at hdepth hd ⊢
  have happend : T.Path (path ++ children) :=
    ⟨fun c hc => (List.mem_append.mp hc).elim (hpath.child c) (hchildren c), by rwa [List.length_append]⟩
  constructor
  · intro h
    obtain ⟨id', htimes, hlevels⟩ := h.popLevels
    exact (popLevels_number hpath.child hd).mp (hlevels.trans htimes.symm)
  · intro heq
    constructor
    · refine ⟨_, pushAll_number happend, ⟨_, happend, rfl⟩, ?_⟩
      rw [depth_number happend.child, hlen, List.length_append]
    · intro hlt c hc
      have hone : T.Path (path ++ [c]) := by
        refine ⟨fun c' hc' => (List.mem_append.mp hc').elim (hpath.child c') fun h => ?_, ?_⟩
        · exact List.mem_singleton.mp h ▸ hc
        · rw [List.length_append, List.length_singleton]
          omega
      refine ⟨_, push_number hone, pop_number hone.child, ?_⟩
      rw [parent, shiftRight_dimension, number_div hc]
    · have htimes := popTimes_number hpath.child hd
      exact ⟨_, htimes, ((popLevels_number hpath.child hd).mpr heq).trans htimes⟩
    · intro hk
      rw [hlen] at hk
      rw [hlen, popTimes_number hpath.child (Nat.sub_le _ _), truncate_number hpath.child, Nat.sub_sub_self hk]
    · intro hk
      rw [hlen] at hk
      rw [truncate_number hpath.child, List.take_of_length_le hk]
    · rw [truncate_number hpath.child, truncate_number (hpath.take k).child, List.take_take, Nat.min_self]
    · exact hpath.unique

/-- `branch_id_u<uint64_t, 2>` -/
def uint64x2 : IdType := ⟨8, 2, by decide, by decide⟩

theorem Path.uint64x2_child : uint64x2.Path [0] := ⟨by decide, by decide⟩

theorem treeLaws_iff_root : TreeLaws uint64x2 uint64x2.root [1, 2] 0 0 := by
  have hdepth : uint64x2.depth uint64x2.root = 0 := by
    rw [root_eq]
    exact depth_number Path.nil.child
  refine (treeLaws_iff uint64x2 ⟨[], Path.nil, root_eq _⟩ (by decide) ?_ (Nat.zero_le _) 0).mpr hdepth.symm
  rw [hdepth]
  decide

/-- No level is popped off a child of the root, which should leave it as it is. -/
theorem pop_nothing_fails : uint64x2.Valid (uint64x2.number [0]) ∧
    uint64x2.popTimes 0 (uint64x2.number [0]) = some (uint64x2.number [0]) ∧
    uint64x2.popLevels 0 (uint64x2.number [0]) = none ∧ ¬TreeLaws uint64x2 (uint64x2.number [0]) [] 0 0 := by
  have hdepth := depth_number Path.uint64x2_child.child
  have hfails : uint64x2.popLevels 0 (uint64x2.number [0]) = none := by
    rw [popLevels, hdepth]
    rfl
  refine ⟨⟨_, Path.uint64x2_child, rfl⟩, rfl, hfails, fun h => ?_⟩
  obtain ⟨id', -, hlevels⟩ := h.popLevels
  rw [hfails] at hlevels
  cases hlevels

end IdType

end Flecsi.Topology
