import Flecsi.Topology.BranchId

/-!
# Branch ids of points

The constructor of a branch id from a point interleaves the leading bits of the point's scaled
coordinates; `coordinates` takes them apart again, but scales with another constant. Arithmetic is
that of a field, conversion to the integer cuts off the fraction.
-/

namespace Flecsi.Topology

/-- The lower and the upper corner of the range of a tree. -/
structure Range (K : Type) [LT K] (dim : ℕ) where
  lower : Fin dim → K
  upper : Fin dim → K
  extent : ∀ j, lower j < upper j

namespace IdType

variable (T : IdType)

section
variable {K : Type} [Field K] [LinearOrder K] [IsStrictOrderedRing K] [FloorSemiring K]
  (range : Range K T.dimension)

/-- The scaled coordinates `coords` of a point. -/
def coords (p : Fin T.dimension → K) (j : Fin T.dimension) : ℕ :=
  ⌊(p j - range.lower j) / (range.upper j - range.lower j) * (2 ^ T.max_depth : ℕ)⌋₊

end

/-- The bits of all coordinates at level `i`, in the `k`-th place from the low end. -/
def interleave (coords : Fin T.dimension → ℕ) (id : ℕ) (k i : ℕ) : ℕ :=
  (List.finRange T.dimension).foldl (fun id j =>
    let bit := (coords j &&& 1 <<< i) >>> i
    id ||| bit <<< (k * T.dimension + j)) id

/-- `for(i = max_depth - depth; i < max_depth; ++i)`, which does not run when the depth is too
large: the difference wraps around. -/
def encode (coords : Fin T.dimension → ℕ) (depth : ℕ) : ℕ :=
  (List.range (if depth ≤ T.max_depth then depth else 0)).foldl
    (fun id k => T.interleave coords id k (T.max_depth - depth + k))
    (1 <<< (depth * T.dimension + T.lead) % 2 ^ T.bits)

/-- The loop of `coordinates`. -/
def decode (coords : Fin T.dimension → ℕ) (id d : ℕ) : (Fin T.dimension → ℕ) × ℕ :=
  if id >>> T.dimension ≠ 0 then
    decode (fun j => coords j ||| ((1 <<< (j : ℕ) &&& id) >>> (j : ℕ)) <<< d) (id >>> T.dimension) (d + 1)
  else (coords, d)
termination_by id
decreasing_by
  rename_i hne
  rw [Nat.shiftRight_eq_div_pow] at hne ⊢
  have := T.dimension_pos
  exact Nat.div_lt_self (Nat.pos_of_ne_zero fun h => hne (by simp [h])) (Nat.one_lt_two_pow this.ne')

section
variable {K : Type} [Field K] [LinearOrder K] [IsStrictOrderedRing K] [FloorSemiring K]
  (range : Range K T.dimension)

/-- The constructor of `branch_id_u` from a point. -/
def ofPoint (p : Fin T.dimension → K) (depth : ℕ) : ℕ := T.encode (T.coords range p) depth

def coordinates (id : ℕ) (j : Fin T.dimension) : K :=
  let (coords, d) := T.decode (fun _ => 0) id 0
  let m := 2 ^ T.max_depth - 1
  range.lower j + (range.upper j - range.lower j) * (coords j <<< (T.max_depth - d) : ℕ) / (m : ℕ)

end

-- ---------------------------------------------------------------------------
-- Encoding
-- ---------------------------------------------------------------------------

/-- The child index made of the bits of all coordinates at one level. -/
def childAt (coords : Fin T.dimension → ℕ) (i : ℕ) : ℕ := Nat.ofBits fun j => (coords j).testBit i

/-- The child indices at the levels from `off + d - 1` down to `off`. -/
def pathAt (coords : Fin T.dimension → ℕ) (off d : ℕ) : List ℕ :=
  (List.range d).map fun l => T.childAt coords (off + d - 1 - l)

variable {T}

theorem childAt_lt (coords : Fin T.dimension → ℕ) (i : ℕ) : T.childAt coords i < T.numChildren :=
  Nat.ofBits_lt_two_pow _

theorem pathAt_child (coords : Fin T.dimension → ℕ) (off d : ℕ) : ∀ c ∈ T.pathAt coords off d, c < T.numChildren := by
  intro c hc
  obtain ⟨l, -, rfl⟩ := List.mem_map.mp hc
  exact childAt_lt coords _

theorem length_pathAt (coords : Fin T.dimension → ℕ) (off d : ℕ) : (T.pathAt coords off d).length = d := by
  simp [pathAt]

/-- A step that only sets bits, over a list. -/
theorem testBit_foldl {g : ℕ → α → ℕ} {h : α → Bool} {n : ℕ}
    (hg : ∀ id x, (g id x).testBit n = ((id.testBit n) || h x)) (l : List α) (id : ℕ) :
    (l.foldl g id).testBit n = (id.testBit n || l.any h) := by
  induction l generalizing id with
  | nil => simp
  | cons x l ih => rw [List.foldl_cons, ih, hg, List.any_cons, Bool.or_assoc]

theorem testBit_bit (x i k n : ℕ) :
    (((x &&& 1 <<< i) >>> i) <<< k).testBit n = (decide (n = k) && x.testBit i) := by
  rw [Nat.testBit_shiftLeft, Nat.testBit_shiftRight, Nat.testBit_and, Nat.one_shiftLeft, Nat.testBit_two_pow]
  by_cases hk : n = k
  · simp [hk]
  · by_cases hge : n ≥ k
    · have hne : i ≠ i + (n - k) := by omega
      rw [decide_eq_false hne, decide_eq_false hk]
      simp
    · simp [hk, hge]

theorem testBit_interleave (coords : Fin T.dimension → ℕ) (id k i n : ℕ) :
    (T.interleave coords id k i).testBit n = (id.testBit n ||
      (List.finRange T.dimension).any fun j => decide (n = k * T.dimension + j) && (coords j).testBit i) :=
  testBit_foldl (fun _ _ => by rw [Nat.testBit_or, testBit_bit]) _ _

/-- The bits of one level. -/
theorem any_level (coords : Fin T.dimension → ℕ) (k i n : ℕ) :
    ((List.finRange T.dimension).any fun j => decide (n = k * T.dimension + j) && (coords j).testBit i) =
      (decide (n / T.dimension = k) && (T.childAt coords i).testBit (n % T.dimension)) := by
  have hmod := Nat.mod_lt n T.dimension_pos
  have hdiv := Nat.div_add_mod' n T.dimension
  rw [childAt, Nat.testBit_ofBits_lt _ _ hmod, Bool.eq_iff_iff]
  simp only [List.any_eq_true, List.mem_finRange, true_and, Bool.and_eq_true, decide_eq_true_eq]
  constructor
  · rintro ⟨j, rfl, hbit⟩
    have hquot : (k * T.dimension + j) / T.dimension = k := by
      rw [Nat.mul_comm, Nat.mul_add_div T.dimension_pos, Nat.div_eq_of_lt j.isLt, Nat.add_zero]
    have hrem : (⟨(k * T.dimension + j) % T.dimension, hmod⟩ : Fin T.dimension) = j := by
      refine Fin.ext ?_
      dsimp only
      rw [Nat.mul_comm, Nat.mul_add_mod, Nat.mod_eq_of_lt j.isLt]
    rw [hrem]
    exact ⟨hquot, hbit⟩
  · rintro ⟨rfl, hbit⟩
    exact ⟨⟨n % T.dimension, hmod⟩, hdiv.symm, hbit⟩

theorem testBit_number {path : List ℕ} (h : ∀ c ∈ path, c < T.numChildren) (n : ℕ) :
    (T.number path).testBit n =
      if n < path.length * T.dimension then (path.getD (path.length - 1 - n / T.dimension) 0).testBit (n % T.dimension)
      else decide (n = path.length * T.dimension + T.lead) := by
  induction path using List.reverseRecOn generalizing n with
  | nil =>
    have hroot : T.number [] = 2 ^ T.lead := rfl
    rw [hroot, Nat.testBit_two_pow, if_neg (by simp)]
    simp [eq_comm]
  | append_singleton path c ih =>
    have hc : c < 2 ^ T.dimension := h c (by simp)
    have hor : T.number (path ++ [c]) = T.number path <<< T.dimension ||| c := by
      rw [← Nat.shiftLeft_add_eq_or_of_lt hc, Nat.shiftLeft_eq, number_concat]
      rfl
    rw [hor, Nat.testBit_or, Nat.testBit_shiftLeft, List.length_append, List.length_singleton, Nat.add_one_mul]
    by_cases hn : n < T.dimension
    · have hlast : (path ++ [c]).getD path.length 0 = c := by simp
      rw [if_pos (by omega), Nat.div_eq_of_lt hn, Nat.add_sub_cancel, Nat.sub_zero, hlast, Nat.mod_eq_of_lt hn]
      simp [hn]
    · have hge : T.dimension ≤ n := Nat.le_of_not_lt hn
      have hbit : c.testBit n = false :=
        Nat.testBit_lt_two_pow (hc.trans_le (Nat.pow_le_pow_right two_pos hge))
      rw [hbit, Bool.or_false, decide_eq_true hge, Bool.true_and, ih fun c hc => h c (List.mem_append_left _ hc),
        Nat.div_eq_sub_div T.dimension_pos hge, Nat.mod_eq_sub_mod hge]
      by_cases hlt : n - T.dimension < path.length * T.dimension
      · have hquot : (n - T.dimension) / T.dimension < path.length := (Nat.div_lt_iff_lt_mul T.dimension_pos).mpr hlt
        have hindex : path.length + 1 - 1 - ((n - T.dimension) / T.dimension + 1) =
            path.length - 1 - (n - T.dimension) / T.dimension := by omega
        have hin : path.length - 1 - (n - T.dimension) / T.dimension < path.length :=
          (Nat.sub_le _ _).trans_lt (Nat.sub_lt (Nat.zero_lt_of_lt hquot) one_pos)
        rw [if_pos hlt, if_pos (by omega), hindex, List.getD_append _ _ _ _ hin]
      · rw [if_neg hlt, if_neg (by omega)]
        exact decide_eq_decide.mpr (by omega)

theorem getD_pathAt (coords : Fin T.dimension → ℕ) (off : ℕ) {d q : ℕ} (hq : q < d) :
    (T.pathAt coords off d).getD (d - 1 - q) 0 = T.childAt coords (off + q) := by
  have hlt : d - 1 - q < d := by omega
  have hlevel : off + d - 1 - (d - 1 - q) = off + q := by omega
  rw [List.getD_eq_getElem _ _ (by rwa [length_pathAt])]
  simp only [pathAt, List.getElem_map, List.getElem_range, hlevel]

/-- The digits of an encoded id are the children at its levels. -/
theorem encode_eq (coords : Fin T.dimension → ℕ) {d : ℕ} (hd : d ≤ T.max_depth) :
    T.encode coords d = T.number (T.pathAt coords (T.max_depth - d) d) := by
  refine Nat.eq_of_testBit_eq fun n => ?_
  have hlead : d * T.dimension + T.lead < T.bits := by
    have := Nat.mul_le_mul_right T.dimension hd
    have := T.max_depth_bits
    omega
  have hsentinel : 1 <<< (d * T.dimension + T.lead) % 2 ^ T.bits = 2 ^ (d * T.dimension + T.lead) := by
    rw [Nat.one_shiftLeft, Nat.mod_eq_of_lt (Nat.pow_lt_pow_right one_lt_two hlead)]
  have hlevels : ((List.range d).any fun k =>
      (List.finRange T.dimension).any fun j =>
        decide (n = k * T.dimension + j) && (coords j).testBit (T.max_depth - d + k)) =
      (decide (n / T.dimension < d) && (T.childAt coords (T.max_depth - d + n / T.dimension)).testBit (n % T.dimension)) := by
    simp only [any_level]
    rw [Bool.eq_iff_iff]
    simp only [List.any_eq_true, List.mem_range, Bool.and_eq_true, decide_eq_true_eq]
    constructor
    · rintro ⟨k, hk, rfl, hbit⟩
      exact ⟨hk, hbit⟩
    · rintro ⟨hk, hbit⟩
      exact ⟨_, hk, rfl, hbit⟩
  rw [encode, if_pos hd, testBit_foldl (fun id k => testBit_interleave coords id k (T.max_depth - d + k) n), hlevels, hsentinel,
    Nat.testBit_two_pow, testBit_number (pathAt_child coords _ _), length_pathAt]
  by_cases hn : n < d * T.dimension
  · have hquot : n / T.dimension < d := (Nat.div_lt_iff_lt_mul T.dimension_pos).mpr hn
    have hne : ¬d * T.dimension + T.lead = n := by omega
    rw [if_pos hn, decide_eq_false hne, decide_eq_true hquot, Bool.false_or, Bool.true_and, getD_pathAt coords _ hquot]
  · have hquot : ¬n / T.dimension < d := fun h => hn ((Nat.div_lt_iff_lt_mul T.dimension_pos).mp h)
    rw [if_neg hn, decide_eq_false hquot, Bool.false_and, Bool.or_false]
    exact decide_eq_decide.mpr eq_comm

theorem pathAt_path (coords : Fin T.dimension → ℕ) (off : ℕ) {d : ℕ} (hd : d ≤ T.max_depth) :
    T.Path (T.pathAt coords off d) := ⟨pathAt_child coords off d, by rwa [length_pathAt]⟩

/-- The first levels of a point's path are its path at that depth. -/
theorem take_pathAt (coords : Fin T.dimension → ℕ) {d d' : ℕ} (hd' : d' ≤ d) (hd : d ≤ T.max_depth) :
    (T.pathAt coords (T.max_depth - d) d).take d' = T.pathAt coords (T.max_depth - d') d' := by
  unfold pathAt
  rw [← List.map_take, List.take_range, Nat.min_eq_left hd']
  refine List.map_congr_left fun l hl => ?_
  have := List.mem_range.mp hl
  congr 1
  omega

theorem depth_encode (coords : Fin T.dimension → ℕ) {d : ℕ} (hd : d ≤ T.max_depth) :
    T.depth (T.encode coords d) = d := by
  rw [encode_eq coords hd, depth_number (pathAt_child coords _ _), length_pathAt]

theorem truncate_encode (coords : Fin T.dimension → ℕ) {d d' : ℕ} (hd' : d' ≤ d) (hd : d ≤ T.max_depth) :
    T.truncate (T.encode coords d) d' = T.encode coords d' := by
  rw [encode_eq coords hd, encode_eq coords (hd'.trans hd), truncate_number (pathAt_child coords _ _),
    take_pathAt coords hd' hd]

-- ---------------------------------------------------------------------------
-- Decoding
-- ---------------------------------------------------------------------------

/-- The loop sets one bit of each coordinate for each level. -/
theorem decode_number {path : List ℕ} (h : ∀ c ∈ path, c < T.numChildren) (coords : Fin T.dimension → ℕ) (d : ℕ) :
    (T.decode coords (T.number path) d).2 = d + path.length ∧ ∀ j n,
      ((T.decode coords (T.number path) d).1 j).testBit n = ((coords j).testBit n ||
        decide (d ≤ n ∧ n < d + path.length) && (path.getD (path.length - 1 - (n - d)) 0).testBit j) := by
  induction path using List.reverseRecOn generalizing coords d with
  | nil =>
    have hroot : T.number [] >>> T.dimension = 0 := by
      rw [shiftRight_dimension]
      exact Nat.div_eq_of_lt (Nat.pow_lt_pow_right one_lt_two T.lead_lt)
    rw [decode, if_neg (not_not.mpr hroot)]
    refine ⟨rfl, fun j n => ?_⟩
    have hempty : ¬(d ≤ n ∧ n < d + ([] : List ℕ).length) := by simp
    rw [decide_eq_false hempty, Bool.false_and, Bool.or_false]
  | append_singleton path c ih =>
    have hc : c < T.numChildren := h c (by simp)
    have hne : T.number (path ++ [c]) >>> T.dimension ≠ 0 := by
      rw [shiftRight_dimension, number_div hc]
      exact number_ne_zero path
    have hnext : T.number (path ++ [c]) >>> T.dimension = T.number path := by
      rw [shiftRight_dimension, number_div hc]
    rw [decode, if_pos hne, hnext]
    obtain ⟨hcount, hbits⟩ := ih (fun c hc => h c (List.mem_append_left _ hc))
      (fun j => coords j ||| ((1 <<< (j : ℕ) &&& T.number (path ++ [c])) >>> (j : ℕ)) <<< d) (d + 1)
    refine ⟨?_, fun j n => ?_⟩
    · rw [hcount, List.length_append, List.length_singleton]
      omega
    · have hlow : (T.number (path ++ [c])).testBit j = c.testBit j := by
        have hbit := Nat.testBit_mod_two_pow (T.number (path ++ [c])) T.dimension j
        rw [decide_eq_true j.isLt, Bool.true_and] at hbit
        rw [← hbit]
        exact congrArg (Nat.testBit · j) (number_mod hc path)
      rw [hbits, Nat.testBit_or, Nat.and_comm, testBit_bit, hlow, List.length_append, List.length_singleton,
        Bool.or_assoc]
      congr 1
      by_cases hn : n = d
      · subst hn
        have hlast : (path ++ [c]).getD (path.length + 1 - 1 - (n - n)) 0 = c := by simp
        have hnow : n ≤ n ∧ n < n + (path.length + 1) := by omega
        have hlater : ¬(n + 1 ≤ n ∧ n < n + 1 + path.length) := by omega
        rw [hlast, decide_eq_true hnow, decide_eq_false hlater, decide_eq_true rfl, Bool.false_and, Bool.or_false]
      · rw [decide_eq_false hn, Bool.false_and, Bool.false_or]
        by_cases hin : d + 1 ≤ n ∧ n < d + 1 + path.length
        · have hnow : d ≤ n ∧ n < d + (path.length + 1) := by omega
          have hindex : path.length + 1 - 1 - (n - d) = path.length - 1 - (n - (d + 1)) := by omega
          rw [decide_eq_true hin, decide_eq_true hnow, hindex, List.getD_append _ _ _ _ (by omega)]
        · have hout : ¬(d ≤ n ∧ n < d + (path.length + 1)) := by omega
          rw [decide_eq_false hin, decide_eq_false hout, Bool.false_and, Bool.false_and]

/-- What is decoded of an encoded id: the leading bits of the coordinates it was made of. -/
theorem decode_encode (coords : Fin T.dimension → ℕ) {d : ℕ} (hd : d ≤ T.max_depth) :
    (T.decode (fun _ => 0) (T.encode coords d) 0).2 = d ∧
      ∀ j, (T.decode (fun _ => 0) (T.encode coords d) 0).1 j = coords j / 2 ^ (T.max_depth - d) % 2 ^ d := by
  obtain ⟨hcount, hbits⟩ := decode_number (pathAt_child coords (T.max_depth - d) d) (fun _ => 0) 0
  rw [← encode_eq coords hd, length_pathAt] at hcount hbits
  refine ⟨by rw [hcount, Nat.zero_add], fun j => Nat.eq_of_testBit_eq fun n => ?_⟩
  rw [hbits, Nat.zero_testBit, Bool.false_or, Nat.testBit_mod_two_pow, Nat.testBit_div_two_pow]
  by_cases hn : n < d
  · have hin : 0 ≤ n ∧ n < 0 + d := by omega
    rw [decide_eq_true hin, decide_eq_true hn, Nat.sub_zero, getD_pathAt coords _ hn, childAt,
      Nat.testBit_ofBits_lt _ _ j.isLt]
    simp [Nat.add_comm]
  · have hout : ¬(0 ≤ n ∧ n < 0 + d) := by omega
    rw [decide_eq_false hout, decide_eq_false hn, Bool.false_and, Bool.false_and]

/-- Ids at one depth agree when the coordinates have the same leading bits. -/
theorem encode_eq_iff (coords coords' : Fin T.dimension → ℕ) {d : ℕ} (hd : d ≤ T.max_depth) :
    T.encode coords d = T.encode coords' d ↔
      ∀ j, coords j / 2 ^ (T.max_depth - d) % 2 ^ d = coords' j / 2 ^ (T.max_depth - d) % 2 ^ d := by
  constructor
  · intro heq j
    rw [← (decode_encode coords hd).2 j, heq, (decode_encode coords' hd).2 j]
  · intro heq
    rw [encode_eq coords hd, encode_eq coords' hd]
    congr 1
    refine List.map_congr_left fun l hl => ?_
    have hl := List.mem_range.mp hl
    unfold childAt
    congr 1
    funext j
    have hbit (x : ℕ) : x.testBit (T.max_depth - d + d - 1 - l) = (x / 2 ^ (T.max_depth - d) % 2 ^ d).testBit (d - 1 - l) := by
      have hin : d - 1 - l < d := by omega
      have hlevel : d - 1 - l + (T.max_depth - d) = T.max_depth - d + d - 1 - l := by omega
      rw [Nat.testBit_mod_two_pow, decide_eq_true hin, Bool.true_and, Nat.testBit_div_two_pow, hlevel]
    rw [hbit, hbit, heq j]

-- ---------------------------------------------------------------------------
-- Cells
-- ---------------------------------------------------------------------------

theorem max_depth_pos (hdim : T.dimension ≤ 3) : 1 ≤ T.max_depth := by
  have hbits : 8 ≤ T.bits := Nat.le_mul_of_pos_left 8 T.bytes_pos
  exact (Nat.one_le_div_iff T.dimension_pos).mpr (by omega)

section
variable {K : Type} [Field K] [LinearOrder K] [IsStrictOrderedRing K] [FloorSemiring K]

def InRange (range : Range K T.dimension) (p : Fin T.dimension → K) : Prop :=
  ∀ j, range.lower j ≤ p j ∧ p j ≤ range.upper j

variable (range : Range K T.dimension) (p : Fin T.dimension → K)

/-- The place of a point in its range, from 0 to 1. -/
def scaled (j : Fin T.dimension) : K := (p j - range.lower j) / (range.upper j - range.lower j)

/-- The cell of a point among `2 ^ d` of equal size; the last one has the upper boundary. -/
def cell (d : ℕ) (j : Fin T.dimension) : ℕ := min ⌊scaled range p j * (2 ^ d : ℕ)⌋₊ (2 ^ d - 1)

def lowerCorner (d : ℕ) (j : Fin T.dimension) : K :=
  range.lower j + (range.upper j - range.lower j) * cell range p d j / (2 ^ d : ℕ)

variable {range p}

omit [FloorSemiring K] in
theorem extent_pos (j : Fin T.dimension) : 0 < range.upper j - range.lower j := sub_pos.mpr (range.extent j)

omit [FloorSemiring K] in
theorem scaled_bounds (hp : InRange range p) (j : Fin T.dimension) : 0 ≤ scaled range p j ∧ scaled range p j ≤ 1 := by
  refine ⟨div_nonneg (sub_nonneg.mpr (hp j).1) (extent_pos j).le, ?_⟩
  rw [scaled, div_le_one (extent_pos j)]
  exact sub_le_sub_right (hp j).2 _

theorem coords_div (d : ℕ) (hd : d ≤ T.max_depth) (j : Fin T.dimension) :
    T.coords range p j / 2 ^ (T.max_depth - d) = ⌊scaled range p j * (2 ^ d : ℕ)⌋₊ := by
  have hsplit : (2 ^ T.max_depth : ℕ) = 2 ^ d * 2 ^ (T.max_depth - d) := by rw [← pow_add, Nat.add_sub_cancel' hd]
  have hne : ((2 ^ (T.max_depth - d) : ℕ) : K) ≠ 0 := Nat.cast_ne_zero.mpr (Nat.two_pow_pos _).ne'
  rw [coords, ← Nat.floor_div_natCast, hsplit, Nat.cast_mul, ← mul_assoc, mul_div_cancel_right₀ _ hne]
  rfl

/-- The corner that is decoded, by the number of the cell modulo the number of cells. -/
theorem coordinates_ofPoint {d : ℕ} (hd : d ≤ T.max_depth) (j : Fin T.dimension) :
    T.coordinates range (T.ofPoint range p d) j = range.lower j + (range.upper j - range.lower j) *
      (⌊scaled range p j * (2 ^ d : ℕ)⌋₊ % 2 ^ d * 2 ^ (T.max_depth - d) : ℕ) / (2 ^ T.max_depth - 1 : ℕ) := by
  obtain ⟨hcount, hbits⟩ := decode_encode (T.coords range p) hd
  unfold coordinates ofPoint
  dsimp only
  rw [hcount, hbits, coords_div d hd, Nat.shiftLeft_eq]

theorem floor_scaled_le (hp : InRange range p) (d : ℕ) (j : Fin T.dimension) :
    ⌊scaled range p j * (2 ^ d : ℕ)⌋₊ ≤ 2 ^ d := by
  refine Nat.floor_le_of_le ?_
  calc scaled range p j * (2 ^ d : ℕ) ≤ 1 * (2 ^ d : ℕ) :=
        mul_le_mul_of_nonneg_right (scaled_bounds hp j).2 (Nat.cast_nonneg _)
    _ = (2 ^ d : ℕ) := one_mul _

/-- Numbers of cells as fractions of one extent. -/
theorem fraction_eq_iff {e : K} (he : 0 < e) (low : K) {m D : ℕ} (hm : m ≠ 0) (hD : D ≠ 0) (a c : ℕ) :
    low + e * a / m = low + e * c / D ↔ a * D = c * m := by
  have hmK : (m : K) ≠ 0 := Nat.cast_ne_zero.mpr hm
  have hDK : (D : K) ≠ 0 := Nat.cast_ne_zero.mpr hD
  rw [add_right_inj, mul_div_assoc, mul_div_assoc, mul_right_inj' he.ne', div_eq_div_iff hmK hDK]
  exact_mod_cast Iff.rfl

/-- The decoded corner is the lower corner of the cell only when that is the first one. -/
theorem corner_iff (hdim : T.dimension ≤ 3) (hp : InRange range p) {d : ℕ} (hd : d ≤ T.max_depth)
    (j : Fin T.dimension) :
    T.coordinates range (T.ofPoint range p d) j = lowerCorner range p d j ↔ cell range p d j = 0 := by
  have hM : 2 ^ 1 ≤ 2 ^ T.max_depth := Nat.pow_le_pow_right two_pos (max_depth_pos hdim)
  have hD : 0 < 2 ^ d := Nat.two_pow_pos d
  have hsplit : 2 ^ (T.max_depth - d) * 2 ^ d = (2 ^ T.max_depth - 1) + 1 := by
    rw [← pow_add, Nat.sub_add_cancel hd]
    omega
  rw [coordinates_ofPoint hd, lowerCorner, fraction_eq_iff (extent_pos j) _ (by omega) hD.ne', cell, Nat.mul_assoc,
    hsplit]
  have hm : 0 < 2 ^ T.max_depth - 1 := by omega
  generalize 2 ^ T.max_depth - 1 = m at hm ⊢
  obtain hlt | heq := (floor_scaled_le hp d j).lt_or_eq
  · rw [Nat.mod_eq_of_lt hlt, Nat.min_eq_left (Nat.le_sub_one_of_lt hlt), Nat.mul_add, Nat.mul_one]
    exact Nat.add_eq_left
  · -- the upper boundary: its bit above the cells is cut off
    rw [heq, Nat.mod_self, Nat.min_eq_right (Nat.sub_le _ _), Nat.zero_mul, eq_comm, Nat.mul_eq_zero]
    exact or_iff_left hm.ne'

variable (T range p) in
/-- What an id of a point and its coordinates should agree on. -/
structure EncodingLaws (d : ℕ) : Prop where
  depth : T.depth (T.ofPoint range p d) = d
  truncate : ∀ d' ≤ d, T.truncate (T.ofPoint range p d) d' = T.ofPoint range p d'
  corner : ∀ j, T.coordinates range (T.ofPoint range p d) j = lowerCorner range p d j
  roundTrip : T.ofPoint range (T.coordinates range (T.ofPoint range p d)) d = T.ofPoint range p d

/-- Depth and truncation always agree with the point. The coordinates, which are scaled by
`2 ^ max_depth - 1`, are those of the point's cell only for the first cell. -/
theorem encodingLaws_iff (hdim : T.dimension ≤ 3) (hp : InRange range p) {d : ℕ} (hd : d ≤ T.max_depth) :
    EncodingLaws T range p d ↔ ∀ j, cell range p d j = 0 := by
  constructor
  · intro h j
    exact (corner_iff hdim hp hd j).mp (h.corner j)
  · intro hcell
    have hcorner (j) : T.coordinates range (T.ofPoint range p d) j = lowerCorner range p d j :=
      (corner_iff hdim hp hd j).mpr (hcell j)
    refine ⟨depth_encode _ hd, fun d' hd' => truncate_encode _ hd' hd, hcorner, ?_⟩
    refine (encode_eq_iff _ _ hd).mpr fun j => ?_
    have hlow : scaled range (T.coordinates range (T.ofPoint range p d)) j = 0 := by
      rw [scaled, hcorner, lowerCorner, hcell, Nat.cast_zero, mul_zero, zero_div, add_zero, sub_self, zero_div]
    rw [coords_div d hd, coords_div d hd, hlow, zero_mul, Nat.floor_zero, Nat.zero_mod]
    -- the first cell is the only one, or the point is not on the upper boundary
    have hfirst := hcell j
    unfold cell at hfirst
    obtain hlt | heq := (floor_scaled_le hp d j).lt_or_eq
    · rw [Nat.min_eq_left (Nat.le_sub_one_of_lt hlt)] at hfirst
      rw [hfirst, Nat.zero_mod]
    · rw [heq, Nat.mod_self]

end

/-- The unit square. -/
def unitSquare : Range ℚ uint64x2.dimension where
  lower _ := 0
  upper _ := 1
  extent _ := zero_lt_one

theorem encodingLaws_iff_corner : EncodingLaws uint64x2 unitSquare (fun _ => 0) 1 := by
  refine (encodingLaws_iff (by decide) (fun _ => ⟨le_rfl, zero_le_one⟩) (by decide)).mpr fun j => ?_
  simp [cell, scaled, unitSquare]

/-- The middle of the unit square is the lower corner of a cell, but is not decoded as such. -/
theorem middle_not_decoded : InRange unitSquare (fun _ => 1 / 2) ∧ 1 ≤ uint64x2.max_depth ∧
    ¬EncodingLaws uint64x2 unitSquare (fun _ => 1 / 2) 1 := by
  have hrange : InRange unitSquare (fun _ => 1 / 2) := fun _ => by
    constructor <;> norm_num [unitSquare]
  refine ⟨hrange, by decide, fun h => ?_⟩
  have hcell := (corner_iff (by decide) hrange (by decide) ⟨0, by decide⟩).mp (h.corner _)
  norm_num [cell, scaled, unitSquare] at hcell

end IdType

end Flecsi.Topology
