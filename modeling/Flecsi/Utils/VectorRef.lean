import Flecsi.Lib.ArrayShift
import Flecsi.Lib.Operations

/-!
# A vector over an array

`vector_ref` keeps a list in an array that is not its own. New elements come
between the old ones by filling the gap behind these, moving the old elements
past it and overwriting those that are left. Positions stand for iterators.
-/

namespace Flecsi.Utils

open ArrayShift

variable {α : Type}

/-- The array `s`, and the number of elements before `e`. -/
structure VectorRef (α : Type) where
  s : List α
  e : ℕ

namespace VectorRef

/-- What an operation returns, or that it throws. -/
inductive Result
  | done
  | iterator (pos : ℕ)
  | lengthError
  deriving DecidableEq

section
variable (left : α → α) (v : VectorRef α)

def capacity : ℕ := v.s.length

def clear : VectorRef α := { v with e := 0 }

/-- Whether `reserve` throws. -/
def Overfull (n : ℕ) : Prop := v.capacity < n

instance (n : ℕ) : Decidable (v.Overfull n) := inferInstanceAs (Decidable (v.capacity < n))

def append (u : α) : Option (VectorRef α × Result) :=
  if v.e = v.s.length then some (v, .lengthError)
  else do
    let s ← put v.s v.e u
    return (⟨s, v.e + 1⟩, .done)

/-- The elements are appended one after another, until one throws. -/
def appendAll : List α → VectorRef α → Option (VectorRef α × Result)
  | [], v => some (v, .done)
  | u :: us, v => do
    let (v, result) ← v.append u
    if result = .lengthError then return (v, .lengthError) else appendAll us v

/-- The elements from `i` on are moved by `n` places, in two steps: the last of
them past the end, the others within it. -/
def slide (i n : ℕ) : Option (VectorRef α) :=
  if n = 0 then some v
  else do
    let mv := v.e - i
    let nun := min n mv
    let um := v.e - nun
    let s ← moveUp left nun um (um + n) v.s
    let s ← moveDown left (um - i) i (i + n) s
    return ⟨s, v.e + n⟩

/-- The gap behind the elements is filled first, then the elements moved and
those that they leave at `i` overwritten. -/
def place (i : ℕ) (values : List α) : Option (VectorRef α) := do
  let n := values.length
  let nf := min n (v.e - i)
  let s ← write (values.drop nf) v.e v.s
  let v ← slide left ⟨s, v.e⟩ i n
  let s ← write (values.take nf) i v.s
  return { v with s }

def put (i : ℕ) (u : α) : Option (VectorRef α × Result) :=
  if i = v.e then (v.append u).map fun (v, result) => (v, if result = .lengthError then result else .iterator i)
  else if v.Overfull (v.e + 1) then some (v, .lengthError)
  else do
    let v ← v.slide left i 1
    let s ← ArrayShift.put v.s i u
    return ({ v with s }, .iterator i)

def assignCount (n : ℕ) (value : α) : Option (VectorRef α × Result) :=
  if v.Overfull n then some (v, .lengthError) else appendAll (List.replicate n value) v.clear

/-- `assign` of a range. -/
def assignRange (values : List α) : Option (VectorRef α × Result) := appendAll values v.clear

def insert (pos : ℕ) (value : α) : Option (VectorRef α × Result) := v.put left pos value

/-- `size() + n` is of type `size_type`. -/
def insertCount (pos n : ℕ) (value : α) : Option (VectorRef α × Result) :=
  if v.Overfull ((v.e + n) % 2 ^ 64) then some (v, .lengthError)
  else do
    let v ← v.place left pos (List.replicate n value)
    return (v, .iterator pos)

/-- `insert` of a range by forward iterators. -/
def insertForward (pos : ℕ) (values : List α) : Option (VectorRef α × Result) :=
  if v.Overfull ((v.e + values.length) % 2 ^ 64) then some (v, .lengthError)
  else do
    let v ← v.place left pos values
    return (v, .iterator pos)

/-- `insert` of a range by other iterators: each element is inserted at the
position. -/
def insertInput (pos : ℕ) : List α → VectorRef α → Option (VectorRef α × Result)
  | [], v => some (v, .iterator pos)
  | value :: values, v => do
    let (v, result) ← v.insert left pos value
    if result = .lengthError then return (v, .lengthError) else insertInput pos values v

def push_back (value : α) : Option (VectorRef α × Result) := v.append value

def pop_back : Option (VectorRef α) := do
  guard (0 < v.e)
  return { v with e := v.e - 1 }

/-- New elements are `init`, that is `value_type()`. -/
def resize (init : α) (n : ℕ) : Option (VectorRef α × Result) :=
  if v.Overfull n then some (v, .lengthError)
  else do
    let s ← write (List.replicate (n - v.e) init) v.e v.s
    return (⟨s, n⟩, .done)

end

inductive Op (α : Type)
  | assignCount (n : ℕ) (value : α)
  | assignRange (values : List α)
  | insert (pos : ℕ) (value : α)
  | insertCount (pos n : ℕ) (value : α)
  | insertForward (pos : ℕ) (values : List α)
  | insertInput (pos : ℕ) (values : List α)
  | push_back (value : α)
  | pop_back
  | resize (n : ℕ)
  | clear

def step (left : α → α) (init : α) (v : VectorRef α) : Op α → Option (VectorRef α × Result)
  | .assignCount n value => v.assignCount n value
  | .assignRange values => v.assignRange values
  | .insert pos value => v.insert left pos value
  | .insertCount pos n value => v.insertCount left pos n value
  | .insertForward pos values => v.insertForward left pos values
  | .insertInput pos values => insertInput left pos values v
  | .push_back value => v.push_back value
  | .pop_back => v.pop_back.map fun v => (v, .done)
  | .resize n => v.resize init n
  | .clear => some (v.clear, .done)

-- ---------------------------------------------------------------------------
-- The same on lists
-- ---------------------------------------------------------------------------

/-- What `std::vector` holds after an operation, and returns. -/
def Op.onList (init : α) (l : List α) : Op α → List α × Result
  | .assignCount n value => (List.replicate n value, .done)
  | .assignRange values => (values, .done)
  | .insert pos value => (insertAt l pos [value], .iterator pos)
  | .insertCount pos n value => (insertAt l pos (List.replicate n value), .iterator pos)
  | .insertForward pos values | .insertInput pos values => (insertAt l pos values, .iterator pos)
  | .push_back value => (l ++ [value], .done)
  | .pop_back => (l.dropLast, .done)
  | .resize n => (l.take n ++ List.replicate (n - l.length) init, .done)
  | .clear => ([], .done)

/-- An operation that changes nothing when it throws. -/
def Op.Keeps : Op α → Prop
  | .assignRange _ | .insertInput _ _ => False
  | _ => True

/-- A list of at most `N` elements: what fits is done, for the rest
`length_error` is thrown. -/
def Bounded (N : ℕ) (init : α) (l : List α) (op : Op α) (result : Result) (l' : List α) : Prop :=
  if (op.onList init l).1.length ≤ N then (l', result) = op.onList init l
  else result = .lengthError ∧ (op.Keeps → l' = l)

/-- The iterators are into the vector, and counts are of type `size_type`. -/
def Op.InRange (v : VectorRef α) : Op α → Prop
  | .insert pos _ | .insertInput pos _ => pos ≤ v.e
  | .insertCount pos n _ => pos ≤ v.e ∧ n < 2 ^ 64
  | .insertForward pos values => pos ≤ v.e ∧ values.length < 2 ^ 63
  | .pop_back => 0 < v.e
  | .assignCount n _ | .resize n => n < 2 ^ 64
  | .assignRange _ | .push_back _ | .clear => True

/-- The new size is not beyond `size_type`, and a range that is not known before
reads the same from both ends, if it fits. -/
def Op.Safe (v : VectorRef α) : Op α → Prop
  | .insertCount _ n _ => v.e + n < 2 ^ 64
  | .insertInput _ values => v.e + values.length ≤ v.capacity → values.reverse = values
  | _ => True

def Op.Ok (v : VectorRef α) (op : Op α) : Prop := op.InRange v ∧ op.Safe v

/-- The array has `N` places and the list is at its front. -/
structure Holds (v : VectorRef α) (N : ℕ) (l : List α) : Prop where
  capacity : v.s.length = N
  capacity_lt : N < 2 ^ 63
  size : v.e = l.length
  contents : v.s.take l.length = l

-- ---------------------------------------------------------------------------
-- Making space
-- ---------------------------------------------------------------------------

/-- The elements from `i` on are `n` places further, and the gap behind them is
as it was. -/
structure Slid (i n e : ℕ) (data data' : List α) : Prop where
  length_eq : data'.length = data.length
  before : ∀ k < i, data'[k]? = data[k]?
  moved : ∀ k, i + k < e → data'[i + n + k]? = data[i + k]?
  gap : ∀ k, e ≤ k → k < i + n → data'[k]? = data[k]?

theorem slide_slid (left : α → α) {s : List α} {e i n : ℕ} (hi : i ≤ e) (hroom : e + n ≤ s.length) :
    ∃ s', slide left ⟨s, e⟩ i n = some ⟨s', e + n⟩ ∧ Slid i n e s s' := by
  cases Nat.eq_zero_or_pos n with
  | inl hn =>
    subst hn
    exact ⟨s, if_pos rfl, rfl, fun _ _ => rfl, fun _ _ => rfl, fun _ _ _ => rfl⟩
  | inr hn =>
    obtain ⟨s1, hup, h1⟩ := @moveUp_eq α left (min n (e - i)) (e - min n (e - i)) (e - min n (e - i) + n) s
      (by omega) (by omega) (by omega)
    have hlen := h1.length_eq
    obtain ⟨s2, hdown, h2⟩ := @moveDown_eq α left (e - min n (e - i) - i) i (i + n) s1 (by omega) (by omega) (by omega)
    refine ⟨s2, ?_, h2.length_eq.trans hlen, fun k hk => ?_, fun k hk => ?_, fun k hk hkn => ?_⟩
    · rw [slide, if_neg hn.ne']
      simp [hup, hdown]
    · rw [h2.outside k (by omega), if_neg (by omega), h1.outside k (by omega), if_neg (by omega)]
    · cases Nat.lt_or_ge (i + k) (e - min n (e - i)) with
      | inl hlt => rw [h2.arrived k (by omega), h1.outside _ (by omega), if_neg (by omega)]
      | inr hge =>
        have harrived := h1.arrived (i + k - (e - min n (e - i))) (by omega)
        rw [h2.outside _ (by omega), if_neg (by omega)]
        convert harrived using 2
        · omega
        · omega
    · rw [h2.outside k (by omega), if_neg (by omega), h1.outside k (by omega), if_neg (by omega)]

section
variable {left : α → α} {v : VectorRef α} {N : ℕ} {l : List α}

theorem Holds.length_le (hv : v.Holds N l) : l.length ≤ N := by
  have hlen := congrArg List.length hv.contents
  rw [List.length_take, hv.capacity] at hlen
  omega

theorem Holds.unique (hv : v.Holds N l) {l' : List α} (hv' : v.Holds N l') : l = l' := by
  rw [← hv.contents, ← hv'.contents, ← hv.size, ← hv'.size]

theorem Holds.clear (hv : v.Holds N l) : v.clear.Holds N [] := ⟨hv.capacity, hv.capacity_lt, rfl, rfl⟩

theorem Holds.take (hv : v.Holds N l) {n : ℕ} (hn : n ≤ l.length) : Holds ⟨v.s, n⟩ N (l.take n) := by
  have hlen : (l.take n).length = n := by rw [List.length_take]; omega
  refine ⟨hv.capacity, hv.capacity_lt, hlen.symm, ?_⟩
  conv_rhs => rw [← hv.contents]
  rw [hlen, List.take_take, Nat.min_eq_left hn]

/-- Values behind the last element. -/
theorem Holds.extend (hv : v.Holds N l) {values : List α} (hroom : l.length + values.length ≤ N) :
    ∃ s', write values v.e v.s = some s' ∧ Holds ⟨s', v.e + values.length⟩ N (l ++ values) := by
  have hfits : l.length + values.length ≤ v.s.length := hv.capacity.symm ▸ hroom
  obtain ⟨s', hwrite, hlen, htake⟩ := take_write hfits
  refine ⟨s', hv.size ▸ hwrite, hlen.trans hv.capacity, hv.capacity_lt, ?_, ?_⟩
  · rw [List.length_append, hv.size]
  · rw [List.length_append, htake, hv.contents]

theorem Holds.place (hv : v.Holds N l) {pos : ℕ} (hpos : pos ≤ l.length) (left : α → α) {values : List α}
    (hroom : l.length + values.length ≤ N) :
    ∃ v', v.place left pos values = some v' ∧ v'.Holds N (insertAt l pos values) := by
  have hcap := hv.capacity
  have hsize := hv.size
  have hdrop : (values.drop (min values.length (v.e - pos))).length = values.length - min values.length (v.e - pos) :=
    List.length_drop
  have htake : (values.take (min values.length (v.e - pos))).length = min values.length (v.e - pos) := by
    rw [List.length_take]
    omega
  obtain ⟨s1, hgap, h1⟩ := @write_written α v.e v.s (values.drop (min values.length (v.e - pos))) (by omega)
  have hlen1 := h1.length_eq
  obtain ⟨s2, hslide, h2⟩ := @slide_slid α left s1 v.e pos values.length (hsize ▸ hpos) (by omega)
  have hlen2 := h2.length_eq
  obtain ⟨s3, hwrite, h3⟩ := @write_written α pos s2 (values.take (min values.length (v.e - pos))) (by omega)
  have hlen3 := h3.length_eq
  have hnew (k : ℕ) (hk : k < values.length) : s3[pos + k]? = values[k]? := by
    cases Nat.lt_or_ge k (min values.length (v.e - pos)) with
    | inl hlt => rw [h3.written k (by omega), List.getElem?_take_of_lt hlt]
    | inr hge =>
      -- then the position is in the gap behind the elements
      have hgap := h1.written (pos + k - v.e) (by omega)
      rw [List.getElem?_drop] at hgap
      rw [h3.outside _ (by omega), h2.gap _ (by omega) (by omega)]
      convert hgap using 2
      · omega
      · omega
  have hinsert : s3.take (l.length + values.length) = insertAt (v.s.take l.length) pos values := by
    refine take_eq_insertAt hpos (by omega) (fun k hk => ?_) hnew fun k hk => ?_
    · rw [h3.outside k (.inl hk), h2.before k hk, h1.outside k (by omega)]
    · rw [h3.outside _ (by omega), h2.moved k (by omega), h1.outside _ (by omega)]
  refine ⟨⟨s3, v.e + values.length⟩, ?_, ⟨hlen3.trans (hlen2.trans (hlen1.trans hcap)), hv.capacity_lt, ?_, ?_⟩⟩
  · rw [VectorRef.place]
    simp [hgap, hslide, hwrite]
  · rw [length_insertAt l hpos, hsize]
  · rw [length_insertAt l hpos, hinsert, hv.contents]

-- ---------------------------------------------------------------------------
-- One operation
-- ---------------------------------------------------------------------------

theorem Holds.not_overfull (hv : v.Holds N l) {n : ℕ} (hn : n ≤ N) : ¬v.Overfull n := by
  rw [Overfull, VectorRef.capacity, hv.capacity]
  exact Nat.not_lt_of_ge hn

theorem Holds.overfull (hv : v.Holds N l) {n : ℕ} (hn : N < n) : v.Overfull n := by
  rw [Overfull, VectorRef.capacity, hv.capacity]
  exact hn

theorem Holds.append (hv : v.Holds N l) (hroom : l.length < N) (u : α) :
    ∃ v', v.append u = some (v', .done) ∧ v'.Holds N (l ++ [u]) := by
  have hfits : l.length + [u].length ≤ N := hroom
  obtain ⟨s', hwrite, hv'⟩ := hv.extend hfits
  have hne : v.e ≠ v.s.length := by rw [hv.size, hv.capacity]; exact hroom.ne
  rw [write_singleton] at hwrite
  refine ⟨⟨s', v.e + 1⟩, ?_, hv'⟩
  rw [VectorRef.append, if_neg hne, hwrite]
  rfl

theorem Holds.append_full (hv : v.Holds N l) (hfull : l.length = N) (u : α) : v.append u = some (v, .lengthError) :=
  if_pos (by rw [hv.size, hv.capacity, hfull])

theorem Holds.appendAll (hv : v.Holds N l) {us : List α} (hroom : l.length + us.length ≤ N) :
    ∃ v', appendAll us v = some (v', .done) ∧ v'.Holds N (l ++ us) := by
  induction us generalizing v l with
  | nil => exact ⟨v, rfl, by rwa [List.append_nil]⟩
  | cons u us ih =>
    rw [List.length_cons] at hroom
    obtain ⟨v1, happend, hv1⟩ := hv.append (by omega) u
    obtain ⟨v', hrest, hv'⟩ := ih hv1 (by rw [List.length_append, List.length_singleton]; omega)
    refine ⟨v', ?_, by rwa [List.append_assoc, List.singleton_append] at hv'⟩
    rw [VectorRef.appendAll, happend]
    exact hrest

theorem Holds.appendAll_full (hv : v.Holds N l) {us : List α} (hfull : N < l.length + us.length) :
    ∃ v' l', VectorRef.appendAll us v = some (v', .lengthError) ∧ v'.Holds N l' := by
  induction us generalizing v l with
  | nil => exact absurd hv.length_le (Nat.not_le_of_gt hfull)
  | cons u us ih =>
    rw [List.length_cons] at hfull
    cases Nat.eq_or_lt_of_le hv.length_le with
    | inl heq =>
      refine ⟨v, l, ?_, hv⟩
      rw [VectorRef.appendAll, hv.append_full heq]
      rfl
    | inr hlt =>
      obtain ⟨v1, happend, hv1⟩ := hv.append hlt u
      obtain ⟨v', l', hrest, hv'⟩ := ih hv1 (by rw [List.length_append, List.length_singleton]; omega)
      refine ⟨v', l', ?_, hv'⟩
      rw [VectorRef.appendAll, happend]
      exact hrest

/-- One element within the others goes the same way. -/
theorem put_eq_place {i : ℕ} (hi : i < v.e) (hroom : ¬v.Overfull (v.e + 1)) (u : α) :
    v.put left i u = (v.place left i [u]).map fun v => (v, .iterator i) := by
  have hmin : min [u].length (v.e - i) = 1 := by
    rw [List.length_singleton]
    omega
  rw [VectorRef.put, if_neg hi.ne, if_neg hroom, VectorRef.place]
  simp only [hmin, List.drop_succ_cons, List.drop_nil, write, Option.bind_eq_bind, Option.bind_some]
  cases v.slide left i 1 with
  | none => rfl
  | some v1 =>
    simp only [Option.bind_some, List.take_succ_cons, List.take_zero, write_singleton]
    cases ArrayShift.put v1.s i u with
    | none => rfl
    | some s => rfl

theorem Holds.put (hv : v.Holds N l) {pos : ℕ} (hpos : pos ≤ l.length) (left : α → α) (hroom : l.length < N) (u : α) :
    ∃ v', v.put left pos u = some (v', .iterator pos) ∧ v'.Holds N (insertAt l pos [u]) := by
  cases Nat.eq_or_lt_of_le hpos with
  | inl heq =>
    subst heq
    obtain ⟨v', happend, hv'⟩ := hv.append hroom u
    refine ⟨v', ?_, by rwa [insertAt_length]⟩
    rw [VectorRef.put, if_pos hv.size.symm, happend]
    rfl
  | inr hlt =>
    have hover := hv.not_overfull (show v.e + 1 ≤ N by rw [hv.size]; exact hroom)
    have hfits : l.length + [u].length ≤ N := hroom
    obtain ⟨v', hplace, hv'⟩ := hv.place hpos left hfits
    refine ⟨v', ?_, hv'⟩
    rw [put_eq_place (hv.size.symm ▸ hlt) hover, hplace]
    rfl

theorem Holds.put_full (hv : v.Holds N l) (pos : ℕ) (left : α → α) (hfull : l.length = N) (u : α) :
    v.put left pos u = some (v, .lengthError) := by
  rw [VectorRef.put]
  split_ifs with hend hover
  · rw [hv.append_full hfull]
    rfl
  · rfl
  · exact absurd (hv.overfull (by rw [hv.size]; omega)) hover

/-- Elements that are inserted one after another come in the other order. -/
theorem Holds.insertInput (hv : v.Holds N l) {pos : ℕ} (hpos : pos ≤ l.length) (left : α → α) {values : List α}
    (hroom : l.length + values.length ≤ N) :
    ∃ v', insertInput left pos values v = some (v', .iterator pos) ∧ v'.Holds N (insertAt l pos values.reverse) := by
  induction values generalizing v l with
  | nil =>
    refine ⟨v, rfl, ?_⟩
    rwa [List.reverse_nil, insertAt, List.append_nil, List.take_append_drop]
  | cons value values ih =>
    rw [List.length_cons] at hroom
    have hlen := length_insertAt l hpos [value]
    rw [List.length_singleton] at hlen
    obtain ⟨v1, hput, hv1⟩ := hv.put hpos left (by omega) value
    obtain ⟨v', hrest, hv'⟩ := ih hv1 (by omega) (by omega)
    refine ⟨v', ?_, by rwa [insertAt_insertAt l hpos, ← List.reverse_cons] at hv'⟩
    rw [VectorRef.insertInput, VectorRef.insert, hput]
    exact hrest

theorem Holds.insertInput_full (hv : v.Holds N l) {pos : ℕ} (hpos : pos ≤ l.length) (left : α → α) {values : List α}
    (hfull : N < l.length + values.length) :
    ∃ v' l', VectorRef.insertInput left pos values v = some (v', .lengthError) ∧ v'.Holds N l' := by
  induction values generalizing v l with
  | nil => exact absurd hv.length_le (Nat.not_le_of_gt hfull)
  | cons value values ih =>
    rw [List.length_cons] at hfull
    cases Nat.eq_or_lt_of_le hv.length_le with
    | inl heq =>
      refine ⟨v, l, ?_, hv⟩
      rw [VectorRef.insertInput, VectorRef.insert, hv.put_full pos left heq]
      rfl
    | inr hlt =>
      have hlen := length_insertAt l hpos [value]
      rw [List.length_singleton] at hlen
      obtain ⟨v1, hput, hv1⟩ := hv.put hpos left hlt value
      obtain ⟨v', l', hrest, hv'⟩ := ih hv1 (by omega) (by omega)
      refine ⟨v', l', ?_, hv'⟩
      rw [VectorRef.insertInput, VectorRef.insert, hput]
      exact hrest

theorem Holds.resize (hv : v.Holds N l) (init : α) {n : ℕ} (hn : n ≤ N) :
    ∃ v', v.resize init n = some (v', .done) ∧ v'.Holds N (l.take n ++ List.replicate (n - l.length) init) := by
  cases Nat.le_total n l.length with
  | inl hle =>
    refine ⟨⟨v.s, n⟩, ?_, ?_⟩
    · have hnone : n - v.e = 0 := by rw [hv.size]; omega
      rw [VectorRef.resize, if_neg (hv.not_overfull hn), hnone]
      rfl
    · rw [Nat.sub_eq_zero_of_le hle, List.replicate_zero, List.append_nil]
      exact hv.take hle
  | inr hle =>
    have hroom : l.length + (List.replicate (n - l.length) init).length ≤ N := by
      rw [List.length_replicate]
      omega
    obtain ⟨s', hwrite, hv'⟩ := hv.extend hroom
    rw [List.length_replicate, hv.size, Nat.add_sub_cancel' hle] at hv'
    refine ⟨⟨s', n⟩, ?_, by rwa [List.take_of_length_le hle]⟩
    rw [VectorRef.resize, if_neg (hv.not_overfull hn), hv.size]
    rw [hv.size] at hwrite
    simp [hwrite]

theorem insertCount_eq (left : α → α) (v : VectorRef α) (pos n : ℕ) (value : α) :
    v.insertCount left pos n value = v.insertForward left pos (List.replicate n value) := by
  rw [VectorRef.insertCount, VectorRef.insertForward, List.length_replicate]

theorem Holds.insertForward (hv : v.Holds N l) {pos : ℕ} (hpos : pos ≤ l.length) (left : α → α) {values : List α}
    (hsize : v.e + values.length < 2 ^ 64) (hroom : l.length + values.length ≤ N) :
    ∃ v', v.insertForward left pos values = some (v', .iterator pos) ∧ v'.Holds N (insertAt l pos values) := by
  obtain ⟨v', hplace, hv'⟩ := hv.place hpos left hroom
  refine ⟨v', ?_, hv'⟩
  rw [VectorRef.insertForward, Nat.mod_eq_of_lt hsize, if_neg (hv.not_overfull (hv.size ▸ hroom)), hplace]
  rfl

theorem Holds.insertForward_full (hv : v.Holds N l) (pos : ℕ) (left : α → α) {values : List α}
    (hsize : v.e + values.length < 2 ^ 64) (hfull : N < l.length + values.length) :
    v.insertForward left pos values = some (v, .lengthError) := by
  rw [VectorRef.insertForward, Nat.mod_eq_of_lt hsize, if_pos (hv.overfull (hv.size ▸ hfull))]

variable {init : α}

theorem bounded_fits {op : Op α} (h : (op.onList init l).1.length ≤ N) :
    Bounded N init l op (op.onList init l).2 (op.onList init l).1 := by
  rw [Bounded, if_pos h]

theorem bounded_full {op : Op α} {l' : List α} (h : N < (op.onList init l).1.length) (hk : op.Keeps → l' = l) :
    Bounded N init l op .lengthError l' := by
  rw [Bounded, if_neg (Nat.not_le_of_gt h)]
  exact ⟨rfl, hk⟩

/-- What is done with an operation that fits, or throws before it begins. -/
theorem Holds.kept (hv : v.Holds N l) {op : Op α} (left : α → α)
    (hfits : (op.onList init l).1.length ≤ N → ∃ v', step left init v op = some (v', (op.onList init l).2) ∧
      v'.Holds N (op.onList init l).1)
    (hfull : N < (op.onList init l).1.length → step left init v op = some (v, .lengthError)) :
    ∃ v' result l', step left init v op = some (v', result) ∧ Bounded N init l op result l' ∧ v'.Holds N l' := by
  cases Nat.lt_or_ge N (op.onList init l).1.length with
  | inl hlt => exact ⟨v, _, l, hfull hlt, bounded_full hlt fun _ => rfl, hv⟩
  | inr hle =>
    obtain ⟨v', hstep, hv'⟩ := hfits hle
    exact ⟨v', _, _, hstep, bounded_fits hle, hv'⟩

/-- An operation does what a bounded list does. -/
theorem step_bounded (hv : v.Holds N l) {op : Op α} (hop : op.Ok v) (left : α → α) (init : α) :
    ∃ v' result l', step left init v op = some (v', result) ∧ Bounded N init l op result l' ∧ v'.Holds N l' := by
  obtain ⟨hin, hsafe⟩ := hop
  have hlt := hv.capacity_lt
  have hle := hv.length_le
  cases op with
  | assignCount n value =>
    apply hv.kept left
    · intro hfits
      rw [Op.onList, List.length_replicate] at hfits
      have hroom : ([] : List α).length + (List.replicate n value).length ≤ N := by
        rw [List.length_replicate, List.length_nil]
        omega
      obtain ⟨v', happend, hv'⟩ := hv.clear.appendAll hroom
      refine ⟨v', ?_, hv'⟩
      rw [step, VectorRef.assignCount, if_neg (hv.not_overfull hfits), happend]
      rfl
    · intro hfull
      rw [Op.onList, List.length_replicate] at hfull
      exact if_pos (hv.overfull hfull)
  | assignRange values =>
    cases Nat.lt_or_ge N values.length with
    | inl hfull =>
      have hfull' : N < ([] : List α).length + values.length := by rwa [List.length_nil, Nat.zero_add]
      obtain ⟨v', l', happend, hv'⟩ := hv.clear.appendAll_full hfull'
      exact ⟨v', _, l', happend, bounded_full hfull False.elim, hv'⟩
    | inr hfits =>
      have hroom : ([] : List α).length + values.length ≤ N := by rwa [List.length_nil, Nat.zero_add]
      obtain ⟨v', happend, hv'⟩ := hv.clear.appendAll hroom
      exact ⟨v', _, _, happend, bounded_fits hfits, hv'⟩
  | insert pos value =>
    have hpos : pos ≤ l.length := hv.size ▸ hin
    apply hv.kept left
    · intro hfits
      rw [Op.onList, length_insertAt l hpos] at hfits
      exact hv.put hpos left hfits value
    · intro hfull
      rw [Op.onList, length_insertAt l hpos, List.length_singleton] at hfull
      exact hv.put_full pos left (by omega) value
  | insertCount pos n value =>
    have hpos : pos ≤ l.length := hv.size ▸ hin.1
    have hsize : v.e + (List.replicate n value).length < 2 ^ 64 := by rwa [List.length_replicate]
    apply hv.kept left
    · intro hfits
      rw [Op.onList, length_insertAt l hpos] at hfits
      rw [step, insertCount_eq]
      exact hv.insertForward hpos left hsize hfits
    · intro hfull
      rw [Op.onList, length_insertAt l hpos] at hfull
      rw [step, insertCount_eq]
      exact hv.insertForward_full pos left hsize hfull
  | insertForward pos values =>
    have hpos : pos ≤ l.length := hv.size ▸ hin.1
    have hsize : v.e + values.length < 2 ^ 64 := by
      have hvalues := hin.2
      rw [hv.size]
      omega
    apply hv.kept left
    · intro hfits
      rw [Op.onList, length_insertAt l hpos] at hfits
      exact hv.insertForward hpos left hsize hfits
    · intro hfull
      rw [Op.onList, length_insertAt l hpos] at hfull
      exact hv.insertForward_full pos left hsize hfull
  | insertInput pos values =>
    have hpos : pos ≤ l.length := hv.size ▸ hin
    have hlen : ((Op.insertInput pos values).onList init l).1.length = l.length + values.length :=
      length_insertAt l hpos values
    cases Nat.lt_or_ge N (l.length + values.length) with
    | inl hfull =>
      obtain ⟨v', l', hinsert, hv'⟩ := hv.insertInput_full hpos left hfull
      exact ⟨v', _, l', hinsert, bounded_full (hlen ▸ hfull) False.elim, hv'⟩
    | inr hfits =>
      have hsame : values.reverse = values := hsafe (by rwa [hv.size, VectorRef.capacity, hv.capacity])
      obtain ⟨v', hinsert, hv'⟩ := hv.insertInput hpos left hfits
      rw [hsame] at hv'
      exact ⟨v', _, _, hinsert, bounded_fits (hlen ▸ hfits), hv'⟩
  | push_back value =>
    apply hv.kept left
    · intro hfits
      rw [Op.onList, List.length_append] at hfits
      exact hv.append hfits value
    · intro hfull
      rw [Op.onList, List.length_append, List.length_singleton] at hfull
      exact hv.append_full (by omega) value
  | pop_back =>
    apply hv.kept left
    · intro _
      have hpos : 0 < v.e := hin
      refine ⟨⟨v.s, v.e - 1⟩, ?_, ?_⟩
      · rw [step, VectorRef.pop_back, Operations.guard_bind hpos]
        rfl
      · rw [Op.onList, hv.size, List.dropLast_eq_take]
        exact hv.take (Nat.sub_le _ _)
    · intro hfull
      rw [Op.onList, List.length_dropLast] at hfull
      omega
  | resize n =>
    have hlen : ((Op.resize n).onList init l).1.length = n := by
      rw [Op.onList, List.length_append, List.length_take, List.length_replicate]
      omega
    apply hv.kept left
    · intro hfits
      exact hv.resize init (hlen ▸ hfits)
    · intro hfull
      exact if_pos (hv.overfull (hlen ▸ hfull))
  | clear =>
    apply hv.kept left
    · intro _
      exact ⟨v.clear, rfl, hv.clear⟩
    · intro hfull
      exact absurd hfull (Nat.not_lt_zero N)

/-- A count that goes around is not refused, and there is no place for as many
values. -/
theorem Holds.insertCount_wraps (hv : v.Holds N l) {pos n : ℕ} (hpos : pos ≤ v.e) (hn : n < 2 ^ 64)
    (hwrap : 2 ^ 64 ≤ v.e + n) (left : α → α) (value : α) : v.insertCount left pos n value = none := by
  have hlt := hv.capacity_lt
  have hle := hv.length_le
  have hsize := hv.size
  have hcap := hv.capacity
  have hfits : (v.e + n) % 2 ^ 64 ≤ N := by omega
  have hgap : write ((List.replicate n value).drop (min (List.replicate n value).length (v.e - pos))) v.e v.s = none := by
    apply write_none
    · omega
    · rw [List.length_drop, List.length_replicate]
      omega
  rw [VectorRef.insertCount, if_neg (hv.not_overfull hfits), VectorRef.place]
  simp only [hgap]
  rfl

/-- One operation in range does what a bounded list does just when it keeps away
from what goes wrong. -/
theorem step_bounded_iff (hv : v.Holds N l) {op : Op α} (hin : op.InRange v) (left : α → α) (init : α) :
    (∃ v' result l', step left init v op = some (v', result) ∧ Bounded N init l op result l' ∧ v'.Holds N l') ↔
      op.Safe v := by
  refine ⟨?_, fun hsafe => step_bounded hv ⟨hin, hsafe⟩ left init⟩
  rintro ⟨v', result, l', hstep, hbounded, hv'⟩
  cases op with
  | insertCount pos n value =>
    apply Nat.lt_of_not_ge
    intro hwrap
    rw [step, hv.insertCount_wraps hin.1 hin.2 hwrap] at hstep
    cases hstep
  | insertInput pos values =>
    intro hfits
    have hpos : pos ≤ l.length := hv.size ▸ hin
    rw [hv.size, VectorRef.capacity, hv.capacity] at hfits
    obtain ⟨v1, hinsert, hv1⟩ := hv.insertInput hpos left hfits
    obtain ⟨rfl, rfl⟩ := Prod.mk.inj (Option.some.inj (hinsert.symm.trans hstep))
    have hlen : (insertAt l pos values).length ≤ N := by rwa [length_insertAt l hpos]
    rw [Bounded, Op.onList, if_pos hlen] at hbounded
    have hl' : insertAt l pos values.reverse = insertAt l pos values := (hv1.unique hv').trans (Prod.mk.inj hbounded).1
    exact List.append_cancel_left (List.append_cancel_right hl')
  | _ => trivial

/-- Over any operations that keep away from what goes wrong, a `vector_ref` is a
list bounded by its capacity. -/
theorem vectorRef_bounded (left : α → α) (init : α) (hv : v.Holds N l) {ops : List (Op α)}
    (hops : Operations.Permitted (fun v op => op.Ok v) (fun v op => (step left init v op).map Prod.fst) v ops) :
    ∃ v' results l', Operations.run (Operations.logged (step left init)) (v, []) ops = some (v', results) ∧
      Operations.Follows (Bounded N init) l ops results l' ∧ v'.Holds N l' := by
  have hstep (v : VectorRef α) (l : List α) (op : Op α) (hv : v.Holds N l) (hop : op.Ok v) :=
    step_bounded hv hop left init
  exact Operations.follows hstep hv hops []

end

theorem holds_three : Holds ⟨[0, 0, 0], 0⟩ 3 ([] : List ℕ) := ⟨rfl, by norm_num, rfl, rfl⟩

theorem vectorRef_bounded_three :
    ∃ v' results l', Operations.run (Operations.logged (step id 0)) (⟨[0, 0, 0], 0⟩, [])
        [.insertCount 0 2 7, .insertForward 1 [1, 2]] = some (v', results) ∧
      Operations.Follows (Bounded 3 0) [] [.insertCount 0 2 7, .insertForward 1 [1, 2]] results l' ∧ v'.Holds 3 l' := by
  have hops : Operations.Permitted (fun v op => op.Ok v) (fun v op => (step id 0 v op).map Prod.fst)
      (⟨[0, 0, 0], 0⟩ : VectorRef ℕ) [.insertCount 0 2 7, .insertForward 1 [1, 2]] := by
    refine ⟨⟨⟨le_rfl, by norm_num⟩, ?_⟩, fun s' hs => ?_⟩
    · change 0 + 2 < 2 ^ 64
      norm_num
    · obtain rfl : ⟨[7, 7, 0], 2⟩ = s' := Option.some.inj hs
      exact ⟨⟨⟨by decide, by norm_num⟩, trivial⟩, fun _ _ => trivial⟩
  exact vectorRef_bounded id 0 holds_three hops

/-- A range of two elements by input iterators comes in the wrong order, and a
count that goes around is not refused. -/
theorem vectorRef_not_bounded :
    (∃ v', insertInput id 0 [1, 2] ⟨[0, 0, 0], 0⟩ = some (v', .iterator 0) ∧ v'.s.take v'.e = [2, 1]) ∧
      insertCount id ⟨[5, 0, 0], 1⟩ 0 (2 ^ 64 - 1) 7 = none := by
  have hv : Holds ⟨[5, 0, 0], 1⟩ 3 [5] := ⟨rfl, by norm_num, rfl, rfl⟩
  exact ⟨⟨_, rfl, rfl⟩, hv.insertCount_wraps (Nat.zero_le _) (by norm_num) (by norm_num) id 7⟩

end VectorRef

end Flecsi.Utils
