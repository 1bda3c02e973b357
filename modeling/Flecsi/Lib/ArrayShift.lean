import Mathlib

/-!
# Moving elements within an array

A range of an array is moved to another place of the same array, one element
after the other, the first or the last of them first. It arrives as it was when
no element is overwritten before it is read.
-/

namespace ArrayShift

variable {α : Type*}

/-- There is no place past the end. -/
def put (data : List α) (i : ℕ) (a : α) : Option (List α) := if i < data.length then some (data.set i a) else none

/-- One element goes from `src` to `dst`. What stays behind is `left` of it. -/
def moveOne (left : α → α) (src dst : ℕ) (data : List α) : Option (List α) :=
  data[src]?.bind fun a => put (data.set src (left a)) dst a

/-- `n` elements from `src` on, the first one first. -/
def moveUp (left : α → α) : ℕ → ℕ → ℕ → List α → Option (List α)
  | 0, _, _, data => some data
  | n + 1, src, dst, data => (moveOne left src dst data).bind (moveUp left n (src + 1) (dst + 1))

/-- `n` elements from `src` on, the last one first. -/
def moveDown (left : α → α) : ℕ → ℕ → ℕ → List α → Option (List α)
  | 0, _, _, data => some data
  | n + 1, src, dst, data => (moveOne left (src + n) (dst + n) data).bind (moveDown left n src dst)

/-- Values from elsewhere are written from `dst` on. -/
def write : List α → ℕ → List α → Option (List α)
  | [], _, data => some data
  | a :: values, dst, data => (put data dst a).bind (write values (dst + 1))

/-- The range has arrived, and nothing else has changed but for what it left
behind. -/
structure Moved (left : α → α) (n src dst : ℕ) (data data' : List α) : Prop where
  length_eq : data'.length = data.length
  arrived : ∀ i < n, data'[dst + i]? = data[src + i]?
  outside : ∀ i, i < dst ∨ dst + n ≤ i →
    data'[i]? = if src ≤ i ∧ i < src + n then data[i]?.map left else data[i]?

section
variable {left : α → α} {n src dst : ℕ} {data : List α}

theorem put_eq {i : ℕ} (h : i < data.length) (a : α) : put data i a = some (data.set i a) := if_pos h

theorem moveOne_eq (hsrc : src < data.length) (hdst : dst < data.length) :
    ∃ data', moveOne left src dst data = some data' ∧ Moved left 1 src dst data data' := by
  refine ⟨(data.set src (left data[src])).set dst data[src], ?_, by simp, fun i hi => ?_, fun i hi => ?_⟩
  · rw [moveOne, List.getElem?_eq_getElem hsrc, Option.bind_some, put_eq (by simpa using hdst)]
  · obtain rfl : i = 0 := by omega
    rw [Nat.add_zero, Nat.add_zero, List.getElem?_set_self (by simpa using hdst), List.getElem?_eq_getElem hsrc]
  · rw [List.getElem?_set_ne (by omega)]
    cases eq_or_ne src i with
    | inl heq =>
      subst heq
      rw [List.getElem?_set_self hsrc, if_pos ⟨le_rfl, Nat.lt_succ_self _⟩, List.getElem?_eq_getElem hsrc]
      rfl
    | inr hne => rw [List.getElem?_set_ne hne, if_neg (by omega)]

/-- The first one first goes well to the left, and to the right past the
range. -/
theorem moveUp_eq (hsrc : src + n ≤ data.length) (hdst : dst + n ≤ data.length) (h : dst < src ∨ src + n ≤ dst) :
    ∃ data', moveUp left n src dst data = some data' ∧ Moved left n src dst data data' := by
  induction n generalizing src dst data with
  | zero =>
    refine ⟨data, rfl, rfl, by simp, fun i _ => ?_⟩
    rw [if_neg (by omega)]
  | succ n ih =>
    obtain ⟨data1, hone, hmoved⟩ := @moveOne_eq α left src dst data (by omega) (by omega)
    have hlen := hmoved.length_eq
    obtain ⟨data', hrun, hrest⟩ := @ih (src + 1) (dst + 1) data1 (by omega) (by omega) (by omega)
    refine ⟨data', by rw [moveUp, hone, Option.bind_some, hrun], by rw [hrest.length_eq, hlen], fun i hi => ?_, fun i hi => ?_⟩
    · cases i with
      | zero =>
        have hkept := hrest.outside dst (.inl (Nat.lt_succ_self _))
        rw [if_neg (by omega)] at hkept
        exact hkept.trans (hmoved.arrived 0 Nat.one_pos)
      | succ i =>
        have harrived := hrest.arrived i (by omega)
        rw [hmoved.outside _ (by omega), if_neg (by omega)] at harrived
        rwa [Nat.add_right_comm, Nat.add_right_comm src] at harrived
    · rw [hrest.outside i (by omega), hmoved.outside i (by omega)]
      split_ifs <;> first | rfl | omega

/-- The last one first goes well to the right, and to the left past the
range. -/
theorem moveDown_eq (hsrc : src + n ≤ data.length) (hdst : dst + n ≤ data.length) (h : src < dst ∨ dst + n ≤ src) :
    ∃ data', moveDown left n src dst data = some data' ∧ Moved left n src dst data data' := by
  induction n generalizing data with
  | zero =>
    refine ⟨data, rfl, rfl, by simp, fun i _ => ?_⟩
    rw [if_neg (by omega)]
  | succ n ih =>
    obtain ⟨data1, hone, hmoved⟩ := @moveOne_eq α left (src + n) (dst + n) data (by omega) (by omega)
    have hlen := hmoved.length_eq
    obtain ⟨data', hrun, hrest⟩ := @ih data1 (by omega) (by omega) (by omega)
    refine ⟨data', by rw [moveDown, hone, Option.bind_some, hrun], by rw [hrest.length_eq, hlen], fun i hi => ?_, fun i hi => ?_⟩
    · cases Nat.lt_or_ge i n with
      | inl hlt => rw [hrest.arrived i hlt, hmoved.outside _ (by omega), if_neg (by omega)]
      | inr hge =>
        obtain rfl : i = n := by omega
        rw [hrest.outside _ (.inr le_rfl), if_neg (by omega)]
        exact hmoved.arrived 0 Nat.one_pos
    · rw [hrest.outside i (by omega), hmoved.outside i (by omega)]
      split_ifs <;> first | rfl | omega

/-- A copy onto itself changes nothing. -/
theorem moveUp_self (h : src + n ≤ data.length) : moveUp id n src src data = some data := by
  induction n generalizing src with
  | zero => rfl
  | succ n ih =>
    have hsrc : src < data.length := by omega
    have hone : moveOne id src src data = some data := by
      rw [moveOne, List.getElem?_eq_getElem hsrc, Option.bind_some, id, List.set_getElem_self, put_eq hsrc,
        List.set_getElem_self]
    rw [moveUp, hone, Option.bind_some, ih (by omega)]

/-- A copy to the left, or nowhere. -/
theorem moveUp_copy (h : src + n ≤ data.length) (hle : dst ≤ src) :
    ∃ data', moveUp id n src dst data = some data' ∧ Moved id n src dst data data' := by
  cases Nat.eq_or_lt_of_le hle with
  | inl heq =>
    subst heq
    refine ⟨data, moveUp_self h, rfl, fun i _ => rfl, fun i _ => ?_⟩
    split_ifs
    · exact Option.map_id_apply.symm
    · rfl
  | inr hlt => exact moveUp_eq h (by omega) (.inl hlt)

theorem take_set_self (hdst : dst < data.length) (a : α) : (data.set dst a).take (dst + 1) = data.take dst ++ [a] := by
  rw [List.take_add_one, List.getElem?_set_self hdst, List.take_set_of_le le_rfl]
  rfl

theorem write_singleton (a : α) : write [a] dst data = put data dst a := by
  rw [write]
  exact Option.bind_fun_some _

theorem write_eq {values : List α} (h : dst + values.length ≤ data.length) :
    write values dst data = some (data.take dst ++ values ++ data.drop (dst + values.length)) := by
  induction values generalizing dst data with
  | nil => simp [write]
  | cons a values ih =>
    rw [List.length_cons] at h
    have hdst : dst < data.length := by omega
    rw [write, put_eq hdst, Option.bind_some, ih (by rw [List.length_set]; omega), List.length_cons]
    congr 1
    have hdrop : dst + 1 + values.length = dst + (values.length + 1) := by omega
    rw [take_set_self hdst, hdrop, List.drop_set_of_lt (by omega)]
    simp only [List.append_assoc, List.cons_append, List.nil_append]

/-- There is no place for values past the end. -/
theorem write_none {values : List α} (hdst : dst ≤ data.length) (h : data.length < dst + values.length) :
    write values dst data = none := by
  induction values generalizing dst data with
  | nil => exact absurd h (Nat.not_lt_of_ge hdst)
  | cons a values ih =>
    rw [List.length_cons] at h
    cases Nat.eq_or_lt_of_le hdst with
    | inl heq => rw [write, put, if_neg heq.not_lt, Option.bind_none]
    | inr hlt =>
      rw [write, put_eq hlt, Option.bind_some]
      apply ih
      · rw [List.length_set]
        exact hlt
      · rw [List.length_set]
        omega

theorem write_outside {values data' : List α} (h : write values dst data = some data') {i : ℕ}
    (hi : i < dst ∨ dst + values.length ≤ i) : data'[i]? = data[i]? := by
  induction values generalizing dst data with
  | nil =>
    cases h
    rfl
  | cons a values ih =>
    rw [List.length_cons] at hi
    obtain ⟨data1, hput, hrest⟩ := Option.bind_eq_some_iff.mp h
    rw [ih hrest (by omega)]
    rw [put] at hput
    split_ifs at hput
    cases hput
    exact List.getElem?_set_ne (by omega)

/-- The values are in their place, and nothing else has changed. -/
structure Written (values : List α) (dst : ℕ) (data data' : List α) : Prop where
  length_eq : data'.length = data.length
  written : ∀ i < values.length, data'[dst + i]? = values[i]?
  outside : ∀ i, i < dst ∨ dst + values.length ≤ i → data'[i]? = data[i]?

theorem write_written {values : List α} (h : dst + values.length ≤ data.length) :
    ∃ data', write values dst data = some data' ∧ Written values dst data data' := by
  have hlen : (data.take dst).length = dst := by rw [List.length_take]; omega
  refine ⟨_, write_eq h, ?_, fun i hi => ?_, fun i hi => ?_⟩
  · simp only [List.length_append, List.length_take, List.length_drop]
    omega
  · rw [List.append_assoc, List.getElem?_append_right (by omega), hlen, Nat.add_sub_cancel_left,
      List.getElem?_append_left hi]
  · rw [List.append_assoc]
    cases hi with
    | inl hi => rw [List.getElem?_append_left (by omega), List.getElem?_take_of_lt hi]
    | inr hi =>
      rw [List.getElem?_append_right (by omega), List.getElem?_append_right (by omega), List.getElem?_drop, hlen]
      congr 1
      omega

end

-- ---------------------------------------------------------------------------
-- The list in front of an array
-- ---------------------------------------------------------------------------

/-- The values come before the old element at `p`. -/
def insertAt (l : List α) (p : ℕ) (values : List α) : List α := l.take p ++ values ++ l.drop p

def eraseAt (l : List α) (p c : ℕ) : List α := l.take p ++ l.drop (p + c)

theorem length_insertAt (l : List α) {p : ℕ} (hp : p ≤ l.length) (values : List α) :
    (insertAt l p values).length = l.length + values.length := by
  rw [insertAt, List.length_append, List.length_append, List.length_take, List.length_drop]
  omega

theorem getElem?_insertAt (l : List α) {p : ℕ} (hp : p ≤ l.length) (values : List α) (i : ℕ) :
    (insertAt l p values)[i]? =
      if i < p then l[i]? else if i < p + values.length then values[i - p]? else l[i - values.length]? := by
  have hlen : (l.take p).length = p := by rw [List.length_take]; omega
  rw [insertAt, List.append_assoc]
  split_ifs with h1 h2
  · rw [List.getElem?_append_left (by omega), List.getElem?_take_of_lt h1]
  · rw [List.getElem?_append_right (by omega), List.getElem?_append_left (by omega), hlen]
  · rw [List.getElem?_append_right (by omega), List.getElem?_append_right (by omega), List.getElem?_drop, hlen]
    congr 1
    omega

theorem getElem?_insertAt_self (l : List α) {p : ℕ} (hp : p ≤ l.length) (a : α) : (insertAt l p [a])[p]? = some a := by
  simp [getElem?_insertAt l hp]

theorem insertAt_insertAt (l : List α) {p : ℕ} (hp : p ≤ l.length) (xs ys : List α) :
    insertAt (insertAt l p xs) p ys = insertAt l p (ys ++ xs) := by
  have hlen : (l.take p).length = p := by rw [List.length_take]; omega
  have hle : p ≤ (l.take p ++ xs).length := by rw [List.length_append]; omega
  rw [insertAt, insertAt, insertAt, List.take_append_of_le_length hle, List.drop_append_of_le_length hle, List.take_left' hlen,
    List.drop_left' hlen]
  simp only [List.append_assoc]

theorem insertAt_length (l values : List α) : insertAt l l.length values = l ++ values := by
  rw [insertAt, List.take_length, List.drop_length, List.append_nil]

theorem getElem?_eraseAt (l : List α) {p c : ℕ} (hp : p ≤ l.length) (i : ℕ) :
    (eraseAt l p c)[i]? = if i < p then l[i]? else l[i + c]? := by
  have hlen : (l.take p).length = p := by rw [List.length_take]; omega
  rw [eraseAt]
  split_ifs with h1
  · rw [List.getElem?_append_left (by omega), List.getElem?_take_of_lt h1]
  · rw [List.getElem?_append_right (by omega), List.getElem?_drop, hlen]
    congr 1
    omega

section
variable {data data' : List α} {m p c : ℕ}

/-- An array that has the old elements around the values holds the list with
the values inserted. -/
theorem take_eq_insertAt {values : List α} (hp : p ≤ m) (hm : m ≤ data.length)
    (hbefore : ∀ i < p, data'[i]? = data[i]?) (hnew : ∀ i < values.length, data'[p + i]? = values[i]?)
    (hafter : ∀ i, p + i < m → data'[p + values.length + i]? = data[p + i]?) :
    data'.take (m + values.length) = insertAt (data.take m) p values := by
  have hlen : (data.take m).length = m := by rw [List.length_take]; omega
  apply List.ext_getElem?
  intro i
  rw [getElem?_insertAt _ (hlen.symm ▸ hp), List.getElem?_take]
  split_ifs with h1 h2 h3 h3
  · rw [hbefore i h2, List.getElem?_take_of_lt (by omega)]
  · rw [← hnew (i - p) (by omega)]
    congr 1
    omega
  · have hold := hafter (i - (p + values.length)) (by omega)
    rw [Nat.add_sub_cancel' (by omega)] at hold
    rw [hold, List.getElem?_take_of_lt (by omega)]
    congr 1
    omega
  · omega
  · omega
  · rw [List.getElem?_eq_none (by rw [hlen]; omega)]

theorem take_eq_eraseAt (hp : p + c ≤ m) (hm : m ≤ data.length) (hbefore : ∀ i < p, data'[i]? = data[i]?)
    (hafter : ∀ i, p + c + i < m → data'[p + i]? = data[p + c + i]?) :
    data'.take (m - c) = eraseAt (data.take m) p c := by
  have hlen : (data.take m).length = m := by rw [List.length_take]; omega
  apply List.ext_getElem?
  intro i
  rw [getElem?_eraseAt _ (by omega), List.getElem?_take]
  split_ifs with h1 h2 h2
  · rw [hbefore i h2, List.getElem?_take_of_lt (by omega)]
  · have hold := hafter (i - p) (by omega)
    rw [Nat.add_sub_cancel' (by omega)] at hold
    rw [hold, List.getElem?_take_of_lt (by omega)]
    congr 1
    omega
  · omega
  · rw [List.getElem?_eq_none (by rw [hlen]; omega)]

theorem Moved.insert {left : α → α} {values data1 : List α} (h : Moved left (m - p) p (p + values.length) data data1)
    (hp : p ≤ m) (hm : m + values.length ≤ data.length) :
    ∃ data', write values p data1 = some data' ∧ data'.length = data.length ∧
      data'.take (m + values.length) = insertAt (data.take m) p values := by
  have hlen := h.length_eq
  have hfits : p + values.length ≤ data1.length := by omega
  obtain ⟨data', hwrite, hw⟩ := write_written hfits
  refine ⟨data', hwrite, hw.length_eq.trans hlen, take_eq_insertAt hp (by omega) (fun i hi => ?_) hw.written fun i hi => ?_⟩
  · rw [hw.outside i (.inl hi), h.outside i (by omega), if_neg (by omega)]
  · rw [hw.outside _ (.inr (Nat.le_add_right _ i)), h.arrived i (by omega)]

theorem Moved.erase {left : α → α} (h : Moved left (m - (p + c)) (p + c) p data data') (hp : p + c ≤ m)
    (hm : m ≤ data.length) (hc : 0 < c) : data'.take (m - c) = eraseAt (data.take m) p c := by
  refine take_eq_eraseAt hp hm (fun i hi => ?_) fun i hi => h.arrived i (by omega)
  rw [h.outside i (.inl hi), if_neg (by omega)]

/-- Values after the last one. -/
theorem take_write {values : List α} (hm : m + values.length ≤ data.length) :
    ∃ data', write values m data = some data' ∧ data'.length = data.length ∧
      data'.take (m + values.length) = data.take m ++ values := by
  have hmoved : Moved id (m - m) m (m + values.length) data data := by
    refine ⟨rfl, by simp, fun i _ => ?_⟩
    rw [if_neg (by omega)]
  obtain ⟨data', hwrite, hlen, htake⟩ := hmoved.insert le_rfl hm
  refine ⟨data', hwrite, hlen, ?_⟩
  rw [htake, insertAt, List.take_take, Nat.min_self, List.drop_take, Nat.sub_self, List.take_zero, List.append_nil]

end

-- ---------------------------------------------------------------------------
-- Arguments by reference
-- ---------------------------------------------------------------------------

/-- A value from elsewhere, or a reference to an element of the array. -/
inductive Arg (α : Type*)
  | value (a : α)
  | element (i : ℕ)

def Arg.read : Arg α → List α → Option α
  | .value a, _ => some a
  | .element i, data => data[i]?

/-- What moving from the argument does to the array. -/
def Arg.leave (left : α → α) : Arg α → List α → List α
  | .value _, data => data
  | .element i, data => data.modify i left

/-- `count` times the value of an argument. -/
def Arg.values (value : Arg α) (l : List α) (count : ℕ) : List α :=
  (value.read l).elim [] (List.replicate count)

theorem Arg.values_eq {value : Arg α} {l : List α} {a : α} (h : value.read l = some a) (count : ℕ) :
    value.values l count = List.replicate count a := by
  rw [Arg.values, h]
  rfl

end ArrayShift
