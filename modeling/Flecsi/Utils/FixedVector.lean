import Flecsi.Lib.ArrayShift
import Flecsi.Lib.Operations

/-!
# A vector in an array

`fixed_vector` keeps a list at the front of an array of `MAX_ENTRIES` elements.
Its routines shift elements of the array by hand. Positions stand for iterators.
-/

namespace Flecsi.Utils

open ArrayShift
open Operations (guard_bind)

variable {α : Type}

structure FixedVector (α : Type) where
  data : List α
  length : ℕ

/-- What an operation returns. -/
inductive Result
  | done
  | iterator (pos : ℕ)
  | equal (b : Bool)
  deriving DecidableEq

namespace FixedVector

section
variable (left : α → α) (v : FixedVector α)

def capacity : ℕ := v.data.length

/-- `_validate_iterator`. -/
def validate (pos : ℕ) : Option ℕ := if pos ≤ v.length then some pos else none

def assignCount (count : ℕ) (value : α) : Option (FixedVector α) := do
  guard (count ≤ v.capacity)
  let data ← write (List.replicate count value) 0 v.data
  return ⟨data, count⟩

/-- `assign` of an iterator range. -/
def assignRange (values : List α) : Option (FixedVector α) := do
  guard (values.length ≤ v.capacity)
  let data ← write values 0 v.data
  return ⟨data, values.length⟩

/-- `assign` of an initializer list. -/
def assignList (ilist : List α) : Option (FixedVector α) := v.assignRange ilist

/-- `count` elements are put at `dFirst`. The shift goes upwards; `read` gives the
values once it is done. -/
def place (dFirst count : ℕ) (read : List α → Option (List α × List α)) : Option (FixedVector α × ℕ) := do
  let data ← moveUp left (v.length - dFirst) dFirst (dFirst + count) v.data
  let (data, values) ← read data
  let data ← write values dFirst data
  return (⟨data, v.length + count⟩, dFirst)

def insert (pos : ℕ) (value : Arg α) : Option (FixedVector α × ℕ) := do
  guard (v.length < v.capacity)
  let dFirst ← v.validate pos
  v.place id dFirst 1 fun data => (value.read data).map fun a => (data, [a])

/-- `insert` of a `U &&`. -/
def insertMoved (pos : ℕ) (value : Arg α) : Option (FixedVector α × ℕ) := do
  guard (v.length < v.capacity)
  let dFirst ← v.validate pos
  v.place left dFirst 1 fun data => (value.read data).map fun a => (value.leave left data, [a])

def insertCount (pos count : ℕ) (value : Arg α) : Option (FixedVector α × ℕ) := do
  guard (v.length + count ≤ v.capacity)
  let dFirst ← v.validate pos
  if count = 0 then return (v, dFirst)
  v.place id dFirst count fun data => (value.read data).map fun a => (data, List.replicate count a)

def insertRange (pos : ℕ) (values : List α) : Option (FixedVector α × ℕ) := do
  let count := values.length
  guard (v.length + count ≤ v.capacity)
  let dFirst ← v.validate pos
  if count = 0 then return (v, dFirst)
  v.place left dFirst count fun data => some (data, values)

/-- The position is not validated here. -/
def insertList (pos : ℕ) (ilist : List α) : Option (FixedVector α × ℕ) := do
  let count := ilist.length
  guard (v.length + count ≤ v.capacity)
  if count = 0 then return (v, pos)
  v.place left pos count fun data => some (data, ilist)

/-- The new element is constructed from the argument after the shift. -/
def emplace (pos : ℕ) (value : Arg α) : Option (FixedVector α × ℕ) := do
  guard (v.length < v.capacity)
  let dFirst ← v.validate pos
  v.place left dFirst 1 fun data => (value.read data).map fun a => (data, [a])

def erase (pos : ℕ) : Option (FixedVector α × ℕ) :=
  if v.length = 0 then some (v, v.length)
  else do
    let dFirst ← v.validate pos
    let dLast := dFirst + 1
    let data ← (if dLast ≠ v.length then moveUp left (v.length - dLast) dLast dFirst v.data else some v.data)
    return (⟨data, v.length - 1⟩, dFirst)

/-- For an empty range the answer is `begin()`. -/
def eraseRange (first last : ℕ) : Option (FixedVector α × ℕ) :=
  if v.length = 0 then some (v, v.length)
  else if first = last then some (v, 0)
  else do
    let dFirst ← v.validate first
    let dLast ← v.validate last
    let data ← (if last ≠ v.length then moveUp left (v.length - dLast) dLast dFirst v.data else some v.data)
    return (⟨data, v.length - (last - first)⟩, dFirst)

def pushBack (value : Arg α) : Option (FixedVector α) := do
  guard (v.length < v.capacity)
  let a ← value.read v.data
  let data ← put v.data v.length a
  return ⟨data, v.length + 1⟩

def pushBackMoved (value : Arg α) : Option (FixedVector α) := do
  guard (v.length < v.capacity)
  let a ← value.read v.data
  let data ← put (value.leave left v.data) v.length a
  return ⟨data, v.length + 1⟩

def emplaceBack (value : Arg α) : Option (FixedVector α) := v.pushBack value

def popBack : FixedVector α := if v.length = 0 then v else { v with length := v.length - 1 }

def resize (count : ℕ) (value : Arg α) : Option (FixedVector α) := do
  guard (count ≤ v.capacity)
  let data ← (if v.length < count then
    (value.read v.data).bind fun a => write (List.replicate (count - v.length) a) v.length v.data
    else some v.data)
  return ⟨data, count⟩

def clear : FixedVector α := { v with length := 0 }

end

/-- `std::equal` of a range and what begins elsewhere. -/
def equalFrom [DecidableEq α] : List α → List α → Option Bool
  | [], _ => some true
  | _ :: _, [] => none
  | a :: as, b :: bs => if a = b then equalFrom as bs else some false

def equal [DecidableEq α] (lhs rhs : FixedVector α) : Option Bool := equalFrom (lhs.data.take lhs.length) rhs.data

inductive Op (α : Type)
  | assignCount (count : ℕ) (value : α)
  | assignRange (values : List α)
  | assignList (ilist : List α)
  | insert (pos : ℕ) (value : Arg α)
  | insertMoved (pos : ℕ) (value : Arg α)
  | insertCount (pos count : ℕ) (value : Arg α)
  | insertRange (pos : ℕ) (values : List α)
  | insertList (pos : ℕ) (ilist : List α)
  | emplace (pos : ℕ) (value : Arg α)
  | erase (pos : ℕ)
  | eraseRange (first last : ℕ)
  | pushBack (value : Arg α)
  | pushBackMoved (value : Arg α)
  | emplaceBack (value : Arg α)
  | popBack
  | resize (count : ℕ) (value : Arg α)
  | clear
  | swap
  | equal

/-- An operation on the first of two vectors. -/
def step [DecidableEq α] (left : α → α) (vs : FixedVector α × FixedVector α) (op : Op α) :
    Option ((FixedVector α × FixedVector α) × Result) :=
  let only (v : Option (FixedVector α)) := v.map fun v => ((v, vs.2), Result.done)
  let iter (v : Option (FixedVector α × ℕ)) := v.map fun v => ((v.1, vs.2), Result.iterator v.2)
  match op with
  | .assignCount count value => only (vs.1.assignCount count value)
  | .assignRange values => only (vs.1.assignRange values)
  | .assignList ilist => only (vs.1.assignList ilist)
  | .insert pos value => iter (vs.1.insert pos value)
  | .insertMoved pos value => iter (vs.1.insertMoved left pos value)
  | .insertCount pos count value => iter (vs.1.insertCount pos count value)
  | .insertRange pos values => iter (vs.1.insertRange left pos values)
  | .insertList pos ilist => iter (vs.1.insertList left pos ilist)
  | .emplace pos value => iter (vs.1.emplace left pos value)
  | .erase pos => iter (vs.1.erase left pos)
  | .eraseRange first last => iter (vs.1.eraseRange left first last)
  | .pushBack value => only (vs.1.pushBack value)
  | .pushBackMoved value => only (vs.1.pushBackMoved left value)
  | .emplaceBack value => only (vs.1.emplaceBack value)
  | .popBack => only (some vs.1.popBack)
  | .resize count value => only (vs.1.resize count value)
  | .clear => only (some vs.1.clear)
  | .swap => some ((vs.2, vs.1), .done)
  | .equal => (equal vs.1 vs.2).map fun b => (vs, .equal b)

-- ---------------------------------------------------------------------------
-- The same on lists
-- ---------------------------------------------------------------------------

/-- What `std::vector` does on the first of two lists, and returns. -/
def Op.onLists [DecidableEq α] (ls : List α × List α) (op : Op α) : (List α × List α) × Result :=
  let l := ls.1
  let only (l : List α) := ((l, ls.2), Result.done)
  let iter (l : List α) (pos : ℕ) := ((l, ls.2), Result.iterator pos)
  match op with
  | .assignCount count value => only (List.replicate count value)
  | .assignRange values => only values
  | .assignList ilist => only ilist
  | .insert pos value => iter (insertAt l pos (value.values l 1)) pos
  | .insertMoved pos value => iter (insertAt l pos (value.values l 1)) pos
  | .insertCount pos count value => iter (insertAt l pos (value.values l count)) pos
  | .insertRange pos values => iter (insertAt l pos values) pos
  | .insertList pos ilist => iter (insertAt l pos ilist) pos
  | .emplace pos value => iter (insertAt l pos (value.values l 1)) pos
  | .erase pos => iter (eraseAt l pos 1) pos
  | .eraseRange first last => iter (eraseAt l first (last - first)) first
  | .pushBack value => only (l ++ value.values l 1)
  | .pushBackMoved value => only (l ++ value.values l 1)
  | .emplaceBack value => only (l ++ value.values l 1)
  | .popBack => only l.dropLast
  | .resize count value => only (l.take count ++ value.values l (count - l.length))
  | .clear => only []
  | .swap => ((ls.2, ls.1), .done)
  | .equal => (ls, .equal (l = ls.2))

/-- The operation stays within the asserted bounds, with positions and elements
that there are. -/
def Op.InBounds (N : ℕ) (l : List α) : Op α → Prop
  | .assignCount count _ => count ≤ N
  | .assignRange values | .assignList values => values.length ≤ N
  | .insert pos value | .insertMoved pos value | .emplace pos value =>
    l.length < N ∧ pos ≤ l.length ∧ (value.read l).isSome
  | .insertCount pos count value => l.length + count ≤ N ∧ pos ≤ l.length ∧ (value.read l).isSome
  | .insertRange pos values | .insertList pos values => l.length + values.length ≤ N ∧ pos ≤ l.length
  | .erase pos => pos < l.length ∨ l = [] ∧ pos = 0
  | .eraseRange first last => first ≤ last ∧ last ≤ l.length
  | .pushBack value | .pushBackMoved value | .emplaceBack value => l.length < N ∧ (value.read l).isSome
  | .resize count value => count ≤ N ∧ (value.read l).isSome
  | .popBack | .clear | .swap | .equal => True

/-- The operation keeps away from what goes wrong: no more elements follow the
position than are inserted, an empty range is erased at the beginning only, and
vectors of different lengths differ within both. -/
def Op.Safe (ls : List α × List α) : Op α → Prop
  | .insert pos _ => ls.1.length - pos ≤ 1
  | .insertMoved pos value => ls.1.length - pos ≤ 1 ∧ ∀ i, value ≠ .element i
  | .insertCount pos count _ => count = 0 ∨ ls.1.length - pos ≤ count
  | .insertRange pos values | .insertList pos values => values = [] ∨ ls.1.length - pos ≤ values.length
  | .emplace pos value => ls.1.length - pos ≤ 1 ∧ value ≠ .element pos
  | .eraseRange first last => first = last → first = 0
  | .pushBackMoved value => ∀ i, value ≠ .element i
  | .equal => ls.1.length = ls.2.length ∨ ∃ i, i < ls.1.length ∧ i < ls.2.length ∧ ls.1[i]? ≠ ls.2[i]?
  | _ => True

/-- The vector has `N` places and holds the list. -/
structure Holds (v : FixedVector α) (N : ℕ) (l : List α) : Prop where
  capacity : v.data.length = N
  size : v.length = l.length
  contents : v.data.take l.length = l

-- ---------------------------------------------------------------------------
-- One operation
-- ---------------------------------------------------------------------------

section
variable {v : FixedVector α} {N : ℕ} {l : List α}

theorem Holds.length_le (hv : v.Holds N l) : l.length ≤ N := by
  have hlen := congrArg List.length hv.contents
  rw [List.length_take, hv.capacity] at hlen
  omega

theorem Holds.getElem? (hv : v.Holds N l) {i : ℕ} (hi : i < l.length) : v.data[i]? = l[i]? := by
  conv_rhs => rw [← hv.contents]
  rw [List.getElem?_take_of_lt hi]

theorem Holds.validate (hv : v.Holds N l) {pos : ℕ} (hpos : pos ≤ l.length) : v.validate pos = some pos :=
  if_pos (hv.size ▸ hpos)

theorem Holds.read (hv : v.Holds N l) {value : Arg α} {a : α} (ha : value.read l = some a) :
    value.read v.data = some a := by
  cases value with
  | value b => exact ha
  | element i => exact (hv.getElem? (List.getElem?_eq_some_iff.mp ha).1).trans ha

theorem Holds.room (hv : v.Holds N l) {c : ℕ} (hroom : l.length + c ≤ N) : v.length + c ≤ v.capacity := by
  rw [hv.size, FixedVector.capacity, hv.capacity]
  exact hroom

theorem Holds.notFull (hv : v.Holds N l) (hroom : l.length < N) : v.length < v.capacity := by
  rw [hv.size, FixedVector.capacity, hv.capacity]
  exact hroom

/-- Values written over the front of the array. -/
theorem Holds.write (hv : v.Holds N l) {values : List α} (h : values.length ≤ N) :
    ∃ data, ArrayShift.write values 0 v.data = some data ∧ Holds ⟨data, values.length⟩ N values := by
  have hN := hv.capacity
  refine ⟨_, write_eq (by omega), ?_, rfl, ?_⟩
  · simp only [List.take_zero, List.nil_append, Nat.zero_add, List.length_append, List.length_drop]
    omega
  · simp

theorem Holds.assignCount (hv : v.Holds N l) {count : ℕ} (value : α) (h : count ≤ N) :
    ∃ v', v.assignCount count value = some v' ∧ v'.Holds N (List.replicate count value) := by
  obtain ⟨data, hwrite, hv'⟩ := hv.write (List.length_replicate.symm ▸ h : (List.replicate count value).length ≤ N)
  rw [List.length_replicate] at hv'
  refine ⟨⟨data, count⟩, ?_, hv'⟩
  rw [FixedVector.assignCount, guard_bind (by rwa [FixedVector.capacity, hv.capacity]), hwrite]
  rfl

theorem Holds.assignRange (hv : v.Holds N l) {values : List α} (h : values.length ≤ N) :
    ∃ v', v.assignRange values = some v' ∧ v'.Holds N values := by
  obtain ⟨data, hwrite, hv'⟩ := hv.write h
  refine ⟨⟨data, values.length⟩, ?_, hv'⟩
  rw [FixedVector.assignRange, guard_bind (by rwa [FixedVector.capacity, hv.capacity]), hwrite]
  rfl

/-- The shift arrives, and what `read` gives is written before it. -/
theorem Holds.place (left : α → α) (values : List α) (read : List α → Option (List α × List α)) (hv : v.Holds N l)
    {pos : ℕ} (hpos : pos ≤ l.length) (hroom : l.length + values.length ≤ N) (hfew : l.length - pos ≤ values.length)
    (hread : ∀ data, Moved left (l.length - pos) pos (pos + values.length) v.data data → read data = some (data, values)) :
    ∃ v', v.place left pos values.length read = some (v', pos) ∧ v'.Holds N (insertAt l pos values) := by
  have hN := hv.capacity
  obtain ⟨data1, hshift, hmoved⟩ := @moveUp_eq α left (l.length - pos) pos (pos + values.length) v.data (by omega) (by omega)
    (by omega)
  obtain ⟨data', hwrite, hlen, htake⟩ := hmoved.insert hpos (by omega)
  refine ⟨⟨data', v.length + values.length⟩, ?_, by rw [hlen, hN], ?_, ?_⟩
  · rw [FixedVector.place, hv.size, hshift]
    simp [hread data1 hmoved, hwrite]
  · rw [length_insertAt l hpos, hv.size]
  · rw [length_insertAt l hpos, htake, hv.contents]

/-- A shift that copies does not change the argument. -/
theorem Holds.read_copied (hv : v.Holds N l) {pos c : ℕ} {data : List α} {value : Arg α} {a : α}
    (hmoved : Moved id (l.length - pos) pos (pos + c) v.data data) (hfew : l.length - pos ≤ c)
    (ha : value.read l = some a) : value.read data = some a := by
  cases value with
  | value b => exact ha
  | element i =>
    have hi : i < l.length := (List.getElem?_eq_some_iff.mp ha).1
    have hkept := hmoved.outside i (by omega)
    rw [Option.map_id, id, ite_self, hv.getElem? hi] at hkept
    exact hkept.trans ha

/-- A shift that moves changes only what follows the position. -/
theorem Holds.read_moved (hv : v.Holds N l) {left : α → α} {pos : ℕ} {data : List α} {value : Arg α} {a : α}
    (hmoved : Moved left (l.length - pos) pos (pos + 1) v.data data) (hfew : l.length - pos ≤ 1)
    (hne : value ≠ .element pos) (ha : value.read l = some a) : value.read data = some a := by
  cases value with
  | value b => exact ha
  | element i =>
    have hi : i < l.length := (List.getElem?_eq_some_iff.mp ha).1
    have hbefore : i < pos := by
      have hnot : i ≠ pos := fun heq => hne (heq ▸ rfl)
      omega
    have hkept := hmoved.outside i (by omega)
    rw [if_neg (by omega), hv.getElem? hi] at hkept
    exact hkept.trans ha

section
variable {pos : ℕ} {value : Arg α} {a : α} (hpos : pos ≤ l.length) (ha : value.read l = some a)
include hpos

theorem Holds.insertRange (left : α → α) (hv : v.Holds N l) {values : List α} (hroom : l.length + values.length ≤ N)
    (hfew : values = [] ∨ l.length - pos ≤ values.length) :
    ∃ v', v.insertRange left pos values = some (v', pos) ∧ v'.Holds N (insertAt l pos values) := by
  rw [FixedVector.insertRange]
  simp only [guard_bind (hv.room hroom), hv.validate hpos]
  cases values with
  | nil => exact ⟨v, rfl, by simpa [insertAt] using hv⟩
  | cons b values =>
    obtain ⟨v', hplace, hv'⟩ := hv.place left (b :: values) (fun data => some (data, b :: values)) hpos hroom
      (hfew.resolve_left (List.cons_ne_nil b values)) fun _ _ => rfl
    exact ⟨v', hplace, hv'⟩

theorem Holds.insertList (left : α → α) (hv : v.Holds N l) {ilist : List α} (hroom : l.length + ilist.length ≤ N)
    (hfew : ilist = [] ∨ l.length - pos ≤ ilist.length) :
    ∃ v', v.insertList left pos ilist = some (v', pos) ∧ v'.Holds N (insertAt l pos ilist) := by
  rw [FixedVector.insertList]
  simp only [guard_bind (hv.room hroom)]
  cases ilist with
  | nil => exact ⟨v, rfl, by simpa [insertAt] using hv⟩
  | cons b ilist =>
    obtain ⟨v', hplace, hv'⟩ := hv.place left (b :: ilist) (fun data => some (data, b :: ilist)) hpos hroom
      (hfew.resolve_left (List.cons_ne_nil b ilist)) fun _ _ => rfl
    exact ⟨v', hplace, hv'⟩

include ha

theorem Holds.insert (hv : v.Holds N l) (hroom : l.length < N) (hfew : l.length - pos ≤ 1) :
    ∃ v', v.insert pos value = some (v', pos) ∧ v'.Holds N (insertAt l pos [a]) := by
  obtain ⟨v', hplace, hv'⟩ := hv.place id [a] (fun data => (value.read data).map fun a => (data, [a])) hpos hroom hfew
    fun data hmoved => by
      rw [hv.read_copied hmoved hfew ha]
      rfl
  refine ⟨v', ?_, hv'⟩
  rw [FixedVector.insert, guard_bind (hv.notFull hroom), hv.validate hpos]
  exact hplace

theorem Holds.insertMoved (left : α → α) (hv : v.Holds N l) (hroom : l.length < N) (hfew : l.length - pos ≤ 1)
    (hne : ∀ i, value ≠ .element i) :
    ∃ v', v.insertMoved left pos value = some (v', pos) ∧ v'.Holds N (insertAt l pos [a]) := by
  cases value with
  | element i => exact absurd rfl (hne i)
  | value b =>
    obtain rfl : b = a := Option.some.inj ha
    obtain ⟨v', hplace, hv'⟩ := hv.place left [b] (fun data => some (data, [b])) hpos hroom hfew fun _ _ => rfl
    refine ⟨v', ?_, hv'⟩
    rw [FixedVector.insertMoved, guard_bind (hv.notFull hroom), hv.validate hpos]
    exact hplace

theorem Holds.emplace (left : α → α) (hv : v.Holds N l) (hroom : l.length < N) (hfew : l.length - pos ≤ 1)
    (hne : value ≠ .element pos) :
    ∃ v', v.emplace left pos value = some (v', pos) ∧ v'.Holds N (insertAt l pos [a]) := by
  obtain ⟨v', hplace, hv'⟩ := hv.place left [a] (fun data => (value.read data).map fun a => (data, [a])) hpos hroom hfew
    fun data hmoved => by
      rw [hv.read_moved hmoved hfew hne ha]
      rfl
  refine ⟨v', ?_, hv'⟩
  rw [FixedVector.emplace, guard_bind (hv.notFull hroom), hv.validate hpos]
  exact hplace

theorem Holds.insertCount (hv : v.Holds N l) {count : ℕ} (hroom : l.length + count ≤ N)
    (hfew : count = 0 ∨ l.length - pos ≤ count) :
    ∃ v', v.insertCount pos count value = some (v', pos) ∧ v'.Holds N (insertAt l pos (List.replicate count a)) := by
  rw [FixedVector.insertCount, guard_bind (hv.room hroom), hv.validate hpos]
  cases count with
  | zero => exact ⟨v, rfl, by simpa [insertAt] using hv⟩
  | succ count =>
    have hlen : (List.replicate (count + 1) a).length = count + 1 := List.length_replicate
    have hfew' := hfew.resolve_left (Nat.succ_ne_zero count)
    obtain ⟨v', hplace, hv'⟩ := hv.place id (List.replicate (count + 1) a)
      (fun data => (value.read data).map fun a => (data, List.replicate (count + 1) a)) hpos (by rwa [hlen]) (by rwa [hlen])
      fun data hmoved => by
        rw [hlen] at hmoved
        rw [hv.read_copied hmoved hfew' ha]
        rfl
    rw [hlen] at hplace
    exact ⟨v', hplace, hv'⟩

end

/-- The elements behind the range move to its place. -/
theorem Holds.close (left : α → α) (hv : v.Holds N l) {p c : ℕ} (hc : 0 < c) (hp : p + c ≤ l.length) :
    ∃ data, (if p + c ≠ v.length then moveUp left (v.length - (p + c)) (p + c) p v.data else some v.data) = some data ∧
      Holds ⟨data, v.length - c⟩ N (eraseAt l p c) := by
  have hN := hv.capacity
  have hle := hv.length_le
  obtain ⟨data, hshift, hmoved⟩ := @moveUp_eq α left (l.length - (p + c)) (p + c) p v.data (by omega) (by omega) (by omega)
  have hlen : (eraseAt l p c).length = l.length - c := by
    rw [eraseAt, List.length_append, List.length_take, List.length_drop]
    omega
  refine ⟨data, ?_, by rw [hmoved.length_eq, hN], by rw [hlen, hv.size], ?_⟩
  · rw [hv.size]
    split
    · exact hshift
    · have hend : l.length - (p + c) = 0 := by omega
      rwa [hend] at hshift
  · rw [hlen, hmoved.erase hp (by omega) hc, hv.contents]

theorem Holds.erase (left : α → α) (hv : v.Holds N l) {pos : ℕ} (hpos : pos < l.length ∨ l = [] ∧ pos = 0) :
    ∃ v', v.erase left pos = some (v', pos) ∧ v'.Holds N (eraseAt l pos 1) := by
  rw [FixedVector.erase]
  cases hpos with
  | inl hlt =>
    obtain ⟨data, hclose, hv'⟩ := hv.close left Nat.one_pos hlt
    rw [if_neg (by rw [hv.size]; omega), hv.validate hlt.le]
    simp only [Option.bind_eq_bind, Option.bind_some, hclose]
    exact ⟨_, rfl, hv'⟩
  | inr hempty =>
    obtain ⟨rfl, rfl⟩ := hempty
    have hzero : v.length = 0 := hv.size
    rw [if_pos hzero, hzero]
    exact ⟨v, rfl, hv⟩

theorem Holds.eraseRange (left : α → α) (hv : v.Holds N l) {first last : ℕ} (hle : first ≤ last) (hlast : last ≤ l.length)
    (hempty : first = last → first = 0) :
    ∃ v', v.eraseRange left first last = some (v', first) ∧ v'.Holds N (eraseAt l first (last - first)) := by
  rw [FixedVector.eraseRange]
  cases eq_or_ne first last with
  | inl heq =>
    subst heq
    obtain rfl := hempty rfl
    have hsame : eraseAt l 0 (0 - 0) = l := rfl
    rw [hsame, if_pos rfl]
    split
    · exact ⟨v, by simp_all, hv⟩
    · exact ⟨v, rfl, hv⟩
  | inr hne =>
    obtain ⟨data, hclose, hv'⟩ := @Holds.close α v N l left hv first (last - first) (by omega) (by omega)
    rw [Nat.add_sub_cancel' hle] at hclose
    rw [if_neg (by rw [hv.size]; omega), if_neg hne, hv.validate (hle.trans hlast), hv.validate hlast]
    simp only [Option.bind_eq_bind, Option.bind_some, hclose]
    exact ⟨_, rfl, hv'⟩

theorem Holds.append (hv : v.Holds N l) {values : List α} (hroom : l.length + values.length ≤ N) :
    ∃ data, ArrayShift.write values v.length v.data = some data ∧
      Holds ⟨data, v.length + values.length⟩ N (l ++ values) := by
  have hN := hv.capacity
  obtain ⟨data, hwrite, hlen, htake⟩ := @take_write α v.data l.length values (by omega)
  refine ⟨data, hv.size ▸ hwrite, by rw [hlen, hN], by rw [List.length_append, hv.size], ?_⟩
  rw [List.length_append, htake, hv.contents]

theorem Holds.pushBack (hv : v.Holds N l) {value : Arg α} {a : α} (hroom : l.length < N) (ha : value.read l = some a) :
    ∃ v', v.pushBack value = some v' ∧ v'.Holds N (l ++ [a]) := by
  obtain ⟨data, hwrite, hv'⟩ := @Holds.append α v N l hv [a] hroom
  rw [ArrayShift.write] at hwrite
  obtain ⟨data', hput, hdata⟩ := Option.bind_eq_some_iff.mp hwrite
  obtain rfl := Option.some.inj hdata
  refine ⟨_, ?_, hv'⟩
  rw [FixedVector.pushBack, guard_bind (hv.notFull hroom), hv.read ha]
  simp [hput]

theorem Holds.pushBackMoved (left : α → α) (hv : v.Holds N l) {value : Arg α} {a : α} (hroom : l.length < N)
    (ha : value.read l = some a) (hne : ∀ i, value ≠ .element i) :
    ∃ v', v.pushBackMoved left value = some v' ∧ v'.Holds N (l ++ [a]) := by
  cases value with
  | element i => exact absurd rfl (hne i)
  | value b => exact hv.pushBack hroom ha

theorem Holds.truncate (hv : v.Holds N l) {count : ℕ} (h : count ≤ l.length) : Holds ⟨v.data, count⟩ N (l.take count) where
  capacity := hv.capacity
  size := by rw [List.length_take, Nat.min_eq_left h]
  contents := by
    conv_rhs => rw [← hv.contents]
    rw [List.take_take, List.length_take]

theorem Holds.popBack (hv : v.Holds N l) : v.popBack.Holds N l.dropLast := by
  rw [FixedVector.popBack, List.dropLast_eq_take]
  have htruncate := hv.truncate (Nat.sub_le l.length 1)
  split
  · have hnil : l = [] := List.length_eq_zero_iff.mp (hv.size ▸ ‹v.length = 0›)
    subst hnil
    exact hv
  · rw [hv.size]
    exact htruncate

theorem Holds.resize (hv : v.Holds N l) {count : ℕ} {value : Arg α} {a : α} (h : count ≤ N) (ha : value.read l = some a) :
    ∃ v', v.resize count value = some v' ∧ v'.Holds N (l.take count ++ List.replicate (count - l.length) a) := by
  rw [FixedVector.resize, guard_bind (by rwa [FixedVector.capacity, hv.capacity])]
  cases Nat.lt_or_ge l.length count with
  | inl hlt =>
    have hlen : (List.replicate (count - l.length) a).length = count - l.length := List.length_replicate
    obtain ⟨data, hwrite, hv'⟩ := @Holds.append α v N l hv (List.replicate (count - l.length) a) (by omega)
    have hcount : v.length + (count - l.length) = count := by rw [hv.size]; omega
    rw [hlen, hcount] at hv'
    rw [List.take_of_length_le hlt.le, if_pos (hv.size ▸ hlt), hv.read ha, Option.bind_some, ← hv.size] at *
    exact ⟨_, by simp [hwrite], hv'⟩
  | inr hge =>
    rw [if_neg (by rw [hv.size]; omega), Nat.sub_eq_zero_of_le hge, List.replicate_zero, List.append_nil]
    exact ⟨_, rfl, hv.truncate hge⟩

end

theorem equalFrom_eq [DecidableEq α] {as bs : List α} (h : as.length ≤ bs.length) :
    equalFrom as bs = some (decide (as = bs.take as.length)) := by
  induction as generalizing bs with
  | nil => rfl
  | cons a as ih =>
    cases bs with
    | nil => exact absurd h (Nat.not_succ_le_zero _)
    | cons b bs =>
      rw [equalFrom, ih (Nat.le_of_succ_le_succ h)]
      split <;> simp_all

theorem Holds.equal [DecidableEq α] {v w : FixedVector α} {N : ℕ} {l k : List α} (hv : v.Holds N l) (hw : w.Holds N k)
    (h : l.length = k.length ∨ ∃ i, i < l.length ∧ i < k.length ∧ l[i]? ≠ k[i]?) :
    FixedVector.equal v w = some (decide (l = k)) := by
  have hle : l.length ≤ w.data.length := hw.capacity.symm ▸ hv.length_le
  rw [FixedVector.equal, hv.size, hv.contents, equalFrom_eq hle]
  congr 1
  cases h with
  | inl hlen => rw [hlen, hw.contents]
  | inr hdiffer =>
    obtain ⟨i, hi, hi', hne⟩ := hdiffer
    have hfront : l ≠ w.data.take l.length := by
      intro heq
      apply hne
      rw [← hw.getElem? hi', heq, List.getElem?_take_of_lt hi]
    have hlists : l ≠ k := fun heq => hne (heq ▸ rfl)
    simp only [hfront, hlists]

-- ---------------------------------------------------------------------------
-- All operations
-- ---------------------------------------------------------------------------

/-- Two vectors hold two lists. -/
def HoldBoth (N : ℕ) (vs : FixedVector α × FixedVector α) (ls : List α × List α) : Prop :=
  vs.1.Holds N ls.1 ∧ vs.2.Holds N ls.2

/-- What an operation may be applied to. -/
def Op.Ok (N : ℕ) (ls : List α × List α) (op : Op α) : Prop := op.InBounds N ls.1 ∧ op.Safe ls

section
variable [DecidableEq α] (left : α → α)

theorem step_eq {N : ℕ} {vs : FixedVector α × FixedVector α} {ls : List α × List α} {op : Op α}
    (hvs : HoldBoth N vs ls) (hop : op.Ok N ls) :
    ∃ vs', step left vs op = some (vs', (op.onLists ls).2) ∧ HoldBoth N vs' (op.onLists ls).1 := by
  obtain ⟨v, w⟩ := vs
  obtain ⟨l, k⟩ := ls
  obtain ⟨hv, hw⟩ := hvs
  obtain ⟨hin, hsafe⟩ := hop
  have honly {v' : Option (FixedVector α)} {l' : List α} (h : ∃ v1, v' = some v1 ∧ v1.Holds N l') :
      ∃ vs', (v'.map fun v => ((v, w), Result.done)) = some (vs', Result.done) ∧ HoldBoth N vs' (l', k) := by
    obtain ⟨v1, rfl, hv1⟩ := h
    exact ⟨(v1, w), rfl, hv1, hw⟩
  have hiter {v' : Option (FixedVector α × ℕ)} {l' : List α} {pos : ℕ} (h : ∃ v1, v' = some (v1, pos) ∧ v1.Holds N l') :
      ∃ vs', (v'.map fun v => ((v.1, w), Result.iterator v.2)) = some (vs', Result.iterator pos) ∧
        HoldBoth N vs' (l', k) := by
    obtain ⟨v1, rfl, hv1⟩ := h
    exact ⟨(v1, w), rfl, hv1, hw⟩
  cases op with
  | assignCount count value => exact honly (hv.assignCount value hin)
  | assignRange values => exact honly (hv.assignRange hin)
  | assignList ilist => exact honly (hv.assignRange hin)
  | insert pos value =>
    obtain ⟨hroom, hpos, hread⟩ := hin
    obtain ⟨a, ha⟩ := Option.isSome_iff_exists.mp hread
    rw [Op.onLists, Arg.values_eq ha]
    exact hiter (hv.insert hpos ha hroom hsafe)
  | insertMoved pos value =>
    obtain ⟨hroom, hpos, hread⟩ := hin
    obtain ⟨a, ha⟩ := Option.isSome_iff_exists.mp hread
    rw [Op.onLists, Arg.values_eq ha]
    exact hiter (hv.insertMoved hpos ha left hroom hsafe.1 hsafe.2)
  | insertCount pos count value =>
    obtain ⟨hroom, hpos, hread⟩ := hin
    obtain ⟨a, ha⟩ := Option.isSome_iff_exists.mp hread
    rw [Op.onLists, Arg.values_eq ha]
    exact hiter (hv.insertCount hpos ha hroom hsafe)
  | insertRange pos values => exact hiter (hv.insertRange hin.2 left hin.1 hsafe)
  | insertList pos ilist => exact hiter (hv.insertList hin.2 left hin.1 hsafe)
  | emplace pos value =>
    obtain ⟨hroom, hpos, hread⟩ := hin
    obtain ⟨a, ha⟩ := Option.isSome_iff_exists.mp hread
    rw [Op.onLists, Arg.values_eq ha]
    exact hiter (hv.emplace hpos ha left hroom hsafe.1 hsafe.2)
  | erase pos => exact hiter (hv.erase left hin)
  | eraseRange first last => exact hiter (hv.eraseRange left hin.1 hin.2 hsafe)
  | pushBack value =>
    obtain ⟨a, ha⟩ := Option.isSome_iff_exists.mp hin.2
    rw [Op.onLists, Arg.values_eq ha]
    exact honly (hv.pushBack hin.1 ha)
  | pushBackMoved value =>
    obtain ⟨a, ha⟩ := Option.isSome_iff_exists.mp hin.2
    rw [Op.onLists, Arg.values_eq ha]
    exact honly (hv.pushBackMoved left hin.1 ha hsafe)
  | emplaceBack value =>
    obtain ⟨a, ha⟩ := Option.isSome_iff_exists.mp hin.2
    rw [Op.onLists, Arg.values_eq ha]
    exact honly (hv.pushBack hin.1 ha)
  | popBack => exact ⟨_, rfl, hv.popBack, hw⟩
  | resize count value =>
    obtain ⟨a, ha⟩ := Option.isSome_iff_exists.mp hin.2
    rw [Op.onLists, Arg.values_eq ha]
    exact honly (hv.resize hin.1 ha)
  | clear => exact ⟨_, rfl, hv.truncate (Nat.zero_le _), hw⟩
  | swap => exact ⟨_, rfl, hw, hv⟩
  | equal =>
    refine ⟨(v, w), ?_, hv, hw⟩
    rw [step, hv.equal hw hsafe]
    rfl

abbrev Allowed (N : ℕ) : List α × List α → List (Op α) → Prop :=
  Operations.Allowed (Op.Ok N) fun ls op => (op.onLists ls).1

/-- The lists of two vectors after any operations, and all that these return,
are those of `std::vector`. -/
theorem run_refines {N : ℕ} {vs : FixedVector α × FixedVector α} {ls : List α × List α} (hvs : HoldBoth N vs ls)
    {ops : List (Op α)} (hops : Allowed N ls ops) :
    ∃ vs', Operations.run (Operations.logged (step left)) (vs, []) ops =
        some (vs', (ops.foldl (Operations.loggedSpec Op.onLists) (ls, [])).2) ∧
      HoldBoth N vs' (ops.foldl (Operations.loggedSpec Op.onLists) (ls, [])).1 := by
  refine Operations.refines_logged (fun vs ls op hvs hop => ?_) hvs hops
  exact step_eq left hvs hop

end

def fresh (N : ℕ) : FixedVector ℕ := ⟨List.replicate N 0, 0⟩

theorem holdBoth_fresh (N : ℕ) : HoldBoth N (fresh N, fresh N) ([], []) :=
  ⟨⟨List.length_replicate, rfl, rfl⟩, ⟨List.length_replicate, rfl, rfl⟩⟩

theorem run_refines_three :
    ∃ vs', Operations.run (Operations.logged (step id)) ((fresh 3, fresh 3), [])
        [.pushBack (.value 1), .insert 0 (.value 2), .erase 1] =
        some (vs', [.done, .iterator 0, .iterator 1]) ∧ HoldBoth 3 vs' ([2], []) := by
  have hops : Allowed 3 ([], []) [.pushBack (.value 1), .insert 0 (.value 2), .erase 1] :=
    ⟨⟨⟨by decide, rfl⟩, trivial⟩, ⟨⟨by decide, by decide, rfl⟩, Nat.le_refl 1⟩, ⟨.inl (by decide), trivial⟩, trivial⟩
  exact run_refines id (holdBoth_fresh 3) hops

/-- Two elements follow the position of an insertion, an empty range is erased
behind the beginning, and a vector is a proper prefix of another. -/
theorem not_refined :
    ((Op.insert 0 (.value 9)).InBounds 3 [1, 2] ∧
      ¬∃ v', FixedVector.insert ⟨[1, 2, 0], 2⟩ 0 (.value 9) = some (v', 0) ∧ v'.Holds 3 (insertAt [1, 2] 0 [9])) ∧
    ((Op.eraseRange 1 1 : Op ℕ).InBounds 3 [1, 2] ∧ ¬∃ v', FixedVector.eraseRange id ⟨[1, 2, 0], 2⟩ 1 1 = some (v', 1)) ∧
    FixedVector.equal ⟨[1, 2, 0], 1⟩ ⟨[1, 2, 0], 2⟩ = some true := by
  refine ⟨⟨⟨by decide, by decide, rfl⟩, ?_⟩, ⟨⟨by decide, by decide⟩, ?_⟩, rfl⟩
  · rintro ⟨v', hinsert, hv'⟩
    obtain rfl : ⟨[9, 1, 1], 3⟩ = v' := congrArg Prod.fst (Option.some.inj hinsert)
    exact absurd hv'.contents (by decide)
  · rintro ⟨v', herase⟩
    have hpos : 0 = 1 := congrArg Prod.snd (Option.some.inj herase)
    exact absurd hpos (by decide)

end FixedVector

end Flecsi.Utils
