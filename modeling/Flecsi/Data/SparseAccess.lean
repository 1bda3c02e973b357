import Flecsi.Data.RowVector
import Flecsi.Lib.SortedArray

/-!
# Sparse rows

A sparse field keeps, for each index, the entries that there are with their
values, sorted by entry. The mutator creates and erases entries, the accessor
looks them up.
-/

namespace Flecsi.Data.Sparse

open ArrayShift SortedArray

variable {T : Type}

/-- `sparse_entry_value_u`. -/
structure EntryValue (T : Type) where
  entry : ℕ
  value : T
  deriving DecidableEq

abbrev Row (T : Type) := RowVectorU (EntryValue T)
abbrev Handle (T : Type) := RaggedHandle (EntryValue T)

-- ---------------------------------------------------------------------------
-- Looking up
-- ---------------------------------------------------------------------------

def lower_bound (row : Row T) (entry : ℕ) : ℕ := lowerBound EntryValue.entry entry row.values

/-- `itr != row.end() && itr->entry == entry`. -/
def isEntry (row : Row T) (itr entry : ℕ) : Bool := (row.values[itr]?).any fun ev => ev.entry = entry

namespace Handle

variable (handle : Handle T)

def contains (index entry : ℕ) : Option Bool := do
  let row ← handle.row index
  let itr := lower_bound row entry
  return isEntry row itr entry

/-- `operator()` of the accessor. -/
def get (index entry : ℕ) : Option T := do
  let row ← handle.row index
  let itr := lower_bound row entry
  guard (isEntry row itr entry)
  let ev ← row.values[itr]?
  return ev.value

/-- What `value_ptr` points to, and `exists`. -/
def at_ (index entry : ℕ) : Option (Option T × Bool) := do
  let row ← handle.row index
  let itr := lower_bound row entry
  if isEntry row itr entry then return ((row.values[itr]?).map EntryValue.value, true)
  else return (none, false)

/-- The entries of a row are collected unless they were found before. -/
def collect (is : List ℕ × Finset ℕ) (ev : EntryValue T) : List ℕ × Finset ℕ :=
  if ev.entry ∈ is.2 then is else (is.1 ++ [ev.entry], insert ev.entry is.2)

/-- `entries()`. -/
def entries : List ℕ :=
  ((List.range handle.num_total).foldl (fun is index => (handle.rows index).values.foldl collect is) ([], ∅)).1

/-- `entries(index)`. -/
def entriesAt (index : ℕ) : Option (List ℕ) := do
  guard (index < handle.num_total)
  return (handle.rows index).values.foldl (fun is ev => is ++ [ev.entry]) []

/-- `indices()`. -/
def indices : List ℕ :=
  (List.range handle.num_total).foldl (fun is index => if (handle.rows index).count ≠ 0 then is ++ [index] else is) []

/-- `indices(entry)`. -/
def indicesOf (entry : ℕ) : Option (List ℕ) :=
  (List.range handle.num_total).foldlM (fun is index => do
    let row ← handle.row index
    let itr := lower_bound row entry
    return if isEntry row itr entry then is ++ [index] else is) []

-- ---------------------------------------------------------------------------
-- Changing
-- ---------------------------------------------------------------------------

/-- `operator()` of the mutator, with the place of the value that it refers to;
`init` is `T()`. -/
def ref (init : T) (memory : ℕ → EntryValue T) (index entry : ℕ) : Option (Handle T × ℕ) := do
  let row ← handle.row index
  let itr := lower_bound row entry
  if isEntry row itr entry then return (handle, itr)
  else
    let (row, ritr) ← row.insert memory itr (.value ⟨entry, init⟩)
    return (handle.setRow index row, ritr)

def erase (index entry : ℕ) : Option (Handle T) := do
  let row ← handle.row index
  let itr := lower_bound row entry
  if isEntry row itr entry then
    let row ← row.erase itr
    return handle.setRow index row
  else return handle

/-- The value at a place is changed. -/
def update (index itr : ℕ) (f : T → T) : Option (Handle T) := do
  let row ← handle.row index
  let ev ← row.values[itr]?
  let row ← row.set itr { ev with value := f ev.value }
  return handle.setRow index row

end Handle

/-- What is done through a mutator: `mutator(index, entry)` is changed, or the
entry erased. -/
inductive Op (T : Type)
  | write (index entry : ℕ) (memory : ℕ → EntryValue T) (f : T → T)
  | erase (index entry : ℕ)

def Op.index : Op T → ℕ
  | .write index _ _ _ | .erase index _ => index

def Op.entry : Op T → ℕ
  | .write _ entry _ _ | .erase _ entry => entry

def step (init : T) (handle : Handle T) : Op T → Option (Handle T)
  | .write index entry memory f => do
    let (handle, itr) ← Handle.ref handle init memory index entry
    Handle.update handle index itr f
  | .erase index entry => Handle.erase handle index entry

-- ---------------------------------------------------------------------------
-- Finite maps
-- ---------------------------------------------------------------------------

/-- What an operation does to the entry that it names. -/
def Op.onValue (init : T) (value : Option T) : Op T → Option T
  | .write _ _ _ f => some (f (value.getD init))
  | .erase _ _ => none

/-- The map of the row of its index is changed at its entry. -/
def Op.onMaps (init : T) (maps : ℕ → ℕ → Option T) (op : Op T) : ℕ → ℕ → Option T :=
  Function.update maps op.index (Function.update (maps op.index) op.entry (op.onValue init (maps op.index op.entry)))

/-- The entries of the list, sorted, with their values. -/
structure IsMap (l : List (EntryValue T)) (m : ℕ → Option T) : Prop where
  sorted : Sorted EntryValue.entry l
  mem : ∀ ev, ev ∈ l ↔ m ev.entry = some ev.value

structure Represents (handle : Handle T) (maps : ℕ → ℕ → Option T) : Prop where
  valid : ∀ i < handle.num_total, (handle.rows i).Valid
  isMap : ∀ i < handle.num_total, IsMap (handle.rows i).values (maps i)

/-- The operation is on an index that there is, and creates no entry in a full
row whose capacity cannot grow. -/
def Op.Ok (handle : Handle T) : Op T → Prop
  | .write index entry _ _ => index < handle.num_total ∧
    ((∀ ev ∈ (handle.rows index).values, ev.entry ≠ entry) → (handle.rows index).Growable)
  | .erase index _ => index < handle.num_total

-- ---------------------------------------------------------------------------
-- One row
-- ---------------------------------------------------------------------------

section
variable {row : Row T} {m : ℕ → Option T} {entry : ℕ}

theorem IsMap.cut (h : IsMap row.values m) (entry : ℕ) : Cut EntryValue.entry entry row.values (lower_bound row entry) :=
  lowerBound_cut h.sorted entry

/-- The place of an entry that there is. -/
theorem IsMap.found (h : IsMap row.values m) {v : T} (hv : m entry = some v) :
    row.values[lower_bound row entry]? = some ⟨entry, v⟩ := by
  have hmem : (⟨entry, v⟩ : EntryValue T) ∈ row.values := (h.mem ⟨entry, v⟩).mpr hv
  exact (h.cut entry).getElem?_eq h.sorted hmem rfl

theorem IsMap.absent (h : IsMap row.values m) (hv : m entry = none) {ev : EntryValue T} (hev : ev ∈ row.values) :
    ev.entry ≠ entry := by
  rintro rfl
  rw [(h.mem ev).mp hev] at hv
  cases hv

theorem IsMap.isEntry_eq (h : IsMap row.values m) (entry : ℕ) :
    isEntry row (lower_bound row entry) entry = (m entry).isSome := by
  cases hv : m entry with
  | some v => simp [isEntry, h.found hv]
  | none =>
    cases hr : row.values[lower_bound row entry]? with
    | none => simp [isEntry, hr]
    | some ev => simp [isEntry, hr, h.absent hv (List.mem_of_getElem? hr)]

/-- A list that differs in what it has for one entry. -/
theorem IsMap.change {l l' : List (EntryValue T)} (h : IsMap l m) (hs : Sorted EntryValue.entry l') {value : Option T}
    (hmem : ∀ ev, ev ∈ l' ↔ (ev.entry = entry ∧ value = some ev.value) ∨ ev ∈ l ∧ ev.entry ≠ entry) :
    IsMap l' (Function.update m entry value) := by
  refine ⟨hs, fun ev => ?_⟩
  rw [hmem, h.mem]
  cases eq_or_ne ev.entry entry with
  | inl heq => simp [heq]
  | inr hne => simp [hne]

theorem eq_entry_iff {ev : EntryValue T} {v : T} : ev = ⟨entry, v⟩ ↔ ev.entry = entry ∧ some v = some ev.value := by
  cases ev
  simp [eq_comm]

theorem IsMap.insert (h : IsMap row.values m) (hv : m entry = none) (v : T) :
    IsMap (insertAt row.values (lower_bound row entry) [⟨entry, v⟩]) (Function.update m entry (some v)) := by
  refine h.change ((h.cut entry).insert h.sorted rfl fun ev hev => h.absent hv hev) fun ev => ?_
  rw [mem_insertAt, eq_entry_iff]
  exact or_congr_right ⟨fun hev => ⟨hev, h.absent hv hev⟩, And.left⟩

theorem IsMap.set (h : IsMap row.values m) {itr : ℕ} {v : T} (hv : row.values[itr]? = some ⟨entry, v⟩) (w : T) :
    IsMap (row.values.set itr ⟨entry, w⟩) (Function.update m entry (some w)) := by
  have hs : Sorted EntryValue.entry (row.values.set itr ⟨entry, w⟩) := h.sorted.set hv rfl
  refine h.change hs fun ev => ?_
  rw [h.sorted.mem_set hv, eq_entry_iff]

theorem IsMap.erase (h : IsMap row.values m) {v : T} (hv : m entry = some v) :
    IsMap (eraseAt row.values (lower_bound row entry) 1) (Function.update m entry none) := by
  refine h.change (h.sorted.eraseAt _ _) fun ev => ?_
  rw [h.sorted.mem_eraseAt (h.found hv)]
  simp

end

-- ---------------------------------------------------------------------------
-- One operation
-- ---------------------------------------------------------------------------

section
variable {handle : Handle T} {maps : ℕ → ℕ → Option T} {index entry : ℕ}

theorem Represents.setRow (h : Represents handle maps) {row : Row T} {m : ℕ → Option T} (hrow : row.Valid)
    (hm : IsMap row.values m) : Represents (handle.setRow index row) (Function.update maps index m) := by
  refine ⟨fun i hi => ?_, fun i hi => ?_⟩
  · cases eq_or_ne i index with
    | inl heq =>
      subst heq
      simpa only [RaggedHandle.setRow_rows_self] using hrow
    | inr hne => simpa only [RaggedHandle.setRow_rows_of_ne _ _ _ hne] using h.valid i hi
  · cases eq_or_ne i index with
    | inl heq =>
      subst heq
      simpa only [RaggedHandle.setRow_rows_self, Function.update_self] using hm
    | inr hne => simpa only [RaggedHandle.setRow_rows_of_ne _ _ _ hne, Function.update_of_ne hne] using h.isMap i hi

/-- An entry that there is is referred to, and nothing changes. -/
theorem Represents.ref_found (h : Represents handle maps) (hi : index < handle.num_total) {v : T}
    (hv : maps index entry = some v) (init : T) (memory : ℕ → EntryValue T) :
    Handle.ref handle init memory index entry = some (handle, lower_bound (handle.rows index) entry) ∧
      (handle.rows index).values[lower_bound (handle.rows index) entry]? = some ⟨entry, v⟩ := by
  refine ⟨?_, (h.isMap index hi).found hv⟩
  rw [Handle.ref, RaggedHandle.row_eq hi]
  simp [(h.isMap index hi).isEntry_eq, hv]

/-- An entry that there is not is created. -/
theorem Represents.ref_new (h : Represents handle maps) (hi : index < handle.num_total) (hv : maps index entry = none)
    (hg : (handle.rows index).Growable) (init : T) (memory : ℕ → EntryValue T) :
    ∃ row, Handle.ref handle init memory index entry =
        some (handle.setRow index row, lower_bound (handle.rows index) entry) ∧ row.Valid ∧
      row.values = insertAt (handle.rows index).values (lower_bound (handle.rows index) entry) [⟨entry, init⟩] ∧
      row.capacity = (handle.rows index).nextCapacity := by
  have hmap := h.isMap index hi
  have hvalid := h.valid index hi
  have hle := (hmap.cut entry).le_length
  rw [hvalid.length_values] at hle
  have hread : (Arg.value ⟨entry, init⟩).read (handle.rows index).values = some (⟨entry, init⟩ : EntryValue T) := rfl
  obtain ⟨row, hinsert, hrow⟩ := hvalid.insert memory hg hle hread nofun
  refine ⟨row, ?_, hrow⟩
  rw [Handle.ref, RaggedHandle.row_eq hi]
  simp only [Option.bind_eq_bind, Option.bind_some, hmap.isEntry_eq, hv, Option.isSome_none, Bool.false_eq_true, if_false]
  rw [hinsert]
  rfl

theorem Represents.update (h : Represents handle maps) (hi : index < handle.num_total) {itr : ℕ} {v : T}
    (hv : (handle.rows index).values[itr]? = some ⟨entry, v⟩) (f : T → T) :
    ∃ row, Handle.update handle index itr f = some (handle.setRow index row) ∧ row.Valid ∧
      row.values = (handle.rows index).values.set itr ⟨entry, f v⟩ ∧ row.capacity = (handle.rows index).capacity := by
  have hvalid := h.valid index hi
  obtain ⟨hlt, _⟩ := List.getElem?_eq_some_iff.mp hv
  rw [hvalid.length_values] at hlt
  obtain ⟨row, hset, hrow⟩ := hvalid.set hlt ⟨entry, f v⟩
  refine ⟨row, ?_, hrow⟩
  rw [Handle.update, RaggedHandle.row_eq hi]
  simp only [Option.bind_eq_bind, Option.bind_some, hv, hset]
  rfl

/-- A new entry takes the row to its next capacity. -/
theorem Represents.write_new (h : Represents handle maps) (hi : index < handle.num_total) (hv : maps index entry = none)
    (hg : (handle.rows index).Growable) (init : T) (memory : ℕ → EntryValue T) (f : T → T) :
    ∃ row, step init handle (.write index entry memory f) = some (handle.setRow index row) ∧ row.Valid ∧
      IsMap row.values (Function.update (maps index) entry (some (f init))) ∧
      row.count = (handle.rows index).count + 1 ∧ row.capacity = (handle.rows index).nextCapacity := by
  obtain ⟨row1, href, hrow1, hvalues1, hcap1⟩ := h.ref_new hi hv hg init memory
  have hmap := h.isMap index hi
  have hle := (hmap.cut entry).le_length
  have hmap1 : IsMap row1.values (Function.update (maps index) entry (some init)) := hvalues1 ▸ hmap.insert hv init
  have hself := handle.setRow_rows_self index row1
  have hfound : ((handle.setRow index row1).rows index).values[lower_bound (handle.rows index) entry]? = some ⟨entry, init⟩ := by
    rw [hself, hvalues1, getElem?_insertAt_self _ hle]
  obtain ⟨row, hupdate, hrow, hvalues, hcap⟩ := (h.setRow hrow1 hmap1).update hi hfound f
  rw [RaggedHandle.setRow_setRow] at hupdate
  rw [hself] at hvalues hcap hfound
  have hmap2 := hmap1.set hfound (f init)
  rw [← hvalues, Function.update_idem] at hmap2
  refine ⟨row, ?_, hrow, hmap2, ?_, hcap.trans hcap1⟩
  · rw [step, href]
    exact hupdate
  · rw [← hrow.length_values, hvalues, List.length_set, hvalues1, length_insertAt _ hle, (h.valid index hi).length_values]
    rfl

theorem Represents.write_old (h : Represents handle maps) (hi : index < handle.num_total) {v : T}
    (hv : maps index entry = some v) (init : T) (memory : ℕ → EntryValue T) (f : T → T) :
    ∃ row, step init handle (.write index entry memory f) = some (handle.setRow index row) ∧ row.Valid ∧
      IsMap row.values (Function.update (maps index) entry (some (f v))) := by
  obtain ⟨href, hfound⟩ := h.ref_found hi hv init memory
  obtain ⟨row, hupdate, hrow, hvalues, _⟩ := h.update hi hfound f
  refine ⟨row, ?_, hrow, hvalues ▸ (h.isMap index hi).set hfound (f v)⟩
  rw [step, href]
  exact hupdate

theorem Represents.erase (h : Represents handle maps) (hi : index < handle.num_total) (entry : ℕ) :
    ∃ row, Handle.erase handle index entry = some (handle.setRow index row) ∧ row.Valid ∧
      IsMap row.values (Function.update (maps index) entry none) := by
  have hmap := h.isMap index hi
  have hvalid := h.valid index hi
  cases hv : maps index entry with
  | none =>
    refine ⟨handle.rows index, ?_, hvalid, ?_⟩
    · rw [RaggedHandle.setRow_rows, Handle.erase, RaggedHandle.row_eq hi]
      simp [hmap.isEntry_eq, hv]
    · rw [← hv, Function.update_eq_self]
      exact hmap
  | some v =>
    have hfound := hmap.found hv
    obtain ⟨hlt, _⟩ := List.getElem?_eq_some_iff.mp hfound
    rw [hvalid.length_values] at hlt
    obtain ⟨row, herase, hrow, hvalues⟩ := hvalid.erase hlt
    refine ⟨row, ?_, hrow, hvalues ▸ hmap.erase hv⟩
    rw [Handle.erase, RaggedHandle.row_eq hi]
    simp [hmap.isEntry_eq, hv, herase]

/-- An operation changes the row of its index only, and there the entry that it
names. -/
theorem step_represents (h : Represents handle maps) {op : Op T} (hop : op.Ok handle) (init : T) :
    ∃ row, step init handle op = some (handle.setRow op.index row) ∧
      Represents (handle.setRow op.index row) (op.onMaps init maps) := by
  cases op with
  | write index entry memory f =>
    obtain ⟨hi, hgrow⟩ := hop
    cases hv : maps index entry with
    | none =>
      have hg := hgrow fun ev hev => (h.isMap index hi).absent hv hev
      obtain ⟨row, hstep, hrow, hmap, _⟩ := h.write_new hi hv hg init memory f
      refine ⟨row, hstep, ?_⟩
      simp only [Op.onMaps, Op.index, Op.entry, Op.onValue, hv, Option.getD_none]
      exact h.setRow hrow hmap
    | some v =>
      obtain ⟨row, hstep, hrow, hmap⟩ := h.write_old hi hv init memory f
      refine ⟨row, hstep, ?_⟩
      simp only [Op.onMaps, Op.index, Op.entry, Op.onValue, hv, Option.getD_some]
      exact h.setRow hrow hmap
  | erase index entry =>
    obtain ⟨row, hstep, hrow, hmap⟩ := h.erase hop entry
    exact ⟨row, hstep, h.setRow hrow hmap⟩

end

end Flecsi.Data.Sparse
