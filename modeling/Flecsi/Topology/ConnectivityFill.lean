import Flecsi.Topology.Connectivity
import Flecsi.Topology.IndexSpace

/-!
# Filling a connectivity

All rows at once, one id after another with the rows ended in between, or all counts
first and then every id in its place. Offsets and counts have 32 bits.
-/

namespace Flecsi.Topology.ConnectivityFill

open PackedBuffer

/-- `offset_storage_`. -/
abbrev OffsetStorage := List UInt32

namespace OffsetStorage

def add_count (s : OffsetStorage) (count : UInt32) : OffsetStorage :=
  let s := if s.isEmpty then s ++ [0] else s
  s ++ [s.getLastD 0 + count]

/-- The last offset is read also when there is none yet. -/
def add_end (s : OffsetStorage) (last : ℕ) : Option OffsetStorage := do
  let back ← s.getLast?
  if last > back.toNat then some (add_count s (.ofNat (last - back.toNat))) else none

end OffsetStorage

/-- `connectivity_t`. -/
structure Conn where
  offsets : OffsetStorage
  ids : List ℕ
  deriving DecidableEq

namespace Conn

def clear (_ : Conn) : Conn := ⟨[], []⟩

def push (c : Conn) (id : ℕ) : Conn := { c with ids := c.ids ++ [id] }

def init (c : Conn) (cv : List (List ℕ)) : Conn :=
  cv.foldl (fun c iv =>
    let c := iv.foldl push c
    { c with offsets := c.offsets.add_count (.ofNat iv.length) }) c.clear

def resize (c : Conn) (num_conns : List ℕ) : Conn :=
  let (offsets, size) := num_conns.foldl (fun (s : OffsetStorage × ℕ) num =>
    let count := UInt32.ofNat num
    (s.1.add_count count, s.2 + count.toNat)) (c.clear.offsets, 0)
  ⟨offsets, List.replicate size 0⟩

def set (c : Conn) (from_local_id to_id pos : ℕ) : Conn :=
  { c with ids := c.ids.set ((c.offsets.getD from_local_id 0).toNat + pos) to_id }

def end_from (c : Conn) : Option Conn := do
  let offsets ← c.offsets.add_end c.ids.length
  some { c with offsets }

def from_size (c : Conn) : ℕ := if c.offsets.length = 0 then 0 else c.offsets.length - 1

/-- `get_entities(i)`, with its assertion. -/
def get_entities (c : Conn) (i : ℕ) : Option (List ℕ) := do
  let o ← c.offsets[i]?
  let last ← c.offsets[i + 1]?
  span c.ids o.toNat (last - o).toNat

end Conn

/-- Each row is pushed and ended. -/
def pushRows (c : Conn) (cv : List (List ℕ)) : Option Conn :=
  cv.foldlM (fun c iv => (iv.foldl Conn.push c).end_from) c.clear

/-- The entries as `set` takes them. -/
def entries (cv : List (List ℕ)) : List (ℕ × ℕ × ℕ) :=
  cv.zipIdx.flatMap fun row => row.1.zipIdx.map fun id => (row.2, id.1, id.2)

/-- Counts first, then each entry. -/
def setEntries (c : Conn) (cv : List (List ℕ)) (order : List (ℕ × ℕ × ℕ)) : Conn :=
  order.foldl (fun c entry => c.set entry.1 entry.2.1 entry.2.2) (c.resize (cv.map List.length))

/-- The connectivity has the rows. -/
structure HasRows (c : Conn) (cv : List (List ℕ)) : Prop where
  from_size : c.from_size = cv.length
  rows : ∀ i iv, cv[i]? = some iv → c.get_entities i = some iv

/-- Setting the entries in any order fills the connectivity as `init` does. -/
structure Filled (c : Conn) (cv : List (List ℕ)) : Prop where
  set : ∀ order, order.Perm (entries cv) → setEntries c cv order = c.init cv
  rows : HasRows (c.init cv) cv

/-- All three ways do the same. -/
def Agree (c : Conn) (cv : List (List ℕ)) : Prop := pushRows c cv = some (c.init cv) ∧ Filled c cv

-- ---------------------------------------------------------------------------
-- Offsets
-- ---------------------------------------------------------------------------

theorem getLastD_addCount (s : List ℕ) (count : ℕ) : (addCount s count).getLastD 0 = s.getLastD 0 + count := by
  have hzero : (if s.isEmpty then s ++ [0] else s).getLastD 0 = s.getLastD 0 := by
    cases s with
    | nil => rfl
    | cons a s => rfl
  rw [addCount, List.getLastD_concat, hzero]

theorem getLastD_foldl (counts : List ℕ) : (counts.foldl addCount []).getLastD 0 = counts.sum := by
  induction counts using List.reverseRecOn with
  | nil => rfl
  | append_singleton counts count ih =>
    rw [List.foldl_append, List.foldl_cons, List.foldl_nil, getLastD_addCount, ih, List.sum_append, List.sum_singleton]

theorem map_add_count (s : OffsetStorage) (count : UInt32) (h : (s.getLastD 0).toNat + count.toNat < 2 ^ 32) :
    (s.add_count count).map UInt32.toNat = addCount (s.map UInt32.toNat) count.toNat := by
  cases s using List.reverseRecOn with
  | nil => simp [OffsetStorage.add_count, addCount]
  | append_singleton s a =>
    rw [List.getLastD_concat] at h
    simp [OffsetStorage.add_count, addCount]
    omega

theorem toNat_getLastD (s : OffsetStorage) : (s.getLastD 0).toNat = (s.map UInt32.toNat).getLastD 0 := by
  cases s using List.reverseRecOn with
  | nil => rfl
  | append_singleton s a => rw [List.map_append, List.map_singleton, List.getLastD_concat, List.getLastD_concat]

theorem map_foldl_add_count {counts : List ℕ} (h : counts.sum < 2 ^ 32) :
    (counts.foldl (fun s count => OffsetStorage.add_count s (.ofNat count)) []).map UInt32.toNat = counts.foldl addCount [] := by
  induction counts using List.reverseRecOn with
  | nil => rfl
  | append_singleton counts count ih =>
    rw [List.sum_append, List.sum_singleton] at h
    have hcount : (UInt32.ofNat count).toNat = count := UInt32.toNat_ofNat_of_lt' (by change count < 2 ^ 32; omega)
    have hprefix := ih (by omega)
    have hlast : ((counts.foldl (fun s count => OffsetStorage.add_count s (.ofNat count)) []).getLastD 0).toNat = counts.sum := by
      rw [toNat_getLastD, hprefix, getLastD_foldl]
    rw [List.foldl_append, List.foldl_append, List.foldl_cons, List.foldl_cons, List.foldl_nil, List.foldl_nil, map_add_count _ _
      (by rw [hlast, hcount]; exact h), hprefix, hcount]

-- ---------------------------------------------------------------------------
-- All rows at once
-- ---------------------------------------------------------------------------

section
variable (c : Conn) {cv : List (List ℕ)}

theorem foldl_push (c : Conn) (iv : List ℕ) : iv.foldl Conn.push c = { c with ids := c.ids ++ iv } := by
  induction iv generalizing c with
  | nil => simp
  | cons id iv ih => simp [ih, Conn.push]

theorem init_eq (cv : List (List ℕ)) :
    c.init cv = ⟨(cv.map List.length).foldl (fun s count => OffsetStorage.add_count s (.ofNat count)) [], cv.flatten⟩ := by
  rw [Conn.init, Conn.clear]
  induction cv using List.reverseRecOn with
  | nil => rfl
  | append_singleton cv iv ih =>
    rw [List.foldl_append, ih, List.map_append, List.foldl_append, List.flatten_append]
    simp [foldl_push]

theorem offsets_init (h : cv.flatten.length < 2 ^ 32) :
    (c.init cv).offsets.map UInt32.toNat = (Connectivity.init cv).offsets := by
  rw [List.length_flatten] at h
  rw [init_eq, Connectivity.init_eq, map_foldl_add_count h]

theorem length_offsets (h : cv.flatten.length < 2 ^ 32) (hne : cv ≠ []) : (c.init cv).offsets.length = cv.length + 1 := by
  have hlen := congrArg List.length (offsets_init c h)
  rw [List.length_map] at hlen
  rw [hlen, Connectivity.init_eq, Connectivity.foldl_addCount (by simpa using hne), length_displs, List.length_map]

/-- Where row `k` begins. -/
theorem offset_init (h : cv.flatten.length < 2 ^ 32) {k : ℕ} (hk : k ≤ cv.length) (hne : cv ≠ []) :
    ∃ o, (c.init cv).offsets[k]? = some o ∧ o.toNat = (cv.take k).flatten.length := by
  have hlt : k < (c.init cv).offsets.length := by rw [length_offsets c h hne]; omega
  refine ⟨_, List.getElem?_eq_getElem hlt, ?_⟩
  have hget := Connectivity.offsets_init hk
  rw [← offsets_init c h, List.getD_eq_getElem _ _ (by simpa using hlt), List.getElem_map] at hget
  exact hget

theorem hasRows_init (h : cv.flatten.length < 2 ^ 32) : HasRows (c.init cv) cv where
  from_size := by
    cases cv with
    | nil => rfl
    | cons iv cv => rw [Conn.from_size, length_offsets c h (by simp), if_neg (by simp), Nat.add_sub_cancel]
  rows i iv hiv := by
    obtain ⟨hlt, hget⟩ := List.getElem?_eq_some_iff.mp hiv
    have hne : cv ≠ [] := List.ne_nil_of_length_pos (Nat.zero_lt_of_lt hlt)
    obtain ⟨o, ho, hstart⟩ := offset_init c h hlt.le hne
    obtain ⟨last, hlast, hend⟩ := @offset_init c cv h (i + 1) hlt hne
    have hsucc : (cv.take (i + 1)).flatten.length = (cv.take i).flatten.length + iv.length := by
      rw [← List.take_append_getElem hlt, List.flatten_append, List.length_append, List.flatten_singleton, hget]
    have hcount : (last - o).toNat = iv.length := by
      rw [UInt32.toNat_sub_of_le _ _ (UInt32.le_iff_toNat_le.mpr (by omega))]
      omega
    have hrow : iv <+: cv.flatten.drop (cv.take i).flatten.length := by
      rw [flatten_split cv hlt, hget, List.append_assoc, List.drop_left]
      exact List.prefix_append _ _
    have hids : (c.init cv).ids = cv.flatten := by rw [init_eq]
    simp only [Conn.get_entities, ho, hlast, Option.bind_eq_bind, Option.bind_some, hcount, hstart, hids]
    exact span_eq hrow

-- ---------------------------------------------------------------------------
-- Counts first
-- ---------------------------------------------------------------------------

theorem resize_foldl (counts : List ℕ) (s : OffsetStorage) (size : ℕ) :
    counts.foldl (fun (s : OffsetStorage × ℕ) num =>
      let count := UInt32.ofNat num
      (s.1.add_count count, s.2 + count.toNat)) (s, size) =
    (counts.foldl (fun s count => OffsetStorage.add_count s (.ofNat count)) s,
      size + (counts.map fun num => (UInt32.ofNat num).toNat).sum) := by
  induction counts generalizing s size with
  | nil => rfl
  | cons num counts ih => rw [List.foldl_cons, ih, List.foldl_cons, List.map_cons, List.sum_cons, Nat.add_assoc]

theorem resize_eq (h : cv.flatten.length < 2 ^ 32) :
    c.resize (cv.map List.length) = ⟨(c.init cv).offsets, List.replicate cv.flatten.length 0⟩ := by
  have hcounts : ((cv.map List.length).map fun num => (UInt32.ofNat num).toNat) = cv.map List.length := by
    rw [List.length_flatten] at h
    conv_rhs => rw [← List.map_id (cv.map List.length)]
    apply List.map_congr_left
    intro num hnum
    have hle := List.single_le_sum (by simp) num hnum
    exact UInt32.toNat_ofNat_of_lt' (by change num < 2 ^ 32; omega)
  rw [Conn.resize, resize_foldl, hcounts, Nat.zero_add, ← List.length_flatten, init_eq]
  rfl

/-- Where an entry goes. -/
def place (cv : List (List ℕ)) (entry : ℕ × ℕ × ℕ) : ℕ := (cv.take entry.1).flatten.length + entry.2.2

theorem mem_entries {entry : ℕ × ℕ × ℕ} (h : entry ∈ entries cv) :
    ∃ iv, cv[entry.1]? = some iv ∧ iv[entry.2.2]? = some entry.2.1 := by
  obtain ⟨⟨iv, i⟩, hrow, hentry⟩ := List.mem_flatMap.mp h
  obtain ⟨⟨id, pos⟩, hid, rfl⟩ := List.mem_map.mp hentry
  exact ⟨iv, List.mem_zipIdx_iff_getElem?.mp hrow, List.mem_zipIdx_iff_getElem?.mp hid⟩

theorem entries_concat (cv : List (List ℕ)) (iv : List ℕ) :
    entries (cv ++ [iv]) = entries cv ++ iv.zipIdx.map fun id => (cv.length, id.1, id.2) := by
  rw [entries, List.zipIdx_append, List.flatMap_append]
  simp [entries]

theorem map_place (cv : List (List ℕ)) : (entries cv).map (place cv) = List.range cv.flatten.length := by
  induction cv using List.reverseRecOn with
  | nil => rfl
  | append_singleton cv iv ih =>
    have hbefore : (entries cv).map (place (cv ++ [iv])) = (entries cv).map (place cv) := by
      apply List.map_congr_left
      intro entry hentry
      obtain ⟨iv', hiv, -⟩ := mem_entries hentry
      obtain ⟨hlt, -⟩ := List.getElem?_eq_some_iff.mp hiv
      rw [place, place, List.take_append_of_le_length hlt.le]
    have hlast : (iv.zipIdx.map fun id => (cv.length, id.1, id.2)).map (place (cv ++ [iv])) =
        (List.range iv.length).map (cv.flatten.length + ·) := by
      rw [List.map_map, List.range_eq_range', ← List.zipIdx_map_snd 0 iv, List.map_map]
      apply List.map_congr_left
      intro id _
      simp [place]
    rw [entries_concat, List.map_append, hbefore, ih, hlast, List.flatten_append, List.flatten_singleton, List.length_append,
      List.range_add]

/-- An entry lies at its place, and the offsets lead there. -/
theorem place_spec (h : cv.flatten.length < 2 ^ 32) {entry : ℕ × ℕ × ℕ} (hentry : entry ∈ entries cv) :
    ((c.init cv).offsets.getD entry.1 0).toNat + entry.2.2 = place cv entry ∧
      cv.flatten.getD (place cv entry) 0 = entry.2.1 := by
  obtain ⟨iv, hiv, hid⟩ := mem_entries hentry
  obtain ⟨hlt, hget⟩ := List.getElem?_eq_some_iff.mp hiv
  obtain ⟨hpos, -⟩ := List.getElem?_eq_some_iff.mp hid
  obtain ⟨o, ho, hstart⟩ := offset_init c h hlt.le (List.ne_nil_of_length_pos (Nat.zero_lt_of_lt hlt))
  refine ⟨?_, ?_⟩
  · rw [List.getD_eq_getElem?_getD, ho, Option.getD_some, hstart, place]
  · rw [List.getD_eq_getElem?_getD, place, flatten_split cv hlt, hget, List.append_assoc, List.getElem?_append_right
      (Nat.le_add_right _ _), Nat.add_sub_cancel_left, List.getElem?_append_left hpos, hid]
    rfl

theorem foldl_set (h : cv.flatten.length < 2 ^ 32) {order : List (ℕ × ℕ × ℕ)} (horder : ∀ entry ∈ order, entry ∈ entries cv)
    (ids : List ℕ) :
    order.foldl (fun c entry => c.set entry.1 entry.2.1 entry.2.2) ⟨(c.init cv).offsets, ids⟩ =
      (⟨(c.init cv).offsets, (order.map (place cv)).foldl (fun l k => l.set k (cv.flatten.getD k 0)) ids⟩ : Conn) := by
  induction order generalizing ids with
  | nil => rfl
  | cons entry order ih =>
    obtain ⟨hplace, hvalue⟩ := place_spec c h (horder entry List.mem_cons_self)
    rw [List.foldl_cons, Conn.set, hplace, ih fun e he => horder e (List.mem_cons_of_mem entry he), List.map_cons,
      List.foldl_cons, hvalue]

theorem setEntries_eq (h : cv.flatten.length < 2 ^ 32) {order : List (ℕ × ℕ × ℕ)} (horder : order.Perm (entries cv)) :
    setEntries c cv order = c.init cv := by
  have hplaces : (order.map (place cv)).Perm (List.range cv.flatten.length) := map_place cv ▸ horder.map (place cv)
  rw [setEntries, resize_eq c h, foldl_set c h fun entry hentry => horder.mem_iff.mp hentry,
    IndexSpace.foldl_set_perm _ hplaces List.length_replicate, init_eq]
  congr 1
  apply List.ext_getElem
  · simp
  · intro i hi hi'
    rw [List.getElem_map, List.getElem_range, List.getD_eq_getElem _ _ hi']

theorem filled (h : cv.flatten.length < 2 ^ 32) : Filled c cv := ⟨fun _ => setEntries_eq c h, hasRows_init c h⟩

-- ---------------------------------------------------------------------------
-- One id after another
-- ---------------------------------------------------------------------------

end

end Flecsi.Topology.ConnectivityFill
