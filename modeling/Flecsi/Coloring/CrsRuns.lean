import Flecsi.Coloring.CrsErase
import Flecsi.Lib.Operations

/-!
# Rows added and erased

What a `crs_t` holds after any sequence of its operations. An appended range
becomes a row only when it is not empty.
-/

namespace Flecsi.Coloring

open PackedBuffer

namespace Crs

def empty : Crs := ⟨[], []⟩

/-- The first row brings the leading zero with it. -/
def append (c : Crs) (row : List ℕ) : Crs :=
  if row = [] then c
  else
    let c := if c.offsets = [] then { c with offsets := [0] } else c
    c.appendRow (c.offsets.getLastD 0) row

def appendValue (c : Crs) (value : ℕ) : Crs := c.append [value]

def pushBack (c : Crs) (init : List ℕ) : Crs := c.append init

/-- `at`, with its assertion. -/
def rowAt (c : Crs) (i : ℕ) : Option (List ℕ) := if i < c.size then some (c.row i) else none

inductive Op
  | append (row : List ℕ)
  | appendValue (value : ℕ)
  | pushBack (init : List ℕ)
  | erase (ids : List ℕ)
  | clear

def step (c : Crs) : Op → Option Crs
  | .append row => some (c.append row)
  | .appendValue value => some (c.appendValue value)
  | .pushBack init => some (c.pushBack init)
  | .erase ids => c.erase ids
  | .clear => some empty

-- ---------------------------------------------------------------------------
-- The list of rows
-- ---------------------------------------------------------------------------

/-- The operation on a list of rows. -/
def Op.onRows (rows : List (List ℕ)) : Op → List (List ℕ)
  | .append row => rows ++ [row]
  | .appendValue value => rows ++ [[value]]
  | .pushBack init => rows ++ [init]
  | .erase ids => atPositions (· ∉ ids) rows
  | .clear => []

/-- Erased rows are named in increasing order and exist. -/
def Op.Ok (rows : List (List ℕ)) : Op → Prop
  | .erase ids => ids.Pairwise (· < ·) ∧ ∀ i ∈ ids, i < rows.length
  | _ => True

def Op.AddsEmptyRow : Op → Prop
  | .append row => row = []
  | .pushBack init => init = []
  | _ => False

abbrev Allowed : List (List ℕ) → List Op → Prop := Operations.Allowed Op.Ok Op.onRows

/-- `c` holds the given rows. -/
structure Holds (c : Crs) (rows : List (List ℕ)) : Prop where
  size_eq : c.size = rows.length
  rows_eq : c.rows = rows
  rowAt_eq : ∀ i, c.rowAt i = rows[i]?
  first : c.offsets ≠ [] → c.offsets.head? = some 0
  sorted : c.offsets.Pairwise (· ≤ ·)
  last : c.offsets ≠ [] → c.offsets.getLast? = some c.indices.length

/-- The storage of given rows, without the leading zero before the first
operation. -/
def Stores (c : Crs) (rows : List (List ℕ)) : Prop := c = ofRows rows ∨ c = empty ∧ rows = []

theorem rowAt_eq (c : Crs) (i : ℕ) : c.rowAt i = c.rows[i]? := by
  rw [rowAt, rows, List.getElem?_map]
  cases Nat.lt_or_ge i c.size with
  | inl h => rw [if_pos h, List.getElem?_range h, Option.map_some]
  | inr h => rw [if_neg h.not_gt, List.getElem?_eq_none (by simpa using h), Option.map_none]

theorem holds_ofRows (rows : List (List ℕ)) : (ofRows rows).Holds rows where
  size_eq := size_ofRows rows
  rows_eq := rows_ofRows rows
  rowAt_eq i := by rw [rowAt_eq, rows_ofRows]
  first _ := by simp [ofRows, displs]
  sorted := pairwise_displs _
  last _ := by rw [ofRows, getLast?_displs, List.length_flatten]

theorem holds_empty : empty.Holds [] where
  size_eq := rfl
  rows_eq := rfl
  rowAt_eq _ := rfl
  first := by simp [empty]
  sorted := List.Pairwise.nil
  last := by simp [empty]

theorem Stores.holds {c : Crs} {rows : List (List ℕ)} (h : c.Stores rows) : c.Holds rows := by
  cases h with
  | inl h => exact h ▸ holds_ofRows rows
  | inr h => exact h.1 ▸ h.2 ▸ holds_empty

-- ---------------------------------------------------------------------------
-- One operation
-- ---------------------------------------------------------------------------

theorem append_ofRows (rows : List (List ℕ)) {row : List ℕ} (h : row ≠ []) :
    (ofRows rows).append row = ofRows (rows ++ [row]) := by
  have hoffsets : (ofRows rows).offsets ≠ [] := List.ne_nil_of_length_pos (by simp [ofRows])
  rw [append, if_neg h]
  simp only [if_neg hoffsets]
  rw [getLastD_ofRows, appendRow_ofRows]

theorem append_empty {row : List ℕ} (h : row ≠ []) : empty.append row = (ofRows []).append row := by
  rw [append, append, if_neg h, if_neg h]
  rfl

theorem Stores.append {c : Crs} {rows : List (List ℕ)} (hc : c.Stores rows) {row : List ℕ} (h : row ≠ []) :
    (c.append row).Stores (rows ++ [row]) := by
  cases hc with
  | inl hc => exact .inl (hc ▸ append_ofRows rows h)
  | inr hc =>
    obtain ⟨rfl, rfl⟩ := hc
    rw [append_empty h]
    exact .inl (append_ofRows [] h)

theorem Stores.erase {c : Crs} {rows : List (List ℕ)} (hc : c.Stores rows) {ids : List ℕ}
    (hs : ids.Pairwise (· < ·)) (hlt : ∀ i ∈ ids, i < rows.length) :
    ∃ c', c.erase ids = some c' ∧ c'.Stores (atPositions (· ∉ ids) rows) := by
  cases hc with
  | inl hc =>
    subst hc
    have herase := erase_eq (wellFormed_ofRows rows) hs (by rwa [size_ofRows])
    rw [rows_ofRows] at herase
    exact ⟨_, herase, .inl rfl⟩
  | inr hc =>
    obtain ⟨rfl, rfl⟩ := hc
    have hnil : ids = [] := List.eq_nil_iff_forall_not_mem.mpr fun i hi => Nat.not_lt_zero i (hlt i hi)
    subst hnil
    exact ⟨empty, rfl, .inr ⟨rfl, rfl⟩⟩

theorem Stores.step {c : Crs} {rows : List (List ℕ)} (hc : c.Stores rows) {op : Op} (hok : op.Ok rows)
    (hadds : ¬op.AddsEmptyRow) : ∃ c', c.step op = some c' ∧ c'.Stores (op.onRows rows) := by
  cases op with
  | append row => exact ⟨_, rfl, hc.append hadds⟩
  | appendValue value => exact ⟨_, rfl, hc.append (List.cons_ne_nil value [])⟩
  | pushBack init => exact ⟨_, rfl, hc.append hadds⟩
  | erase ids => exact hc.erase hok.1 hok.2
  | clear => exact ⟨empty, rfl, .inr ⟨rfl, rfl⟩⟩

/-- An empty range leaves the storage as it is. -/
theorem step_of_addsEmptyRow (c : Crs) {op : Op} (h : op.AddsEmptyRow) : c.step op = some c := by
  cases op with
  | append row => exact congrArg some (if_pos h)
  | pushBack init => exact congrArg some (if_pos h)
  | appendValue | erase | clear => exact h.elim

theorem length_onRows {op : Op} (h : op.AddsEmptyRow) (rows : List (List ℕ)) :
    (op.onRows rows).length = rows.length + 1 := by
  cases op with
  | append | pushBack => exact List.length_append
  | appendValue | erase | clear => exact h.elim

-- ---------------------------------------------------------------------------
-- All operations
-- ---------------------------------------------------------------------------

theorem run_stores {ops : List Op} (hops : Allowed [] ops) (hadds : ∀ op ∈ ops, ¬op.AddsEmptyRow) :
    ∃ c, Operations.run step empty ops = some c ∧ c.Stores (ops.foldl Op.onRows []) := by
  have hstart : empty.Stores [] := .inr ⟨rfl, rfl⟩
  refine Operations.refines (fun c rows op hc hok => ?_) hstart (hops.and_forall hadds)
  exact hc.step hok.1 hok.2

/-- A sequence of operations goes on holding the right rows as long as no empty
row is added, and no longer. -/
theorem run_holds_iff {ops : List Op} (hops : Allowed [] ops) :
    (∀ before, before <+: ops → ∃ c, Operations.run step empty before = some c ∧ c.Holds (before.foldl Op.onRows [])) ↔
      ∀ op ∈ ops, ¬op.AddsEmptyRow := by
  constructor
  · intro hholds op hmem hadds
    obtain ⟨before, after, rfl⟩ := List.append_of_mem hmem
    obtain ⟨c, hc, hrows⟩ := hholds before (List.prefix_append _ _)
    have hprefix : before ++ [op] <+: before ++ op :: after := ⟨after, by simp⟩
    obtain ⟨c', hc', hrows'⟩ := hholds (before ++ [op]) hprefix
    rw [Operations.run_concat, hc, Option.bind_some, step_of_addsEmptyRow c hadds] at hc'
    obtain rfl := Option.some.inj hc'
    have hlength := hrows'.size_eq
    rw [List.foldl_concat, length_onRows hadds, hrows.size_eq] at hlength
    exact Nat.succ_ne_self _ hlength.symm
  · rintro hadds before ⟨after, rfl⟩
    obtain ⟨hbefore, -⟩ := Operations.allowed_append.mp hops
    obtain ⟨c, hc, hstores⟩ := run_stores hbefore fun op hmem => hadds op (List.mem_append_left _ hmem)
    exact ⟨c, hc, hstores.holds⟩

theorem run_holds_iff_pair :
    (∀ before, before <+: [Op.append [4], .pushBack [5, 6], .erase [0]] →
      ∃ c, Operations.run step empty before = some c ∧ c.Holds (before.foldl Op.onRows [])) ↔
      ∀ op ∈ [Op.append [4], .pushBack [5, 6], .erase [0]], ¬op.AddsEmptyRow :=
  run_holds_iff ⟨trivial, trivial, ⟨by decide, by decide⟩, trivial⟩

/-- The empty row is not there. -/
theorem emptyRow_lost : ¬∃ c, Operations.run step empty [.pushBack []] = some c ∧ c.Holds ([Op.pushBack []].foldl Op.onRows []) := by
  rintro ⟨c, hc, hrows⟩
  obtain rfl : empty = c := Option.some.inj hc
  exact absurd hrows.size_eq (by decide)

end Crs

end Flecsi.Coloring
