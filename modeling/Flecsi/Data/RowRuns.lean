import Flecsi.Data.RowSequences
import Flecsi.Data.RowVector

/-!
# Runs over rows

The rows of a handle hold lists through any sequence of operations, and are
written and read back without loss.
-/

namespace Flecsi.Data

open ArrayShift ByteCast

variable {α : Type}

/-- The row as its bytes. -/
def RowVectorU.image (layout : Layout α) (row : RowVectorU α) : Execution.Sparse.RowVector :=
  ⟨row.count, row.capacity, layout.pack row.datap⟩

/-- The entries in the bytes of a row. -/
def entries (layout : Layout α) (row : Execution.Sparse.RowVector) : List α := layout.unpack row.count row.storage

section
variable {layout : Layout α} {row : RowVectorU α}

theorem RowVectorU.Valid.image (h : row.Valid) (layout : Layout α) : Allocated layout.size (row.image layout) := by
  refine ⟨⟨h.count_le, ?_⟩, h.capacity_lt⟩
  rw [RowVectorU.image, layout.length_pack, h.length_eq]

theorem RowVectorU.bytes_image (layout : Layout α) (row : RowVectorU α) :
    (row.image layout).bytes layout.size = layout.pack row.values := by
  rw [values, layout.pack_take]
  rfl

/-- A row that has come back has the values. -/
theorem RowVectorU.Valid.entries_restored (h : row.Valid) {row' : Execution.Sparse.RowVector}
    (hrow' : Restored layout.size (row.image layout) row') : entries layout row' = row.values := by
  have hbytes := hrow'.bytes_eq.trans (row.bytes_image layout)
  have hsplit : row'.storage = layout.pack row.values ++ row'.storage.drop (row'.count * layout.size) := by
    rw [← hbytes]
    exact (List.take_append_drop _ _).symm
  have hcount : row'.count = row.values.length := hrow'.count_eq.trans h.length_values.symm
  rw [entries, hsplit, hcount, layout.unpack_pack]

end

section
variable {handle : RaggedHandle α} {lists : ℕ → List (Option α)}

/-- After any operations that keep away from what goes wrong, each row has room
for its elements and holds its list, and rows in any sequence are written and
read back without loss just when the bytes of each are counted in 32 bits. -/
theorem rows_refine (layout : Layout α) (h : handle.Holds lists) {calls : List (Call α)}
    (hcalls : Operations.Permitted Call.Ok step handle calls) :
    ∃ handle', Operations.run step handle calls = some handle' ∧ handle'.num_total = handle.num_total ∧
      handle'.Holds (calls.foldl Call.onLists lists) ∧
      (∀ indices : List ℕ, (∀ i ∈ indices, i < handle.num_total) →
        (Lossless layout.size (indices.map fun i => (handle'.rows i).image layout) ↔
          ∀ i ∈ indices, (handle'.rows i).count * layout.size < 2 ^ 32)) ∧
      ∀ i < handle.num_total, ∀ row', Restored layout.size ((handle'.rows i).image layout) row' →
        entries layout row' = (handle'.rows i).values := by
  have hstep (now : RaggedHandle α) (lists : ℕ → List (Option α)) (call : Call α)
      (hnow : now.num_total = handle.num_total ∧ now.Holds lists) (hok : call.Ok now) :
      ∃ next, step now call = some next ∧ next.num_total = handle.num_total ∧ next.Holds (call.onLists lists) := by
    obtain ⟨row', hnext, hholds⟩ := step_eq hnow.2 hok
    exact ⟨_, hnext, hnow.1, hholds⟩
  obtain ⟨handle', hrun, htotal, hholds⟩ := Operations.refines_permitted hstep ⟨rfl, h⟩ hcalls
  have hvalid (i : ℕ) (hi : i < handle.num_total) : (handle'.rows i).Valid := (hholds.rows i (htotal.symm ▸ hi)).toValid
  refine ⟨handle', hrun, htotal, hholds, fun indices hin => ?_, fun i hi row' hrow' => (hvalid i hi).entries_restored hrow'⟩
  rw [lossless_iff, List.forall_mem_map]
  · rfl
  · intro row hrow
    obtain ⟨i, hi, rfl⟩ := List.mem_map.mp hrow
    exact (hvalid i (hin i hi)).image layout

end

/-- A byte is its own image. -/
def byteLayout : Layout UInt8 where
  size := 1
  bytes a := [a]
  value bytes := bytes.headD 0
  length_bytes _ := rfl
  value_bytes _ := rfl

def oneRow : RaggedHandle UInt8 := ⟨1, fun _ => .empty⟩

theorem oneRow_holds : oneRow.Holds fun _ => [] := ⟨fun _ _ => ⟨.empty, .nil⟩⟩

def twoCalls : List (Call UInt8) :=
  [⟨0, fun _ => 0, .push_back (.value 7)⟩, ⟨0, fun _ => 0, .insert 0 (.element 0)⟩]

theorem twoCalls_permitted : Operations.Permitted Call.Ok step oneRow twoCalls := by
  refine ⟨⟨Nat.one_pos, ⟨by norm_num [oneRow, RowVectorU.empty], nofun⟩, fun _ => by norm_num [oneRow, RowVectorU.empty], nofun⟩,
    fun s' hs => ?_⟩
  have hnext : oneRow.setRow 0 ⟨1, 5, [7, 0, 0, 0, 0]⟩ = s' := Option.some.inj hs
  subst hnext
  refine ⟨⟨Nat.one_pos, ⟨?_, Nat.zero_le _, fun i hi => ?_⟩, fun hfull => ?_, fun i hi => ?_⟩, fun _ _ => trivial⟩
  · change 1 + 1 < 2 ^ 32
    norm_num
  · obtain rfl : 0 = i := Arg.element.inj hi
    exact Nat.one_pos
  · exact absurd hfull (show (1 : ℕ) ≠ 5 by decide)
  · obtain rfl : 0 = i := Arg.element.inj hi
    exact ⟨show 1 < 5 by decide, le_rfl⟩

theorem rows_refine_twoCalls :
    ∃ handle', Operations.run step oneRow twoCalls = some handle' ∧
      handle'.Holds (Function.update (Function.update (fun _ => []) 0 [some 7]) 0 [some 7, some 7]) := by
  obtain ⟨handle', hrun, -, hholds, -⟩ := rows_refine byteLayout oneRow_holds twoCalls_permitted
  exact ⟨handle', hrun, hholds⟩

/-- A row with more bytes than are counted is not read back. -/
theorem not_lossless {n size : ℕ} {storage : List UInt8} (hn : n < 2 ^ 32) (hlong : 2 ^ 32 ≤ n * size)
    (hlen : storage.length = n * size) : ¬Lossless size [⟨n, n, storage⟩] := by
  intro hlossless
  have hrow : Allocated size ⟨n, n, storage⟩ := ⟨⟨le_rfl, hlen⟩, hn⟩
  have hshort := (lossless_iff (List.forall_mem_singleton.mpr hrow)).mp hlossless _ (List.mem_singleton_self _)
  exact absurd hshort (Nat.not_lt_of_ge hlong)

/-- A reference behind the place of an insertion reads what was shifted there,
the row cannot grow just below `2 ^ 32` elements, and as many bytes as that are
not counted. -/
theorem rows_not_refined :
    (Op.InRange ⟨1, fun _ => ⟨2, 3, [1, 2, 0]⟩⟩ 0 ⟨2, 3, [1, 2, 0]⟩ (.insert 0 (.element 1) : Op ℕ) ∧
      ¬∃ row', RowVectorU.insert (fun _ => 0) ⟨2, 3, [1, 2, 0]⟩ 0 (.element 1) = some (row', 0) ∧
        row'.values = insertAt [1, 2] 0 [2]) ∧
    RowVectorU.push_back (fun _ => 0) ⟨2 ^ 32 - 5, 2 ^ 32 - 5, List.replicate (2 ^ 32 - 5) 0⟩ (.value 0) = none ∧
    ¬Lossless 8 [⟨2 ^ 29, 2 ^ 29, List.replicate (2 ^ 29 * 8) 0⟩] := by
  refine ⟨⟨⟨by norm_num, Nat.zero_le _, fun i hi => ?_⟩, ?_⟩, ?_, fun hlossless => ?_⟩
  · obtain rfl : 1 = i := Arg.element.inj hi
    decide
  · rintro ⟨row', hinsert, hvalues⟩
    obtain rfl : ⟨3, 3, [1, 1, 2]⟩ = row' := congrArg Prod.fst (Option.some.inj hinsert)
    exact absurd hvalues (by decide)
  · have hlt : 2 ^ 32 - 5 < 2 ^ 32 := by norm_num
    have hwrap : 2 ^ 32 ≤ 2 ^ 32 - 5 + 5 := by norm_num
    exact RowVectorU.Valid.push_back_full ⟨List.length_replicate, hlt, le_rfl⟩ _ rfl hwrap 0
  · exact not_lossless (by norm_num) (by norm_num) List.length_replicate hlossless

end Flecsi.Data
