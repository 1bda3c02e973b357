import Flecsi.Coloring.Migrate

/-!
# No cell is lost

After `migrate` a rank holds its own cells that stay, then what it received
from each rank in turn (`migrated`). The bytes in between are packed and read
as a list of cells, each named by its old rank and its old local id.
-/

namespace Flecsi.Coloring

open PackedBuffer ByteCast SortUnique

-- ---------------------------------------------------------------------------
-- Where cells go
-- ---------------------------------------------------------------------------

/-- The cells of rank `p` whose partition rank `r` has, each named by `p` and
its local id there. -/
def cellsTo (partitionDist : List ℕ) (inp : Fin n → MigrateInput μ) (p r : Fin n) :
    List (Fin n × ℕ) :=
  ((List.range (inp p).dcrs.size).filter fun i =>
    partitionDist.getD r 0 ≤ (inp p).partitioning.getD i 0 ∧
      (inp p).partitioning.getD i 0 < partitionDist.getD (r + 1) 0).map fun i => (p, i)

/-- What rank `r` holds in the end: its own cells, then those of every other
rank. -/
def migratedCells (partitionDist : List ℕ) (inp : Fin n → MigrateInput μ) (r : Fin n) :
    List (Fin n × ℕ) :=
  cellsTo partitionDist inp r r ++ (List.finRange n).flatMap fun p =>
    if p = r then [] else cellsTo partitionDist inp p r

theorem ownedBy_iff : ownedBy d x r = true ↔ d.getD r 0 ≤ x ∧ x < d.getD (r + 1) 0 := by
  unfold ownedBy
  split
  · simp only [Bool.false_eq_true, false_iff]
    omega
  · split
    · simp only [true_iff]
      omega
    · simp only [Bool.false_eq_true, false_iff]
      omega

theorem ownedBy_iff_rankOwner (hd : Distribution d n total) (hr : r < n) :
    ownedBy d x r = true ↔ rankOwner d x = some r := by
  rw [ownedBy_iff, rankOwner_eq_some hd]
  exact ⟨fun h => ⟨hr, h⟩, And.right⟩

theorem ownedBy_unique (hd : Distribution d n total) (hr : r < n) (hq : q < n)
    (h : ownedBy d x r = true) (h' : ownedBy d x q = true) : r = q := by
  rw [ownedBy_iff_rankOwner hd hr] at h
  rw [ownedBy_iff_rankOwner hd hq, h] at h'
  exact Option.some.inj h'

theorem exists_ownedBy (hd : Distribution d n total) (h : x < total) :
    ∃ r : Fin n, ownedBy d x r = true := by
  obtain ⟨r, hr, ho⟩ := exists_rankOwner hd h
  exact ⟨⟨r, hr⟩, (ownedBy_iff_rankOwner hd hr).mpr ho⟩

theorem cellsTo_eq (d : List ℕ) (inp : Fin n → MigrateInput μ) (p r : Fin n) :
    cellsTo d inp p r = ((List.range (inp p).dcrs.size).filter fun i =>
      ownedBy d ((inp p).partitioning.getD i 0) r).map fun i => (p, i) := by
  rw [cellsTo]
  congr 1
  refine List.filter_congr fun i _ => ?_
  rw [Bool.eq_iff_iff, decide_eq_true_eq, ownedBy_iff]

-- ---------------------------------------------------------------------------
-- What is sent and erased
-- ---------------------------------------------------------------------------

section
variable {mesh : MeshDefinition μ} {records : μ → List ρ} {d : List ℕ}

/-- The local ids that go from rank `p` to rank `r`. -/
def sendIds (d : List ℕ) (inp : MigrateInput μ) (p r : ℕ) : List ℕ :=
  if r = p then [] else
    (List.range inp.dcrs.size).filter fun i => ownedBy d (inp.partitioning.getD i 0) r

theorem foldl_packFor (hd : Distribution d n total) {p r : ℕ} (hp : p < n) (hr : r < n) (hrp : r ≠ p)
    (inp : MigrateInput μ) (ids : List ℕ) (s : List ℕ × List UInt8) :
    ids.foldl (packFor mesh p d inp r) s =
      (s.1 ++ ids.filter fun i => ownedBy d (inp.partitioning.getD i 0) r,
        s.2 ++ (ids.filter fun i => ownedBy d (inp.partitioning.getD i 0) r).flatMap
          (packCell mesh p inp.dcrs inp.md)) := by
  induction ids generalizing s with
  | nil => simp
  | cons i ids ih =>
    have hstep : packFor mesh p d inp r s i =
        if ownedBy d (inp.partitioning.getD i 0) r then
          (s.1 ++ [i], s.2 ++ packCell mesh p inp.dcrs inp.md i) else s := by
      unfold packFor
      cases hown : ownedBy d (inp.partitioning.getD i 0) p with
      | false => simp only [hown, Bool.false_eq_true, ↓reduceIte]
      | true =>
        have hno : ownedBy d (inp.partitioning.getD i 0) r = false :=
          Bool.eq_false_iff.mpr fun h => hrp (ownedBy_unique hd hr hp h hown)
        simp only [hown, hno, Bool.false_eq_true, ↓reduceIte]
    rw [List.foldl_cons, ih, hstep, List.filter_cons]
    cases ownedBy d (inp.partitioning.getD i 0) r <;> simp

theorem packRank_eq (hd : Distribution d n total) {p r : ℕ} (hp : p < n) (hr : r < n)
    (inp : MigrateInput μ) (s : List ℕ × List UInt8 × List ℕ) :
    packRank mesh p d inp s r = (s.1 ++ sendIds d inp p r,
      s.2.1 ++ (sendIds d inp p r).flatMap (packCell mesh p inp.dcrs inp.md),
      s.2.2 ++ [((sendIds d inp p r).flatMap (packCell mesh p inp.dcrs inp.md)).length]) := by
  unfold packRank
  by_cases hrp : r = p
  · simp [hrp, sendIds]
  · simp only [ne_eq, hrp, not_false_eq_true, ↓reduceIte, foldl_packFor hd hp hr hrp, sendIds,
      List.length_append, Nat.add_sub_cancel_left]

theorem packAll_eq (hd : Distribution d n total) (p : Fin n) (inp : MigrateInput μ) :
    packAll mesh n p d inp = ((List.finRange n).flatMap fun r : Fin n => sendIds d inp p r,
      pack fun r : Fin n => (sendIds d inp p r).flatMap (packCell mesh p inp.dcrs inp.md)) := by
  have run : ∀ (l : List (Fin n)) (s : List ℕ × List UInt8 × List ℕ),
      (l.map Fin.val).foldl (packRank mesh p d inp) s =
        (s.1 ++ l.flatMap fun r : Fin n => sendIds d inp p r,
          s.2.1 ++ l.flatMap fun r : Fin n =>
            (sendIds d inp p r).flatMap (packCell mesh p inp.dcrs inp.md),
          s.2.2 ++ l.map fun r : Fin n =>
            ((sendIds d inp p r).flatMap (packCell mesh p inp.dcrs inp.md)).length) := by
    intro l
    induction l with
    | nil => simp
    | cons r l ih =>
      intro s
      rw [List.map_cons, List.foldl_cons, packRank_eq hd p.isLt r.isLt, ih]
      simp
  have hrun := run (List.finRange n) ([], [], [])
  rw [List.map_coe_finRange_eq_range] at hrun
  rw [packAll, hrun]
  simp only [List.nil_append, pack, ← List.ofFn_eq_map, List.flatMap_def]

/-- Everything sent, sorted: the cells of other ranks. -/
theorem sendIds_sorted (hd : Distribution d n total) (p : Fin n) {inp : MigrateInput μ}
    (hpart : ∀ i < inp.dcrs.size, inp.partitioning.getD i 0 < total) :
    ((List.finRange n).flatMap fun r : Fin n => sendIds d inp p r).insertionSort (· ≤ ·) =
      (List.range inp.dcrs.size).filter fun i => !ownedBy d (inp.partitioning.getD i 0) p := by
  have hnodup : ((List.finRange n).flatMap fun r : Fin n => sendIds d inp p r).Nodup := by
    refine List.nodup_flatMap.mpr ⟨fun r _ => ?_, (List.nodup_finRange n).imp fun {q r} hqr => ?_⟩
    · unfold sendIds
      split
      · exact List.nodup_nil
      · exact List.nodup_range.filter _
    · intro i hi hi'
      simp only [sendIds] at hi hi'
      split at hi
      · cases hi
      · split at hi'
        · cases hi'
        · exact hqr (Fin.ext (ownedBy_unique hd q.isLt r.isLt (List.mem_filter.mp hi).2
            (List.mem_filter.mp hi').2))
  refine eq_of_pairwise_lt id ?_ (List.pairwise_lt_range.filter _) fun i => ?_
  · have hle := List.pairwise_insertionSort (· ≤ ·) ((List.finRange n).flatMap fun r : Fin n => sendIds d inp p r)
    have hne := (List.perm_insertionSort (· ≤ ·) _).nodup_iff.mpr hnodup
    exact (hle.and hne).imp fun h => lt_of_le_of_ne h.1 h.2
  · rw [List.mem_insertionSort, List.mem_flatMap, List.mem_filter, List.mem_range, Bool.not_eq_true']
    constructor
    · rintro ⟨r, -, hi⟩
      unfold sendIds at hi
      split at hi
      · cases hi
      · rename_i hne
        obtain ⟨hlt, hr⟩ := List.mem_filter.mp hi
        exact ⟨List.mem_range.mp hlt, Bool.eq_false_iff.mpr fun hp =>
          hne (ownedBy_unique hd r.isLt p.isLt hr hp)⟩
    · rintro ⟨hlt, hp⟩
      obtain ⟨r, hr⟩ := exists_ownedBy hd (hpart i hlt)
      refine ⟨r, List.mem_finRange r, ?_⟩
      rw [sendIds, if_neg fun h => by rw [h, hp] at hr; cases hr]
      exact List.mem_filter.mpr ⟨List.mem_range.mpr hlt, hr⟩

-- ---------------------------------------------------------------------------
-- What a rank holds
-- ---------------------------------------------------------------------------

/-- The rows and the records of the cells a rank holds. -/
structure Held (records : μ → List ρ) (s : MigrateState μ) (rows : List (List ℕ))
    (recs : List ρ) : Prop where
  numElements : s.numElements = rows.length
  crs : s.crs = Crs.ofRows rows
  records : records s.md = recs
  length : recs.length = rows.length

/-- The graph and the mesh of a rank have the same cells, every cell has a
partition, and numbers fit a `size_t`. -/
structure ValidInput (records : μ → List ρ) (total : ℕ) (inp : MigrateInput μ) : Prop where
  wellFormed : inp.dcrs.WellFormed
  records : (records inp.md).length = inp.dcrs.size
  partitioning : ∀ i < inp.dcrs.size, inp.partitioning.getD i 0 < total
  indices : ∀ x ∈ inp.dcrs.indices, x < 2 ^ 64
  length : inp.dcrs.indices.length < 2 ^ 64

theorem eraseMigrated_eq (hlaws : MeshLaws mesh records) (hd : Distribution d n total) (p : Fin n)
    {inp : MigrateInput μ} (hin : ValidInput records total inp) :
    ∃ s, eraseMigrated mesh ((List.finRange n).flatMap fun r : Fin n => sendIds d inp p r) inp =
        some s ∧
      Held records s
        (atPositions (fun i => ownedBy d (inp.partitioning.getD i 0) p) inp.dcrs.rows)
        (atPositions (fun i => ownedBy d (inp.partitioning.getD i 0) p) (records inp.md)) := by
  have hsorted := sendIds_sorted hd p hin.partitioning
  have hrec : (records inp.md).length = inp.dcrs.rows.length := by
    rw [hin.records, Crs.length_rows]
  unfold eraseMigrated
  split
  · rename_i hnil
    -- nothing to erase: all cells are the rank's own
    rw [hnil, List.insertionSort_nil, eq_comm, List.filter_eq_nil_iff] at hsorted
    have hall : ∀ i < inp.dcrs.size, ownedBy d (inp.partitioning.getD i 0) p = true := by
      intro i hi
      simpa using hsorted i (List.mem_range.mpr hi)
    refine ⟨_, rfl, ?_⟩
    rw [atPositions_of_forall fun i hi => hall i (by simpa using hi),
      atPositions_of_forall fun i hi => hall i (by simpa [hin.records] using hi)]
    exact ⟨(Crs.length_rows _).symm, hin.wellFormed, rfl, hrec⟩
  · rw [hsorted]
    generalize hids : ((List.range inp.dcrs.size).filter fun i =>
      !ownedBy d (inp.partitioning.getD i 0) p) = ids
    have hpair : ids.Pairwise (· < ·) := hids ▸ List.pairwise_lt_range.filter _
    have hlt : ∀ i ∈ ids, i < inp.dcrs.size := fun i hi => by
      rw [← hids] at hi
      exact List.mem_range.mp (List.mem_filter.mp hi).1
    have hstay : ∀ i < inp.dcrs.size,
        decide (i ∉ ids) = ownedBy d (inp.partitioning.getD i 0) p := by
      intro i hi
      have hmem : i ∈ ids ↔ ownedBy d (inp.partitioning.getD i 0) p = false := by
        rw [← hids, List.mem_filter, List.mem_range, Bool.not_eq_true']
        exact and_iff_right hi
      rw [Bool.eq_iff_iff, decide_eq_true_eq, hmem, Bool.not_eq_false]
    have hunique : ids.destutter (· ≠ ·) = ids :=
      (List.destutter_eq_self_iff _ _).mpr (hpair.imp ne_of_lt).isChain
    simp only [hunique, guard, ↓reduceIte, Option.pure_def, Option.bind_eq_bind, Option.bind_some,
      Crs.erase_eq hin.wellFormed hpair hlt]
    have hlen : inp.dcrs.size - ids.length = (atPositions (· ∉ ids) inp.dcrs.rows).length := by
      rw [← Crs.kept_size, Crs.length_kept _ hpair hlt]
    have hreclen : (atPositions (· ∉ ids) (records inp.md)).length =
        (atPositions (· ∉ ids) inp.dcrs.rows).length := by
      rw [length_atPositions, length_atPositions, hrec]
    refine ⟨_, rfl, ?_⟩
    rw [← atPositions_congr fun i hi => hstay i (by simpa using hi),
      ← atPositions_congr fun i hi => hstay i (by simpa [hin.records] using hi)]
    exact ⟨hlen, rfl, hlaws.erase _ _ hpair (by rwa [hin.records]), hreclen⟩

-- ---------------------------------------------------------------------------
-- What is received
-- ---------------------------------------------------------------------------

/-- The bytes of a cell, named by the rank and the local id it comes from. -/
def cellBytes (mesh : MeshDefinition μ) (inp : Fin n → MigrateInput μ) (x : Fin n × ℕ) :
    List UInt8 :=
  packCell mesh x.1 (inp x.1).dcrs (inp x.1).md x.2

def cellRow (inp : Fin n → MigrateInput μ) (x : Fin n × ℕ) : List ℕ := (inp x.1).dcrs.row x.2

def cellRecord (records : μ → List ρ) (inp : Fin n → MigrateInput μ) (x : Fin n × ℕ) : List ρ :=
  ((records (inp x.1).md)[x.2]?).toList

/-- The cells rank `p` receives from rank `r`. -/
def cellsFrom (d : List ℕ) (inp : Fin n → MigrateInput μ) (p r : Fin n) : List (Fin n × ℕ) :=
  if r = p then [] else cellsTo d inp r p

theorem cellsFrom_eq (d : List ℕ) (inp : Fin n → MigrateInput μ) (p r : Fin n) :
    cellsFrom d inp p r = (sendIds d (inp r) r p).map fun i => (r, i) := by
  rw [cellsFrom, sendIds]
  by_cases h : r = p
  · rw [if_pos h, if_pos (congrArg Fin.val h.symm)]
    rfl
  · rw [if_neg h, if_neg fun hv => h (Fin.ext hv.symm), cellsTo_eq]

theorem mem_cellsFrom {inp : Fin n → MigrateInput μ} {p r : Fin n} {x : Fin n × ℕ}
    (h : x ∈ cellsFrom d inp p r) : x.2 < (inp x.1).dcrs.size := by
  unfold cellsFrom at h
  split at h
  · cases h
  · obtain ⟨i, hi, rfl⟩ := List.mem_map.mp h
    exact List.mem_range.mp (List.mem_filter.mp hi).1

theorem getElem?_drop_append {buf xs ys : List α} (h : xs ++ ys = buf.drop i) :
    ys = buf.drop (i + xs.length) := by
  rw [← List.drop_drop, ← h, List.drop_left]

/-- A received cell is read back as it was packed. -/
theorem unpackCell_reads (hlaws : MeshLaws mesh records) {inp : Fin n → MigrateInput μ}
    (hin : ∀ p, ValidInput records total (inp p)) {rows₀ : List (List ℕ)} {recs₀ : List ρ}
    (buf : List UInt8) (r stop : ℕ) (cells : List (Fin n × ℕ)) {x : Fin n × ℕ}
    (hx : x.2 < (inp x.1).dcrs.size) :
    ReadsTo (fun cells s => Held records s (rows₀ ++ cells.map (cellRow inp))
        (recs₀ ++ cells.flatMap (cellRecord records inp)))
      buf stop (cellBytes mesh inp) (unpackCell mesh buf r stop) cells x := by
  intro i s hs hbuf hstop
  obtain ⟨rest, hrest⟩ := hbuf
  have hi := hin x.1
  let globalId := (inp x.1).dcrs.distribution.getD x.1 0 + x.2
  have hbytes : cellBytes mesh inp x = castWords [globalId] ++
      (castWords [(cellRow inp x).length] ++ (castWords (cellRow inp x) ++
        mesh.pack (inp x.1).md x.2)) := by
    change castWords [globalId] ++ castWords [(inp x.1).dcrs.offsets.getD (x.2 + 1) 0 -
      (inp x.1).dcrs.offsets.getD x.2 0] ++ castWords (cellRow inp x) ++ _ = _
    rw [hi.wellFormed.length_row hx, List.append_assoc, List.append_assoc]
    rfl
  have hlenCell : (cellBytes mesh inp x).length =
      16 + 8 * (cellRow inp x).length + (mesh.pack (inp x.1).md x.2).length := by
    rw [hbytes]
    simp only [List.length_append, length_castWords, List.length_singleton]
    omega
  rw [hbytes, List.append_assoc, List.append_assoc, List.append_assoc] at hrest
  -- the four parts of the record, where the reader finds them
  have hrest₁ := getElem?_drop_append hrest
  have hrest₂ := getElem?_drop_append hrest₁
  have hrest₃ := getElem?_drop_append hrest₂
  simp only [length_castWords, List.length_singleton, Nat.mul_one, Nat.add_assoc,
    Nat.reduceAdd] at hrest₁ hrest₂ hrest₃
  have hrowLt : ∀ y ∈ cellRow inp x, y < 2 ^ 64 := fun y hy =>
    hi.indices y (List.mem_of_mem_drop (List.mem_of_mem_take hy))
  have hrowLen : (cellRow inp x).length < 2 ^ 64 := by
    refine lt_of_le_of_lt ?_ hi.length
    rw [cellRow, Crs.row, List.length_take, List.length_drop]
    omega
  have hid : uncastWords buf i 1 = some _ := uncastWords_eq (show castWords [globalId] <+: buf.drop i from ⟨_, hrest⟩)
  have hnum : uncastWords buf (i + 8) 1 = some [(cellRow inp x).length] :=
    uncastWords_castWords (show ∀ y ∈ [(cellRow inp x).length], y < 2 ^ 64 by simpa using hrowLen)
      ⟨_, hrest₁⟩
  have hrow : uncastWords buf (i + 16) (cellRow inp x).length = some (cellRow inp x) :=
    uncastWords_castWords hrowLt ⟨_, hrest₂⟩
  have hlast : s.crs.offsets[s.numElements]? =
      some (rows₀ ++ cells.map (cellRow inp)).flatten.length := by
    rw [hs.numElements, hs.crs, Crs.ofRows, List.getElem?_eq_getElem (by simp),
      ← List.getD_eq_getElem _ 0 (by simp), displs_getD (by simp), List.length_flatten,
      ← List.map_take, List.take_length]
  have hwrite : writeAt (s.crs.indices ++ List.replicate (cellRow inp x).length 0)
      (rows₀ ++ cells.map (cellRow inp)).flatten.length (cellRow inp x) =
      (rows₀ ++ cells.map (cellRow inp)).flatten ++ cellRow inp x := by
    rw [hs.crs, Crs.ofRows, writeAt_fill _ _ _ (by simp), List.drop_eq_nil_of_le (by simp),
      List.append_nil]
  have hrecLt : x.2 < (records (inp x.1).md).length := by rwa [hi.records]
  have hmd : s.numElements = (records s.md).length := by rw [hs.numElements, hs.records, hs.length]
  obtain ⟨hleft, hrec⟩ := hlaws.unpack_pack s.md (inp x.1).md x.2 rest hrecLt
  rw [← hmd] at hleft hrec
  refine ⟨⟨s.numElements + 1, (Crs.ofRows (rows₀ ++ cells.map (cellRow inp))).appendRow
    (rows₀ ++ cells.map (cellRow inp)).flatten.length (cellRow inp x),
    (mesh.unpack s.md s.numElements (mesh.pack (inp x.1).md x.2 ++ rest)).1⟩, ?_, ?_⟩
  · rw [unpackCell, hid]
    simp only [Option.bind_eq_bind, Option.bind_some, hlast, hnum, List.head?_cons, hrow, hwrite,
      Nat.add_assoc]
    have hend : buf.length - rest.length = i + (cellBytes mesh inp x).length := by
      have h₀ := congrArg List.length hrest
      have h₃ := congrArg List.length hrest₃
      simp only [List.length_append, List.length_drop, length_castWords, List.length_singleton]
        at h₀ h₃
      omega
    rw [← hrest₃, hleft, hend, hs.crs]
    rfl
  · have hrecOne : (cellRecord records inp x).length = 1 := by
      rw [cellRecord, List.getElem?_eq_getElem hrecLt]
      rfl
    constructor
    · rw [List.map_append, ← List.append_assoc, List.length_append, ← hs.numElements]
      rfl
    · have hbase : (Crs.ofRows (rows₀ ++ cells.map (cellRow inp))).offsets.getD
          (rows₀ ++ cells.map (cellRow inp)).length 0 =
          (rows₀ ++ cells.map (cellRow inp)).flatten.length := by
        rw [hs.numElements, hs.crs] at hlast
        rw [List.getD_eq_getElem?_getD, hlast]
        rfl
      rw [List.map_append, ← List.append_assoc, List.map_singleton, ← Crs.appendRow_ofRows, hbase]
    · rw [hrec, hs.records, List.flatMap_append, List.flatMap_singleton, List.append_assoc]
      rfl
    · have hlen := hs.length
      simp only [List.length_append, List.flatMap_append, List.flatMap_singleton, List.length_map,
        List.length_singleton, hrecOne] at hlen ⊢
      omega

/-- The segments of some ranks, after those of other ranks. -/
theorem foldlM_readSegment (hlaws : MeshLaws mesh records) {inp : Fin n → MigrateInput μ}
    (hin : ∀ p, ValidInput records total (inp p)) {rows₀ : List (List ℕ)} {recs₀ : List ρ} (p : Fin n) (l : List (Fin n))
    (cells : List (Fin n × ℕ)) (s : MigrateState μ)
    (hs : Held records s (rows₀ ++ cells.map (cellRow inp)) (recs₀ ++ cells.flatMap (cellRecord records inp))) :
    ∃ s', (l.map Fin.val).foldlM (fun s rank => do
        let (i, s) ← readSegment (unpackCell mesh
          (pack fun r => (cellsFrom d inp p r).flatMap (cellBytes mesh inp)).buf)
          (pack fun r => (cellsFrom d inp p r).flatMap (cellBytes mesh inp)).displs rank s
        guard (i = (pack fun r =>
          (cellsFrom d inp p r).flatMap (cellBytes mesh inp)).displs.getD (rank + 1) 0)
        some s) s = some s' ∧
      Held records s' (rows₀ ++ (cells ++ l.flatMap (cellsFrom d inp p)).map (cellRow inp))
        (recs₀ ++ (cells ++ l.flatMap (cellsFrom d inp p)).flatMap (cellRecord records inp)) := by
  induction l generalizing cells s with
  | nil => exact ⟨s, rfl, by simpa using hs⟩
  | cons r l ih =>
    obtain ⟨s₁, hread, hs₁⟩ := readSegment_eq (cellsFrom d inp p) r
      (fun l x hx stop => unpackCell_reads hlaws hin _ r stop _
        (mem_cellsFrom (hx.subset (by simp))))
      (fun x _ => by simp [cellBytes, packCell, castWords, toBytes]) hs
    obtain ⟨s', hfold, hs'⟩ := ih (cells ++ cellsFrom d inp p r) s₁ hs₁
    refine ⟨s', ?_, by simpa using hs'⟩
    rw [List.map_cons, List.foldlM_cons, hread]
    simpa [guard] using hfold

/-- Everything a rank receives, in the order of the senders. -/
theorem unpackAll_eq (hlaws : MeshLaws mesh records) {inp : Fin n → MigrateInput μ}
    (hin : ∀ p, ValidInput records total (inp p)) {rows₀ : List (List ℕ)} {recs₀ : List ρ}
    {s : MigrateState μ} (hs : Held records s rows₀ recs₀) (p : Fin n) :
    ∃ s', unpackAll mesh n (pack fun r => (cellsFrom d inp p r).flatMap (cellBytes mesh inp)) s =
        some s' ∧
      Held records s'
        (rows₀ ++ (List.finRange n).flatMap fun r => (cellsFrom d inp p r).map (cellRow inp))
        (recs₀ ++ (List.finRange n).flatMap fun r =>
          (cellsFrom d inp p r).flatMap (cellRecord records inp)) := by
  obtain ⟨s', hfold, hs'⟩ := foldlM_readSegment hlaws hin p (List.finRange n) [] s (by simpa using hs)
  rw [List.map_coe_finRange_eq_range] at hfold
  refine ⟨s', hfold, ?_⟩
  simpa [List.map_flatMap, List.flatMap_assoc] using hs'

-- ---------------------------------------------------------------------------
-- The whole migration
-- ---------------------------------------------------------------------------

section
variable {inp : Fin n → MigrateInput μ}

theorem cellsTo_rows (d : List ℕ) (inp : Fin n → MigrateInput μ) (p r : Fin n) :
    (cellsTo d inp p r).map (cellRow inp) =
      atPositions (fun i => ownedBy d ((inp p).partitioning.getD i 0) r) (inp p).dcrs.rows := by
  rw [cellsTo_eq, List.map_map, Crs.rows, atPositions_map_range]
  rfl

theorem cellsTo_records (hin : ∀ p, ValidInput records total (inp p)) (p r : Fin n) :
    (cellsTo d inp p r).flatMap (cellRecord records inp) =
      atPositions (fun i => ownedBy d ((inp p).partitioning.getD i 0) r) (records (inp p).md) := by
  rw [cellsTo_eq, List.flatMap_map, atPositions_eq_flatMap, (hin p).records]
  rfl

/-- The cells of a rank are split among all ranks. -/
theorem sum_cellsTo (hd : Distribution d n total) (hin : ∀ p, ValidInput records total (inp p))
    (p : Fin n) : ∑ r, (cellsTo d inp p r : Multiset (Fin n × ℕ)) =
      ((List.range (inp p).dcrs.size).map fun i => (p, i) : List (Fin n × ℕ)) := by
  have run : ∀ ids : List ℕ, (∀ i ∈ ids, i < (inp p).dcrs.size) →
      ∑ r : Fin n, (((ids.filter fun i => ownedBy d ((inp p).partitioning.getD i 0) r).map
        fun i => (p, i) : List (Fin n × ℕ)) : Multiset (Fin n × ℕ)) =
        (ids.map fun i => (p, i) : List (Fin n × ℕ)) := by
    intro ids hids
    induction ids with
    | nil => simp
    | cons i ids ih =>
      obtain ⟨q, hq⟩ := exists_ownedBy hd ((hin p).partitioning i (hids i (by simp)))
      have hone : ∀ r : Fin n, ownedBy d ((inp p).partitioning.getD i 0) r = true ↔ r = q :=
        fun r => ⟨fun hr => Fin.ext (ownedBy_unique hd r.isLt q.isLt hr hq), fun h => h ▸ hq⟩
      have hsplit : ∀ r : Fin n, ((((i :: ids).filter fun i =>
          ownedBy d ((inp p).partitioning.getD i 0) r).map fun i => (p, i) : List (Fin n × ℕ)) :
            Multiset (Fin n × ℕ)) = (if r = q then {(p, i)} else 0) +
          ((ids.filter fun i => ownedBy d ((inp p).partitioning.getD i 0) r).map
            fun i => (p, i) : List (Fin n × ℕ)) := by
        intro r
        rw [List.filter_cons]
        by_cases hr : r = q
        · rw [if_pos ((hone r).mpr hr), if_pos hr]
          rfl
        · rw [if_neg fun h => hr ((hone r).mp h), if_neg hr, zero_add]
      simp only [hsplit, Finset.sum_add_distrib, Finset.sum_ite_eq', Finset.mem_univ, ↓reduceIte]
      rw [ih fun j hj => hids j (by simp [hj])]
      rfl
  simp only [cellsTo_eq]
  exact run _ fun i hi => List.mem_range.mp hi

theorem coe_flatten_ofFn (f : Fin n → List α) :
    (((List.ofFn f).flatten : List α) : Multiset α) = ∑ r, (f r : Multiset α) := by
  rw [← Multiset.coe_join, ← List.sum_ofFn, Multiset.join, Multiset.sum_coe, List.map_ofFn]
  rfl

theorem coe_migratedCells (d : List ℕ) (inp : Fin n → MigrateInput μ) (r : Fin n) :
    (migratedCells d inp r : Multiset (Fin n × ℕ)) =
      ∑ p, (cellsTo d inp p r : Multiset (Fin n × ℕ)) := by
  have hothers : (((List.finRange n).flatMap fun p => if p = r then [] else cellsTo d inp p r :
      List (Fin n × ℕ)) : Multiset (Fin n × ℕ)) =
      ∑ p, if p = r then 0 else (cellsTo d inp p r : Multiset (Fin n × ℕ)) := by
    rw [List.flatMap_def, ← List.ofFn_eq_map, coe_flatten_ofFn]
    refine Finset.sum_congr rfl fun p _ => ?_
    split <;> rfl
  have hown : (cellsTo d inp r r : Multiset (Fin n × ℕ)) =
      ∑ p, if p = r then (cellsTo d inp p r : Multiset (Fin n × ℕ)) else 0 := by simp
  rw [migratedCells, ← Multiset.coe_add, hothers, hown, ← Finset.sum_add_distrib]
  refine Finset.sum_congr rfl fun p _ => ?_
  by_cases h : p = r <;> simp [h]

/-- Every cell is on one rank, and once. -/
theorem migratedCells_perm (hd : Distribution d n total)
    (hin : ∀ p, ValidInput records total (inp p)) :
    ((List.ofFn (migratedCells d inp)).flatten).Perm
      (List.ofFn fun p => (List.range (inp p).dcrs.size).map fun i => (p, i)).flatten := by
  rw [← Multiset.coe_eq_coe, coe_flatten_ofFn, coe_flatten_ofFn]
  simp only [coe_migratedCells]
  rw [Finset.sum_comm]
  exact Finset.sum_congr rfl fun p _ => sum_cellsTo hd hin p

end

/-- What the ranks have after the migration. -/
structure MigratedMesh (records : μ → List ρ) (partitionDist : List ℕ)
    (inp : Fin n → MigrateInput μ) (out : Fin n → Dcrs × μ) : Prop where
  wellFormed : ∀ r, (out r).1.WellFormed
  rows : ∀ r, (out r).1.rows =
    (migratedCells partitionDist inp r).map fun x => (inp x.1).dcrs.row x.2
  records : ∀ r, records (out r).2 =
    (migratedCells partitionDist inp r).flatMap fun x => ((records (inp x.1).md)[x.2]?).toList
  distribution : ∀ r, (out r).1.distribution =
    displs (List.ofFn fun p => (migratedCells partitionDist inp p).length)
  cells : ((List.ofFn (migratedCells partitionDist inp)).flatten).Perm
    (List.ofFn fun p => (List.range (inp p).dcrs.size).map fun i => (p, i)).flatten

/-- `migrate` runs through, no buffer is left half read, and every cell is
where its partition belongs, with its row and its record. -/
theorem migrate_cells (hlaws : MeshLaws mesh records) (hd : Distribution partitionDist n total)
    {inp : Fin n → MigrateInput μ} (hin : ∀ p, ValidInput records total (inp p))
    (hne : ∀ r, migratedCells partitionDist inp r ≠ []) :
    ∃ out, migrate mesh partitionDist inp = some out ∧
      MigratedMesh records partitionDist inp out := by
  choose s₀ herase hs₀ using fun p => eraseMigrated_eq hlaws hd p (hin p)
  choose s hunpack hs using fun p => unpackAll_eq (d := partitionDist) hlaws hin (hs₀ p) p
  have hrows : ∀ p, atPositions (fun i => ownedBy partitionDist ((inp p).partitioning.getD i 0) p)
      (inp p).dcrs.rows ++ ((List.finRange n).flatMap fun r =>
        (cellsFrom partitionDist inp p r).map (cellRow inp)) =
      (migratedCells partitionDist inp p).map (cellRow inp) := by
    intro p
    rw [migratedCells, List.map_append, cellsTo_rows, List.map_flatMap]
    rfl
  have hrecords : ∀ p, atPositions
      (fun i => ownedBy partitionDist ((inp p).partitioning.getD i 0) p) (records (inp p).md) ++
        ((List.finRange n).flatMap fun r =>
          (cellsFrom partitionDist inp p r).flatMap (cellRecord records inp)) =
      (migratedCells partitionDist inp p).flatMap (cellRecord records inp) := by
    intro p
    rw [migratedCells, List.flatMap_append, cellsTo_records hin, List.flatMap_assoc]
    rfl
  simp only [hrows, hrecords] at hs
  have hsend : ∀ p : Fin n, (packAll mesh n p partitionDist (inp p)).2 =
      pack fun r => (cellsFrom partitionDist inp r p).flatMap (cellBytes mesh inp) := by
    intro p
    simp only [packAll_eq hd, cellsFrom_eq, List.flatMap_map]
    rfl
  have hnum : ∀ p, (s p).numElements = (migratedCells partitionDist inp p).length := fun p => by
    rw [(hs p).numElements, List.length_map]
  have hguard : ∀ p, (guard ((s p).numElements = (s p).crs.size) : Option Unit).bind
      (fun _ => guard (0 < (s p).numElements)) = some () := by
    intro p
    have hsize : (s p).numElements = (s p).crs.size := by
      rw [(hs p).numElements, (hs p).crs, Crs.size_ofRows]
    have hpos : 0 < (s p).numElements := by
      rw [hnum]
      exact List.length_pos_iff.mpr (hne p)
    simp [guard, ← hsize, hpos]
  have herase' : ∀ p : Fin n, eraseMigrated mesh (packAll mesh n p partitionDist (inp p)).1 (inp p) =
      some (s₀ p) := fun p => by rw [packAll_eq hd]; exact herase p
  refine ⟨fun p => (⟨(s p).crs, displs (mpiAllgather fun p => (s p).numElements)⟩, (s p).md),
    ?_, ?_⟩
  · rw [migrate]
    simp only [allRanks_eq_some.mpr herase', hsend, exchange_pack, allRanks_eq_some.mpr hunpack,
      allRanks_eq_some.mpr hguard, Option.bind_eq_bind, Option.bind_some]
  · constructor
    · intro r
      exact (hs r).crs ▸ Crs.wellFormed_ofRows _
    · intro r
      exact (congrArg Crs.rows (hs r).crs).trans (Crs.rows_ofRows _)
    · exact fun r => (hs r).records
    · intro r
      simp only [mpiAllgather, hnum]
    · exact migratedCells_perm hd hin

end

/-- A mesh that keeps one byte for each cell. -/
def byteMesh : MeshDefinition (List UInt8) where
  pack md localId := [md.getD localId 0]
  unpack md _ buffer := (md ++ buffer.take 1, buffer.drop 1)
  erase md ids := atPositions (· ∉ ids) md

/-- Two ranks that exchange their first cells, the rows of which differ. -/
def byteInput (p : Fin 2) : MigrateInput (List UInt8) :=
  ⟨[1 - p, p], ⟨Crs.ofRows [[3 - p], [p, 2]], [0, 2, 4]⟩, [UInt8.ofNat p, 7]⟩

theorem migrate_cells_bytes : ∃ out, migrate byteMesh [0, 1, 2] byteInput = some out ∧
    (out 0).2 = [7, 1] ∧ (out 0).1.rows = [[0, 2], [2]] := by
  have hlaws : MeshLaws byteMesh id := by
    constructor
    · intro md md' i rest hi
      replace hi : i < md'.length := hi
      simp only [byteMesh, id, List.singleton_append, List.drop_succ_cons, List.drop_zero,
        List.take_succ_cons, List.take_zero, true_and]
      rw [List.getD_eq_getElem _ _ hi, List.getElem?_eq_getElem hi]
      rfl
    · intro md ids _ _
      rfl
  have hd : Distribution [0, 1, 2] 2 2 := ⟨rfl, rfl, by decide, rfl⟩
  have hin : ∀ p, ValidInput id 2 (byteInput p) := fun p =>
    ⟨by revert p; decide, by revert p; decide, by revert p; decide, by revert p; decide,
      by revert p; decide⟩
  obtain ⟨out, hout, h⟩ := migrate_cells hlaws hd hin (by decide)
  exact ⟨out, hout, h.records 0, h.rows 0⟩

end Flecsi.Coloring
