import Flecsi.Data.SparseAccess

/-!
# Sparse rows as finite maps

What the mutator and the accessor answer about the rows is what the maps have,
after any sequence of writes and erasures.
-/

namespace Flecsi.Data.Sparse

open SortedArray

variable {T : Type}

/-- The keys of the map of each index. -/
abbrev HasKey (maps : ℕ → ℕ → Option T) (index entry : ℕ) : Prop := (maps index entry).isSome

/-- What is looked up is what the maps have. -/
structure Answers (handle : Handle T) (maps : ℕ → ℕ → Option T) : Prop where
  increasing : ∀ i < handle.num_total, ((handle.rows i).values.map EntryValue.entry).Pairwise (· < ·)
  contains : ∀ i < handle.num_total, ∀ e, handle.contains i e = some (maps i e).isSome
  get : ∀ i < handle.num_total, ∀ e, Handle.get handle i e = maps i e
  at_ : ∀ i < handle.num_total, ∀ e, Handle.at_ handle i e = some (maps i e, (maps i e).isSome)
  ref : ∀ i < handle.num_total, ∀ e v, maps i e = some v → ∀ init memory, ∃ itr,
    Handle.ref handle init memory i e = some (handle, itr) ∧ (handle.rows i).values[itr]? = some ⟨e, v⟩
  entriesAt : ∀ i < handle.num_total, ∃ es, Handle.entriesAt handle i = some es ∧ es.Pairwise (· < ·) ∧
    ∀ e, e ∈ es ↔ HasKey maps i e
  entries : (Handle.entries handle).Nodup ∧ ∀ e, e ∈ Handle.entries handle ↔ ∃ i < handle.num_total, HasKey maps i e
  indices : (Handle.indices handle).Pairwise (· < ·) ∧
    ∀ i, i ∈ Handle.indices handle ↔ i < handle.num_total ∧ ∃ e, HasKey maps i e
  indicesOf : ∀ e, ∃ is, Handle.indicesOf handle e = some is ∧ is.Pairwise (· < ·) ∧
    ∀ i, i ∈ is ↔ i < handle.num_total ∧ HasKey maps i e

-- ---------------------------------------------------------------------------
-- The loops
-- ---------------------------------------------------------------------------

theorem foldl_push {α β : Type*} (f : α → β) (l : List α) (is : List β) :
    l.foldl (fun is a => is ++ [f a]) is = is ++ l.map f := by
  induction l generalizing is with
  | nil => exact (List.append_nil is).symm
  | cons a l ih => rw [List.foldl_cons, ih, List.map_cons, List.append_assoc, List.singleton_append]

theorem foldl_pushIf {α : Type*} (p : α → Prop) [DecidablePred p] (l is : List α) :
    l.foldl (fun is a => if p a then is ++ [a] else is) is = is ++ l.filter p := by
  induction l generalizing is with
  | nil => exact (List.append_nil is).symm
  | cons a l ih =>
    rw [List.foldl_cons, ih]
    split_ifs with hp
    · simp [hp]
    · simp [hp]

theorem foldlM_pushIf {α : Type} {f : List α → α → Option (List α)} {p : α → Prop} [DecidablePred p] {l : List α}
    (hf : ∀ is, ∀ a ∈ l, f is a = some (if p a then is ++ [a] else is)) (is : List α) :
    l.foldlM f is = some (is ++ l.filter p) := by
  rw [← foldl_pushIf]
  induction l generalizing is with
  | nil => rfl
  | cons a l ih =>
    rw [List.foldlM_cons, hf is a List.mem_cons_self, List.foldl_cons]
    exact ih (fun is b hb => hf is b (List.mem_cons_of_mem a hb)) _

/-- What was collected is what was seen, without duplicates. -/
structure Collected (is : List ℕ × Finset ℕ) (seen : List ℕ) : Prop where
  nodup : is.1.Nodup
  found : ∀ e, e ∈ is.1 ↔ e ∈ is.2
  mem : ∀ e, e ∈ is.1 ↔ e ∈ seen

theorem Collected.collect {is : List ℕ × Finset ℕ} {seen : List ℕ} (h : Collected is seen) (ev : EntryValue T) :
    Collected (Handle.collect is ev) (seen ++ [ev.entry]) := by
  rw [Handle.collect]
  split_ifs with hmem
  · refine ⟨h.nodup, h.found, fun e => ?_⟩
    rw [List.mem_append, ← h.mem, List.mem_singleton]
    constructor
    · exact .inl
    · rintro (he | rfl)
      · exact he
      · exact (h.found _).mpr hmem
  · refine ⟨?_, fun e => ?_, fun e => ?_⟩
    · rw [List.nodup_append]
      refine ⟨h.nodup, List.nodup_singleton _, fun e he e' he' => ?_⟩
      rintro rfl
      obtain rfl := List.mem_singleton.mp he'
      exact hmem ((h.found _).mp he)
    · rw [List.mem_append, List.mem_singleton, Finset.mem_insert, h.found, or_comm]
    · rw [List.mem_append, List.mem_append, h.mem]

theorem Collected.row {is : List ℕ × Finset ℕ} {seen : List ℕ} (h : Collected is seen) (row : List (EntryValue T)) :
    Collected (row.foldl Handle.collect is) (seen ++ row.map EntryValue.entry) := by
  induction row generalizing is seen with
  | nil => rwa [List.map_nil, List.append_nil]
  | cons ev row ih =>
    have hnext := ih (h.collect ev)
    rwa [List.append_assoc, List.singleton_append] at hnext

theorem Collected.rows {is : List ℕ × Finset ℕ} {seen : List ℕ} (h : Collected is seen) (handle : Handle T) (l : List ℕ) :
    Collected (l.foldl (fun is index => (handle.rows index).values.foldl Handle.collect is) is)
      (seen ++ l.flatMap fun i => (handle.rows i).values.map EntryValue.entry) := by
  induction l generalizing is seen with
  | nil => rwa [List.flatMap_nil, List.append_nil]
  | cons i l ih =>
    have hnext := ih (h.row (handle.rows i).values)
    rwa [List.append_assoc] at hnext

-- ---------------------------------------------------------------------------
-- Answers
-- ---------------------------------------------------------------------------

section
variable {handle : Handle T} {maps : ℕ → ℕ → Option T}

theorem IsMap.mem_keys {l : List (EntryValue T)} {m : ℕ → Option T} (h : IsMap l m) {e : ℕ} :
    e ∈ l.map EntryValue.entry ↔ (m e).isSome := by
  rw [List.mem_map, Option.isSome_iff_exists]
  constructor
  · rintro ⟨ev, hev, rfl⟩
    exact ⟨ev.value, (h.mem ev).mp hev⟩
  · rintro ⟨v, hv⟩
    exact ⟨⟨e, v⟩, (h.mem ⟨e, v⟩).mpr hv, rfl⟩

theorem IsMap.keys_increase {l : List (EntryValue T)} {m : ℕ → Option T} (h : IsMap l m) :
    (l.map EntryValue.entry).Pairwise (· < ·) := List.pairwise_map.mpr h.sorted

theorem Represents.entries (h : Represents handle maps) :
    (Handle.entries handle).Nodup ∧ ∀ e, e ∈ Handle.entries handle ↔ ∃ i < handle.num_total, HasKey maps i e := by
  have hstart : Collected ([], ∅) [] := ⟨List.nodup_nil, by simp, by simp⟩
  have hall := hstart.rows handle (List.range handle.num_total)
  refine ⟨hall.nodup, fun e => (hall.mem e).trans ?_⟩
  rw [List.nil_append, List.mem_flatMap]
  constructor
  · rintro ⟨i, hi, he⟩
    exact ⟨i, List.mem_range.mp hi, (h.isMap i (List.mem_range.mp hi)).mem_keys.mp he⟩
  · rintro ⟨i, hi, he⟩
    exact ⟨i, List.mem_range.mpr hi, (h.isMap i hi).mem_keys.mpr he⟩

theorem Represents.count_ne_zero (h : Represents handle maps) {i : ℕ} (hi : i < handle.num_total) :
    (handle.rows i).count ≠ 0 ↔ ∃ e, HasKey maps i e := by
  rw [← (h.valid i hi).length_values, ← Nat.pos_iff_ne_zero, List.length_pos_iff_exists_mem]
  constructor
  · rintro ⟨ev, hev⟩
    exact ⟨ev.entry, (h.isMap i hi).mem_keys.mp (List.mem_map_of_mem hev)⟩
  · rintro ⟨e, he⟩
    obtain ⟨ev, hev, _⟩ := List.mem_map.mp ((h.isMap i hi).mem_keys.mpr he)
    exact ⟨ev, hev⟩

theorem Represents.indices (h : Represents handle maps) :
    (Handle.indices handle).Pairwise (· < ·) ∧
      ∀ i, i ∈ Handle.indices handle ↔ i < handle.num_total ∧ ∃ e, HasKey maps i e := by
  rw [Handle.indices, foldl_pushIf, List.nil_append]
  refine ⟨List.pairwise_lt_range.filter _, fun i => ?_⟩
  rw [List.mem_filter, List.mem_range, decide_eq_true_eq]
  exact and_congr_right h.count_ne_zero

theorem Represents.indicesOf (h : Represents handle maps) (e : ℕ) :
    ∃ is, Handle.indicesOf handle e = some is ∧ is.Pairwise (· < ·) ∧
      ∀ i, i ∈ is ↔ i < handle.num_total ∧ HasKey maps i e := by
  refine ⟨_, @foldlM_pushIf ℕ _ (fun i => HasKey maps i e) _ _ (fun is i hi => ?_) [], ?_, fun i => ?_⟩
  · have hi' := List.mem_range.mp hi
    rw [RaggedHandle.row_eq hi']
    simp [(h.isMap i hi').isEntry_eq, HasKey]
  · rw [List.nil_append]
    exact List.pairwise_lt_range.filter _
  · rw [List.nil_append, List.mem_filter, List.mem_range, decide_eq_true_eq]

theorem Represents.answers (h : Represents handle maps) : Answers handle maps where
  increasing i hi := (h.isMap i hi).keys_increase
  contains i hi e := by
    rw [Handle.contains, RaggedHandle.row_eq hi]
    exact congrArg some ((h.isMap i hi).isEntry_eq e)
  get i hi e := by
    rw [Handle.get, RaggedHandle.row_eq hi]
    cases hv : maps i e with
    | none => simp [(h.isMap i hi).isEntry_eq, hv]
    | some v => simp [(h.isMap i hi).isEntry_eq, hv, (h.isMap i hi).found hv]
  at_ i hi e := by
    rw [Handle.at_, RaggedHandle.row_eq hi]
    cases hv : maps i e with
    | none => simp [(h.isMap i hi).isEntry_eq, hv]
    | some v => simp [(h.isMap i hi).isEntry_eq, hv, (h.isMap i hi).found hv]
  ref i hi _ _ hv init memory := ⟨_, h.ref_found hi hv init memory⟩
  entriesAt i hi := by
    refine ⟨(handle.rows i).values.map EntryValue.entry, ?_, (h.isMap i hi).keys_increase, fun e => (h.isMap i hi).mem_keys⟩
    rw [Handle.entriesAt, Operations.guard_bind hi, foldl_push]
    rfl
  entries := h.entries
  indices := h.indices
  indicesOf := h.indicesOf

theorem ref_frame {init : T} {memory : ℕ → EntryValue T} {index entry itr i : ℕ} {handle' : Handle T}
    (h : Handle.ref handle init memory index entry = some (handle', itr)) (hi : index ≠ i) :
    handle'.rows i = handle.rows i := by
  obtain ⟨row, _, h⟩ := Option.bind_eq_some_iff.mp h
  dsimp only at h
  split at h
  · cases h
    rfl
  · obtain ⟨⟨row', ritr⟩, _, h⟩ := Option.bind_eq_some_iff.mp h
    cases h
    exact handle.setRow_rows_of_ne _ row' hi.symm

theorem update_frame {index itr i : ℕ} {f : T → T} {handle' : Handle T}
    (h : Handle.update handle index itr f = some handle') (hi : index ≠ i) : handle'.rows i = handle.rows i := by
  obtain ⟨row, _, h⟩ := Option.bind_eq_some_iff.mp h
  obtain ⟨ev, _, h⟩ := Option.bind_eq_some_iff.mp h
  obtain ⟨row', _, h⟩ := Option.bind_eq_some_iff.mp h
  cases h
  exact handle.setRow_rows_of_ne _ row' hi.symm

theorem erase_frame {index entry i : ℕ} {handle' : Handle T} (h : Handle.erase handle index entry = some handle')
    (hi : index ≠ i) : handle'.rows i = handle.rows i := by
  obtain ⟨row, _, h⟩ := Option.bind_eq_some_iff.mp h
  dsimp only at h
  split at h
  · obtain ⟨row', _, h⟩ := Option.bind_eq_some_iff.mp h
    cases h
    exact handle.setRow_rows_of_ne _ row' hi.symm
  · cases h
    rfl

/-- The rows of other indices are left alone. -/
theorem step_frame {init : T} {op : Op T} {handle' : Handle T} (h : step init handle op = some handle') {i : ℕ}
    (hi : op.index ≠ i) : handle'.rows i = handle.rows i := by
  cases op with
  | write index entry memory f =>
    obtain ⟨⟨mid, itr⟩, href, hupdate⟩ := Option.bind_eq_some_iff.mp h
    exact (update_frame hupdate hi).trans (ref_frame href hi)
  | erase index entry => exact erase_frame h hi

/-- After any writes and erasures the rows are the maps that these lead to, all
that is looked up is what the maps have, and a row that no operation names is as
it was. -/
theorem sparse_refines (init : T) (h : Represents handle maps) {ops : List (Op T)}
    (hops : Operations.Permitted (fun handle op => op.Ok handle) (step init) handle ops) :
    ∃ handle', Operations.run (step init) handle ops = some handle' ∧ handle'.num_total = handle.num_total ∧
      Represents handle' (ops.foldl (Op.onMaps init) maps) ∧ Answers handle' (ops.foldl (Op.onMaps init) maps) ∧
      ∀ i, (∀ op ∈ ops, op.index ≠ i) → handle'.rows i = handle.rows i := by
  have hstep (now : Handle T) (maps : ℕ → ℕ → Option T) (op : Op T)
      (hnow : now.num_total = handle.num_total ∧ Represents now maps) (hok : op.Ok now) :
      ∃ next, step init now op = some next ∧ next.num_total = handle.num_total ∧ Represents next (op.onMaps init maps) := by
    obtain ⟨row, hstep, hnext⟩ := step_represents hnow.2 hok init
    exact ⟨_, hstep, hnow.1, hnext⟩
  obtain ⟨handle', hrun, htotal, hrep⟩ := Operations.refines_permitted hstep ⟨rfl, h⟩ hops
  refine ⟨handle', hrun, htotal, hrep, hrep.answers, fun i hi => ?_⟩
  exact Operations.run_keeps (fun handle => handle.rows i) (fun op hop s s' hs => step_frame hs (hi op hop)) hrun

end

-- ---------------------------------------------------------------------------
-- A row that is full
-- ---------------------------------------------------------------------------

def emptyRows (n : ℕ) : Handle ℕ := ⟨n, fun _ => .empty⟩

theorem represents_emptyRows (n : ℕ) : Represents (emptyRows n) fun _ _ => none :=
  ⟨fun _ _ => .empty, fun _ _ => ⟨.nil, fun _ => by simp [emptyRows, RowVectorU.empty, RowVectorU.values]⟩⟩

theorem sparse_refines_two :
    ∃ handle', Operations.run (step 0) (emptyRows 1) [.erase 0 5, .write 0 5 (fun _ => ⟨0, 0⟩) (· + 7)] = some handle' ∧
      Handle.get handle' 0 5 = some 7 ∧ handle'.contains 0 3 = some false := by
  have hops : Operations.Permitted (fun handle op => op.Ok handle) (step 0) (emptyRows 1)
      [.erase 0 5, .write 0 5 (fun _ => ⟨0, 0⟩) (· + 7)] := by
    refine ⟨Nat.one_pos, fun s' hs => ?_⟩
    obtain rfl : emptyRows 1 = s' := Option.some.inj hs
    refine ⟨⟨Nat.one_pos, fun _ _ => ?_⟩, fun _ _ => trivial⟩
    change 0 + 5 < 2 ^ 32
    norm_num
  obtain ⟨handle', hrun, htotal, -, hanswers, -⟩ := sparse_refines 0 (represents_emptyRows 1) hops
  have hi : 0 < handle'.num_total := htotal.symm ▸ Nat.one_pos
  exact ⟨handle', hrun, hanswers.get 0 hi 5, hanswers.contains 0 hi 3⟩

/-- The entries `0`, `1`, … are written into the first row. -/
def writes (n : ℕ) : List (Op ℕ) := (List.range n).map fun e => .write 0 e (fun _ => ⟨0, 0⟩) id

/-- From no entries on, the capacity is the next multiple of five. -/
theorem run_writes {n : ℕ} (hn : n < 2 ^ 32) :
    ∃ handle maps, Operations.run (step 0) (emptyRows 1) (writes n) = some handle ∧ handle.num_total = 1 ∧
      Represents handle maps ∧ (∀ e, n ≤ e → maps 0 e = none) ∧ (handle.rows 0).count = n ∧
      (handle.rows 0).capacity = 5 * ((n + 4) / 5) := by
  induction n with
  | zero => exact ⟨emptyRows 1, _, rfl, rfl, represents_emptyRows 1, fun _ _ => rfl, rfl, rfl⟩
  | succ n ih =>
    obtain ⟨handle, maps, hrun, htotal, hrep, hnone, hcount, hcap⟩ := ih (Nat.lt_of_succ_lt hn)
    have hi : 0 < handle.num_total := htotal.symm ▸ Nat.one_pos
    have hg : (handle.rows 0).Growable := by
      rw [RowVectorU.Growable, hcount, hcap]
      omega
    obtain ⟨row, hstep, hrow, hmap, hcount', hcap'⟩ := hrep.write_new hi (hnone n le_rfl) hg 0 (fun _ => ⟨0, 0⟩) id
    have hself := handle.setRow_rows_self 0 row
    refine ⟨handle.setRow 0 row, _, ?_, htotal, hrep.setRow hrow hmap, fun e he => ?_, ?_, ?_⟩
    · rw [writes, List.range_succ, List.map_append, ← writes, List.map_singleton, Operations.run_concat, hrun]
      exact hstep
    · rw [Function.update_self, Function.update_of_ne (by omega)]
      exact hnone e (by omega)
    · rw [hself, hcount', hcount]
    · rw [hself, hcap', RowVectorU.nextCapacity, hcount, hcap]
      split_ifs
      · omega
      · omega

/-- The last entry that can be counted in 32 bits leaves no place for another
one. -/
theorem writes_overflow {n : ℕ} (hn : n = 2 ^ 32) : Operations.run (step 0) (emptyRows 1) (writes n) = none := by
  obtain ⟨n, rfl⟩ := Nat.exists_eq_succ_of_ne_zero (show n ≠ 0 by omega)
  obtain ⟨handle, maps, hrun, htotal, hrep, hnone, hcount, hcap⟩ := run_writes (show n < 2 ^ 32 by omega)
  rw [writes, List.range_succ, List.map_append, ← writes, List.map_singleton, Operations.run_concat, hrun]
  have hi : 0 < handle.num_total := htotal.symm ▸ Nat.one_pos
  have hmap := hrep.isMap 0 hi
  have hle := (hmap.cut n).le_length
  rw [(hrep.valid 0 hi).length_values] at hle
  have hinsert := (hrep.valid 0 hi).insert_full (fun _ => ⟨0, 0⟩) (by omega) (by omega) hle ⟨n, 0⟩
  have hentry := hmap.isEntry_eq n
  rw [hnone n le_rfl] at hentry
  rw [Option.bind_some, step, Handle.ref, RaggedHandle.row_eq hi]
  simp [hentry, hinsert]

theorem sparse_not_refined : Operations.run (step 0) (emptyRows 1) (writes (2 ^ 32)) = none := writes_overflow rfl

end Flecsi.Data.Sparse
