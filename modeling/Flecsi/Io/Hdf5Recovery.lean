import Flecsi.Io.StagedRows
import Flecsi.Lib.KeyedFold

/-!
# Recovery of HDF5 checkpoints

When reading the files of a checkpoint restores every field. A dense buffer has to fill its
words, the rows of a rank theirs.
-/

namespace Flecsi.Io

open Segments KeyedFold
open Data
open Execution.Sparse (RowVector)

variable {n : ℕ}

-- ---------------------------------------------------------------------------
-- What a checkpoint writes
-- ---------------------------------------------------------------------------

def Stored (info : FieldInfo) : Prop := info.storage_class ≠ .other

instance (info : FieldInfo) : Decidable (Stored info) :=
  inferInstanceAs (Decidable (info.storage_class ≠ .other))

/-- The words a rank writes of a field. -/
def nsize (info : FieldInfo) (c : Context) : ℕ :=
  match info.storage_class with
  | .dense => dense_nsize ((c.field_data info.fid).getD []).length
  | .ragged | .sparse => ragged_nsize info.entry_size ((c.sparse_field_data info.fid).getD [])
  | .other => 0

def image (conv : IntConversion) (info : FieldInfo) (c : Context) : Option (List UInt8) :=
  match info.storage_class with
  | .dense => do loadAt (← c.field_data info.fid) 0 (4 * nsize info c)
  | .ragged | .sparse => do stage_rows conv info.entry_size (← c.sparse_field_data info.fid)
  | .other => none

def offsets (info : FieldInfo) (ctxs : Fin n → Context) (group : List (Fin n)) : Option (List ℕ) :=
  match info.storage_class with
  | .ragged | .sparse => some (offset_buf group fun p => nsize info (ctxs p))
  | _ => none

/-- The data set of a group, if all of it comes through. -/
def dataset (conv : IntConversion) (ctxs : Fin n → Context) (group : List (Fin n)) (info : FieldInfo) :
    Option Dataset :=
  let dims := total (fun p => nsize info (ctxs p)) group
  (writeSegments 4 (fun p => nsize info (ctxs p)) (fun p => image conv info (ctxs p)) group
    (List.replicate (4 * dims) 0)).map fun words => ⟨dims, words, offsets info ctxs group⟩

section
variable (conv : IntConversion) (ctxs : Fin n → Context)

theorem checkpoint_info_fills (group : List (Fin n)) :
    Fills (checkpoint_info conv ctxs group) (fun info => field_name info.fid) Stored
      (dataset conv ctxs group) fun _ => none where
  write file info hstored hfile := by
    have hcreate (size : ℕ) : create_hdf5_dataset file (field_name info.fid) size =
        some (Function.update file (field_name info.fid)
          (some ⟨size, List.replicate (4 * size) 0, none⟩)) := by
      rw [create_hdf5_dataset, hfile]
      rfl
    cases hclass : info.storage_class with
    | dense =>
      simp only [checkpoint_info, hclass, checkpoint_field, hcreate, write_data_to_hdf5,
        Function.update_self, Function.update_idem, Option.bind_eq_bind, Option.bind_some, dataset, nsize,
        image, offsets, Option.map_map]
      exact Option.map_eq_bind.symm
    | ragged | sparse =>
      simp only [checkpoint_info, hclass, checkpoint_field_ragged, hcreate, write_data_to_hdf5,
        Function.update_self, Function.update_idem, Option.bind_eq_bind, Option.bind_some, dataset, nsize,
        image, offsets, Option.map_map]
      exact Option.map_eq_bind.symm
    | other => exact absurd hclass hstored
  skip file info hstored := by
    have hclass : info.storage_class = .other := not_not.mp hstored
    simp only [checkpoint_info, hclass]

theorem field_names_nodup (reg : Registrations) :
    (reg.fields.map fun info => field_name info.fid).Nodup := by
  have hmap : (reg.fields.map fun info => field_name info.fid) =
      (reg.fields.map (·.fid)).map field_name := by simp
  rw [hmap]
  exact reg.nodup.map fun a b h => Nat.repr_inj.mp ((String.append_right_inj _).mp h)

variable (reg : Registrations) (policy : Policy) (file_name_in : String)
  (files : String → Option File)

/-- The file of a group. -/
def checkpoint_file (color : ℕ) : Option File :=
  reg.fields.foldlM (checkpoint_info conv ctxs (policy.group color)) fun _ => none

theorem checkpoint_files_fill :
    Fills (fun files color => do
        let file ← reg.fields.foldlM (checkpoint_info conv ctxs (policy.group color)) fun _ => none
        some (Function.update files (file_name_in ++ toString color) (some file)))
      (fun color => file_name_in ++ toString color) (fun _ => True)
      (checkpoint_file conv ctxs reg policy) files where
  write _ _ _ _ := Option.map_eq_bind.symm
  skip _ _ h := absurd trivial h

theorem file_names_nodup : ((policy.colors n).map fun color => file_name_in ++ toString color).Nodup :=
  (List.nodup_dedup _).map fun _ _ h => Nat.repr_inj.mp ((String.append_right_inj _).mp h)

theorem new_color_mem (p : Fin n) : policy.new_color p ∈ policy.colors n :=
  List.mem_dedup.mpr (List.mem_map_of_mem (List.mem_finRange p))

theorem group_nodup (color : ℕ) : (policy.group (n := n) color).Nodup :=
  (List.nodup_finRange n).filter _

theorem mem_group (p : Fin n) : p ∈ policy.group (policy.new_color p) :=
  List.mem_filter.mpr ⟨List.mem_finRange p, decide_eq_true rfl⟩

variable {conv ctxs reg policy file_name_in files}

/-- The data sets of a checkpoint that came through. -/
theorem checkpoint_datasets {saved : String → Option File}
    (h : checkpoint_all_fields conv reg policy file_name_in files ctxs = some saved) (p : Fin n)
    {info : FieldInfo} (hinfo : info ∈ reg.fields) (hstored : Stored info) :
    ∃ file d, saved (file_name_in ++ toString (policy.new_color p)) = some file ∧
      file (field_name info.fid) = some d ∧
      dataset conv ctxs (policy.group (policy.new_color p)) info = some d := by
  obtain ⟨hfile, hsaved⟩ := (checkpoint_files_fill conv ctxs reg policy file_name_in files).value_of_eq_some
    (file_names_nodup policy file_name_in) (fun _ _ => rfl) h (new_color_mem policy p) trivial
  obtain ⟨file, hfile⟩ := Option.isSome_iff_exists.mp hfile
  obtain ⟨hd, hname⟩ := (checkpoint_info_fills conv ctxs _).value_of_eq_some (field_names_nodup reg)
    (fun _ _ => rfl) hfile hinfo hstored
  obtain ⟨d, hd⟩ := Option.isSome_iff_exists.mp hd
  exact ⟨file, d, hsaved.trans hfile, hname.trans hd, hd⟩

theorem checkpoint_image {saved : String → Option File}
    (h : checkpoint_all_fields conv reg policy file_name_in files ctxs = some saved) (p : Fin n)
    {info : FieldInfo} (hinfo : info ∈ reg.fields) (hstored : Stored info) :
    (image conv info (ctxs p)).isSome := by
  obtain ⟨_, _, _, _, hd⟩ := checkpoint_datasets h p hinfo hstored
  obtain ⟨words, hwords, _⟩ := Option.map_eq_some_iff.mp hd
  exact writeSegments_some hwords p (mem_group policy p)

theorem dataset_eq {info : FieldInfo} {part : Fin n → List UInt8} (color : ℕ)
    (himage : ∀ p, image conv info (ctxs p) = some (part p))
    (hlen : ∀ p, (part p).length = 4 * nsize info (ctxs p)) :
    dataset conv ctxs (policy.group color) info =
      some ⟨total (fun p => nsize info (ctxs p)) (policy.group color), (policy.group color).flatMap part,
        offsets info ctxs (policy.group color)⟩ := by
  have hbuf : (List.replicate (4 * total (fun p => nsize info (ctxs p)) (policy.group color)) (0 : UInt8)).length =
      4 * total (fun p => nsize info (ctxs p)) (policy.group color) := List.length_replicate
  have hwords := writeSegments_eq (group_nodup policy color) (fun p _ => himage p) (fun p _ => hlen p) hbuf
  rw [dataset, hwords]
  rfl

theorem exists_checkpoint (h : ∀ info ∈ reg.fields, Stored info → ∃ part : Fin n → List UInt8, ∀ p,
      image conv info (ctxs p) = some (part p) ∧ (part p).length = 4 * nsize info (ctxs p)) :
    ∃ saved, checkpoint_all_fields conv reg policy file_name_in files ctxs = some saved := by
  refine (checkpoint_files_fill conv ctxs reg policy file_name_in files).exists_fold
    (file_names_nodup policy file_name_in) (fun _ _ => rfl) fun color _ _ => ?_
  refine Option.isSome_iff_exists.mpr ((checkpoint_info_fills conv ctxs _).exists_fold
    (field_names_nodup reg) (fun _ _ => rfl) fun info hinfo hstored => ?_)
  obtain ⟨part, hpart⟩ := h info hinfo hstored
  rw [dataset_eq color (fun p => (hpart p).1) fun p => (hpart p).2]
  rfl

end

-- ---------------------------------------------------------------------------
-- What a recovery reads
-- ---------------------------------------------------------------------------

theorem collect_eq_some {f : Fin n → Option α} {g : Fin n → α} :
    collect f = some g ↔ ∀ p, f p = some (g p) := by
  unfold collect
  split
  · rename_i h
    refine ⟨fun hg p => ?_, fun hg => congrArg some (funext fun p => Option.get_of_eq_some _ (hg p))⟩
    rw [← Option.some.inj hg, Option.some_get]
  · rename_i h
    refine ⟨nofun, fun hg => absurd (fun p => ?_) h⟩
    rw [hg p]
    rfl

/-- The data of one field, and the colorings, are the same. -/
structure SameAt (fid : ℕ) (c c' : Context) : Prop where
  field_data : c'.field_data fid = c.field_data fid
  sparse_field_data : c'.sparse_field_data fid = c.sparse_field_data fid
  coloring_info : c'.coloring_info = c.coloring_info

theorem SameAt.refl (fid : ℕ) (c : Context) : SameAt fid c c := ⟨rfl, rfl, rfl⟩

theorem SameAt.trans {fid : ℕ} {a b c : Context} (h : SameAt fid a b) (h' : SameAt fid b c) :
    SameAt fid a c :=
  ⟨h'.field_data.trans h.field_data, h'.sparse_field_data.trans h.sparse_field_data,
    h'.coloring_info.trans h.coloring_info⟩

theorem SameAt.instantiated_field {info : FieldInfo} {c c' : Context} (h : SameAt info.fid c c') :
    c'.instantiated_field info = c.instantiated_field info := by
  rw [Context.instantiated_field, Context.instantiated_field, h.field_data, Context.num_total,
    Context.num_total, h.coloring_info]

theorem SameAt.instantiated_rows {info : FieldInfo} {c c' : Context} (h : SameAt info.fid c c') :
    c'.instantiated_rows info = c.instantiated_rows info := by
  rw [Context.instantiated_rows, Context.instantiated_rows, h.sparse_field_data, Context.num_total,
    Context.num_total, h.coloring_info]

theorem sameAt_set_field {fid other : ℕ} (h : fid ≠ other) (c : Context) (data : List UInt8) :
    SameAt fid c (c.set_field other data) := ⟨Function.update_of_ne h _ _, rfl, rfl⟩

theorem sameAt_set_rows {fid other : ℕ} (h : fid ≠ other) (c : Context) (rows : List RowVector) :
    SameAt fid c (c.set_rows other rows) := ⟨rfl, Function.update_of_ne h _ _, rfl⟩

section
variable {conv : IntConversion} {policy : Policy} {file_name_in : String}
  {saved : String → Option File} {fresh : Fin n → ℕ × ℕ → ℕ → UInt8} {s s' : Fin n → Context}

theorem recover_info_dense {info : FieldInfo} (hclass : info.storage_class = .dense) :
    recover_info conv policy file_name_in saved fresh s info = some s' ↔ ∀ p, ∃ file data,
      saved (file_name_in ++ toString (policy.new_color p)) = some file ∧
      recover_field (policy.group (policy.new_color p)) file (field_name info.fid)
        (fun q => (s q).instantiated_field info) p = some data ∧
      s' p = (s p).set_field info.fid data := by
  simp only [recover_info, hclass, collect_eq_some, Option.bind_eq_bind, Option.bind_eq_some_iff,
    Option.some.injEq]
  refine forall_congr' fun p => ⟨?_, ?_⟩
  · rintro ⟨file, hfile, data, hdata, hs⟩
    exact ⟨file, data, hfile, hdata, hs.symm⟩
  · rintro ⟨file, data, hfile, hdata, hs⟩
    exact ⟨file, hfile, data, hdata, hs.symm⟩

def HasRows (info : FieldInfo) : Prop := info.storage_class = .ragged ∨ info.storage_class = .sparse

theorem recover_info_rows {info : FieldInfo} (hclass : HasRows info) :
    recover_info conv policy file_name_in saved fresh s info = some s' ↔ ∀ p, ∃ file rows,
      saved (file_name_in ++ toString (policy.new_color p)) = some file ∧
      recover_field_ragged conv (policy.group (policy.new_color p)) file (field_name info.fid)
        info.entry_size (fun i => fresh p (info.fid, i)) ((s p).instantiated_rows info) p = some rows ∧
      s' p = (s p).set_rows info.fid rows := by
  have hunfold : recover_info conv policy file_name_in saved fresh s info = collect fun p => (do
      let file ← saved (file_name_in ++ toString (policy.new_color p))
      let rows ← recover_field_ragged conv (policy.group (policy.new_color p)) file
        (field_name info.fid) info.entry_size (fun i => fresh p (info.fid, i))
        ((s p).instantiated_rows info) p
      some ((s p).set_rows info.fid rows)) := by
    unfold recover_info
    obtain hclass | hclass := hclass <;> rw [hclass]
  simp only [hunfold, collect_eq_some, Option.bind_eq_bind, Option.bind_eq_some_iff, Option.some.injEq]
  refine forall_congr' fun p => ⟨?_, ?_⟩
  · rintro ⟨file, hfile, rows, hrows, hs⟩
    exact ⟨file, rows, hfile, hrows, hs.symm⟩
  · rintro ⟨file, rows, hfile, hrows, hs⟩
    exact ⟨file, hfile, rows, hrows, hs.symm⟩

theorem recover_info_sameAt {info : FieldInfo}
    (h : recover_info conv policy file_name_in saved fresh s info = some s') {fid : ℕ}
    (hfid : fid ≠ info.fid) (p : Fin n) : SameAt fid (s p) (s' p) := by
  cases hclass : info.storage_class with
  | dense =>
    obtain ⟨_, data, _, _, hs⟩ := (recover_info_dense hclass).mp h p
    rw [hs]
    exact sameAt_set_field hfid _ _
  | ragged =>
    obtain ⟨_, rows, _, _, hs⟩ := (recover_info_rows (.inl hclass)).mp h p
    rw [hs]
    exact sameAt_set_rows hfid _ _
  | sparse =>
    obtain ⟨_, rows, _, _, hs⟩ := (recover_info_rows (.inr hclass)).mp h p
    rw [hs]
    exact sameAt_set_rows hfid _ _
  | other =>
    simp only [recover_info, hclass] at h
    cases h
    exact .refl _ _

theorem recover_fold_sameAt {infos : List FieldInfo}
    (h : infos.foldlM (recover_info conv policy file_name_in saved fresh) s = some s') {fid : ℕ}
    (hfid : fid ∉ infos.map (·.fid)) (p : Fin n) : SameAt fid (s p) (s' p) := by
  induction infos generalizing s with
  | nil =>
    cases h
    exact .refl _ _
  | cons info infos ih =>
    rw [List.map_cons, List.mem_cons, not_or] at hfid
    rw [List.foldlM_cons] at h
    obtain ⟨next, hnext, hrest⟩ := Option.bind_eq_some_iff.mp h
    exact (recover_info_sameAt hnext hfid.1 p).trans (ih hrest hfid.2)

/-- A recovery that came through has handled each field by itself. -/
theorem recover_split {reg : Registrations}
    (h : recover_all_fields conv policy file_name_in saved fresh reg s = some s') {info : FieldInfo}
    (hinfo : info ∈ reg.fields) :
    ∃ before after : Fin n → Context,
      recover_info conv policy file_name_in saved fresh before info = some after ∧
      (∀ p, SameAt info.fid (s p) (before p)) ∧ ∀ p, SameAt info.fid (after p) (s' p) := by
  obtain ⟨done, rest, hsplit⟩ := List.append_of_mem hinfo
  have hn := reg.nodup
  rw [hsplit, List.map_append, List.map_cons, List.nodup_append] at hn
  rw [recover_all_fields, hsplit, List.foldlM_append] at h
  obtain ⟨before, hbefore, h⟩ := Option.bind_eq_some_iff.mp h
  rw [List.foldlM_cons] at h
  obtain ⟨after, hafter, hrest⟩ := Option.bind_eq_some_iff.mp h
  refine ⟨before, after, hafter, fun p => recover_fold_sameAt hbefore (fun hmem => ?_) p,
    fun p => recover_fold_sameAt hrest (List.nodup_cons.mp hn.2.1).1 p⟩
  exact hn.2.2 _ hmem _ List.mem_cons_self rfl

end

-- ---------------------------------------------------------------------------
-- Fields that fit
-- ---------------------------------------------------------------------------

/-- The field is there, and its rows are in memory of their own. -/
def Instantiated (info : FieldInfo) (c : Context) : Prop :=
  match info.storage_class with
  | .dense => ∃ data, c.field_data info.fid = some data
  | .ragged | .sparse =>
    ∃ rows, c.sparse_field_data info.fid = some rows ∧ ∀ row ∈ rows, Allocated info.entry_size row
  | .other => True

/-- The data of the field fill their words. -/
def Fits (info : FieldInfo) (c : Context) : Prop :=
  match info.storage_class with
  | .dense => ∀ data, c.field_data info.fid = some data → 4 * dense_nsize data.length = data.length
  | .ragged | .sparse =>
    ∀ rows, c.sparse_field_data info.fid = some rows → RowsFit info.entry_size rows
  | .other => True

/-- `c'` has the field with the layout of `c`, or can instantiate it with that layout. -/
def Later (info : FieldInfo) (c c' : Context) : Prop :=
  match info.storage_class with
  | .dense => (c'.instantiated_field info).length = (c.instantiated_field info).length
  | .ragged | .sparse =>
    (c'.instantiated_rows info).length = (c.instantiated_rows info).length ∧
      ∀ row ∈ c'.instantiated_rows info, Allocated info.entry_size row
  | .other => True

/-- `c'` has the contents of the field in `c`. -/
def Restored (info : FieldInfo) (c c' : Context) : Prop :=
  match info.storage_class with
  | .dense => c'.field_data info.fid = c.field_data info.fid
  | .ragged | .sparse =>
    (c'.sparse_field_data info.fid).map (·.map (content info.entry_size)) =
      (c.sparse_field_data info.fid).map (·.map (content info.entry_size))
  | .other => True

theorem Later.of_sameAt {info : FieldInfo} {c c' c'' : Context} (h : Later info c c')
    (hs : SameAt info.fid c' c'') : Later info c c'' := by
  unfold Later at *
  split <;> simp_all only [hs.instantiated_field, hs.instantiated_rows, implies_true, and_self]

theorem Restored.of_sameAt {info : FieldInfo} {c c' c'' : Context} (h : Restored info c c')
    (hs : SameAt info.fid c' c'') : Restored info c c'' := by
  unfold Restored at *
  split <;> simp_all only [hs.field_data, hs.sparse_field_data]

theorem length_offset_buf (group : List (Fin n)) (nsize : Fin n → ℕ) :
    (offset_buf group nsize).length = group.length + 1 := by
  simp [offset_buf]

theorem offset_buf_getD {group : List (Fin n)} (hn : group.Nodup) (nsize : Fin n → ℕ) {p : Fin n}
    (hp : p ∈ group) :
    (offset_buf group nsize).getD (group.idxOf p) 0 = displ nsize group p ∧
      (offset_buf group nsize).getD (group.idxOf p + 1) 0 = displ nsize group p + nsize p := by
  obtain ⟨pre, post, rfl⟩ := List.append_of_mem hp
  have hpre : p ∉ pre := fun h => (List.nodup_append.mp hn).2.2 p h p List.mem_cons_self rfl
  have hidx : (pre ++ p :: post).idxOf p = pre.length := by
    rw [List.idxOf_append_of_notMem hpre, List.idxOf_cons_self, Nat.add_zero]
  have hdispl : displ nsize (pre ++ p :: post) p = total nsize pre := displ_split nsize hpre
  rw [hidx, hdispl, offset_buf, List.map_append, List.map_cons, List.append_assoc, List.cons_append]
  have hlen : ((pre.map (displ nsize (pre ++ p :: post)))).length = pre.length := List.length_map _
  refine ⟨?_, ?_⟩
  · rw [List.getD_append_right _ _ _ _ hlen.le, hlen, Nat.sub_self, List.getD_cons_zero, hdispl]
  · rw [List.getD_append_right _ _ _ _ (by rw [hlen]; exact Nat.le_succ _), hlen,
      Nat.add_sub_cancel_left, List.getD_cons_succ]
    cases post with
    | nil => simp [total]
    | cons q post =>
      have hq : q ∉ pre ++ [p] := by
        have hsplit : pre ++ p :: q :: post = (pre ++ [p]) ++ q :: post := by simp
        rw [hsplit] at hn
        exact fun h => (List.nodup_append.mp hn).2.2 q h q List.mem_cons_self rfl
      have hnext : displ nsize (pre ++ [p] ++ q :: post) q = total nsize (pre ++ [p]) :=
        displ_split nsize hq
      rw [List.append_assoc, List.cons_append, List.nil_append] at hnext
      rw [List.map_cons, List.cons_append, List.getD_cons_zero, hnext, total_append]
      simp [total]

section
variable {conv : IntConversion} {info : FieldInfo} {c : Context}

theorem HasRows.instantiated (h : HasRows info) : Instantiated info c ↔
    ∃ rows, c.sparse_field_data info.fid = some rows ∧ ∀ row ∈ rows, Allocated info.entry_size row := by
  unfold Instantiated
  obtain h | h := h <;> rw [h]

theorem HasRows.fits (h : HasRows info) : Fits info c ↔
    ∀ rows, c.sparse_field_data info.fid = some rows → RowsFit info.entry_size rows := by
  unfold Fits
  obtain h | h := h <;> rw [h]

theorem HasRows.later {c' : Context} (h : HasRows info) : Later info c c' ↔
    (c'.instantiated_rows info).length = (c.instantiated_rows info).length ∧
      ∀ row ∈ c'.instantiated_rows info, Allocated info.entry_size row := by
  unfold Later
  obtain h | h := h <;> rw [h]

theorem HasRows.restored {c' : Context} (h : HasRows info) : Restored info c c' ↔
    (c'.sparse_field_data info.fid).map (·.map (content info.entry_size)) =
      (c.sparse_field_data info.fid).map (·.map (content info.entry_size)) := by
  unfold Restored
  obtain h | h := h <;> rw [h]

theorem HasRows.image (h : HasRows info) : image conv info c =
    (c.sparse_field_data info.fid).bind fun rows => stage_rows conv info.entry_size rows := by
  unfold Flecsi.Io.image
  obtain h | h := h <;> rw [h] <;> rfl

theorem HasRows.nsize (h : HasRows info) : nsize info c =
    ragged_nsize info.entry_size ((c.sparse_field_data info.fid).getD []) := by
  unfold Flecsi.Io.nsize
  obtain h | h := h <;> rw [h]

theorem HasRows.stored (h : HasRows info) : Stored info := by
  unfold Stored
  obtain h | h := h <;> rw [h] <;> decide

theorem stored_cases (h : Stored info) : info.storage_class = .dense ∨ HasRows info := by
  cases hclass : info.storage_class with
  | dense => exact .inl rfl
  | ragged => exact .inr (.inl hclass)
  | sparse => exact .inr (.inr hclass)
  | other => exact absurd hclass h

theorem image_dense (hclass : info.storage_class = .dense) {data : List UInt8}
    (hdata : c.field_data info.fid = some data) (hfit : 4 * dense_nsize data.length = data.length) :
    image conv info c = some data ∧ data.length = 4 * nsize info c := by
  have hnsize : nsize info c = dense_nsize data.length := by
    simp only [nsize, hclass, hdata, Option.getD_some]
  refine ⟨?_, by rw [hnsize, hfit]⟩
  have hload := loadAt_append [] data []
  simp only [List.nil_append, List.append_nil, List.length_nil, Nat.cast_zero] at hload
  simp only [image, hclass, hdata, Option.bind_eq_bind, Option.bind_some, hnsize, hfit]
  exact hload

theorem image_rows (hclass : HasRows info) {rows : List RowVector}
    (hrows : c.sparse_field_data info.fid = some rows) (hfit : RowsFit info.entry_size rows)
    (halloc : ∀ row ∈ rows, Allocated info.entry_size row) :
    image conv info c = some (rows.flatMap (encoded info.entry_size)) ∧
      (rows.flatMap (encoded info.entry_size)).length = 4 * nsize info c := by
  obtain ⟨hstage, hlen⟩ := hfit.stage conv halloc
  rw [hclass.image, hclass.nsize, hrows]
  exact ⟨hstage, hlen⟩

theorem exists_image (hinst : Instantiated info c) (hfits : Fits info c) (hstored : Stored info) :
    ∃ part, image conv info c = some part ∧ part.length = 4 * nsize info c := by
  obtain hclass | hclass := stored_cases hstored
  · simp only [Instantiated, Fits, hclass] at hinst hfits
    obtain ⟨data, hdata⟩ := hinst
    exact ⟨data, image_dense hclass hdata (hfits data hdata)⟩
  · obtain ⟨rows, hrows, halloc⟩ := hclass.instantiated.mp hinst
    exact ⟨_, image_rows hclass hrows (hclass.fits.mp hfits rows hrows) halloc⟩

end

section
variable {conv : IntConversion} {ctxs : Fin n → Context} {reg : Registrations} {policy : Policy}
  {file_name_in : String} {files saved : String → Option File} {info : FieldInfo}

/-- The data set of a rank's group, by the images of its ranks. -/
theorem saved_dataset (h : checkpoint_all_fields conv reg policy file_name_in files ctxs = some saved)
    (hinfo : info ∈ reg.fields) (hstored : Stored info) {part : Fin n → List UInt8}
    (hpart : ∀ p, image conv info (ctxs p) = some (part p) ∧ (part p).length = 4 * nsize info (ctxs p))
    (p : Fin n) :
    ∃ file, saved (file_name_in ++ toString (policy.new_color p)) = some file ∧
      file (field_name info.fid) = some
        ⟨total (fun q => nsize info (ctxs q)) (policy.group (policy.new_color p)),
          (policy.group (policy.new_color p)).flatMap part,
          offsets info ctxs (policy.group (policy.new_color p))⟩ := by
  obtain ⟨file, d, hfile, hd, hdataset⟩ := checkpoint_datasets h p hinfo hstored
  refine ⟨file, hfile, hd.trans (hdataset.symm.trans ?_)⟩
  exact dataset_eq _ (fun q => (hpart q).1) fun q => (hpart q).2

theorem exists_recover_dense
    (h : checkpoint_all_fields conv reg policy file_name_in files ctxs = some saved)
    (hinfo : info ∈ reg.fields) (hclass : info.storage_class = .dense)
    (hinst : ∀ p, Instantiated info (ctxs p)) (hfits : ∀ p, Fits info (ctxs p))
    (fresh : Fin n → ℕ × ℕ → ℕ → UInt8) {s : Fin n → Context} (hs : ∀ p, Later info (ctxs p) (s p)) :
    ∃ s', recover_info conv policy file_name_in saved fresh s info = some s' ∧
      ∀ p, Restored info (ctxs p) (s' p) := by
  simp only [Instantiated, Fits, Later, hclass] at hinst hfits hs
  choose data hdata using hinst
  have hstored : Stored info := by
    rw [Stored, hclass]
    decide
  have hpart (p : Fin n) : image conv info (ctxs p) = some (data p) ∧
      (data p).length = 4 * nsize info (ctxs p) := image_dense hclass (hdata p) (hfits p _ (hdata p))
  have hnsize (p : Fin n) : dense_nsize ((s p).instantiated_field info).length = nsize info (ctxs p) := by
    rw [hs p]
    simp only [nsize, hclass, Context.instantiated_field, hdata, Option.getD_some]
  refine ⟨fun p => (s p).set_field info.fid (data p),
    (recover_info_dense hclass).mpr fun p => ?_, fun p => ?_⟩
  · obtain ⟨file, hfile, hd⟩ := saved_dataset h hinfo hstored hpart p
    refine ⟨file, data p, hfile, ?_, rfl⟩
    have hload := loadAt_flatMap (group_nodup policy _) (fun q _ => (hpart q).2) (mem_group policy p)
    have hlen : ((s p).instantiated_field info).length = (data p).length := by
      rw [hs p, Context.instantiated_field, hdata, Option.getD_some]
    have hstore := storeAt_append [] ((s p).instantiated_field info) [] hlen
    simp only [List.nil_append, List.append_nil, List.length_nil, Nat.cast_zero] at hstore
    simp only [recover_field, hd, Option.bind_eq_bind, Option.bind_some, hnsize]
    rw [hload, Option.bind_some, hstore]
  · simp only [Restored, hclass, Context.set_field, Function.update_self, hdata]

theorem exists_recover_rows
    (h : checkpoint_all_fields conv reg policy file_name_in files ctxs = some saved)
    (hinfo : info ∈ reg.fields) (hclass : HasRows info)
    (hinst : ∀ p, Instantiated info (ctxs p)) (hfits : ∀ p, Fits info (ctxs p))
    (fresh : Fin n → ℕ × ℕ → ℕ → UInt8) {s : Fin n → Context} (hs : ∀ p, Later info (ctxs p) (s p)) :
    ∃ s', recover_info conv policy file_name_in saved fresh s info = some s' ∧
      ∀ p, Restored info (ctxs p) (s' p) := by
  simp only [hclass.instantiated, hclass.fits, hclass.later] at hinst hfits hs
  choose rows hrows halloc using hinst
  have hfit (p : Fin n) := hfits p _ (hrows p)
  have hpart (p : Fin n) : image conv info (ctxs p) =
        some ((rows p).flatMap (encoded info.entry_size)) ∧
      ((rows p).flatMap (encoded info.entry_size)).length = 4 * nsize info (ctxs p) :=
    image_rows hclass (hrows p) (hfit p) (halloc p)
  have hlen (p : Fin n) : ((s p).instantiated_rows info).length = (rows p).length := by
    rw [(hs p).1, Context.instantiated_rows, hrows, Option.getD_some]
  have hread (p : Fin n) := deserialize_rows_eq conv (fun i => fresh p (info.fid, i)) (halloc p)
    (hfit p).row_lt (hfit p).item_lt ((s p).instantiated_rows info) (hs p).2 (hlen p) 0 []
  choose rows' hrows' hcontent using hread
  refine ⟨fun p => (s p).set_rows info.fid (rows' p),
    (recover_info_rows hclass).mpr fun p => ?_, fun p => ?_⟩
  · obtain ⟨file, hfile, hd⟩ := saved_dataset h hinfo hclass.stored hpart p
    refine ⟨file, rows' p, hfile, ?_, rfl⟩
    have hgroup := mem_group policy p
    have hload := loadAt_flatMap (group_nodup policy _) (fun q _ => (hpart q).2) hgroup
    obtain ⟨hfirst, hnext⟩ := offset_buf_getD (group_nodup policy _)
      (fun q => nsize info (ctxs q)) hgroup
    have hoffsets : offsets info ctxs (policy.group (policy.new_color p)) =
        some (offset_buf (policy.group (policy.new_color p)) fun q => nsize info (ctxs q)) := by
      unfold offsets
      obtain hclass | hclass := hclass <;> rw [hclass]
    have hrange : ((s p).instantiated_rows info).length < 2 ^ 31 := (hlen p).trans_lt (hfit p).rows_lt
    simp only [recover_field_ragged, hd, hoffsets, Option.bind_eq_bind, Option.bind_some,
      length_offset_buf, lt_irrefl, if_false, hfirst, hnext, Nat.add_sub_cancel_left]
    rw [hload, Option.bind_some, if_pos hrange]
    exact hrows' p
  · rw [hclass.restored]
    simp only [Context.set_rows, Function.update_self, Option.map_some, hcontent, hrows]

theorem exists_recover
    (h : checkpoint_all_fields conv reg policy file_name_in files ctxs = some saved)
    (hinst : ∀ p, ∀ info ∈ reg.fields, Instantiated info (ctxs p))
    (hfits : ∀ p, ∀ info ∈ reg.fields, Fits info (ctxs p)) (fresh : Fin n → ℕ × ℕ → ℕ → UInt8)
    {later : Fin n → Context} (hlater : ∀ p, ∀ info ∈ reg.fields, Later info (ctxs p) (later p)) :
    ∃ restored, recover_all_fields conv policy file_name_in saved fresh reg later = some restored ∧
      ∀ p, ∀ info ∈ reg.fields, Restored info (ctxs p) (restored p) := by
  -- the fields before `rest` are restored, those in `rest` as they were
  suffices hrest : ∀ done rest : List FieldInfo, reg.fields = done ++ rest → ∀ s : Fin n → Context,
      (∀ p, ∀ info ∈ done, Restored info (ctxs p) (s p)) →
      (∀ p, ∀ info ∈ rest, Later info (ctxs p) (s p)) →
      ∃ restored, rest.foldlM (recover_info conv policy file_name_in saved fresh) s = some restored ∧
        ∀ p, ∀ info ∈ reg.fields, Restored info (ctxs p) (restored p) from
    hrest [] reg.fields rfl later (fun _ _ hmem => absurd hmem List.not_mem_nil) hlater
  intro done rest hsplit
  induction rest generalizing done with
  | nil =>
    intro s hdone _
    rw [List.append_nil] at hsplit
    exact ⟨s, rfl, by rwa [hsplit]⟩
  | cons info rest ih =>
    intro s hdone hs
    have hinfo : info ∈ reg.fields := by simp [hsplit]
    have hn := reg.nodup
    rw [hsplit, List.map_append, List.map_cons, List.nodup_append] at hn
    obtain ⟨s', hstep, hrestored⟩ : ∃ s', recover_info conv policy file_name_in saved fresh s info = some s' ∧
        ∀ p, Restored info (ctxs p) (s' p) := by
      by_cases hstored : Stored info
      · obtain hclass | hclass := stored_cases hstored
        · exact exists_recover_dense h hinfo hclass (fun p => hinst p info hinfo)
            (fun p => hfits p info hinfo) fresh fun p => hs p info List.mem_cons_self
        · exact exists_recover_rows h hinfo hclass (fun p => hinst p info hinfo)
            (fun p => hfits p info hinfo) fresh fun p => hs p info List.mem_cons_self
      · have hclass : info.storage_class = .other := not_not.mp hstored
        refine ⟨s, by simp only [recover_info, hclass], fun p => ?_⟩
        simp only [Restored, hclass]
    have hframe (p : Fin n) {other : FieldInfo} (hne : other.fid ≠ info.fid) :=
      recover_info_sameAt hstep hne p
    obtain ⟨restored, hfold, hall⟩ := ih (done ++ [info]) (by simp [hsplit]) s'
      (fun p other hother => by
        obtain hother | hother := List.mem_append.mp hother
        · refine (hdone p other hother).of_sameAt (hframe p fun he => ?_)
          exact hn.2.2 _ (List.mem_map_of_mem hother) _ List.mem_cons_self he
        · rw [List.mem_singleton.mp hother]
          exact hrestored p)
      (fun p other hother => by
        refine (hs p other (List.mem_cons_of_mem _ hother)).of_sameAt (hframe p fun he => ?_)
        exact (List.nodup_cons.mp hn.2.1).1 (he ▸ List.mem_map_of_mem hother))
    exact ⟨restored, by rw [List.foldlM_cons, hstep]; exact hfold, hall⟩

end

-- ---------------------------------------------------------------------------
-- Fields that do not fit
-- ---------------------------------------------------------------------------

theorem toDouble_eq {x : ℕ} (h : x < 2 ^ 53) : toDouble x = x := by
  have hlog : Nat.log2 x - 52 = 0 := by
    have hlt : Nat.log2 x < 53 := by
      rcases Nat.eq_zero_or_pos x with rfl | hx
      · decide
      · exact (Nat.log2_lt hx.ne').mpr h
    omega
  simp [toDouble, hlog, Nat.mod_one]

/-- A buffer of less than eight petabytes fills its words if it has whole words. -/
theorem dense_words_iff {size : ℕ} (h : size < 2 ^ 53) : 4 * dense_nsize size = size ↔ 4 ∣ size := by
  rw [dense_nsize, toDouble_eq h]
  omega

/-- What a checkpoint is for: the words of the ranks tile each data set, and every field is
restored whatever its contents have become. -/
structure Recovers (conv : IntConversion) (reg : Registrations) (policy : Policy) (file_name_in : String)
    (ctxs : Fin n → Context) (saved : String → Option File) : Prop where
  tiled : ∀ (p : Fin n), ∀ info ∈ reg.fields, Stored info → ∃ file d,
    saved (file_name_in ++ toString (policy.new_color p)) = some file ∧
    file (field_name info.fid) = some d ∧
    ∀ i < d.dims, ∃! q, q ∈ policy.group (policy.new_color p) ∧
      displ (fun q => nsize info (ctxs q)) (policy.group (policy.new_color p)) q ≤ i ∧
      i < displ (fun q => nsize info (ctxs q)) (policy.group (policy.new_color p)) q + nsize info (ctxs q)
  restores : ∀ (fresh : Fin n → ℕ × ℕ → ℕ → UInt8) (later : Fin n → Context),
    (∀ p : Fin n, ∀ info ∈ reg.fields, Later info (ctxs p) (later p)) →
    ∃ restored, recover_all_fields conv policy file_name_in saved fresh reg later = some restored ∧
      ∀ p, ∀ info ∈ reg.fields, Restored info (ctxs p) (restored p)

section
variable {conv : IntConversion} {ctxs : Fin n → Context} {reg : Registrations} {policy : Policy}
  {file_name_in : String} {files saved : String → Option File} {info : FieldInfo}

theorem checkpoint_tiled (h : checkpoint_all_fields conv reg policy file_name_in files ctxs = some saved)
    (p : Fin n) (hinfo : info ∈ reg.fields) (hstored : Stored info) :
    ∃ file d, saved (file_name_in ++ toString (policy.new_color p)) = some file ∧
      file (field_name info.fid) = some d ∧
      ∀ i < d.dims, ∃! q, q ∈ policy.group (policy.new_color p) ∧
        displ (fun q => nsize info (ctxs q)) (policy.group (policy.new_color p)) q ≤ i ∧
        i < displ (fun q => nsize info (ctxs q)) (policy.group (policy.new_color p)) q +
          nsize info (ctxs q) := by
  obtain ⟨file, d, hfile, hd, hdataset⟩ := checkpoint_datasets h p hinfo hstored
  refine ⟨file, d, hfile, hd, fun i hi => ?_⟩
  obtain ⟨_, _, rfl⟩ := Option.map_eq_some_iff.mp hdataset
  exact existsUnique_segment _ (group_nodup policy _) hi

theorem later_refl {c : Context} (h : Instantiated info c) : Later info c c := by
  unfold Later
  split
  · rfl
  all_goals first
    | trivial
    | (rename_i hclass
       simp only [Instantiated, hclass] at h
       obtain ⟨rows, hrows, halloc⟩ := h
       simpa only [Context.instantiated_rows, hrows, Option.getD_some, true_and] using halloc)

/-- One field changed on one rank. -/
theorem later_update (hinst : ∀ p, ∀ info ∈ reg.fields, Instantiated info (ctxs p)) {p : Fin n}
    (hinfo : info ∈ reg.fields) {c : Context} (hc : Later info (ctxs p) c)
    (hsame : ∀ fid, fid ≠ info.fid → SameAt fid (ctxs p) c) :
    ∀ q, ∀ other ∈ reg.fields, Later other (ctxs q) (Function.update ctxs p c q) := by
  intro q other hother
  by_cases hq : q = p
  · subst hq
    rw [Function.update_self]
    by_cases hfid : other.fid = info.fid
    · rw [List.inj_on_of_nodup_map reg.nodup hother hinfo hfid]
      exact hc
    · exact (later_refl (hinst q other hother)).of_sameAt (hsame _ hfid)
  · rw [Function.update_of_ne hq]
    exact later_refl (hinst q other hother)

theorem Recovers.dense_fits (h : Recovers conv reg policy file_name_in ctxs saved)
    (hinst : ∀ p, ∀ info ∈ reg.fields, Instantiated info (ctxs p)) (hinfo : info ∈ reg.fields)
    (hclass : info.storage_class = .dense) {p : Fin n} {data : List UInt8}
    (hdata : (ctxs p).field_data info.fid = some data)
    (himage : (image conv info (ctxs p)).isSome) : 4 * dense_nsize data.length = data.length := by
  obtain ⟨part, hpart⟩ := Option.isSome_iff_exists.mp himage
  simp only [image, hclass, hdata, Option.bind_eq_bind, Option.bind_some, nsize, Option.getD_some] at hpart
  obtain ⟨⟨_, hle⟩, _⟩ := loadAt_eq_some.mp hpart
  rw [zero_add, Nat.cast_le] at hle
  by_contra hne
  -- the last byte is not in the words
  let c := (ctxs p).set_field info.fid (spoil data (data.length - 1))
  have hfield : c.instantiated_field info = spoil data (data.length - 1) := by
    simp only [c, Context.instantiated_field, Context.set_field, Function.update_self, Option.getD_some]
  have hlater := later_update (c := c) hinst hinfo
    (by
      simp only [Later, hclass, hfield, length_spoil]
      rw [Context.instantiated_field, hdata, Option.getD_some])
    fun fid hfid => sameAt_set_field hfid _ _
  obtain ⟨restored, hrecover, hrestored⟩ := h.restores (fun _ _ _ => 0) _ hlater
  obtain ⟨before, after, hstep, hbefore, hafter⟩ := recover_split hrecover hinfo
  obtain ⟨file, data', hfile, hread, hset⟩ := (recover_info_dense hclass).mp hstep p
  have hbuffer : (before p).instantiated_field info = spoil data (data.length - 1) := by
    rw [(hbefore p).instantiated_field, Function.update_self, hfield]
  have heq : data' = data := by
    have hfinal := hrestored p info hinfo
    simp only [Restored, hclass] at hfinal
    rw [(hafter p).field_data, hset, hdata] at hfinal
    simpa only [Context.set_field, Function.update_self, Option.some.injEq] using hfinal
  unfold recover_field at hread
  obtain ⟨d, _, hread⟩ := Option.bind_eq_some_iff.mp hread
  obtain ⟨words, hwords, hread⟩ := Option.bind_eq_some_iff.mp hread
  obtain ⟨⟨_, hfit⟩, hwrite⟩ := storeAt_eq_some.mp hread
  have hlen := length_loadAt hwords
  simp only [hbuffer, length_spoil] at hlen hfit hwrite
  have hbyte := congrArg (·[data.length - 1]?) (hwrite.trans heq)
  simp only [Int.toNat_zero] at hbyte
  rw [SlotCopy.getElem?_writeAt (by rw [length_spoil]; omega), if_neg (by omega)] at hbyte
  exact spoil_ne (by omega) hbyte

theorem Recovers.row_lt (h : Recovers conv reg policy file_name_in ctxs saved)
    (hinst : ∀ p, ∀ info ∈ reg.fields, Instantiated info (ctxs p)) (hinfo : info ∈ reg.fields)
    (hclass : HasRows info) {p : Fin n} {rows : List RowVector}
    (hrows : (ctxs p).sparse_field_data info.fid = some rows)
    (halloc : ∀ row ∈ rows, Allocated info.entry_size row) :
    ∀ row ∈ rows, row.count * info.entry_size < 2 ^ 32 := by
  intro row hrow
  obtain ⟨k, hk⟩ := List.mem_iff_getElem?.mp hrow
  have hlt : k < rows.length := (List.getElem?_eq_some_iff.mp hk).1
  let spoiled : RowVector :=
    { row with storage := spoil row.storage (row.count * info.entry_size - 1) }
  let c := (ctxs p).set_rows info.fid (rows.set k spoiled)
  have hfield : c.instantiated_rows info = rows.set k spoiled := by
    simp only [c, Context.instantiated_rows, Context.set_rows, Function.update_self, Option.getD_some]
  have hlater := later_update (c := c) hinst hinfo
    (hclass.later.mpr ⟨by
      rw [hfield, List.length_set, Context.instantiated_rows, hrows, Option.getD_some], fun r hr => by
      rw [hfield] at hr
      obtain hr | rfl := List.mem_or_eq_of_mem_set hr
      · exact halloc r hr
      · exact allocated_spoil (halloc row hrow) _⟩)
    fun fid hfid => sameAt_set_rows hfid _ _
  obtain ⟨restored, hrecover, hrestored⟩ := h.restores (fun _ _ _ => 0) _ hlater
  obtain ⟨before, after, hstep, hbefore, hafter⟩ := recover_split hrecover hinfo
  obtain ⟨file, rows', hfile, hread, hset⟩ := (recover_info_rows hclass).mp hstep p
  have hcontents : rows'.map (content info.entry_size) = rows.map (content info.entry_size) := by
    have hfinal := hclass.restored.mp (hrestored p info hinfo)
    rw [(hafter p).sparse_field_data, hset, hrows] at hfinal
    simpa only [Context.set_rows, Function.update_self, Option.map_some, Option.some.injEq] using hfinal
  obtain ⟨row', hrow', hcontent⟩ : ∃ row', rows'[k]? = some row' ∧
      content info.entry_size row' = content info.entry_size row := by
    have hget := congrArg (·[k]?) hcontents
    simp only [List.getElem?_map, hk, Option.map_some] at hget
    exact Option.map_eq_some_iff.mp hget
  unfold recover_field_ragged at hread
  obtain ⟨d, _, hread⟩ := Option.bind_eq_some_iff.mp hread
  obtain ⟨offset_buf, _, hread⟩ := Option.bind_eq_some_iff.mp hread
  simp only at hread
  split at hread
  · cases hread
  obtain ⟨buffer, _, hread⟩ := Option.bind_eq_some_iff.mp hread
  split at hread
  · obtain ⟨r, hr, hkept⟩ := deserialize_rows_spec hread hrow'
    rw [(hbefore p).instantiated_rows, Function.update_self, hfield, List.getElem?_set_self hlt] at hr
    cases hr
    exact row_lt_of_restored (halloc row hrow) hcontent hkept
  · cases hread

end

/-- A checkpoint is recovered, for every meaning of the conversions to `int`, exactly if the
data of all fields fill their words and no length leaves its type. -/
theorem recovers_iff (reg : Registrations) (policy : Policy) (file_name_in : String)
    (files : String → Option File) (ctxs : Fin n → Context)
    (hinst : ∀ p, ∀ info ∈ reg.fields, Instantiated info (ctxs p)) :
    (∀ conv, ∃ saved, checkpoint_all_fields conv reg policy file_name_in files ctxs = some saved ∧
        Recovers conv reg policy file_name_in ctxs saved) ↔
      ∀ p, ∀ info ∈ reg.fields, Fits info (ctxs p) := by
  refine ⟨fun h p info hinfo => ?_, fun h conv => ?_⟩
  · by_cases hstored : Stored info
    · have himage (conv : IntConversion) : (image conv info (ctxs p)).isSome := by
        obtain ⟨saved, hsaved, _⟩ := h conv
        exact checkpoint_image hsaved p hinfo hstored
      obtain ⟨saved, _, hrecovers⟩ := h (farBack 0)
      obtain hclass | hclass := stored_cases hstored
      · simp only [Fits, hclass]
        exact fun data hdata => hrecovers.dense_fits hinst hinfo hclass hdata (himage _)
      · rw [hclass.fits]
        intro rows hrows
        obtain ⟨rows', hrows', halloc⟩ := hclass.instantiated.mp (hinst p info hinfo)
        cases hrows.symm.trans hrows'
        refine rowsFit_of_stage (hrecovers.row_lt hinst hinfo hclass hrows halloc) fun conv => ?_
        have hstage := himage conv
        rw [hclass.image, hrows] at hstage
        exact hstage
    · have hclass : info.storage_class = .other := not_not.mp hstored
      simp only [Fits, hclass]
  · obtain ⟨saved, hsaved⟩ : ∃ saved,
        checkpoint_all_fields conv reg policy file_name_in files ctxs = some saved := by
      refine exists_checkpoint fun info hinfo hstored => ?_
      have himage (p : Fin n) : ∃ part, image conv info (ctxs p) = some part ∧
          part.length = 4 * nsize info (ctxs p) :=
        exists_image (hinst p info hinfo) (h p info hinfo) hstored
      choose part hpart using himage
      exact ⟨part, hpart⟩
    exact ⟨saved, hsaved, fun p info hinfo hstored => checkpoint_tiled hsaved p hinfo hstored,
      fun fresh later hlater => exists_recover hsaved hinst h fresh hlater⟩

/-- A dense and a ragged field of bytes. -/
def byteFields : Registrations where
  fields := [⟨0, 0, .dense, ⟨1, 1, Nat.one_pos⟩⟩, ⟨1, 0, .ragged, ⟨1, 1, Nat.one_pos⟩⟩]
  nodup := by decide

def byteRow (bytes : List UInt8) : RowVector := ⟨bytes.length, bytes.length, bytes⟩

def byteContext (data row : List UInt8) : Context where
  field_data fid := if fid = 0 then some data else none
  sparse_field_data fid := if fid = 1 then some [byteRow row] else none
  coloring_info _ := ⟨4, 0, 0, ∅, ∅⟩

theorem byteContext_instantiated {data row : List UInt8} (h : row.length < 2 ^ 32) :
    ∀ info ∈ byteFields.fields, Instantiated info (byteContext data row) := by
  intro info hinfo
  obtain rfl | hinfo := List.mem_cons.mp hinfo
  · exact ⟨data, rfl⟩
  · obtain rfl := List.mem_singleton.mp hinfo
    refine ⟨_, rfl, fun r hr => ?_⟩
    rw [List.mem_singleton.mp hr]
    exact ⟨⟨le_rfl, (Nat.mul_one _).symm⟩, h⟩

theorem recovers_two_ranks : ∃ saved,
    checkpoint_all_fields (farBack 0) byteFields ⟨2, Nat.two_pos⟩ "restart" (fun _ => none)
      (fun _ : Fin 2 => byteContext [1, 2, 3, 4] [5, 6, 7, 8]) = some saved ∧
    Recovers (farBack 0) byteFields ⟨2, Nat.two_pos⟩ "restart"
      (fun _ : Fin 2 => byteContext [1, 2, 3, 4] [5, 6, 7, 8]) saved := by
  refine (recovers_iff _ _ _ _ _ fun p => byteContext_instantiated (by decide)).mpr (fun p info hinfo => ?_) (farBack 0)
  obtain rfl | hinfo := List.mem_cons.mp hinfo
  · intro data hdata
    cases hdata
    decide
  · obtain rfl := List.mem_singleton.mp hinfo
    intro rows hrows
    cases hrows
    exact ⟨by decide, by decide, by decide, by decide⟩

theorem not_saved_of_image {ctxs : Fin n → Context} {conv : IntConversion} {reg : Registrations}
    {info : FieldInfo} (hinfo : info ∈ reg.fields) (hstored : Stored info) (p : Fin n)
    (himage : image conv info (ctxs p) = none) (policy : Policy) (file_name_in : String)
    (files : String → Option File) :
    checkpoint_all_fields conv reg policy file_name_in files ctxs = none := by
  cases h : checkpoint_all_fields conv reg policy file_name_in files ctxs with
  | none => rfl
  | some saved =>
    have hsome := checkpoint_image h p hinfo hstored
    rw [himage] at hsome
    cases hsome

/-- Three bytes are read as a word of four; a row of one byte is written past its one word. -/
theorem bytes_not_saved :
    (∀ info ∈ byteFields.fields, Instantiated info (byteContext [1, 2, 3] []) ∧
      Instantiated info (byteContext [1, 2, 3, 4] [5])) ∧
    ∀ (conv : IntConversion) (policy : Policy) (files : String → Option File),
      checkpoint_all_fields conv byteFields policy "restart" files
        (fun _ : Fin 1 => byteContext [1, 2, 3] []) = none ∧
      checkpoint_all_fields conv byteFields policy "restart" files
        (fun _ : Fin 1 => byteContext [1, 2, 3, 4] [5]) = none := by
  refine ⟨fun info hinfo => ⟨byteContext_instantiated (by decide) info hinfo,
    byteContext_instantiated (by decide) info hinfo⟩, fun conv policy files => ⟨?_, ?_⟩⟩
  · exact not_saved_of_image List.mem_cons_self (by decide) 0 rfl policy _ files
  · exact not_saved_of_image (List.mem_cons_of_mem _ List.mem_cons_self) (by decide) 0 rfl policy _ files

end Flecsi.Io
