import Flecsi.Lib.InputStreams

/-!
# Simple definition files

`simple_definition_t`: the constructor reads all cells and tells where the vertices and the
cells start; later calls go back there in the same stream and read on. A coordinate's value
is up to the conversion from text.
-/

namespace Flecsi.Io

open InputStreams

structure SimpleDefinition where
  file_ : FileStream
  ids_ : List (List ℕ)
  num_vertices_ : ℕ
  num_cells_ : ℕ
  vertex_start_ : Option ℕ
  cell_start_ : Option ℕ

namespace SimpleDefinition

-- ---------------------------------------------------------------------------
-- Construction
-- ---------------------------------------------------------------------------

def readCells : ℕ → List (List ℕ) → List Char × FileStream → List (List ℕ) × FileStream
  | 0, ids, st => (ids, st.2)
  | k + 1, ids, st =>
    let st := st.2.getline st.1
    readCells k (ids ++ [(StringStream.ofLine st.1).sizes]) st

/-- The constructor, on a file that opens. A count that is not read has no value. -/
def construct (text : List Char) : Option SimpleDefinition :=
  let header := (FileStream.ofText text).getline []
  let num_vertices := (StringStream.ofLine header.1).readSize none
  let num_cells := num_vertices.2.readSize none
  match num_vertices.1, num_cells.1 with
  | some num_vertices, some num_cells =>
    let vertex_start := header.2.tellg
    let vertices := FileStream.getlines num_vertices (header.1, vertex_start.2)
    let cell_start := vertices.2.tellg
    let cells := readCells num_cells [] ([], cell_start.2.seekg cell_start.1)
    some ⟨cells.2, cells.1, num_vertices, num_cells, vertex_start.1, cell_start.1⟩
  | _, _ => none

-- ---------------------------------------------------------------------------
-- Queries
-- ---------------------------------------------------------------------------

/-- `iss >> v0 >> v1 >> v2 >> v3`; a variable that is not read is not initialized. -/
def readIds (line : List Char) : List (Option ℕ) :=
  let v0 := (StringStream.ofLine line).readSize none
  let v1 := v0.2.readSize none
  let v2 := v1.2.readSize none
  let v3 := v2.2.readSize none
  [v0.1, v1.1, v2.1, v3.1]

/-- The line with a given number after a position. -/
def readLine (d : SimpleDefinition) (start : Option ℕ) (id : ℕ) : List Char × FileStream :=
  let before := FileStream.getlines id ([], d.file_.seekg start)
  before.2.getline before.1

/-- `entities(from_dim, to_dim)`, with its assertions. -/
def entities (d : SimpleDefinition) (from_dim to_dim : ℕ) : Option (List (List ℕ)) :=
  if from_dim = 2 ∧ to_dim = 0 then some d.ids_ else none

/-- `entities(from_dim, to_dim, entity_id)`, with its assertions. -/
def entitiesOf (d : SimpleDefinition) (from_dim to_dim entity_id : ℕ) :
    Option (List (Option ℕ) × SimpleDefinition) :=
  if from_dim = 2 ∧ to_dim = 0 then
    let line := d.readLine d.cell_start_ entity_id
    some (readIds line.1, { d with file_ := line.2 })
  else none

section
variable {δ : Type*} (strtod : List Char → δ × Bool)

/-- `iss >> v[0] >> v[1]`. -/
def readPoint (line : List Char) : Option δ × Option δ :=
  let x := (StringStream.ofLine line).read floatNext .start strtod none
  let y := x.2.read floatNext .start strtod none
  (x.1, y.1)

def vertex (d : SimpleDefinition) (vertex_id : ℕ) : (Option δ × Option δ) × SimpleDefinition :=
  let line := d.readLine d.vertex_start_ vertex_id
  (readPoint strtod line.1, { d with file_ := line.2 })

inductive Call
  | entities
  | entitiesOf (id : ℕ)
  | vertex (id : ℕ)

inductive Answer (δ : Type*)
  | lists (ids : List (List ℕ))
  | ids (ids : List (Option ℕ))
  | point (v : Option δ × Option δ)

def call (d : SimpleDefinition) : Call → Option (Answer δ × SimpleDefinition)
  | .entities => (d.entities 2 0).map fun ids => (.lists ids, d)
  | .entitiesOf id => (d.entitiesOf 2 0 id).map fun r => (.ids r.1, r.2)
  | .vertex id => some (.point (d.vertex strtod id).1, (d.vertex strtod id).2)

/-- Calls one after another on one definition. -/
def calls : List Call → SimpleDefinition → Option SimpleDefinition
  | [], d => some d
  | c :: cs, d => (d.call strtod c).bind fun r => calls cs r.2

end

-- ---------------------------------------------------------------------------
-- Files
-- ---------------------------------------------------------------------------

structure File where
  header : List Char
  vertices : List (List Char)
  cells : List (List Char)
  newline : Bool

namespace File

def lines (f : File) : List (List Char) := f.header :: (f.vertices ++ f.cells)

def text (f : File) : List Char := fileText f.newline f.lines

/-- The vertex ids a cell's line lists. -/
def cellIds (f : File) (id : ℕ) : List ℕ := (words (f.cells.getD id [])).map decimal

section
variable {δ : Type*} (strtod : List Char → δ × Bool)

/-- A number for `double`. -/
def FloatWord (w : List Char) : Prop := Accepts floatNext .start w ∧ (strtod w).2 = false

structure WellFormed (f : File) : Prop where
  lines : ∀ l ∈ f.lines, '\n' ∉ l
  header : ∃ v c more, words f.header = v :: c :: more ∧ SizeWord v ∧ SizeWord c ∧
    decimal v = f.vertices.length ∧ decimal c = f.cells.length
  vertices : ∀ l ∈ f.vertices, ∃ x y more, words l = x :: y :: more ∧
    FloatWord strtod x ∧ FloatWord strtod y
  cells : ∀ l ∈ f.cells, words l ≠ [] ∧ ∀ w ∈ words l, SizeWord w

/-- The coordinates a vertex's line lists. -/
def point (f : File) (id : ℕ) : Option δ × Option δ :=
  match words (f.vertices.getD id []) with
  | x :: y :: _ => (some (strtod x).1, some (strtod y).1)
  | _ => (none, none)

def expected (f : File) : Call → Answer δ
  | .entities => .lists ((List.range f.cells.length).map f.cellIds)
  | .entitiesOf id => .ids ((f.cellIds id).map some)
  | .vertex id => .point (f.point strtod id)

end

def ValidCall (f : File) : Call → Prop
  | .entities => True
  | .entitiesOf id => id < f.cells.length
  | .vertex id => id < f.vertices.length

/-- A cell has four vertices; after the vertices there are cells or a newline. -/
def Readable (f : File) : Call → Prop
  | .entities => True
  | .entitiesOf id => (f.cellIds id).length = 4
  | .vertex _ => f.cells ≠ [] ∨ f.newline = true

end File

-- ---------------------------------------------------------------------------
-- Lines
-- ---------------------------------------------------------------------------

theorem ne_nil_of_words {l : List Char} (h : words l ≠ []) : l ≠ [] := by
  rintro rfl
  exact h rfl

/-- With as many words as variables, each gets its number. -/
theorem readIds_eq_iff (hws : ∀ w ∈ words line, SizeWord w) :
    readIds line = ((words line).map decimal).map some ↔ ((words line).map decimal).length = 4 := by
  constructor
  · intro h
    simpa [readIds] using (congrArg List.length h).symm
  · intro h
    obtain ⟨a, b, c, d, heq⟩ := List.length_eq_four.mp ((List.length_map _).symm.trans h)
    have hleft := StringStream.left_ofLine line
    rw [heq] at hleft
    simp only [heq, List.mem_cons, List.not_mem_nil, or_false, forall_eq_or_imp, forall_eq] at hws
    obtain ⟨s, hs, hleft⟩ := hleft.readSize hws.1 none
    obtain ⟨t, ht, hleft⟩ := hleft.readSize hws.2.1 none
    obtain ⟨u, hu, hleft⟩ := hleft.readSize hws.2.2.1 none
    obtain ⟨v, hv, hleft⟩ := hleft.readSize hws.2.2.2 none
    simp [readIds, hs, ht, hu, hv, heq]

section
variable {δ : Type*} {strtod : List Char → δ × Bool}

theorem readPoint_eq (hwords : words line = x :: y :: more) (hx : File.FloatWord strtod x)
    (hy : File.FloatWord strtod y) :
    readPoint strtod line = (some (strtod x).1, some (strtod y).1) := by
  have hspace : ∀ st c, isSpace c → floatNext st c = none := fun st c hc => floatNext_space hc st
  obtain ⟨s, hs, hleft⟩ := (hwords ▸ StringStream.left_ofLine line).read hspace hx.1 hx.2 none
  obtain ⟨t, ht, -⟩ := hleft.read hspace hy.1 hy.2 none
  simp [readPoint, hs, ht]

/-- From an empty line no coordinate is read. -/
theorem readPoint_nil : readPoint strtod [] = (none, none) := by
  obtain ⟨s, hs, hfail⟩ : ∃ s, (StringStream.ofLine []).read floatNext .start strtod none = (none, s) ∧
      s.fail = true := (StringStream.left_ofLine []).read_nil none
  obtain ⟨t, ht, -⟩ : ∃ t, s.read floatNext .start strtod none = (none, t) ∧ t.fail = true :=
    StringStream.read_fail hfail none
  simp [readPoint, hs, ht]

end

/-- The cells up to the end of the file, which may be the end of the last one. -/
theorem readCells_eq {cells : List (List Char)} {s : FileStream} (h : s.AtLine newline cells)
    (hnl : ∀ l ∈ cells, '\n' ∉ l) (hws : ∀ l ∈ cells, words l ≠ [] ∧ ∀ w ∈ words l, SizeWord w)
    (ids : List (List ℕ)) (line : List Char) :
    ∃ t, readCells cells.length ids (line, s) =
      (ids ++ cells.map fun l => (words l).map decimal, t) ∧ t.fail = false ∧ t.text = s.text := by
  induction cells generalizing s ids line with
  | nil => exact ⟨s, by simp [readCells], h.fail, rfl⟩
  | cons l ls ih =>
    have hnl' := hnl l (List.mem_cons_self ..)
    obtain ⟨hne, hsize⟩ := hws l (List.mem_cons_self ..)
    by_cases hmore : ls ≠ [] ∨ newline = true
    · obtain ⟨t, ht, hat, htext⟩ := h.getline hnl' hmore line
      obtain ⟨u, hu, hfail, htext'⟩ := ih hat (fun l hm => hnl l (List.mem_cons_of_mem _ hm))
        (fun l hm => hws l (List.mem_cons_of_mem _ hm)) (ids ++ [(words l).map decimal]) l
      refine ⟨u, ?_, hfail, htext'.trans htext⟩
      rw [List.length_cons, readCells, ht]
      simp only [StringStream.sizes_ofLine hsize, hu, List.map_cons, List.append_assoc,
        List.singleton_append]
    · push Not at hmore
      obtain ⟨rfl, hnewline⟩ := hmore
      obtain rfl := Bool.eq_false_iff.mpr hnewline
      obtain ⟨t, ht, -, hfail, htext⟩ := h.getline_last hnl' (ne_nil_of_words hne) line
      refine ⟨t, ?_, hfail, htext⟩
      simp [readCells, ht, StringStream.sizes_ofLine hsize]

-- ---------------------------------------------------------------------------
-- Invariant
-- ---------------------------------------------------------------------------

/-- A position at which the given lines are left. -/
def Marks (f : File) (lines : List (List Char)) (start : Option ℕ) : Prop :=
  ∃ s : FileStream, s.AtLine f.newline lines ∧ s.text = f.text ∧ start = some s.pos

/-- A stream that has not failed finds the lines again. -/
structure Ready (f : File) (d : SimpleDefinition) : Prop where
  ids : d.ids_ = f.cells.map fun l => (words l).map decimal
  text : d.file_.text = f.text
  fail : d.file_.fail = false
  vertices : Marks f (f.vertices ++ f.cells) d.vertex_start_
  cells : Marks f f.cells d.cell_start_

/-- `failbit` stays set once `tellg` has met the end of the file. -/
structure Failed (f : File) (d : SimpleDefinition) : Prop where
  ids : d.ids_ = f.cells.map fun l => (words l).map decimal
  fail : d.file_.fail = true
  cells : f.cells = []
  newline : f.newline = false

section
variable {δ : Type*} {strtod : List Char → δ × Bool} {f : File}

theorem File.WellFormed.ne_nil (hf : f.WellFormed strtod) (hl : l ∈ f.vertices ++ f.cells) :
    '\n' ∉ l ∧ l ≠ [] := by
  refine ⟨hf.lines l (List.mem_cons_of_mem _ hl), ne_nil_of_words ?_⟩
  rcases List.mem_append.mp hl with hl | hl
  · obtain ⟨x, y, more, hwords, -⟩ := hf.vertices l hl
    rw [hwords]
    exact List.cons_ne_nil _ _
  · exact (hf.cells l hl).1

theorem File.WellFormed.header_ne_nil (hf : f.WellFormed strtod) : '\n' ∉ f.header ∧ f.header ≠ [] := by
  obtain ⟨v, c, more, hwords, -⟩ := hf.header
  exact ⟨hf.lines _ (List.mem_cons_self ..), ne_nil_of_words (by rw [hwords]; exact List.cons_ne_nil _ _)⟩

/-- The counts are read from the first line. -/
theorem construct_eq (hf : f.WellFormed strtod)
    (hheader : (FileStream.ofText f.text).getline [] = (f.header, file)) :
    construct f.text =
      let vertices := FileStream.getlines f.vertices.length (f.header, file.tellg.2)
      let cell_start := vertices.2.tellg
      let cells := readCells f.cells.length [] ([], cell_start.2.seekg cell_start.1)
      some ⟨cells.2, cells.1, f.vertices.length, f.cells.length, file.tellg.1, cell_start.1⟩ := by
  obtain ⟨v, c, more, hwords, hv, hc, hlv, hlc⟩ := hf.header
  obtain ⟨s, hs, hleft⟩ := (hwords ▸ StringStream.left_ofLine f.header).readSize hv none
  obtain ⟨t, ht, -⟩ := hleft.readSize hc none
  simp only [construct, hheader, hs, ht, hlv, hlc]

theorem construct_ready (hf : f.WellFormed strtod) (hmore : f.cells ≠ [] ∨ f.newline = true) :
    ∃ d, construct f.text = some d ∧ Ready f d := by
  have hstart : (FileStream.ofText f.text).AtLine f.newline (f.header :: (f.vertices ++ f.cells)) :=
    FileStream.atLine_ofText
  obtain ⟨s, hs, hvertices, hstext⟩ := hstart.getline hf.header_ne_nil.1
    (hmore.imp_left (List.append_ne_nil_of_right_ne_nil _)) []
  obtain ⟨line, t, ht, hcells, httext⟩ := hvertices.getlines
    (fun l hl => (hf.ne_nil (List.mem_append_left _ hl)).1) hmore f.header
  obtain ⟨hback, hbtext⟩ := hcells.seekg hcells.fail rfl
  obtain ⟨u, hu, hfail, hutext⟩ := readCells_eq hback
    (fun l hl => (hf.ne_nil (List.mem_append_right _ hl)).1) hf.cells [] []
  have htold : t.text = f.text := httext.trans hstext
  refine ⟨_, construct_eq hf hs, ?_⟩
  simp only [hvertices.tellg, ht, hcells.tellg, hu, List.nil_append]
  exact ⟨rfl, hutext.trans (hbtext.trans htold), hfail, ⟨s, hvertices, hstext, rfl⟩,
    ⟨t, hcells, htold, rfl⟩⟩

/-- At the end of the file `tellg` sets `failbit`, and no cells are there to read. -/
theorem construct_failed (hf : f.WellFormed strtod) (hcells : f.cells = []) (hnewline : f.newline = false) :
    ∃ d, construct f.text = some d ∧ Failed f d := by
  have hstart : (FileStream.ofText f.text).AtLine false (f.header :: f.vertices) := by
    have hlines : f.lines = f.header :: f.vertices := by rw [File.lines, hcells, List.append_nil]
    have htext : f.text = fileText false (f.header :: f.vertices) := by rw [File.text, hnewline, hlines]
    exact htext ▸ FileStream.atLine_ofText
  obtain ⟨s, hs, hvertices⟩ : ∃ s, (FileStream.ofText f.text).getline [] = (f.header, s) ∧
      (FileStream.getlines f.vertices.length (f.header, s.tellg.2)).2.tellg.2.fail = true := by
    by_cases hv : f.vertices = []
    · rw [hv] at hstart ⊢
      obtain ⟨s, hs, heof, -⟩ := hstart.getline_last hf.header_ne_nil.1 hf.header_ne_nil.2 []
      refine ⟨s, hs, ?_⟩
      rw [FileStream.tellg_eof heof, List.length_nil, FileStream.getlines, FileStream.tellg_fail rfl]
    · obtain ⟨s, hs, hat, -⟩ := hstart.getline hf.header_ne_nil.1 (.inl hv) []
      obtain ⟨line, t, ht, heof⟩ := hat.getlines_end
        (fun l hl => hf.ne_nil (List.mem_append_left _ hl)) hv f.header
      exact ⟨s, hs, by rw [hat.tellg, ht, FileStream.tellg_eof heof]⟩
  refine ⟨_, construct_eq hf hs, ?_⟩
  simp only [hcells, List.length_nil, readCells]
  exact ⟨by simp [hcells], FileStream.seekg_fail hvertices _, hcells, hnewline⟩

-- ---------------------------------------------------------------------------
-- Calls
-- ---------------------------------------------------------------------------

theorem readLine_ready {d : SimpleDefinition} {id : ℕ} (hd : Ready f d) (hmarks : Marks f lines start)
    (hlines : ∀ l ∈ lines, '\n' ∉ l ∧ l ≠ []) (hid : id < lines.length) :
    ∃ file, d.readLine start id = (lines[id], file) ∧ Ready f { d with file_ := file } := by
  obtain ⟨s, hat, htext, rfl⟩ := hmarks
  obtain ⟨hback, hbtext⟩ := hat.seekg hd.fail (hd.text.trans htext.symm)
  obtain ⟨line, t, u, ht, hu, hfail, hutext⟩ := hback.line hid hlines []
  refine ⟨u, by rw [readLine, ht, hu], hd.ids, ?_, hfail, hd.vertices, hd.cells⟩
  exact hutext.trans (hbtext.trans htext)

theorem readLine_failed {d : SimpleDefinition} (hd : Failed f d) (start : Option ℕ) (id : ℕ) :
    ∃ file, d.readLine start id = ([], file) ∧ Failed f { d with file_ := file } := by
  obtain ⟨t, ht, hfail⟩ := FileStream.getlines_fail (FileStream.seekg_fail hd.fail start) (id + 1) []
  have hone := FileStream.getlines_succ id ([], d.file_.seekg start)
  refine ⟨t, hone.symm.trans ht, hd.ids, hfail, hd.cells, hd.newline⟩

theorem cellIds_eq {id : ℕ} (hid : id < f.cells.length) : f.cellIds id = (words f.cells[id]).map decimal := by
  rw [File.cellIds, List.getD_eq_getElem _ _ hid]

theorem lists_eq (f : File) : (List.range f.cells.length).map f.cellIds =
    f.cells.map fun l => (words l).map decimal := by
  refine List.ext_getElem (by simp) fun k hk _ => ?_
  rw [List.getElem_map, List.getElem_range, List.getElem_map, cellIds_eq (by simpa using hk)]

theorem File.WellFormed.point_eq {id : ℕ} (hf : f.WellFormed strtod) (hid : id < f.vertices.length) :
    readPoint strtod f.vertices[id] = f.point strtod id ∧ f.point strtod id ≠ (none, none) := by
  obtain ⟨x, y, more, hwords, hx, hy⟩ := hf.vertices _ (List.getElem_mem hid)
  have hpoint : f.point strtod id = (some (strtod x).1, some (strtod y).1) := by
    rw [File.point, List.getD_eq_getElem _ _ hid, hwords]
  rw [hpoint]
  exact ⟨readPoint_eq hwords hx hy, nofun⟩

/-- On a stream that is ready only a cell's number of vertices matters. -/
theorem call_ready (hf : f.WellFormed strtod) (hmore : f.cells ≠ [] ∨ f.newline = true)
    {d : SimpleDefinition} (hd : Ready f d) {c : Call} (hc : f.ValidCall c) :
    ∃ a d', d.call strtod c = some (a, d') ∧ Ready f d' ∧ (a = f.expected strtod c ↔ f.Readable c) := by
  cases c with
  | entities =>
    refine ⟨.lists d.ids_, d, by simp [call, entities], hd, ?_⟩
    simp [File.expected, File.Readable, lists_eq, hd.ids]
  | entitiesOf id =>
    obtain ⟨file, hfile, hready⟩ := readLine_ready hd hd.cells
      (fun l hl => hf.ne_nil (List.mem_append_right _ hl)) hc
    refine ⟨.ids (readIds f.cells[id]), _, by simp [call, entitiesOf, hfile], hready, ?_⟩
    simp only [File.expected, File.Readable, Answer.ids.injEq, cellIds_eq hc]
    exact readIds_eq_iff (hf.cells _ (List.getElem_mem hc)).2
  | vertex id =>
    have hid : id < (f.vertices ++ f.cells).length := by
      rw [List.length_append]
      exact Nat.lt_add_right _ hc
    obtain ⟨file, hfile, hready⟩ := readLine_ready hd hd.vertices (fun l hl => hf.ne_nil hl) hid
    rw [List.getElem_append_left hc] at hfile
    refine ⟨.point (readPoint strtod f.vertices[id]), _, by simp [call, vertex, hfile], hready, ?_⟩
    simp only [File.expected, File.Readable, (hf.point_eq hc).1, hmore]

/-- On a stream that has failed no vertex is read. -/
theorem call_failed (hf : f.WellFormed strtod) {d : SimpleDefinition} (hd : Failed f d) {c : Call}
    (hc : f.ValidCall c) :
    ∃ a d', d.call strtod c = some (a, d') ∧ Failed f d' ∧ (a = f.expected strtod c ↔ f.Readable c) := by
  cases c with
  | entities =>
    refine ⟨.lists d.ids_, d, by simp [call, entities], hd, ?_⟩
    simp [File.expected, File.Readable, lists_eq, hd.ids]
  | entitiesOf id =>
    simp only [File.ValidCall, hd.cells, List.length_nil] at hc
    exact absurd hc (Nat.not_lt_zero id)
  | vertex id =>
    obtain ⟨file, hfile, hfailed⟩ := readLine_failed hd d.vertex_start_ id
    refine ⟨.point (none, none), _, by simp [call, vertex, hfile, readPoint_nil], hfailed, ?_⟩
    simp only [File.expected, File.Readable, Answer.point.injEq, hd.cells, hd.newline]
    simpa using (hf.point_eq hc).2.symm

theorem calls_keep {inv : SimpleDefinition → Prop}
    (hstep : ∀ d, inv d → ∀ c, f.ValidCall c → ∃ a d', d.call strtod c = some (a, d') ∧ inv d')
    {d : SimpleDefinition} (hd : inv d) {cs : List Call} (hcs : ∀ c ∈ cs, f.ValidCall c) :
    ∃ d', calls strtod cs d = some d' ∧ inv d' := by
  induction cs generalizing d with
  | nil => exact ⟨d, rfl, hd⟩
  | cons c cs ih =>
    obtain ⟨a, d', hcall, hd'⟩ := hstep d hd c (hcs c (List.mem_cons_self ..))
    obtain ⟨d'', hcalls, hd''⟩ := ih hd' fun c hc => hcs c (List.mem_cons_of_mem _ hc)
    exact ⟨d'', by rw [calls, hcall, Option.bind_some, hcalls], hd''⟩

end

/-- After calls in any order, a call answers what its line says exactly when the cell has four
vertices, and for a vertex when cells or a newline come after the vertices. -/
theorem call_iff {δ : Type*} (strtod : List Char → δ × Bool) (f : File) (hf : f.WellFormed strtod)
    (cs : List Call) (hcs : ∀ c ∈ cs, f.ValidCall c) (c : Call) (hc : f.ValidCall c) :
    ∃ d d' a d'', construct f.text = some d ∧ calls strtod cs d = some d' ∧
      d'.call strtod c = some (a, d'') ∧ (a = f.expected strtod c ↔ f.Readable c) := by
  by_cases hmore : f.cells ≠ [] ∨ f.newline = true
  · obtain ⟨d, hd, hready⟩ := construct_ready hf hmore
    obtain ⟨d', hcalls, hready⟩ := calls_keep (fun d hd c hc => by
      obtain ⟨a, d', hcall, hd', -⟩ := call_ready hf hmore hd hc
      exact ⟨a, d', hcall, hd'⟩) hready hcs
    obtain ⟨a, d'', hcall, -, hiff⟩ := call_ready hf hmore hready hc
    exact ⟨d, d', a, d'', hd, hcalls, hcall, hiff⟩
  · push Not at hmore
    obtain ⟨d, hd, hfailed⟩ := construct_failed hf hmore.1 (Bool.eq_false_iff.mpr hmore.2)
    obtain ⟨d', hcalls, hfailed⟩ := calls_keep (fun d hd c hc => by
      obtain ⟨a, d', hcall, hd', -⟩ := call_failed hf hd hc
      exact ⟨a, d', hcall, hd'⟩) hfailed hcs
    obtain ⟨a, d'', hcall, -, hiff⟩ := call_failed hf hfailed hc
    exact ⟨d, d', a, d'', hd, hcalls, hcall, hiff⟩

/-- The conversion of numbers without sign, point and exponent. -/
def digits (w : List Char) : ℕ × Bool := (decimal w, false)

def square : File where
  header := ['4', ' ', '1']
  vertices := [['0', ' ', '0'], ['1', ' ', '0'], ['1', ' ', '1'], ['0', ' ', '1']]
  cells := [['0', ' ', '1', ' ', '2', ' ', '3']]
  newline := false

def triangle : File where
  header := ['3', ' ', '1']
  vertices := [['0', ' ', '0'], ['1', ' ', '0'], ['0', ' ', '1']]
  cells := [['0', ' ', '1', ' ', '2']]
  newline := true

/-- A vertex, no cells and no newline. -/
def bareVertex : File where
  header := ['1', ' ', '0']
  vertices := [['0', ' ', '7']]
  cells := []
  newline := false

theorem sizeWord_digit (hc : c ∈ ['0', '1', '2', '3', '4']) : SizeWord [c] := by
  simp only [List.mem_cons, List.not_mem_nil, or_false] at hc
  refine ⟨List.cons_ne_nil _ _, ?_, ?_⟩
  · rcases hc with rfl | rfl | rfl | rfl | rfl <;> simp
  · rcases hc with rfl | rfl | rfl | rfl | rfl <;> simp [decimal]

theorem square_wellFormed : square.WellFormed digits where
  lines := by decide
  header := ⟨['4'], ['1'], [], rfl, sizeWord_digit (by decide), sizeWord_digit (by decide), rfl, rfl⟩
  vertices l hl := by
    fin_cases hl
    · exact ⟨['0'], ['0'], [], rfl, ⟨rfl, rfl⟩, ⟨rfl, rfl⟩⟩
    · exact ⟨['1'], ['0'], [], rfl, ⟨rfl, rfl⟩, ⟨rfl, rfl⟩⟩
    · exact ⟨['1'], ['1'], [], rfl, ⟨rfl, rfl⟩, ⟨rfl, rfl⟩⟩
    · exact ⟨['0'], ['1'], [], rfl, ⟨rfl, rfl⟩, ⟨rfl, rfl⟩⟩
  cells l hl := by
    obtain rfl := List.mem_singleton.mp hl
    refine ⟨by decide, fun w hw => ?_⟩
    obtain ⟨c, hc, rfl⟩ := List.mem_map.mp (show w ∈ ['0', '1', '2', '3'].map ([·]) from hw)
    exact sizeWord_digit (List.mem_append_left ['4'] hc)

theorem call_iff_square : ∃ d d' a d'', construct square.text = some d ∧
    calls digits [.vertex 2, .entities] d = some d' ∧ d'.call digits (.entitiesOf 0) = some (a, d'') ∧
      (a = square.expected digits (.entitiesOf 0) ↔ square.Readable (.entitiesOf 0)) :=
  call_iff digits square square_wellFormed [.vertex 2, .entities] (by simp [File.ValidCall, square])
    (.entitiesOf 0) (by simp [File.ValidCall, square])

theorem triangle_wellFormed : triangle.WellFormed digits where
  lines := by decide
  header := ⟨['3'], ['1'], [], rfl, sizeWord_digit (by decide), sizeWord_digit (by decide), rfl, rfl⟩
  vertices l hl := by
    fin_cases hl
    · exact ⟨['0'], ['0'], [], rfl, ⟨rfl, rfl⟩, ⟨rfl, rfl⟩⟩
    · exact ⟨['1'], ['0'], [], rfl, ⟨rfl, rfl⟩, ⟨rfl, rfl⟩⟩
    · exact ⟨['0'], ['1'], [], rfl, ⟨rfl, rfl⟩, ⟨rfl, rfl⟩⟩
  cells l hl := by
    obtain rfl := List.mem_singleton.mp hl
    refine ⟨by decide, fun w hw => ?_⟩
    obtain ⟨c, hc, rfl⟩ := List.mem_map.mp (show w ∈ ['0', '1', '2'].map ([·]) from hw)
    exact sizeWord_digit (List.mem_append_left ['3', '4'] hc)

theorem bareVertex_wellFormed : bareVertex.WellFormed digits where
  lines := by decide
  header := ⟨['1'], ['0'], [], rfl, sizeWord_digit (by decide), sizeWord_digit (by decide), rfl, rfl⟩
  vertices l hl := by
    obtain rfl := List.mem_singleton.mp hl
    exact ⟨['0'], ['7'], [], rfl, ⟨rfl, rfl⟩, ⟨rfl, rfl⟩⟩
  cells l hl := absurd hl List.not_mem_nil

/-- A triangle's vertices are not read with four variables, and the only vertex of a file
without cells is not read when the file does not end with a newline. -/
theorem not_always_read : triangle.WellFormed digits ∧ bareVertex.WellFormed digits ∧
    (¬∃ d a d', construct triangle.text = some d ∧ d.call digits (.entitiesOf 0) = some (a, d') ∧
      a = triangle.expected digits (.entitiesOf 0)) ∧
    ¬∃ d a d', construct bareVertex.text = some d ∧ d.call digits (.vertex 0) = some (a, d') ∧
      a = bareVertex.expected digits (.vertex 0) := by
  refine ⟨triangle_wellFormed, bareVertex_wellFormed, ?_, ?_⟩
  · rintro ⟨d, a, d', hd, hcall, ha⟩
    obtain ⟨d₀, hd₀, hready⟩ := construct_ready triangle_wellFormed (.inr rfl)
    obtain rfl := Option.some.inj (hd.symm.trans hd₀)
    obtain ⟨a₀, d₀', hcall₀, -, hiff⟩ := call_ready triangle_wellFormed (.inr rfl) hready
      (c := .entitiesOf 0) Nat.one_pos
    obtain ⟨rfl, -⟩ := Prod.mk.inj (Option.some.inj (hcall.symm.trans hcall₀))
    exact absurd (hiff.mp ha) (by decide : ¬(triangle.cellIds 0).length = 4)
  · rintro ⟨d, a, d', hd, hcall, ha⟩
    obtain ⟨d₀, hd₀, hfailed⟩ := construct_failed bareVertex_wellFormed rfl rfl
    obtain rfl := Option.some.inj (hd.symm.trans hd₀)
    obtain ⟨a₀, d₀', hcall₀, -, hiff⟩ := call_failed bareVertex_wellFormed hfailed
      (c := .vertex 0) Nat.one_pos
    obtain ⟨rfl, -⟩ := Prod.mk.inj (Option.some.inj (hcall.symm.trans hcall₀))
    rcases hiff.mp ha with h | h
    · exact h rfl
    · exact absurd h nofun

end SimpleDefinition

end Flecsi.Io
