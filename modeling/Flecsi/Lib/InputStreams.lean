import Mathlib

/-!
# Input streams

Files and lines of text as the C++ library reads them, with the state flags: `getline`,
`tellg`, `seekg` on a file, formatted input from a line. A file is at a line when the calls
before have succeeded.
-/

namespace InputStreams

-- ---------------------------------------------------------------------------
-- Fields
-- ---------------------------------------------------------------------------

section
variable {σ α : Type*} (next : σ → α → Option σ)

/-- The longest field whose characters are accepted one after another, and the rest. -/
def scan : σ → List α → List α × List α
  | _, [] => ([], [])
  | st, c :: l =>
    match next st c with
    | none => ([], c :: l)
    | some st => (c :: (scan st l).1, (scan st l).2)

def Accepts (st : σ) (w : List α) : Prop := scan next st w = (w, [])

variable {next}

theorem accepts_cons (hc : next st c = some st') : Accepts next st (c :: w) ↔ Accepts next st' w := by
  simp [Accepts, scan, hc, Prod.ext_iff]

theorem Accepts.scan_append {rest : List α} (h : Accepts next st w)
    (hstop : ∀ st, ∀ c ∈ rest.head?, next st c = none) : scan next st (w ++ rest) = (w, rest) := by
  induction w generalizing st with
  | nil =>
    cases rest with
    | nil => rfl
    | cons c rest => simp [scan, hstop st c rfl]
  | cons c w ih =>
    cases hc : next st c with
    | none => simp [Accepts, scan, hc] at h
    | some st' => simp [scan, hc, ih ((accepts_cons hc).mp h)]

end

-- ---------------------------------------------------------------------------
-- Words
-- ---------------------------------------------------------------------------

/-- `isspace` in the C locale. -/
def isSpace (c : Char) : Bool := c = ' ' || (9 ≤ c.toNat && c.toNat ≤ 13)

/-- What stands between the blanks. -/
def words (l : List Char) : List (List Char) := (l.splitOnP isSpace).filter (· ≠ [])

theorem words_nil : words [] = [] := rfl

theorem words_space (hc : isSpace c) (l : List Char) : words (c :: l) = words l := by
  simp [words, List.splitOnP_cons_eq_if_modifyHead, hc]

theorem words_dropWhile (l : List Char) : words (l.dropWhile isSpace) = words l := by
  induction l with
  | nil => rfl
  | cons c l ih =>
    by_cases hc : isSpace c
    · rw [List.dropWhile_cons_of_pos hc, ih, words_space hc]
    · rw [List.dropWhile_cons_of_neg hc]

/-- A word up to the next blank. -/
theorem words_append {w rest : List Char} (hw : ∀ c ∈ w, isSpace c = false) (hne : w ≠ [])
    (hrest : ∀ c ∈ rest.head?, isSpace c = true) : words (w ++ rest) = w :: words rest := by
  have hsplit : ∀ w : List Char, (∀ c ∈ w, isSpace c = false) →
      (w ++ rest).splitOnP isSpace = (rest.splitOnP isSpace).modifyHead (w ++ ·) := by
    intro w hw
    induction w with
    | nil =>
      rw [List.nil_append]
      cases rest.splitOnP isSpace <;> rfl
    | cons c w ih =>
      rw [List.cons_append, List.splitOnP_cons_eq_if_modifyHead, hw c (List.mem_cons_self ..), if_neg Bool.false_ne_true,
        ih fun d hd => hw d (List.mem_cons_of_mem _ hd)]
      cases rest.splitOnP isSpace <;> rfl
  rw [words, hsplit w hw]
  cases rest with
  | nil => simp [words, List.splitOnP_nil, hne]
  | cons c rest =>
    have hc := hrest c rfl
    rw [words_space hc, List.splitOnP_cons_eq_if_modifyHead, if_pos hc]
    simp [words, hne]

/-- The first word and the text after it. -/
theorem exists_word (h : l.dropWhile isSpace ≠ []) : ∃ w rest, l.dropWhile isSpace = w ++ rest ∧
    words l = w :: words rest ∧ w ≠ [] ∧ ∀ c ∈ rest.head?, isSpace c = true := by
  rw [← words_dropWhile]
  set r := l.dropWhile isSpace with hr
  have hjoin := List.takeWhile_append_dropWhile (p := fun c => !isSpace c) (l := r)
  have hblank : ∀ c ∈ (r.dropWhile fun c => !isSpace c).head?, isSpace c = true := by
    intro c hc
    have := List.head?_dropWhile_not (fun c => !isSpace c) r
    rw [Option.mem_def.mp hc] at this
    simpa using this
  have hne : r.takeWhile (fun c => !isSpace c) ≠ [] := by
    cases hl : r with
    | nil => exact absurd hl h
    | cons c rest =>
      have hc := List.head?_dropWhile_not isSpace l
      rw [← hr, hl] at hc
      simp only [List.head?_cons] at hc
      simp [hc]
  have hw : ∀ c ∈ r.takeWhile fun c => !isSpace c, isSpace c = false := by
    intro c hc
    simpa using List.mem_takeWhile_imp hc
  refine ⟨_, _, hjoin.symm, ?_, hne, hblank⟩
  rw [← words_append hw hne hblank, hjoin]

theorem exists_of_words_cons (h : words l = w :: ws) : ∃ rest, l.dropWhile isSpace = w ++ rest ∧
    words rest = ws ∧ w ≠ [] ∧ ∀ c ∈ rest.head?, isSpace c = true := by
  by_cases hl : l.dropWhile isSpace = []
  · rw [← words_dropWhile, hl] at h
    exact absurd h nofun
  · obtain ⟨w', rest, hdrop, hwords, hne, hblank⟩ := exists_word hl
    obtain ⟨rfl, rfl⟩ := List.cons.inj (hwords.symm.trans h)
    exact ⟨rest, hdrop, rfl, hne, hblank⟩

theorem dropWhile_of_words_nil (h : words l = []) : l.dropWhile isSpace = [] := by
  by_contra hl
  obtain ⟨w, rest, -, hwords, -⟩ := exists_word hl
  exact absurd (hwords.symm.trans h) nofun

theorem length_words_le (l : List Char) : (words l).length ≤ l.length := by
  suffices h : ∀ k, ∀ l : List Char, l.length ≤ k → (words l).length ≤ l.length from h _ l le_rfl
  intro k
  induction k with
  | zero =>
    intro l hl
    obtain rfl := List.length_eq_zero_iff.mp (Nat.le_zero.mp hl)
    exact le_rfl
  | succ k ih =>
    intro l hl
    cases hw : words l with
    | nil => exact Nat.zero_le _
    | cons w ws =>
      obtain ⟨rest, hdrop, rfl, hne, -⟩ := exists_of_words_cons hw
      have hlen := congrArg List.length hdrop
      have hle := (List.dropWhile_suffix isSpace (l := l)).length_le
      have hpos := List.length_pos_of_ne_nil hne
      rw [List.length_append] at hlen
      have := ih rest (by omega)
      simp only [List.length_cons]
      omega

-- ---------------------------------------------------------------------------
-- Numbers
-- ---------------------------------------------------------------------------

def decimal (digits : List Char) : ℕ := digits.foldl (fun v c => 10 * v + (c.toNat - '0'.toNat)) 0

/-- A sign, then digits. -/
def sizeNext (start : Bool) (c : Char) : Option Bool :=
  if c.isDigit then some false else if start && (c = '+' || c = '-') then some false else none

/-- The value of type `size_t` and whether `failbit` is set. -/
def toSize (field : List Char) : ℕ × Bool :=
  let digits := field.filter (·.isDigit)
  if digits = [] then (0, true)
  else if 2 ^ 64 ≤ decimal digits then (2 ^ 64 - 1, true)
  else if field.head? = some '-' then ((2 ^ 64 - decimal digits) % 2 ^ 64, false)
  else (decimal digits, false)

inductive FloatState
  | start
  | mantissa (digits point : Bool)
  | exponent (start : Bool)

/-- A sign, digits with a point, and after digits an exponent. -/
def floatNext : FloatState → Char → Option FloatState
  | .start, c => if c = '+' || c = '-' then some (.mantissa false false) else floatBody false false c
  | .mantissa digits point, c => floatBody digits point c
  | .exponent start, c =>
    if c.isDigit || start && (c = '+' || c = '-') then some (.exponent false) else none
where
  floatBody (digits point : Bool) (c : Char) : Option FloatState :=
    if c.isDigit then some (.mantissa true point)
    else if c = '.' && !point then some (.mantissa digits true)
    else if (c = 'e' || c = 'E') && digits then some (.exponent true)
    else none

/-- A number for `size_t`. -/
structure SizeWord (w : List Char) : Prop where
  nonempty : w ≠ []
  digits : ∀ c ∈ w, c.isDigit
  fits : decimal w < 2 ^ 64

theorem space_toNat (hc : isSpace c) : c.toNat = 32 ∨ 9 ≤ c.toNat ∧ c.toNat ≤ 13 := by
  simp only [isSpace, Bool.or_eq_true, Bool.and_eq_true, decide_eq_true_eq] at hc
  rcases hc with rfl | hc
  · exact .inl rfl
  · exact .inr hc

theorem not_isDigit_of_space (hc : isSpace c) : c.isDigit = false := by
  have hnat := space_toNat hc
  simp only [Char.isDigit, Bool.and_eq_false_iff, decide_eq_false_iff_not, ge_iff_le, UInt32.le_iff_toNat_le]
  left
  change ¬48 ≤ c.toNat
  omega

theorem ne_of_space (hc : isSpace c) (hd : isSpace d = false) : c ≠ d := by
  rintro rfl
  exact absurd (hc.symm.trans hd) nofun

theorem sizeNext_space (hc : isSpace c) (st : Bool) : sizeNext st c = none := by
  have hplus : c ≠ '+' := ne_of_space hc (by decide)
  have hminus : c ≠ '-' := ne_of_space hc (by decide)
  simp [sizeNext, not_isDigit_of_space hc, hplus, hminus]

theorem floatNext_space (hc : isSpace c) (st : FloatState) : floatNext st c = none := by
  have hplus : c ≠ '+' := ne_of_space hc (by decide)
  have hminus : c ≠ '-' := ne_of_space hc (by decide)
  have hbody : ∀ digits point, floatNext.floatBody digits point c = none := by
    intro digits point
    have hpoint : c ≠ '.' := ne_of_space hc (by decide)
    have he : c ≠ 'e' := ne_of_space hc (by decide)
    have hE : c ≠ 'E' := ne_of_space hc (by decide)
    simp [floatNext.floatBody, not_isDigit_of_space hc, hpoint, he, hE]
  cases st with
  | start => simp [floatNext, hplus, hminus, hbody]
  | mantissa digits point => exact hbody digits point
  | exponent start => simp [floatNext, not_isDigit_of_space hc, hplus, hminus]

theorem SizeWord.accepts (h : SizeWord w) : Accepts sizeNext true w := by
  have hdigits : ∀ (w : List Char) (st : Bool), (∀ c ∈ w, c.isDigit) → Accepts sizeNext st w := by
    intro w st hw
    induction w generalizing st with
    | nil => rfl
    | cons c w ih =>
      have hc : sizeNext st c = some false := by simp [sizeNext, hw c (List.mem_cons_self ..)]
      exact (accepts_cons hc).mpr (ih false fun d hd => hw d (List.mem_cons_of_mem _ hd))
  exact hdigits w true h.digits

theorem SizeWord.toSize (h : SizeWord w) : toSize w = (decimal w, false) := by
  have hfilter : w.filter (·.isDigit) = w := List.filter_eq_self.mpr h.digits
  have hsign : w.head? ≠ some '-' := by
    intro hhead
    have := h.digits '-' (List.mem_of_mem_head? hhead)
    exact absurd this (by decide)
  have hfits : ¬2 ^ 64 ≤ decimal w := Nat.not_le.mpr h.fits
  simp only [InputStreams.toSize, hfilter, if_neg h.nonempty, if_neg hfits, if_neg hsign]

-- ---------------------------------------------------------------------------
-- A line
-- ---------------------------------------------------------------------------

/-- `std::istringstream`, with the characters it has not read. -/
structure StringStream where
  rest : List Char
  eof : Bool
  fail : Bool
  deriving DecidableEq

def StringStream.ofLine (line : List Char) : StringStream := ⟨line, false, false⟩

/-- The sentry of formatted input skips blanks, then the field of a number is read. At the end
of the text there is no field, and the variable keeps its value. -/
def StringStream.extract (s : StringStream) (next : σ → Char → Option σ) (start : σ) :
    Option (List Char) × StringStream :=
  if s.eof || s.fail then (none, { s with fail := true })
  else
    let text := s.rest.dropWhile isSpace
    if text = [] then (none, ⟨[], true, true⟩)
    else
      let field := scan next start text
      (some field.1, ⟨field.2, field.2.isEmpty, false⟩)

/-- `s >> v`: a number is stored also when it sets `failbit`. -/
def StringStream.read (s : StringStream) (next : σ → Char → Option σ) (start : σ)
    (convert : List Char → α × Bool) (v : Option α) : Option α × StringStream :=
  match s.extract next start with
  | (none, s) => (v, s)
  | (some field, s) => (some (convert field).1, { s with fail := (convert field).2 })

def StringStream.readSize (s : StringStream) (v : Option ℕ) : Option ℕ × StringStream :=
  s.read sizeNext true toSize v

/-- What `std::istream_iterator<size_t>` runs through, up to the first failure. -/
def StringStream.sizesUpTo : ℕ → StringStream → List ℕ
  | 0, _ => []
  | k + 1, s =>
    match s.readSize none with
    | (some v, t) => if t.fail then [] else v :: t.sizesUpTo k
    | (none, _) => []

/-- Every number takes a character at least. -/
def StringStream.sizes (s : StringStream) : List ℕ := s.sizesUpTo (s.rest.length + 1)

namespace StringStream

/-- The words that are left to read. -/
structure Left (s : StringStream) (ws : List (List Char)) : Prop where
  words : words s.rest = ws
  eof : s.eof → s.rest = []
  fail : s.fail = false

theorem left_ofLine (line : List Char) : (ofLine line).Left (InputStreams.words line) :=
  ⟨rfl, nofun, rfl⟩

variable {s : StringStream} {next : σ → Char → Option σ} {start : σ} {convert : List Char → α × Bool}

theorem Left.extract (h : s.Left (w :: ws)) (hspace : ∀ st c, isSpace c → next st c = none)
    (hw : Accepts next start w) : ∃ t, s.extract next start = (some w, t) ∧ t.Left ws := by
  obtain ⟨rest, hdrop, hrest, hne, hblank⟩ := exists_of_words_cons h.words
  have heof : s.eof = false := by
    by_contra heof
    have hnil := h.words
    rw [h.eof (by simpa using heof), words_nil] at hnil
    exact absurd hnil nofun
  have hscan := hw.scan_append fun st c hc => hspace st c (hblank c hc)
  refine ⟨⟨rest, rest.isEmpty, false⟩, ?_, hrest, List.isEmpty_iff.mp, rfl⟩
  simp [StringStream.extract, heof, h.fail, hdrop, hne, hscan]

/-- When no words are left the next extraction fails. -/
theorem Left.extract_nil (h : s.Left []) :
    ∃ t, s.extract next start = (none, t) ∧ t.fail = true := by
  have hdrop := dropWhile_of_words_nil h.words
  unfold StringStream.extract
  split
  · exact ⟨_, rfl, rfl⟩
  · exact ⟨_, by rw [if_pos hdrop], rfl⟩

theorem Left.read (h : s.Left (w :: ws)) (hspace : ∀ st c, isSpace c → next st c = none)
    (hw : Accepts next start w) (hok : (convert w).2 = false) (v : Option α) :
    ∃ t, s.read next start convert v = (some (convert w).1, t) ∧ t.Left ws := by
  obtain ⟨t, ht, hleft⟩ := h.extract hspace hw
  refine ⟨t, ?_, hleft⟩
  have hfail : { t with fail := (convert w).2 } = t := by rw [hok, ← hleft.fail]
  simp only [StringStream.read, ht, hfail]

/-- A variable for which there is no word is left as it was. -/
theorem Left.read_nil (h : s.Left []) (v : Option α) :
    ∃ t, s.read next start convert v = (v, t) ∧ t.fail = true := by
  obtain ⟨t, ht, hfail⟩ : ∃ t, s.extract next start = (none, t) ∧ t.fail = true := h.extract_nil
  exact ⟨t, by simp only [StringStream.read, ht], hfail⟩

theorem read_fail (h : s.fail = true) (v : Option α) :
    ∃ t, s.read next start convert v = (v, t) ∧ t.fail = true := by
  refine ⟨{ s with fail := true }, ?_, rfl⟩
  simp [StringStream.read, StringStream.extract, h]

theorem Left.readSize (h : s.Left (w :: ws)) (hw : SizeWord w) (v : Option ℕ) :
    ∃ t, s.readSize v = (some (decimal w), t) ∧ t.Left ws := by
  have hok : (toSize w).2 = false := by rw [hw.toSize]
  obtain ⟨t, ht, hleft⟩ := h.read (fun st c hc => sizeNext_space hc st) hw.accepts hok v
  exact ⟨t, by rw [StringStream.readSize, ht, hw.toSize], hleft⟩

theorem Left.readSize_nil (h : s.Left []) (v : Option ℕ) :
    ∃ t, s.readSize v = (v, t) ∧ t.fail = true :=
  h.read_nil v

theorem Left.sizesUpTo (h : s.Left ws) (hws : ∀ w ∈ ws, SizeWord w) (hk : ws.length < k) :
    s.sizesUpTo k = ws.map decimal := by
  induction ws generalizing s k with
  | nil =>
    cases k with
    | zero => rfl
    | succ k =>
      obtain ⟨t, ht, -⟩ := h.readSize_nil none
      simp only [StringStream.sizesUpTo, ht, List.map_nil]
  | cons w ws ih =>
    cases k with
    | zero => exact absurd hk (Nat.not_lt_zero _)
    | succ k =>
      obtain ⟨t, ht, hleft⟩ := h.readSize (hws w (List.mem_cons_self ..)) none
      have hrest := ih hleft (fun w hw => hws w (List.mem_cons_of_mem _ hw)) (by simpa using hk)
      simp [StringStream.sizesUpTo, ht, hleft.fail, hrest]

theorem sizes_ofLine (hws : ∀ w ∈ InputStreams.words line, SizeWord w) :
    (ofLine line).sizes = (InputStreams.words line).map decimal :=
  (left_ofLine line).sizesUpTo hws (Nat.lt_succ_of_le (length_words_le line))

end StringStream

-- ---------------------------------------------------------------------------
-- A file
-- ---------------------------------------------------------------------------

/-- `std::ifstream`, opened. -/
structure FileStream where
  text : List Char
  pos : ℕ
  eof : Bool
  fail : Bool
  deriving DecidableEq

namespace FileStream

def ofText (text : List Char) : FileStream := ⟨text, 0, false, false⟩

/-- `std::getline`. When the stream is not good, `line` keeps its value. -/
def getline (line : List Char) (s : FileStream) : List Char × FileStream :=
  if s.eof || s.fail then (line, { s with fail := true })
  else
    let rest := s.text.drop s.pos
    let str := rest.takeWhile (· != '\n')
    if str.length < rest.length then (str, { s with pos := s.pos + str.length + 1 })
    else (str, { s with pos := s.text.length, eof := true, fail := str.isEmpty })

/-- `std::getline` a number of times. -/
def getlines : ℕ → List Char × FileStream → List Char × FileStream
  | 0, st => st
  | k + 1, st => getlines k (st.2.getline st.1)

/-- `tellg`: at the end of the file there is no position, and `failbit` is set. -/
def tellg (s : FileStream) : Option ℕ × FileStream :=
  if s.eof || s.fail then (none, { s with fail := true }) else (some s.pos, s)

/-- `seekg` clears `eofbit` only. -/
def seekg (pos : Option ℕ) (s : FileStream) : FileStream :=
  if s.fail then { s with eof := false }
  else
    match pos with
    | some pos => { s with pos := pos, eof := false }
    | none => { s with eof := false, fail := true }

end FileStream

/-- Lines, with or without a newline after the last one. -/
def fileText (newline : Bool) : List (List Char) → List Char
  | [] => []
  | [l] => l ++ if newline then ['\n'] else []
  | l :: ls => l ++ '\n' :: fileText newline ls

namespace FileStream

variable {newline : Bool} {lines : List (List Char)} {s : FileStream}

/-- The lines that are left to read. -/
structure AtLine (newline : Bool) (lines : List (List Char)) (s : FileStream) : Prop where
  text : s.text.drop s.pos = fileText newline lines
  eof : s.eof = false
  fail : s.fail = false

theorem atLine_ofText : AtLine newline lines (ofText (fileText newline lines)) := ⟨rfl, rfl, rfl⟩

theorem takeWhile_line {rest : List Char} (h : '\n' ∉ l) :
    (l ++ '\n' :: rest).takeWhile (· != '\n') = l := by
  have hl : ∀ c ∈ l, (c != '\n') = true := by
    intro c hc
    exact bne_iff_ne.mpr fun heq => h (heq ▸ hc)
  rw [List.takeWhile_append_of_pos hl]
  simp

theorem AtLine.getline (h : s.AtLine newline (l :: lines)) (hl : '\n' ∉ l)
    (hmore : lines ≠ [] ∨ newline = true) (line : List Char) :
    ∃ t, s.getline line = (l, t) ∧ t.AtLine newline lines ∧ t.text = s.text := by
  have htext : s.text.drop s.pos = l ++ '\n' :: fileText newline lines := by
    rw [h.text]
    cases lines with
    | nil => simp [fileText, hmore.resolve_left (not_not_intro rfl)]
    | cons l' ls => rfl
  have hdrop : s.text.drop (s.pos + l.length + 1) = fileText newline lines := by
    rw [add_assoc, ← List.drop_drop, htext, ← List.drop_drop, List.drop_left, List.drop_one,
      List.tail_cons]
  refine ⟨{ s with pos := s.pos + l.length + 1 }, ?_, ⟨hdrop, h.eof, h.fail⟩, rfl⟩
  simp [FileStream.getline, h.eof, h.fail, htext, takeWhile_line hl]

/-- The last line when no newline comes after it. -/
theorem AtLine.getline_last (h : s.AtLine false [l]) (hl : '\n' ∉ l) (hne : l ≠ [])
    (line : List Char) : ∃ t, s.getline line = (l, t) ∧ t.eof = true ∧ t.fail = false ∧ t.text = s.text := by
  have htext : s.text.drop s.pos = l := by rw [h.text]; simp [fileText]
  have hline : l.takeWhile (· != '\n') = l := by
    refine List.takeWhile_eq_self_iff.mpr fun c hc => ?_
    exact bne_iff_ne.mpr fun heq => hl (heq ▸ hc)
  refine ⟨{ s with pos := s.text.length, eof := true, fail := false }, ?_, rfl, rfl, rfl⟩
  simp [FileStream.getline, h.eof, h.fail, htext, hline, hne]

theorem AtLine.getlines (h : s.AtLine newline (lines ++ more)) (hl : ∀ l ∈ lines, '\n' ∉ l)
    (hmore : more ≠ [] ∨ newline = true) (line : List Char) :
    ∃ line' t, getlines lines.length (line, s) = (line', t) ∧ t.AtLine newline more ∧
      t.text = s.text := by
  induction lines generalizing s line with
  | nil => exact ⟨line, s, rfl, h, rfl⟩
  | cons l ls ih =>
    have hrest : ls ++ more ≠ [] ∨ newline = true :=
      hmore.imp_left fun hne => List.append_ne_nil_of_right_ne_nil _ hne
    obtain ⟨t, ht, hat, htext⟩ := h.getline (hl l (List.mem_cons_self ..)) hrest line
    obtain ⟨line', u, hu, hat, htext'⟩ := ih hat (fun l hm => hl l (List.mem_cons_of_mem _ hm)) l
    exact ⟨line', u, by rw [List.length_cons, FileStream.getlines, ht, hu], hat, htext'.trans htext⟩

/-- All lines are read, and no newline comes after them. -/
theorem AtLine.getlines_end (h : s.AtLine false lines) (hl : ∀ l ∈ lines, '\n' ∉ l ∧ l ≠ [])
    (hne : lines ≠ []) (line : List Char) :
    ∃ line' t, FileStream.getlines lines.length (line, s) = (line', t) ∧ t.eof = true := by
  induction lines generalizing s line with
  | nil => exact absurd rfl hne
  | cons l ls ih =>
    obtain ⟨hnl, hlne⟩ := hl l (List.mem_cons_self ..)
    cases ls with
    | nil =>
      obtain ⟨t, ht, heof, -⟩ := h.getline_last hnl hlne line
      exact ⟨l, t, ht, heof⟩
    | cons l' ls =>
      obtain ⟨t, ht, hat, -⟩ := h.getline hnl (.inl (List.cons_ne_nil _ _)) line
      obtain ⟨line', u, hu, heof⟩ := ih hat (fun l hm => hl l (List.mem_cons_of_mem _ hm))
        (List.cons_ne_nil _ _) l
      exact ⟨line', u, by rw [List.length_cons, FileStream.getlines, ht, hu], heof⟩

/-- The line with a given number. -/
theorem AtLine.line (h : s.AtLine newline lines) (hk : k < lines.length)
    (hl : ∀ l ∈ lines, '\n' ∉ l ∧ l ≠ []) (line : List Char) :
    ∃ line' t u, FileStream.getlines k (line, s) = (line', t) ∧ t.getline line' = (lines[k], u) ∧
      u.fail = false ∧ u.text = s.text := by
  have hsplit : lines = lines.take k ++ lines[k] :: lines.drop (k + 1) := by
    rw [← List.drop_eq_getElem_cons hk, List.take_append_drop]
  have hlen : (lines.take k).length = k := List.length_take_of_le hk.le
  obtain ⟨line', t, ht, hat, htext⟩ := AtLine.getlines (hsplit ▸ h)
    (fun l hm => (hl l (List.mem_of_mem_take hm)).1) (.inl (List.cons_ne_nil _ _)) line
  obtain ⟨hnl, hne⟩ := hl _ (List.getElem_mem hk)
  rw [hlen] at ht
  by_cases hmore : lines.drop (k + 1) ≠ [] ∨ newline = true
  · obtain ⟨u, hu, hat, htext'⟩ := hat.getline hnl hmore line'
    exact ⟨line', t, u, ht, hu, hat.fail, htext'.trans htext⟩
  · push Not at hmore
    obtain ⟨hlast, hnewline⟩ := hmore
    obtain rfl := Bool.eq_false_iff.mpr hnewline
    rw [hlast] at hat
    obtain ⟨u, hu, -, hfail, htext'⟩ := hat.getline_last hnl hne line'
    exact ⟨line', t, u, ht, hu, hfail, htext'.trans htext⟩

theorem AtLine.tellg (h : s.AtLine newline lines) : s.tellg = (some s.pos, s) := by
  simp [FileStream.tellg, h.eof, h.fail]

theorem tellg_eof (h : s.eof = true) : s.tellg = (none, { s with fail := true }) := by
  simp [FileStream.tellg, h]

theorem tellg_fail (h : s.fail = true) : s.tellg = (none, { s with fail := true }) := by
  simp [FileStream.tellg, h]

/-- Back to a position that was told. -/
theorem AtLine.seekg {t : FileStream} (h : s.AtLine newline lines) (ht : t.fail = false)
    (htext : t.text = s.text) : (t.seekg (some s.pos)).AtLine newline lines ∧
      (t.seekg (some s.pos)).text = s.text := by
  simp only [FileStream.seekg, ht, Bool.false_eq_true, if_false]
  exact ⟨⟨htext ▸ h.text, rfl, rfl⟩, htext⟩

theorem getlines_succ (k : ℕ) (st : List Char × FileStream) :
    getlines (k + 1) st = (getlines k st).2.getline (getlines k st).1 := by
  induction k generalizing st with
  | zero => rfl
  | succ k ih => exact ih (st.2.getline st.1)

theorem seekg_fail (h : s.fail = true) (pos : Option ℕ) : (s.seekg pos).fail = true := by
  simp [FileStream.seekg, h]

theorem getlines_fail (h : s.fail = true) (k : ℕ) (line : List Char) :
    ∃ t, getlines k (line, s) = (line, t) ∧ t.fail = true := by
  induction k generalizing s with
  | zero => exact ⟨s, rfl, h⟩
  | succ k ih =>
    have hone : s.getline line = (line, { s with fail := true }) := by simp [getline, h]
    obtain ⟨t, ht, hfail⟩ := ih (s := { s with fail := true }) rfl
    exact ⟨t, by rw [FileStream.getlines, hone, ht], hfail⟩

end FileStream

end InputStreams
