import Mathlib

/-!
# Strict weak orders

The comparisons that ordered containers take: a `less` under which
incomparable elements form classes. Products and lists are compared
lexicographically, with incomparable heads passed over. `insertUnique` is the
insertion of an ordered container; an element above all others goes to the end.
-/

structure StrictWeakOrder (α : Type*) where
  less : α → α → Bool
  asymm : ∀ x y, less x y → ¬ less y x
  negTrans : ∀ x y z, less x z → less x y ∨ less y z

namespace StrictWeakOrder

variable {α β : Type*} (o : StrictWeakOrder α) (o' : StrictWeakOrder β)

theorem irrefl (x : α) : ¬ o.less x x := fun h => o.asymm x x h h

theorem trans {x y z : α} (hxy : o.less x y) (hyz : o.less y z) : o.less x z :=
  (o.negTrans x z y hxy).resolve_right (o.asymm y z hyz)

/-- An order without comparable elements. -/
def incomparable : StrictWeakOrder α where
  less _ _ := false
  asymm := by simp
  negTrans := by simp

def comap (f : β → α) : StrictWeakOrder β where
  less x y := o.less (f x) (f y)
  asymm x y := o.asymm (f x) (f y)
  negTrans x y z := o.negTrans (f x) (f y) (f z)

-- ---------------------------------------------------------------------------
-- Lexicographic comparison
-- ---------------------------------------------------------------------------

/-- `first < first' || (!(first' < first) && rest < rest')`. -/
def lexStep (x y : α) (rest : Bool) : Bool := o.less x y || (!o.less y x && rest)

theorem lexStep_iff {x y : α} {rest : Bool} :
    o.lexStep x y rest ↔ o.less x y ∨ ¬ o.less y x ∧ rest := by
  simp [lexStep]

theorem lexStep_asymm {x y : α} {rest rest' : Bool} (hrest : rest → ¬ rest')
    (h : o.lexStep x y rest) : ¬ o.lexStep y x rest' := by
  rw [lexStep_iff] at h ⊢
  rintro (hyx | ⟨hxy, hr'⟩)
  · rcases h with hxy | ⟨hyx', -⟩
    · exact o.asymm x y hxy hyx
    · exact hyx' hyx
  · rcases h with hxy' | ⟨-, hr⟩
    · exact hxy hxy'
    · exact hrest hr hr'

theorem lexStep_negTrans {x y z : α} {xz xy yz : Bool} (hrest : xz → xy ∨ yz)
    (h : o.lexStep x z xz) : o.lexStep x y xy ∨ o.lexStep y z yz := by
  simp only [lexStep_iff] at h ⊢
  rcases h with hxz | ⟨hzx, hr⟩
  · rcases o.negTrans x y z hxz with hxy | hyz
    · exact .inl (.inl hxy)
    · exact .inr (.inl hyz)
  · by_cases hxy : o.less x y
    · exact .inl (.inl hxy)
    by_cases hyz : o.less y z
    · exact .inr (.inl hyz)
    -- now `x`, `y` and `z` are incomparable, and the rests decide
    have hyx : ¬ o.less y x := fun hyx => (o.negTrans y z x hyx).elim hyz hzx
    have hzy : ¬ o.less z y := fun hzy => (o.negTrans z x y hzy).elim hzx hxy
    rcases hrest hr with hr | hr
    · exact .inl (.inr ⟨hyx, hr⟩)
    · exact .inr (.inr ⟨hzy, hr⟩)

def lexProd : StrictWeakOrder (α × β) where
  less p q := o.lexStep p.1 q.1 (o'.less p.2 q.2)
  asymm p q := o.lexStep_asymm (o'.asymm p.2 q.2)
  negTrans p q r := o.lexStep_negTrans (o'.negTrans p.2 q.2 r.2)

/-- `std::lexicographical_compare`. -/
def lexLess : List α → List α → Bool
  | _, [] => false
  | [], _ :: _ => true
  | x :: xs, y :: ys => o.lexStep x y (lexLess xs ys)

theorem lexLess_asymm (xs ys : List α) (h : o.lexLess xs ys) : ¬ o.lexLess ys xs := by
  induction xs generalizing ys with
  | nil => simp [lexLess]
  | cons x xs ih =>
    cases ys with
    | nil => simp [lexLess] at h
    | cons y ys => exact o.lexStep_asymm (ih ys) h

theorem lexLess_negTrans (xs ys zs : List α) (h : o.lexLess xs zs) :
    o.lexLess xs ys ∨ o.lexLess ys zs := by
  induction xs generalizing ys zs with
  | nil =>
    cases zs with
    | nil => simp [lexLess] at h
    | cons z zs => cases ys <;> simp [lexLess]
  | cons x xs ih =>
    cases zs with
    | nil => simp [lexLess] at h
    | cons z zs =>
      cases ys with
      | nil => simp [lexLess]
      | cons y ys => exact o.lexStep_negTrans (ih ys zs) h

def lexList : StrictWeakOrder (List α) where
  less := o.lexLess
  asymm := o.lexLess_asymm
  negTrans := o.lexLess_negTrans

-- ---------------------------------------------------------------------------
-- Insertion
-- ---------------------------------------------------------------------------

/-- Insertion into a sorted list, unless there is an equivalent element. -/
def insertUnique : List α → α → List α
  | [], x => [x]
  | y :: l, x =>
    if o.less x y then x :: y :: l
    else if o.less y x then y :: insertUnique l x
    else y :: l

theorem mem_insertUnique {l : List α} {x y : α} (h : y ∈ o.insertUnique l x) : y = x ∨ y ∈ l := by
  induction l with
  | nil => simpa [insertUnique] using h
  | cons z l ih =>
    rw [insertUnique] at h
    split at h
    · simpa using h
    · split at h
      · rcases List.mem_cons.mp h with rfl | h
        · exact .inr (by simp)
        · exact (ih h).imp_right (List.mem_cons_of_mem _)
      · exact .inr h

theorem insertUnique_pairwise {l : List α} (x : α) (h : l.Pairwise (o.less · ·)) :
    (o.insertUnique l x).Pairwise (o.less · ·) := by
  induction l with
  | nil => exact List.pairwise_singleton _ _
  | cons y l ih =>
    obtain ⟨hy, hl⟩ := List.pairwise_cons.mp h
    rw [insertUnique]
    split
    · rename_i hxy
      refine List.pairwise_cons.mpr ⟨fun z hz => ?_, h⟩
      rcases List.mem_cons.mp hz with rfl | hz
      · exact hxy
      · exact o.trans hxy (hy z hz)
    · split
      · rename_i hyx
        refine List.pairwise_cons.mpr ⟨fun z hz => ?_, ih hl⟩
        rcases o.mem_insertUnique hz with rfl | hz
        · exact hyx
        · exact hy z hz
      · exact h

/-- An element above all others goes to the end. -/
theorem insertUnique_append {l : List α} {x : α} (h : ∀ y ∈ l, o.less y x) :
    o.insertUnique l x = l ++ [x] := by
  induction l with
  | nil => rfl
  | cons y l ih =>
    have hyx := h y (by simp)
    rw [insertUnique, if_neg (o.asymm y x hyx), if_pos hyx, ih fun z hz => h z (by simp [hz])]
    rfl

/-- Sorted elements are inserted one after another at the end. -/
theorem foldl_insertUnique {l l' : List α} (h : (l ++ l').Pairwise (o.less · ·)) :
    l'.foldl o.insertUnique l = l ++ l' := by
  induction l' generalizing l with
  | nil => simp
  | cons x l' ih =>
    have hx : ∀ y ∈ l, o.less y x := fun y hy =>
      (List.pairwise_append.mp h).2.2 y hy x (by simp)
    rw [List.foldl_cons, o.insertUnique_append hx, ih (by simpa using h), List.append_assoc]
    rfl

end StrictWeakOrder
