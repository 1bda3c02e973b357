import Mathlib

/-!
# Filtered views

A view of a sequence skips the elements that a predicate rejects: once when it is
made, and after every increment of its iterators. Its size is the distance from there
to the end of the sequence.
-/

namespace Flecsi.Utils

/-- `filter_view`. Iterators are places in `data`. -/
structure FilterView (α : Type*) where
  data : List α
  b : ℕ
  e : ℕ
  f : α → Bool

namespace FilterView

variable {α : Type*}

/-- What the predicate says of an element. -/
def accepts (v : FilterView α) (i : ℕ) : Bool := (v.data[i]?).any v.f

/-- The loop of `skip`, for at most the steps that are left to the end. -/
def skipFrom (v : FilterView α) : ℕ → ℕ → ℕ
  | 0, i => i
  | fuel + 1, i => if i ≠ v.e ∧ !v.accepts i then v.skipFrom fuel (i + 1) else i

def skip (v : FilterView α) (i : ℕ) : ℕ := v.skipFrom (v.e - i) i

/-- The constructor. -/
def make (data : List α) (b e : ℕ) (f : α → Bool) : FilterView α :=
  let v : FilterView α := ⟨data, b, e, f⟩
  { v with b := v.skip b }

/-- `operator++`. -/
def next (v : FilterView α) (p : ℕ) : ℕ := v.skip (p + 1)

def size (v : FilterView α) : ℕ := v.e - v.b

/-- The places that a loop from `p` to `end()` visits, if it ends within the fuel. -/
def visit (v : FilterView α) : ℕ → ℕ → Option (List ℕ)
  | 0, _ => none
  | fuel + 1, p => if p = v.e then some [] else (v.visit fuel (v.next p)).map (p :: ·)

/-- The accepted places from `p` on. -/
def accepted (v : FilterView α) (p : ℕ) : List ℕ := (List.range' p (v.e - p)).filter v.accepts

-- ---------------------------------------------------------------------------
-- Skipping
-- ---------------------------------------------------------------------------

variable {v : FilterView α} {i : ℕ}

/-- Where skipping stops, and that it has passed nothing that is accepted. -/
structure Stops (v : FilterView α) (i r : ℕ) : Prop where
  le : i ≤ r
  le_end : r ≤ v.e
  stop : r = v.e ∨ v.accepts r
  passed : ∀ j, i ≤ j → j < r → v.accepts j = false

theorem skip_stops (h : i ≤ v.e) : Stops v i (v.skip i) := by
  rw [skip]
  generalize hfuel : v.e - i = fuel
  induction fuel generalizing i with
  | zero =>
    obtain rfl : i = v.e := by omega
    exact ⟨le_rfl, le_rfl, .inl rfl, fun j hij hji => absurd hij (Nat.not_le_of_lt hji)⟩
  | succ fuel ih =>
    rw [skipFrom]
    split_ifs with hskip
    · obtain ⟨hne, hrejected⟩ := hskip
      obtain ⟨hle, hend, hstop, hpassed⟩ := @ih (i + 1) (by omega) (by omega)
      refine ⟨by omega, hend, hstop, fun j hij hjr => ?_⟩
      cases Nat.eq_or_lt_of_le hij with
      | inl heq => exact heq ▸ (by simpa using hrejected)
      | inr hlt => exact hpassed j hlt hjr
    · refine ⟨le_rfl, h, ?_, fun j hij hji => absurd hij (Nat.not_le_of_lt hji)⟩
      rw [not_and_or, not_not] at hskip
      exact hskip.imp id (by simp)

theorem accepted_end (v : FilterView α) : v.accepted v.e = [] := by
  rw [accepted, Nat.sub_self]
  rfl

theorem accepted_cons (h : i < v.e) : v.accepted i = if v.accepts i then i :: v.accepted (i + 1) else v.accepted (i + 1) := by
  obtain ⟨n, hn⟩ : ∃ n, v.e - i = n + 1 := ⟨v.e - i - 1, by omega⟩
  have hrest : v.e - (i + 1) = n := by omega
  rw [accepted, accepted, hn, hrest, List.range'_succ, List.filter_cons]

theorem accepted_of_stops {r : ℕ} (h : Stops v i r) : v.accepted i = v.accepted r := by
  obtain ⟨hle, hend, -, hpassed⟩ := h
  induction r, hle using Nat.le_induction with
  | base => rfl
  | succ r hle ih =>
    rw [ih (by omega) fun j hij hjr => hpassed j hij (by omega), accepted_cons hend, hpassed r hle (Nat.lt_succ_self r)]
    rfl

/-- A loop from an accepted place visits all of them. -/
theorem visit_eq {fuel : ℕ} (h : i ≤ v.e) (hstop : i = v.e ∨ v.accepts i) (hfuel : v.e - i < fuel) :
    v.visit fuel i = some (v.accepted i) := by
  induction fuel generalizing i with
  | zero => exact absurd hfuel (Nat.not_lt_zero _)
  | succ fuel ih =>
    rw [visit]
    split_ifs with hend
    · rw [hend, accepted_end]
    · have hlt : i < v.e := lt_of_le_of_ne h hend
      have hnext : Stops v (i + 1) (v.next i) := skip_stops hlt
      have hle := hnext.le
      rw [ih hnext.le_end hnext.stop (by omega), accepted_cons hlt, if_pos (hstop.resolve_left hend), accepted_of_stops hnext]
      rfl

-- ---------------------------------------------------------------------------
-- The view
-- ---------------------------------------------------------------------------

section
variable {data : List α} {b e : ℕ} {f : α → Bool}

@[simp] theorem make_e : (make data b e f).e = e := rfl

theorem make_stops (h : b ≤ e) : Stops ⟨data, b, e, f⟩ b (make data b e f).b := skip_stops h

/-- Beginning to end visits the accepted places, in order and each once. -/
theorem visit_make (h : b ≤ e) {fuel : ℕ} (hfuel : e - b < fuel) :
    (make data b e f).visit fuel (make data b e f).b =
      some ((List.range' b (e - b)).filter fun i => (data[i]?).any f) := by
  obtain ⟨hle, hend, hstop, hpassed⟩ := @make_stops α data b e f h
  have hvisit := @visit_eq α (make data b e f) _ fuel hend hstop (lt_of_le_of_lt (Nat.sub_le_sub_left hle e) hfuel)
  have haccepted : (make data b e f).accepted b = _ := accepted_of_stops ⟨hle, hend, hstop, hpassed⟩
  rw [hvisit, ← haccepted]
  rfl

/-- The size counts what is rejected behind the first accepted element too. -/
theorem size_make_iff (h : b ≤ e) :
    (make data b e f).size = ((List.range' b (e - b)).filter fun i => (data[i]?).any f).length ↔
      ∀ i j, b ≤ i → i ≤ j → j < e → (data[i]?).any f → (data[j]?).any f := by
  obtain ⟨hle, hend, hstop, hpassed⟩ := @make_stops α data b e f h
  have haccepted : (make data b e f).accepted b = (make data b e f).accepted (make data b e f).b :=
    accepted_of_stops ⟨hle, hend, hstop, hpassed⟩
  have hlen : (make data b e f).size = (List.range' (make data b e f).b ((make data b e f).e - (make data b e f).b)).length :=
    List.length_range'.symm
  change _ = ((make data b e f).accepted b).length ↔ _
  rw [haccepted, hlen, accepted, eq_comm, List.length_filter_eq_length_iff]
  constructor
  · intro hall i j hbi hij hj hi
    have hfirst : (make data b e f).b ≤ i := by
      by_contra hlt
      have hrejected := hpassed i hbi (by omega)
      rw [accepts, hi] at hrejected
      cases hrejected
    exact hall j (by rw [List.mem_range'_1, make_e]; omega)
  · intro hall j hj
    rw [List.mem_range'_1, make_e] at hj
    change (make data b e f).b ≤ e at hend
    cases hstop with
    | inl heq =>
      change (make data b e f).b = e at heq
      omega
    | inr hfirst => exact hall _ j hle hj.1 (by omega) hfirst

end

end FilterView

end Flecsi.Utils
