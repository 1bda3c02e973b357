import Mathlib

/-!
# Upper bounds in arrays that do not fall

The place where an array goes above a value is found by halving. Equal elements
are all on the same side of it.
-/

namespace UpperBound

variable {α : Type*} [LinearOrder α] {l : List α} {x : α}

/-- The first of `len` elements from `first` on that is above `x`. The range is
halved at most `fuel` times. -/
def upperBoundFrom (x : α) (l : List α) : ℕ → ℕ → ℕ → ℕ
  | 0, first, _ => first
  | fuel + 1, first, len =>
    if len = 0 then first
    else
      let half := len / 2
      if (l[first + half]?).any fun a => x < a then upperBoundFrom x l fuel first half
      else upperBoundFrom x l fuel (first + half + 1) (len - half - 1)

/-- `std::upper_bound`. -/
def upperBound (x : α) (l : List α) : ℕ := upperBoundFrom x l l.length 0 l.length

/-- The elements before `r` are the ones that are not above `x`. -/
structure Splits (x : α) (l : List α) (r : ℕ) : Prop where
  le_length : r ≤ l.length
  below : ∀ i a, l[i]? = some a → i < r → a ≤ x
  above : ∀ i a, l[i]? = some a → r ≤ i → x < a

theorem le_of_sorted (h : l.Pairwise (· ≤ ·)) {i j : ℕ} {a b : α} (ha : l[i]? = some a) (hb : l[j]? = some b)
    (hij : i ≤ j) : a ≤ b := by
  obtain ⟨hi, rfl⟩ := List.getElem?_eq_some_iff.mp ha
  obtain ⟨hj, rfl⟩ := List.getElem?_eq_some_iff.mp hb
  exact h.rel_get_of_le (a := ⟨i, hi⟩) (b := ⟨j, hj⟩) hij

theorem upperBoundFrom_splits (h : l.Pairwise (· ≤ ·)) {fuel first len : ℕ} (hfuel : len ≤ fuel)
    (hle : first + len ≤ l.length) (hbelow : ∀ i a, l[i]? = some a → i < first → a ≤ x)
    (habove : ∀ i a, l[i]? = some a → first + len ≤ i → x < a) : Splits x l (upperBoundFrom x l fuel first len) := by
  induction fuel generalizing first len with
  | zero =>
    obtain rfl := Nat.le_zero.mp hfuel
    exact ⟨hle, hbelow, habove⟩
  | succ fuel ih =>
    rw [upperBoundFrom]
    split_ifs with hlen
    · subst hlen
      exact ⟨hle, hbelow, habove⟩
    · have hmid := List.getElem?_eq_getElem (show first + len / 2 < l.length by omega)
      simp only [hmid, Option.any_some, decide_eq_true_eq]
      split_ifs with hlt
      · apply ih (by omega) (by omega) hbelow
        intro i a ha hi
        exact hlt.trans_le (le_of_sorted h hmid ha hi)
      · apply ih (by omega) (by omega)
        · intro i a ha hi
          exact (le_of_sorted h ha hmid (by omega)).trans (le_of_not_gt hlt)
        · intro i a ha hi
          exact habove i a ha (by omega)

theorem upperBound_splits (h : l.Pairwise (· ≤ ·)) (x : α) : Splits x l (upperBound x l) := by
  apply upperBoundFrom_splits h le_rfl (Nat.zero_add _).le
  · intro i a _ hi
    exact absurd hi (Nat.not_lt_zero i)
  · intro i a ha hi
    obtain ⟨hlt, _⟩ := List.getElem?_eq_some_iff.mp ha
    omega

end UpperBound
