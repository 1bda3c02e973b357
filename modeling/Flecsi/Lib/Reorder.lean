import Mathlib

/-!
# Reordering in place

`reorder_destructive` brings every value to its place by following the cycles
of a permutation. The order is used up on the way: a position that was visited
is marked in it.
-/

namespace Reorder

variable {α : Type*}

/-- The order, the values and the count of `reorder_destructive`. The mark
`index_t(-1)` of a visited position is `none`. -/
structure State (α : Type*) where
  order : List (Option ℕ)
  v : List α
  remaining : ℤ

/-- The inner loop, along the cycle of `s` with a value in hand. -/
def follow (s : ℕ) : ℕ → State α → α → ℕ → Option (State α × α)
  | 0, _, _, _ => none
  | fuel + 1, st, temp, d =>
    if d = s then some (st, temp)
    else
      st.v[d]?.bind fun value =>
      -- a marked position has no successor
      st.order[d]?.join.bind fun d2 =>
      follow s fuel ⟨st.order.set d none, st.v.set d temp, st.remaining - 1⟩ value d2

/-- The body of the outer loop. -/
def place (st : State α) (s : ℕ) : Option (State α) :=
  st.order[s]?.bind fun
  | none => some st
  | some d =>
    st.v[s]?.bind fun temp =>
    (follow s st.order.length { st with remaining := st.remaining - 1 } temp d).map fun (st, temp) =>
    { st with v := st.v.set s temp }

def placeFrom : ℕ → ℕ → State α → Option (State α)
  | 0, _, st => if 0 < st.remaining then none else some st
  | fuel + 1, s, st => if 0 < st.remaining then (place st s).bind (placeFrom fuel (s + 1)) else some st

def reorderDestructive (order : List ℕ) (v : List α) : Option (List α) :=
  (placeFrom order.length 0 ⟨order.map some, v, order.length - 1⟩).map State.v

-- ---------------------------------------------------------------------------
-- Orders that are permutations
-- ---------------------------------------------------------------------------

section
variable {order : List ℕ} (h : order.Perm (List.range order.length)) {i i' j : ℕ}

include h in
theorem lt_of_getElem? (hi : order[i]? = some j) : j < order.length :=
  List.mem_range.mp (h.mem_iff.mp (List.mem_of_getElem? hi))

include h in
theorem getElem?_inj (hi : order[i]? = some j) (hi' : order[i']? = some j) : i = i' := by
  have hnodup : order.Nodup := h.nodup_iff.mpr List.nodup_range
  obtain ⟨hlt, -⟩ := List.getElem?_eq_some_iff.mp hi
  exact (List.getElem?_inj hlt hnodup).mp (hi.trans hi'.symm)

end

/-- The value of `i` goes to `j` after some steps along the order. -/
abbrev Leads (order : List ℕ) : ℕ → ℕ → Prop := Relation.ReflTransGen fun i j => order[i]? = some j

/-- The positions in `P` have got their values, the others still have their
own. -/
structure Placed (order : List ℕ) (v₀ : List α) (P : Finset ℕ) (v : List α) : Prop where
  subset : P ⊆ Finset.range order.length
  length_eq : v.length = v₀.length
  moved : ∀ i j : ℕ, order[i]? = some j → j ∈ P → v[j]? = v₀[i]?
  kept : ∀ j : ℕ, j ∉ P → v[j]? = v₀[j]?

/-- A value is put to its place. -/
theorem Placed.insert {order : List ℕ} {v₀ v : List α} {P : Finset ℕ} {i d : ℕ} {temp : α}
    (hperm : order.Perm (List.range order.length)) (hlen : v₀.length = order.length)
    (hp : Placed order v₀ P v) (hi : order[i]? = some d) (htemp : v₀[i]? = some temp) : Placed order v₀ (insert d P) (v.set d temp) := by
  have hlt : d < v.length := by
    rw [hp.length_eq, hlen]
    exact lt_of_getElem? hperm hi
  refine ⟨?_, by rw [List.length_set, hp.length_eq], fun i' j hj hmem => ?_, fun j hj => ?_⟩
  · exact Finset.insert_subset (Finset.mem_range.mpr (lt_of_getElem? hperm hi)) hp.subset
  · cases eq_or_ne d j with
    | inl heq =>
      subst heq
      rw [List.getElem?_set_self hlt, getElem?_inj hperm hj hi, htemp]
    | inr hne =>
      rw [List.getElem?_set_ne hne]
      exact hp.moved i' j hj ((Finset.mem_insert.mp hmem).resolve_left hne.symm)
  · have hne : d ≠ j := fun heq => hj (heq ▸ Finset.mem_insert_self d P)
    rw [List.getElem?_set_ne hne]
    exact hp.kept j fun hmem => hj (Finset.mem_insert_of_mem hmem)

/-- Before the position `s`: the cycles of the positions before `s` have been
placed. -/
structure Before (order : List ℕ) (v₀ : List α) (P : Finset ℕ) (s : ℕ) (st : State α) : Prop where
  placed : Placed order v₀ P st.v
  closed : ∀ i j : ℕ, order[i]? = some j → j ∈ P → i ∈ P
  below : ∀ i < s, i < order.length → i ∈ P
  led : ∀ i ∈ P, ∃ j < s, Leads order i j
  marks : ∀ i : ℕ, s ≤ i → st.order[i]? = (order[i]?).map fun d => if i ∈ P then none else some d
  length_order : st.order.length = order.length
  remaining : st.remaining = order.length - 1 - P.card

/-- On the cycle of `s`, with the value for the position `d` in hand. -/
structure Following (order : List ℕ) (v₀ : List α) (P : Finset ℕ) (s : ℕ) (st : State α) (temp : α) (d : ℕ) :
    Prop where
  placed : Placed order v₀ P st.v
  fresh : s ∉ P
  closed : ∀ i j : ℕ, order[i]? = some j → j ∈ P → i ∈ P ∨ i = s
  below : ∀ i < s, i ∈ P
  led : ∀ i : ℕ, i ∈ P ∨ i = s → (∃ j < s, Leads order i j) ∨ Leads order i d
  marks : ∀ i : ℕ, s < i → st.order[i]? = (order[i]?).map fun d => if i ∈ P then none else some d
  length_order : st.order.length = order.length
  remaining : st.remaining = order.length - 2 - P.card
  hand : ∃ i : ℕ, (i ∈ P ∨ i = s) ∧ order[i]? = some d ∧ v₀[i]? = some temp
  unplaced : d ∉ P

theorem Before.start (order : List ℕ) (v₀ : List α) : Before order v₀ ∅ 0 ⟨order.map some, v₀, order.length - 1⟩ := by
  refine ⟨⟨by simp, rfl, by simp, fun _ _ => rfl⟩, by simp, by simp, by simp, fun i _ => ?_, List.length_map _, by simp⟩
  rw [List.getElem?_map]
  rfl

section
variable {order : List ℕ} {v₀ : List α} (hperm : order.Perm (List.range order.length))
  (hlen : v₀.length = order.length) {s d : ℕ}

include hperm hlen in
/-- One step along the cycle. -/
theorem Following.step {P : Finset ℕ} {st : State α} {temp : α} (h : Following order v₀ P s st temp d) (hd : d ≠ s) :
    ∃ (value : α) (d2 : ℕ), st.v[d]? = some value ∧ st.order[d]? = some (some d2) ∧
      Following order v₀ (insert d P) s ⟨st.order.set d none, st.v.set d temp, st.remaining - 1⟩ value d2 := by
  obtain ⟨i, hi, hid, htemp⟩ := h.hand
  have hlt : d < order.length := lt_of_getElem? hperm hid
  have hsd : s < d := by
    refine lt_of_le_of_ne (Nat.le_of_not_lt fun hds => h.unplaced (h.below d hds)) hd.symm
  obtain ⟨d2, hd2⟩ : ∃ d2, order[d]? = some d2 := ⟨_, List.getElem?_eq_getElem hlt⟩
  obtain ⟨value, hvalue⟩ : ∃ value, v₀[d]? = some value := ⟨_, List.getElem?_eq_getElem (hlen ▸ hlt)⟩
  refine ⟨value, d2, by rw [h.placed.kept d h.unplaced, hvalue], ?_, ?_⟩
  · rw [h.marks d hsd, hd2, Option.map_some, if_neg h.unplaced]
  · refine ⟨h.placed.insert hperm hlen hid htemp, ?_, ?_, ?_, ?_, ?_, ?_, ?_, ?_, ?_⟩
    · simp [h.fresh, hd.symm]
    · intro i' j hj hmem
      cases Finset.mem_insert.mp hmem with
      | inl heq =>
        subst heq
        rw [getElem?_inj hperm hj hid, Finset.mem_insert]
        exact hi.imp_left .inr
      | inr hmem => exact (h.closed i' j hj hmem).imp_left (Finset.mem_insert_of_mem ·)
    · exact fun i hi => Finset.mem_insert_of_mem (h.below i hi)
    · intro i hi
      cases eq_or_ne i d with
      | inl heq => exact .inr (heq ▸ .single hd2)
      | inr hne =>
        have hold : i ∈ P ∨ i = s := hi.imp_left (Finset.mem_of_mem_insert_of_ne · hne)
        exact (h.led i hold).imp_right (.tail · hd2)
    · intro i hi
      dsimp only
      cases eq_or_ne d i with
      | inl heq =>
        subst heq
        rw [List.getElem?_set_self (h.length_order ▸ hlt), hd2, Option.map_some, if_pos (Finset.mem_insert_self d P)]
      | inr hne =>
        rw [List.getElem?_set_ne hne, h.marks i hi]
        simp [hne.symm]
    · rw [List.length_set, h.length_order]
    · dsimp only
      rw [h.remaining, Finset.card_insert_of_notMem h.unplaced, Nat.cast_succ]
      ring
    · exact ⟨d, .inl (Finset.mem_insert_self d P), hd2, hvalue⟩
    · intro hmem
      cases Finset.mem_insert.mp hmem with
      | inl heq =>
        -- the position before `d` would be `d` itself
        have hsame : i = d := getElem?_inj hperm hid (heq ▸ hd2)
        subst hsame
        exact hi.elim h.unplaced hd
      | inr hmem => exact (h.closed d d2 hd2 hmem).elim h.unplaced hd

include hperm hlen in
/-- The cycle comes back to `s`. -/
theorem follow_eq {P : Finset ℕ} {st : State α} {temp : α} {fuel : ℕ} (h : Following order v₀ P s st temp d)
    (hs : s < order.length) (hfuel : order.length ≤ fuel + P.card) :
    ∃ st' temp' P', follow s fuel st temp d = some (st', temp') ∧ Following order v₀ P' s st' temp' s := by
  induction fuel generalizing P st temp d with
  | zero =>
    have hcard : P.card < order.length := by
      have hssub : P ⊂ Finset.range order.length :=
        ⟨h.placed.subset, fun hsub => h.fresh (hsub (Finset.mem_range.mpr hs))⟩
      simpa using Finset.card_lt_card hssub
    omega
  | succ fuel ih =>
    cases eq_or_ne d s with
    | inl heq =>
      subst heq
      exact ⟨st, temp, P, by rw [follow, if_pos rfl], h⟩
    | inr hne =>
      obtain ⟨value, d2, hvalue, hd2, hnext⟩ := h.step hperm hlen hne
      obtain ⟨st', temp', P', hfollow, hend⟩ := ih hnext (by
        rw [Finset.card_insert_of_notMem h.unplaced]
        omega)
      refine ⟨st', temp', P', ?_, hend⟩
      rw [follow, if_neg hne, hvalue, hd2]
      exact hfollow

include hperm hlen in
theorem Before.place {P : Finset ℕ} {st : State α} (h : Before order v₀ P s st) (hs : s < order.length) :
    ∃ st' P', place st s = some st' ∧ Before order v₀ P' (s + 1) st' := by
  obtain ⟨d, hd⟩ : ∃ d, order[s]? = some d := ⟨_, List.getElem?_eq_getElem hs⟩
  have hmark := h.marks s le_rfl
  rw [hd, Option.map_some] at hmark
  cases Decidable.em (s ∈ P) with
  | inl hmem =>
    rw [if_pos hmem] at hmark
    refine ⟨st, P, by rw [Reorder.place, hmark]; rfl, { h with below := ?_, led := ?_, marks := ?_ }⟩
    · intro i hi hlt
      exact (Nat.lt_succ_iff_lt_or_eq.mp hi).elim (h.below i · hlt) fun heq => heq ▸ hmem
    · intro i hi
      obtain ⟨j, hj, hleads⟩ := h.led i hi
      exact ⟨j, hj.trans (Nat.lt_succ_self s), hleads⟩
    · exact fun i hi => h.marks i (Nat.le_of_succ_le hi)
  | inr hfresh =>
    rw [if_neg hfresh] at hmark
    obtain ⟨temp, htemp⟩ : ∃ temp, v₀[s]? = some temp := ⟨_, List.getElem?_eq_getElem (hlen ▸ hs)⟩
    have hfollowing : Following order v₀ P s { st with remaining := st.remaining - 1 } temp d := by
      refine ⟨h.placed, hfresh, fun i j hj hmem => .inl (h.closed i j hj hmem), fun i hi => h.below i hi (hi.trans hs),
        fun i hi => ?_, fun i hi => h.marks i hi.le, h.length_order, ?_, ⟨s, .inr rfl, hd, htemp⟩,
        fun hmem => hfresh (h.closed s d hd hmem)⟩
      · cases hi with
        | inl hmem => exact .inl (h.led i hmem)
        | inr heq => exact .inr (heq ▸ .single hd)
      · rw [h.remaining]
        ring
    obtain ⟨st', temp', P', hfollow, hend⟩ := follow_eq hperm hlen hfollowing hs (Nat.le_add_right _ _)
    obtain ⟨i, hi, his, htemp'⟩ := hend.hand
    refine ⟨{ st' with v := st'.v.set s temp' }, insert s P', ?_, ?_⟩
    · have hv : st.v[s]? = some temp := (h.placed.kept s hfresh).trans htemp
      rw [Reorder.place, hmark, h.length_order]
      simp only [Option.bind_some, hv, hfollow, Option.map_some]
    · refine ⟨hend.placed.insert hperm hlen his htemp', ?_, ?_, ?_, ?_, hend.length_order, ?_⟩
      · intro i' j hj hmem
        cases Finset.mem_insert.mp hmem with
        | inl heq =>
          subst heq
          rw [getElem?_inj hperm hj his, Finset.mem_insert]
          exact hi.symm
        | inr hmem =>
          rw [Finset.mem_insert]
          exact (hend.closed i' j hj hmem).symm
      · intro i hi _
        rw [Finset.mem_insert]
        exact (Nat.lt_succ_iff_lt_or_eq.mp hi).symm.imp_right (hend.below i)
      · intro i hi
        have hled := hend.led i ((Finset.mem_insert.mp hi).symm)
        cases hled with
        | inl hbefore =>
          obtain ⟨j, hj, hleads⟩ := hbefore
          exact ⟨j, hj.trans (Nat.lt_succ_self s), hleads⟩
        | inr hleads => exact ⟨s, Nat.lt_succ_self s, hleads⟩
      · intro i hi
        have hne : i ≠ s := (Nat.lt_of_succ_le hi).ne'
        rw [hend.marks i (Nat.lt_of_succ_le hi)]
        simp [hne]
      · rw [hend.remaining, Finset.card_insert_of_notMem hend.unplaced, Nat.cast_succ]
        ring

include hperm hlen in
/-- The loop ends when at most one position is not placed. -/
theorem placeFrom_eq {P : Finset ℕ} {st : State α} {fuel : ℕ} (h : Before order v₀ P s st)
    (hfuel : s + fuel = order.length) :
    ∃ st' P' s', placeFrom fuel s st = some st' ∧ Before order v₀ P' s' st' ∧ order.length ≤ P'.card + 1 := by
  have hdone (hle : ¬0 < st.remaining) : order.length ≤ P.card + 1 := by
    have hremaining := h.remaining
    omega
  induction fuel generalizing P s st with
  | zero =>
    have hsub : Finset.range order.length ⊆ P := fun i hi => by
      have hlt := Finset.mem_range.mp hi
      exact h.below i (by omega) hlt
    have hcard := Finset.card_le_card hsub
    rw [Finset.card_range] at hcard
    have hle : ¬0 < st.remaining := by
      have hremaining := h.remaining
      omega
    exact ⟨st, P, s, by rw [placeFrom, if_neg hle], h, hdone hle⟩
  | succ fuel ih =>
    cases Decidable.em (0 < st.remaining) with
    | inl hpos =>
      obtain ⟨st', P', hplace, hnext⟩ := h.place hperm hlen (by omega)
      obtain ⟨st'', P'', s'', hloop, hend, hcard⟩ := ih hnext (by omega) fun hle => by
        have hremaining := hnext.remaining
        omega
      exact ⟨st'', P'', s'', by rw [placeFrom, if_pos hpos, hplace]; exact hloop, hend, hcard⟩
    | inr hle => exact ⟨st, P, s, by rw [placeFrom, if_neg hle], h, hdone hle⟩

include hperm hlen in
/-- Every value comes to the position that the order gives it. -/
theorem reorderDestructive_eq : ∃ v, reorderDestructive order v₀ = some v ∧ v.length = v₀.length ∧
    ∀ i j : ℕ, order[i]? = some j → v[j]? = v₀[i]? := by
  obtain ⟨st, P, s, hloop, hend, hcard⟩ := placeFrom_eq hperm hlen (Before.start order v₀) (Nat.zero_add _)
  refine ⟨st.v, by rw [reorderDestructive, hloop]; rfl, hend.placed.length_eq, fun i j hj => ?_⟩
  cases Decidable.em (j ∈ P) with
  | inl hmem => exact hend.placed.moved i j hj hmem
  | inr hnot =>
    have hone (k : ℕ) (hk : k < order.length) (hkP : k ∉ P) : k = j := by
      by_contra hne
      have hsub : insert k (insert j P) ⊆ Finset.range order.length :=
        Finset.insert_subset (Finset.mem_range.mpr hk)
          (Finset.insert_subset (Finset.mem_range.mpr (lt_of_getElem? hperm hj)) hend.placed.subset)
      have hle := Finset.card_le_card hsub
      rw [Finset.card_insert_of_notMem (by simp [hne, hkP]), Finset.card_insert_of_notMem hnot, Finset.card_range] at hle
      omega
    -- the last position left is its own place
    obtain ⟨k, hk⟩ : ∃ k, order[j]? = some k := ⟨_, List.getElem?_eq_getElem (lt_of_getElem? hperm hj)⟩
    have hkj : k = j := hone k (lt_of_getElem? hperm hk) fun hmem => hnot (hend.closed j k hk hmem)
    rw [hkj] at hk
    rw [getElem?_inj hperm hj hk]
    exact hend.placed.kept j hnot

end

end Reorder
