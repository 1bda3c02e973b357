import Flecsi.Lib.Reorder

/-!
# Reordering with the order kept

`reorder` follows the cycles that `reorder_destructive` follows. It marks
nothing: from every position it walks along the cycle to see whether an earlier
position lies on it.
-/

namespace Flecsi.Utils

open Reorder (Leads Before place placeFrom follow placeFrom_eq reorderDestructive)

variable {α : Type*}

/-- The order, the values and the count of `reorder`. -/
structure Arrays (α : Type*) where
  order : List ℕ
  v : List α
  remaining : ℤ

/-- The walk from `d` to a position that is not behind `s`. -/
def lead (order : List ℕ) (s : ℕ) : ℕ → ℕ → Option ℕ
  | 0, _ => none
  | fuel + 1, d => if s < d then order[d]?.bind (lead order s fuel) else some d

/-- The rotation of the cycle of `s`, from the position `d` with a value in hand. -/
def rotate (s : ℕ) : ℕ → Arrays α → α → ℕ → Option (Arrays α × α)
  | 0, _, _, _ => none
  | fuel + 1, st, temp, d =>
    st.order[d]?.bind fun d =>
    if d = s then some (st, temp)
    else
      st.v[d]?.bind fun value =>
      rotate s fuel { st with v := st.v.set d temp, remaining := st.remaining - 1 } value d

/-- The body of the outer loop. -/
def reorderAt (st : Arrays α) (s : ℕ) : Option (Arrays α) :=
  st.order[s]?.bind fun d =>
  (lead st.order s st.order.length d).bind fun d =>
  if d = s then
    st.v[s]?.bind fun temp =>
    (rotate s st.order.length { st with remaining := st.remaining - 1 } temp d).map fun (st, temp) =>
    { st with v := st.v.set s temp }
  else some st

def reorderFrom : ℕ → ℕ → Arrays α → Option (Arrays α)
  | 0, _, st => if 0 < st.remaining then none else some st
  | fuel + 1, s, st => if 0 < st.remaining then (reorderAt st s).bind (reorderFrom fuel (s + 1)) else some st

def reorder (order : List ℕ) (v : List α) : Option (List ℕ × List α) :=
  (reorderFrom order.length 0 ⟨order, v, order.length - 1⟩).map fun st => (st.order, st.v)

-- ---------------------------------------------------------------------------
-- The first position of a cycle
-- ---------------------------------------------------------------------------

/-- The walk from `s` has passed the positions in `Q` and is at `d`. -/
structure Leading (order : List ℕ) (s : ℕ) (Q : Finset ℕ) (d : ℕ) : Prop where
  subset : Q ⊆ Finset.range order.length
  behind : ∀ i ∈ Q, s < i
  closed : ∀ i j : ℕ, order[i]? = some j → j ∈ Q → i ∈ Q ∨ i = s
  passed : ∀ i j : ℕ, i ∈ Q ∨ i = s → order[i]? = some j → j ∈ Q ∨ j = d
  hand : ∃ i : ℕ, (i ∈ Q ∨ i = s) ∧ order[i]? = some d
  unseen : d ∉ Q
  leads : Leads order s d

section
variable {order : List ℕ} (hperm : order.Perm (List.range order.length)) {s d : ℕ} {Q : Finset ℕ}

theorem Leading.start (hd : order[s]? = some d) : Leading order s ∅ d where
  subset := Finset.empty_subset _
  behind := by simp
  closed := by simp
  passed := by
    intro i j hi hj
    obtain rfl : i = s := hi.resolve_left (Finset.notMem_empty i)
    exact .inr (Option.some.inj (hj.symm.trans hd))
  hand := ⟨s, .inr rfl, hd⟩
  unseen := Finset.notMem_empty d
  leads := .single hd

include hperm in
theorem Leading.step (h : Leading order s Q d) (hsd : s < d) :
    ∃ d2, order[d]? = some d2 ∧ Leading order s (insert d Q) d2 := by
  obtain ⟨i, hi, hid⟩ := h.hand
  have hlt : d < order.length := Reorder.lt_of_getElem? hperm hid
  obtain ⟨d2, hd2⟩ : ∃ d2, order[d]? = some d2 := ⟨_, List.getElem?_eq_getElem hlt⟩
  refine ⟨d2, hd2, ?_, ?_, ?_, ?_, ?_, ?_, h.leads.tail hd2⟩
  · exact Finset.insert_subset (Finset.mem_range.mpr hlt) h.subset
  · exact fun j hj => (Finset.mem_insert.mp hj).elim (fun heq => heq ▸ hsd) (h.behind j)
  · intro i' j hj hmem
    cases Finset.mem_insert.mp hmem with
    | inl heq =>
      subst heq
      obtain rfl : i' = i := Reorder.getElem?_inj hperm hj hid
      exact hi.imp_left (Finset.mem_insert_of_mem ·)
    | inr hmem => exact (h.closed i' j hj hmem).imp_left (Finset.mem_insert_of_mem ·)
  · intro i' j hi' hj
    cases eq_or_ne i' d with
    | inl heq =>
      subst heq
      exact .inr (Option.some.inj (hj.symm.trans hd2))
    | inr hne =>
      have hold : i' ∈ Q ∨ i' = s := hi'.imp_left (Finset.mem_of_mem_insert_of_ne · hne)
      exact .inl (Finset.mem_insert.mpr (h.passed i' j hold hj).symm)
  · exact ⟨d, .inl (Finset.mem_insert_self d Q), hd2⟩
  · intro hmem
    cases Finset.mem_insert.mp hmem with
    | inl heq =>
      -- the position before `d` would be `d` itself
      obtain rfl : i = d := Reorder.getElem?_inj hperm hid (heq ▸ hd2)
      exact hi.elim h.unseen hsd.ne'
    | inr hmem => exact (h.closed d d2 hd2 hmem).elim h.unseen hsd.ne'

/-- A walk that comes back to `s` has seen the whole cycle. -/
theorem Leading.le_of_leads (h : Leading order s Q s) {j : ℕ} (hj : Leads order s j) : s ≤ j := by
  have hseen : j ∈ Q ∨ j = s := by
    induction hj with
    | refl => exact .inr rfl
    | tail _ hnext ih => exact h.passed _ _ ih hnext
  exact hseen.elim (fun hmem => (h.behind j hmem).le) fun heq => heq ▸ le_rfl

include hperm in
theorem lead_eq {fuel : ℕ} (h : Leading order s Q d) (hs : s < order.length) (hfuel : order.length ≤ fuel + Q.card) :
    ∃ d' Q', lead order s fuel d = some d' ∧ d' ≤ s ∧ Leading order s Q' d' := by
  induction fuel generalizing Q d with
  | zero =>
    have hcard : Q.card < order.length := by
      have hssub : Q ⊂ Finset.range order.length :=
        ⟨h.subset, fun hsub => (h.behind s (hsub (Finset.mem_range.mpr hs))).ne rfl⟩
      simpa using Finset.card_lt_card hssub
    omega
  | succ fuel ih =>
    cases Nat.lt_or_ge s d with
    | inl hsd =>
      obtain ⟨d2, hd2, hnext⟩ := h.step hperm hsd
      obtain ⟨d', Q', hlead, hend⟩ := ih hnext (by
        rw [Finset.card_insert_of_notMem h.unseen]
        omega)
      refine ⟨d', Q', ?_, hend⟩
      rw [lead, if_pos hsd, hd2]
      exact hlead
    | inr hle => exact ⟨d, Q, by rw [lead, if_neg hle.not_gt], hle, h⟩

include hperm in
/-- The walk from `s` comes back to `s` when no earlier position lies on its
cycle. -/
theorem lead_eq_self {v₀ : List α} {P : Finset ℕ} {st : Reorder.State α} (h : Before order v₀ P s st)
    (hs : s < order.length) (hd : order[s]? = some d) :
    ∃ d', lead order s order.length d = some d' ∧ (d' = s ↔ s ∉ P) := by
  obtain ⟨d', Q, hlead, hle, hend⟩ := lead_eq hperm (Leading.start hd) hs (Nat.le_add_right _ _)
  refine ⟨d', hlead, ?_, ?_⟩
  · rintro rfl hmem
    obtain ⟨j, hj, hleads⟩ := h.led d' hmem
    exact hj.not_ge (hend.le_of_leads hleads)
  · intro hfresh
    apply le_antisymm hle
    by_contra hlt
    have hplaced : d' ∈ P := h.below d' (Nat.lt_of_not_le hlt) (hle.trans_lt hs)
    -- the placed positions are closed under going back along the order
    have hback : s ∈ P := by
      refine hend.leads.head_induction_on hplaced ?_
      exact fun hnext _ ih => h.closed _ _ hnext ih
    exact hfresh hback

end

-- ---------------------------------------------------------------------------
-- The two loops side by side
-- ---------------------------------------------------------------------------

/-- What is not marked is as it was. -/
def Unchanged (order : List ℕ) (marked : List (Option ℕ)) : Prop :=
  ∀ i d : ℕ, marked[i]? = some (some d) → order[i]? = some d

theorem Unchanged.mark {order : List ℕ} {marked : List (Option ℕ)} (h : Unchanged order marked) (d : ℕ) :
    Unchanged order (marked.set d none) := by
  intro i d2 hi
  cases eq_or_ne d i with
  | inl heq => simp [heq, List.getElem?_set] at hi
  | inr hne => exact h i d2 (by rwa [List.getElem?_set_ne hne] at hi)

/-- The arrays of `reorder` where `reorder_destructive` has the state `st`. -/
def kept (order : List ℕ) (st : Reorder.State α) : Arrays α := ⟨order, st.v, st.remaining⟩

@[simp] theorem remaining_kept (order : List ℕ) (st : Reorder.State α) : (kept order st).remaining = st.remaining := rfl

theorem rotate_of_follow {order : List ℕ} {s fuel p d : ℕ} {st st' : Reorder.State α} {temp temp' : α}
    (hold : Unchanged order st.order) (hp : order[p]? = some d) (h : follow s fuel st temp d = some (st', temp')) :
    rotate s fuel (kept order st) temp p = some (kept order st', temp') ∧ Unchanged order st'.order := by
  induction fuel generalizing st temp p d with
  | zero => simp [follow] at h
  | succ fuel ih =>
    rw [follow] at h
    simp only [rotate, kept, hp, Option.bind_some]
    cases eq_or_ne d s with
    | inl heq =>
      rw [if_pos heq, Option.some.injEq, Prod.mk.injEq] at h
      obtain ⟨rfl, rfl⟩ := h
      rw [if_pos heq]
      exact ⟨rfl, hold⟩
    | inr hne =>
      rw [if_neg hne] at h
      obtain ⟨value, hvalue, h⟩ := Option.bind_eq_some_iff.mp h
      obtain ⟨d2, hd2, h⟩ := Option.bind_eq_some_iff.mp h
      obtain ⟨hrotate, hold'⟩ := ih (hold.mark d) (hold d d2 (Option.join_eq_some_iff.mp hd2)) h
      rw [if_neg hne, hvalue, Option.bind_some]
      exact ⟨hrotate, hold'⟩

section
variable {order : List ℕ} {v₀ : List α} (hperm : order.Perm (List.range order.length))
  (hlen : v₀.length = order.length) {s : ℕ}

include hperm in
theorem reorderAt_of_place {P : Finset ℕ} {st st' : Reorder.State α} (h : Before order v₀ P s st)
    (hs : s < order.length) (hold : Unchanged order st.order) (hplace : place st s = some st') :
    reorderAt (kept order st) s = some (kept order st') ∧ Unchanged order st'.order := by
  obtain ⟨d, hd⟩ : ∃ d, order[s]? = some d := ⟨_, List.getElem?_eq_getElem hs⟩
  obtain ⟨d', hlead, hself⟩ := lead_eq_self hperm h hs hd
  have hmark := h.marks s le_rfl
  rw [hd, Option.map_some] at hmark
  simp only [reorderAt, kept, hd, Option.bind_some, hlead]
  rw [place] at hplace
  cases Decidable.em (s ∈ P) with
  | inl hmem =>
    rw [if_neg (hself.not.mpr (not_not.mpr hmem))]
    simp only [hmark, if_pos hmem, Option.bind_some, Option.some.injEq] at hplace
    subst hplace
    exact ⟨rfl, hold⟩
  | inr hfresh =>
    obtain rfl := hself.mpr hfresh
    rw [if_pos rfl]
    simp only [hmark, if_neg hfresh, Option.bind_some] at hplace
    obtain ⟨temp, htemp, hplace⟩ := Option.bind_eq_some_iff.mp hplace
    obtain ⟨⟨st1, temp1⟩, hfollow, rfl⟩ := Option.map_eq_some_iff.mp hplace
    rw [h.length_order] at hfollow
    have hst : Unchanged order { st with remaining := st.remaining - 1 }.order := hold
    obtain ⟨hrotate, hold'⟩ := rotate_of_follow hst hd hfollow
    simp only [kept] at hrotate
    simp only [htemp, Option.bind_some, hrotate, Option.map_some]
    exact ⟨trivial, hold'⟩

include hperm hlen in
theorem reorderFrom_of_placeFrom {P : Finset ℕ} {st st' : Reorder.State α} {fuel : ℕ} (h : Before order v₀ P s st)
    (hfuel : s + fuel = order.length) (hold : Unchanged order st.order) (hloop : placeFrom fuel s st = some st') :
    reorderFrom fuel s (kept order st) = some (kept order st') := by
  induction fuel generalizing P s st with
  | zero =>
    rw [placeFrom, Option.ite_none_left_eq_some] at hloop
    obtain ⟨hle, rfl⟩ := And.imp_right Option.some.inj hloop
    exact if_neg hle
  | succ fuel ih =>
    rw [placeFrom] at hloop
    rw [reorderFrom, remaining_kept]
    cases Decidable.em (0 < st.remaining) with
    | inl hpos =>
      rw [if_pos hpos] at hloop
      rw [if_pos hpos]
      obtain ⟨st1, P1, hplace, hnext⟩ := h.place hperm hlen (by omega)
      rw [hplace, Option.bind_some] at hloop
      obtain ⟨hat, hold'⟩ := reorderAt_of_place hperm h (by omega) hold hplace
      rw [hat, Option.bind_some]
      exact ih hnext (by omega) hold' hloop
    | inr hle =>
      rw [if_neg hle, Option.some.injEq] at hloop
      rw [if_neg hle, hloop]

end

variable {order : List ℕ} {v : List α}

/-- Every value comes to the position that the order gives it, in both
versions. -/
theorem reorder_eq (hperm : order.Perm (List.range order.length)) (hlen : v.length = order.length) :
    ∃ v', reorder order v = some (order, v') ∧ reorderDestructive order v = some v' ∧ v'.length = v.length ∧
      ∀ i j : ℕ, order[i]? = some j → v'[j]? = v[i]? := by
  obtain ⟨v', hdestructive, hlength, hmoved⟩ := Reorder.reorderDestructive_eq hperm hlen
  obtain ⟨st, hloop, rfl⟩ := Option.map_eq_some_iff.mp hdestructive
  refine ⟨st.v, ?_, hdestructive, hlength, hmoved⟩
  have hunmarked : Unchanged order (order.map some) := by
    intro i d hi
    rw [List.getElem?_map] at hi
    obtain ⟨d', hd', heq⟩ := Option.map_eq_some_iff.mp hi
    exact hd'.trans heq
  have hkept := reorderFrom_of_placeFrom hperm hlen (Before.start order v) (Nat.zero_add _) hunmarked hloop
  simp only [kept] at hkept
  rw [reorder, hkept]
  rfl

theorem reorder_eq_cycle : ∃ v', reorder [2, 0, 1] ["a", "b", "c"] = some ([2, 0, 1], v') ∧
    reorderDestructive [2, 0, 1] ["a", "b", "c"] = some v' ∧ v'.length = 3 ∧
      ∀ i j : ℕ, [2, 0, 1][i]? = some j → v'[j]? = ["a", "b", "c"][i]? :=
  reorder_eq (by decide) rfl

end Flecsi.Utils
