import Flecsi.Lib.Runs
import Flecsi.Execution.RemapShared

/-!
# Renumbering all index spaces

Every rank goes through the index spaces on its own. All messages carry the same tag, so two
ranks match theirs in the order they are sent.
-/

namespace Flecsi.Execution

open Coloring
open Relation (ReflTransGen)

-- ---------------------------------------------------------------------------
-- Steps
-- ---------------------------------------------------------------------------

/-- The ranks in the loop over the index spaces. `channel q p` holds the messages from `q` to
`p` that are not received. -/
structure RemapState (n : ℕ) where
  space : Fin n → ℕ
  waiting : Fin n → Bool
  channel : Fin n → Fin n → List (List ℕ)
  coloring : Fin n → ℕ → IndexColoring

def RemapState.start (coloring : ℕ → Fin n → IndexColoring) : RemapState n :=
  ⟨fun _ => 0, fun _ => false, fun _ _ => [], fun p k => coloring k p⟩

/-- The coloring of the index space a rank is at. -/
def RemapState.current (s : RemapState n) (p : Fin n) : IndexColoring := s.coloring p (s.space p)

def RemapState.setCurrent (s : RemapState n) (p : Fin n) (c : IndexColoring) : Fin n → ℕ → IndexColoring :=
  Function.update s.coloring p (Function.update (s.coloring p) (s.space p) c)

def sends (c : IndexColoring) (peer : ℕ) : List (List ℕ) :=
  if sendBuffer c peer = [] then [] else [sendBuffer c peer]

/-- A receive into a buffer of `count` values, which must not be shorter than the message. -/
def receive (count : ℕ) : List (List ℕ) → Option (List ℕ × List (List ℕ))
  | messages =>
    if count = 0 then some ([], messages)
    else match messages with
      | [] => none
      | buf :: messages =>
        if count < buf.length then none else some (buf ++ List.replicate (count - buf.length) 0, messages)

section
variable (spaces : ℕ) (s : RemapState n) (p : Fin n)

/-- A pass of the loop up to `MPI_Waitall`. The assertions exclude messages of a rank to
itself. -/
def RemapState.send : Option (RemapState n) :=
  let c := s.current p
  if s.space p < spaces ∧ s.waiting p = false ∧ ghostCount c p = 0 ∧
      ∀ e ∈ c.shared, ∀ peer ∈ e.shared, peer < n ∧ peer ≠ p then
    some { s with
      waiting := Function.update s.waiting p true
      channel := Function.update s.channel p fun q => s.channel p q ++ sends c q
      coloring := s.setCurrent p { c with shared := newShared c } }
  else none

/-- The rest of the pass, once every receive has its message. A send may complete before its
message is received. -/
def RemapState.complete : Option (RemapState n) :=
  let c := s.current p
  if s.space p < spaces ∧ s.waiting p = true then do
    let recv ← allRanks fun q => receive (ghostCount c q) (s.channel q p)
    let ghost ← newGhost c fun q => (recv q).1
    some
      { space := Function.update s.space p (s.space p + 1)
        waiting := Function.update s.waiting p false
        channel := fun q => Function.update (s.channel q) p (recv q).2
        coloring := s.setCurrent p { c with ghost := ghost } }
  else none

end

def RemapState.Step (spaces : ℕ) (s t : RemapState n) : Prop :=
  ∃ p, s.send spaces p = some t ∨ s.complete spaces p = some t

def RemapState.Final (spaces : ℕ) (s : RemapState n) : Prop := ∀ p, s.space p = spaces

-- ---------------------------------------------------------------------------
-- Renumbered lists
-- ---------------------------------------------------------------------------

/-- What the renumbering of an index space is to do. Offsets are stored as `id_t`. -/
structure Remapped (before after : Fin n → IndexColoring) : Prop where
  exclusive : ∀ p, (after p).exclusive = (before p).exclusive
  shared : ∀ p, (after p).shared.map (fun e => (e.id, e.rank, e.shared)) =
    (before p).shared.map fun e => (e.id, e.rank, e.shared)
  shared_offset : ∀ p i e, (after p).shared[i]? = some e → e.offset = toIndices i
  ghost : ∀ p, (after p).ghost.map (fun g => (g.id, g.rank)) = (before p).ghost.map fun g => (g.id, g.rank)
  ghost_offset : ∀ p, ∀ g ∈ (after p).ghost, ∃ q : Fin n, g.rank = q ∧
    ∃ i e, (after q).shared[i]? = some e ∧ e.id = g.id ∧ g.offset = toIndices i

theorem Dual.remapped {coloring : Fin n → IndexColoring} (h : Dual coloring) :
    Remapped coloring (renumbered coloring) where
  exclusive p := rfl
  shared p := by simp [renumbered]
  shared_offset p i e he := by
    obtain ⟨e', he', rfl⟩ := Option.map_eq_some_iff.mp (List.getElem?_map ▸ he)
    exact congrArg toIndices (sharedPosition_eq (h.sorted p).1 he')
  ghost p := by simp [renumbered]
  ghost_offset p g hg := by
    obtain ⟨g', hg', rfl⟩ := List.mem_map.mp hg
    obtain ⟨q, -, hr, e, he, hid, -⟩ := h.ghost p g' hg'
    obtain ⟨i, hi⟩ := List.getElem?_of_mem he
    have hq : (⟨g'.rank, hr ▸ q.isLt⟩ : Fin n) = q := Fin.ext hr
    refine ⟨q, hr, i, { e with offset := toIndices (sharedPosition (coloring q) e.id) }, ?_, hid, ?_⟩
    · exact List.getElem?_map.trans (by rw [hi]; rfl)
    · simp only [ghostOffset, dif_pos (hr ▸ q.isLt : g'.rank < n), hq, ← hid,
        sharedPosition_eq (h.sorted q).1 hi]

-- ---------------------------------------------------------------------------
-- Invariant
-- ---------------------------------------------------------------------------

/-- The index spaces whose messages a rank has sent. -/
def RemapState.sent (s : RemapState n) (p : Fin n) : ℕ := s.space p + (s.waiting p).toNat

/-- The coloring a rank holds when it has sent the messages of the index space, and when it has
received them. -/
def remapStage (coloring : Fin n → IndexColoring) (p : Fin n) (sent received : Bool) : IndexColoring where
  exclusive := (coloring p).exclusive
  shared := if sent then (renumbered coloring p).shared else (coloring p).shared
  ghost := if received then (renumbered coloring p).ghost else (coloring p).ghost

/-- The messages of the index spaces from `received` on, up to `sent`. -/
def inFlight (initial : ℕ → Fin n → IndexColoring) (q p : Fin n) (received sent : ℕ) : List (List ℕ) :=
  (List.range' received (sent - received)).flatMap fun k => sends (initial k q) p

structure RemapState.Inv (initial : ℕ → Fin n → IndexColoring) (spaces : ℕ) (s : RemapState n) : Prop where
  bound : ∀ p, s.sent p ≤ spaces
  coloring : ∀ p k, s.coloring p k = remapStage (initial k) p (decide (k < s.sent p)) (decide (k < s.space p))
  channel : ∀ q p, s.channel q p = inFlight initial q p (s.space p) (s.sent q)
  ahead : ∀ q p k, s.sent q ≤ k → k < s.space p → sendBuffer (initial k q) p = []

section
variable {initial : ℕ → Fin n → IndexColoring} {spaces : ℕ} {s t : RemapState n} {p q : Fin n}

theorem RemapState.start_inv : (RemapState.start initial).Inv initial spaces where
  bound p := Nat.zero_le _
  coloring p k := by simp [start, remapStage, sent]
  channel q p := by simp [start, inFlight, sent]
  ahead q p k _ hk := absurd hk (Nat.not_lt_zero k)

theorem sends_nil {c : IndexColoring} {peer : ℕ} (h : sendBuffer c peer = []) : sends c peer = [] := if_pos h

theorem inFlight_concat {k m : ℕ} (h : m ≤ k ∨ sendBuffer (initial k q) p = []) :
    inFlight initial q p m (k + 1) = inFlight initial q p m k ++ sends (initial k q) p := by
  unfold inFlight
  by_cases hle : m ≤ k
  · rw [Nat.sub_add_comm hle, List.range'_concat, List.flatMap_append, List.flatMap_singleton, Nat.one_mul,
      Nat.add_sub_cancel' hle]
  · rw [sends_nil (h.resolve_left hle), Nat.sub_eq_zero_of_le (by omega), Nat.sub_eq_zero_of_le (by omega)]
    rfl

theorem inFlight_cons {k m : ℕ} (h : k < m) :
    inFlight initial q p k m = sends (initial k q) p ++ inFlight initial q p (k + 1) m := by
  unfold inFlight
  have hsucc : m - k = (m - (k + 1)) + 1 := by omega
  rw [hsucc, List.range'_succ, List.flatMap_cons]

theorem inFlight_of_le {k m : ℕ} (h : m ≤ k) : inFlight initial q p k m = [] := by
  rw [inFlight, Nat.sub_eq_zero_of_le h]
  rfl

/-- A receive at index space `k` gets the message of that index space. -/
theorem receive_inFlight {k m : ℕ} (hm : m ≤ k → sendBuffer (initial k q) p = []) :
    receive (sendBuffer (initial k q) p).length (inFlight initial q p k m) =
      some (sendBuffer (initial k q) p, inFlight initial q p (k + 1) m) := by
  cases hb : sendBuffer (initial k q) p with
  | nil =>
    by_cases hle : m ≤ k
    · simp [receive, inFlight_of_le hle, inFlight_of_le (Nat.le_succ_of_le hle)]
    · simp [receive, inFlight_cons (not_le.mp hle), sends_nil hb]
  | cons x buf =>
    have hlt : k < m := not_le.mp fun hle => by cases hb.symm.trans (hm hle)
    have hsends : sends (initial k q) p = [x :: buf] := by simp [sends, hb]
    simp [receive, inFlight_cons hlt, hsends]

/-- A receive that has completed had its message. -/
theorem eq_nil_of_receive {k m : ℕ} {r : List ℕ × List (List ℕ)}
    (h : receive (sendBuffer (initial k q) p).length (inFlight initial q p k m) = some r) (hm : m ≤ k) :
    sendBuffer (initial k q) p = [] := by
  by_contra hne
  rw [inFlight_of_le hm, receive, if_neg (mt List.length_eq_zero_iff.mp hne)] at h
  cases h

@[simp] theorem RemapState.setCurrent_apply (s : RemapState n) (p r : Fin n) (c : IndexColoring) (k : ℕ) :
    s.setCurrent p c r k = if r = p ∧ k = s.space p then c else s.coloring r k := by
  unfold setCurrent
  by_cases hr : r = p
  · subst hr
    by_cases hk : k = s.space r
    · simp [hk]
    · simp [hk]
  · simp [hr]

theorem RemapState.sent_send (s : RemapState n) (p r : Fin n) (channel : Fin n → Fin n → List (List ℕ))
    (coloring : Fin n → ℕ → IndexColoring) :
    RemapState.sent ⟨s.space, Function.update s.waiting p true, channel, coloring⟩ r =
      if r = p then s.space p + 1 else s.sent r := by
  unfold sent
  split
  · rename_i hr
    simp [hr]
  · rename_i hr
    simp [hr]

theorem RemapState.sent_complete (s : RemapState n) {p : Fin n} (hp : s.waiting p = true) (r : Fin n)
    (channel : Fin n → Fin n → List (List ℕ)) (coloring : Fin n → ℕ → IndexColoring) :
    RemapState.sent ⟨Function.update s.space p (s.space p + 1), Function.update s.waiting p false, channel,
      coloring⟩ r = s.sent r := by
  unfold sent
  by_cases hr : r = p
  · simp [hr, hp]
  · simp [hr]

-- ---------------------------------------------------------------------------
-- Steps keep the invariant
-- ---------------------------------------------------------------------------

theorem RemapState.Inv.send (h : s.Inv initial spaces) (hdual : ∀ k < spaces, Dual (initial k))
    (hstep : s.send spaces p = some t) : t.Inv initial spaces := by
  unfold RemapState.send at hstep
  simp only [Option.ite_none_right_eq_some, Option.some.injEq] at hstep
  obtain ⟨⟨hspace, hwaiting, -, -⟩, rfl⟩ := hstep
  have hsent : s.sent p = s.space p := by simp [RemapState.sent, hwaiting]
  have hcurrent : s.current p = initial (s.space p) p := by
    rw [RemapState.current, h.coloring, hsent]
    simp [remapStage]
  rw [hcurrent]
  refine ⟨fun r => ?_, fun r k => ?_, fun q r => ?_, fun q r k hq hk => ?_⟩
  · rw [sent_send]
    split
    · exact hspace
    · exact h.bound r
  · rw [sent_send]
    simp only [setCurrent_apply, h.coloring]
    by_cases hr : r = p
    · subst hr
      by_cases hk : k = s.space r
      · subst hk
        simp [remapStage, (hdual _ hspace).newShared_eq]
      · rw [if_neg fun hand => hk hand.2, hsent]
        have hiff : k < s.space r ↔ k < s.space r + 1 := by omega
        simp only [if_true, ← hiff]
    · rw [if_neg fun hand => hr hand.1, if_neg hr]
  · rw [sent_send]
    by_cases hq : q = p
    · subst hq
      have hnext := inFlight_concat (q := q) (p := r) (k := s.space q) (m := s.space r)
        (or_iff_not_imp_left.mpr fun hle => h.ahead q r _ hsent.le (not_le.mp hle))
      simp only [Function.update_self, if_true, hnext, h.channel, hsent]
    · simp only [Function.update_of_ne hq, if_neg hq, h.channel]
  · rw [sent_send] at hq
    refine h.ahead q r k (le_trans ?_ hq) hk
    split
    · rename_i hqp
      rw [hqp, hsent]
      exact Nat.le_succ _
    · exact le_rfl

theorem RemapState.Inv.complete (h : s.Inv initial spaces) (hdual : ∀ k < spaces, Dual (initial k))
    (hstep : s.complete spaces p = some t) : t.Inv initial spaces := by
  unfold RemapState.complete at hstep
  simp only [Option.ite_none_right_eq_some] at hstep
  obtain ⟨⟨hspace, hwaiting⟩, hstep⟩ := hstep
  obtain ⟨recv, hrecv, hstep⟩ := Option.bind_eq_some_iff.mp hstep
  obtain ⟨ghost, hghost, hstep⟩ := Option.bind_eq_some_iff.mp hstep
  cases hstep
  have hd := hdual _ hspace
  have hsent : s.sent p = s.space p + 1 := by simp [RemapState.sent, hwaiting]
  have hcurrent : s.current p = remapStage (initial (s.space p)) p true false := by
    rw [RemapState.current, h.coloring, hsent]
    simp
  rw [hcurrent] at hrecv hghost ⊢
  have hreceive (q : Fin n) : receive (sendBuffer (initial (s.space p) q) p).length
      (inFlight initial q p (s.space p) (s.sent q)) = some (recv q) := by
    rw [hd.length_sendBuffer, ← h.channel]
    exact allRanks_eq_some.mp hrecv q
  have hbuf (q : Fin n) : recv q =
      (sendBuffer (initial (s.space p) q) p, inFlight initial q p (s.space p + 1) (s.sent q)) :=
    Option.some.inj ((hreceive q).symm.trans (receive_inFlight (eq_nil_of_receive (hreceive q))))
  have hnew : ghost = (renumbered (initial (s.space p)) p).ghost := by
    have heq : (fun q => (recv q).1) = fun q => sendBuffer (initial (s.space p) q) p :=
      funext fun q => congrArg Prod.fst (hbuf q)
    rw [heq] at hghost
    exact Option.some.inj (hghost.symm.trans (hd.newGhost_eq p))
  refine ⟨fun r => ?_, fun r k => ?_, fun q r => ?_, fun q r k hq hk => ?_⟩
  · rw [sent_complete s hwaiting]
    exact h.bound r
  · rw [sent_complete s hwaiting]
    simp only [RemapState.setCurrent_apply]
    by_cases hr : r = p
    · subst hr
      by_cases hk : k = s.space r
      · subst hk
        simp [remapStage, hnew, hsent]
      · rw [if_neg fun hand => hk hand.2, h.coloring]
        have hiff : k < s.space r ↔ k < s.space r + 1 := by omega
        simp [hiff]
    · rw [if_neg fun hand => hr hand.1, h.coloring]
      simp [hr]
  · rw [sent_complete s hwaiting]
    by_cases hr : r = p
    · subst hr
      simp [hbuf]
    · simp [hr, h.channel]
  · rw [sent_complete s hwaiting] at hq
    by_cases hr : r = p
    · subst hr
      simp only [Function.update_self] at hk
      obtain hlt | rfl := Nat.lt_succ_iff_lt_or_eq.mp hk
      · exact h.ahead q r k hq hlt
      · exact eq_nil_of_receive (hreceive q) hq
    · simp only [Function.update_of_ne hr] at hk
      exact h.ahead q r k hq hk

theorem RemapState.Inv.step (h : s.Inv initial spaces) (hdual : ∀ k < spaces, Dual (initial k))
    (hstep : RemapState.Step spaces s t) : t.Inv initial spaces := by
  obtain ⟨p, hsend | hcomplete⟩ := hstep
  · exact h.send hdual hsend
  · exact h.complete hdual hcomplete

-- ---------------------------------------------------------------------------
-- Progress
-- ---------------------------------------------------------------------------

theorem RemapState.Inv.can_send (h : s.Inv initial spaces) (hdual : ∀ k < spaces, Dual (initial k))
    (hspace : s.space p < spaces) (hwaiting : s.waiting p = false) : ∃ t, s.send spaces p = some t := by
  have hd := hdual _ hspace
  have hcurrent : s.current p = initial (s.space p) p := by
    rw [RemapState.current, h.coloring]
    simp [remapStage, RemapState.sent, hwaiting]
  have hself : ghostCount (initial (s.space p) p) p = 0 := by
    rw [← hd.length_sendBuffer, hd.sendBuffer_self]
    rfl
  have hpeers : ∀ e ∈ (initial (s.space p) p).shared, ∀ peer ∈ e.shared, peer < n ∧ peer ≠ p := by
    intro e he peer hpeer
    obtain ⟨q, rfl, hq, -⟩ := hd.users p e he peer hpeer
    exact ⟨q.isLt, fun heq => hq (Fin.ext heq)⟩
  unfold RemapState.send
  simp only [hcurrent]
  rw [if_pos ⟨hspace, hwaiting, hself, hpeers⟩]
  exact ⟨_, rfl⟩

/-- A rank waits only for ranks that have not come to its index space yet. -/
theorem RemapState.Inv.can_complete (h : s.Inv initial spaces) (hdual : ∀ k < spaces, Dual (initial k))
    (hspace : s.space p < spaces) (hwaiting : s.waiting p = true) (hsent : ∀ q, s.space p < s.sent q) :
    ∃ t, s.complete spaces p = some t := by
  have hd := hdual _ hspace
  have hcurrent : s.current p = remapStage (initial (s.space p)) p true false := by
    rw [RemapState.current, h.coloring]
    simp [RemapState.sent, hwaiting]
  have hrecv : allRanks (fun q : Fin n =>
      receive (ghostCount (remapStage (initial (s.space p)) p true false) q) (s.channel q p)) =
      some fun q => (sendBuffer (initial (s.space p) q) p, inFlight initial q p (s.space p + 1) (s.sent q)) := by
    refine allRanks_eq_some.mpr fun q => ?_
    have hcount : ghostCount (remapStage (initial (s.space p)) p true false) q =
        (sendBuffer (initial (s.space p) q) p).length := (hd.length_sendBuffer p q).symm
    rw [hcount, h.channel]
    exact receive_inFlight fun hle => absurd (hsent q) (not_lt.mpr hle)
  have hghost : newGhost (remapStage (initial (s.space p)) p true false)
      (fun q => sendBuffer (initial (s.space p) q) p) = some (renumbered (initial (s.space p)) p).ghost :=
    hd.newGhost_eq p
  unfold RemapState.complete
  simp only [hcurrent, hrecv, Option.bind_eq_bind, Option.bind_some, hghost]
  rw [if_pos ⟨hspace, hwaiting⟩]
  exact ⟨_, rfl⟩

theorem RemapState.Inv.progress (h : s.Inv initial spaces) (hdual : ∀ k < spaces, Dual (initial k))
    (hfinal : ¬s.Final spaces) : ∃ t, RemapState.Step spaces s t := by
  have hle (p : Fin n) : s.space p ≤ spaces := (Nat.le_add_right _ _).trans (h.bound p)
  unfold RemapState.Final at hfinal
  push Not at hfinal
  obtain ⟨p, hp⟩ := hfinal
  obtain ⟨p, hp, hmin⟩ := Finset.exists_min_image {q : Fin n | s.space q < spaces} s.space
    ⟨p, by simpa using lt_of_le_of_ne (hle p) hp⟩
  have hspace : s.space p < spaces := by simpa using hp
  by_cases hready : ∃ q, s.space q < spaces ∧ s.waiting q = false
  · obtain ⟨q, hq, hwaiting⟩ := hready
    obtain ⟨t, ht⟩ := h.can_send hdual hq hwaiting
    exact ⟨t, q, .inl ht⟩
  · push Not at hready
    have hall (q : Fin n) (hq : s.space q < spaces) : s.waiting q = true := by
      simpa using hready q hq
    have hsent (q : Fin n) : s.space p < s.sent q := by
      obtain hq | hq := (hle q).lt_or_eq
      · have := hmin q (by simpa using hq)
        simp only [RemapState.sent, hall q hq, Bool.toNat_true]
        omega
      · exact (hq ▸ hspace).trans_le (Nat.le_add_right _ _)
    obtain ⟨t, ht⟩ := h.can_complete hdual hspace (hall p hspace) hsent
    exact ⟨t, p, .inr ht⟩

end

/-- The steps left to the ranks. -/
def RemapState.weight (spaces : ℕ) (s : RemapState n) : ℕ :=
  ∑ p, (2 * (spaces - s.space p) - (s.waiting p).toNat)

section
variable {initial : ℕ → Fin n → IndexColoring} {spaces : ℕ} {s t : RemapState n}

theorem RemapState.Step.weight_lt (h : RemapState.Step spaces s t) : t.weight spaces < s.weight spaces := by
  obtain ⟨p, h | h⟩ := h
  · unfold RemapState.send at h
    simp only [Option.ite_none_right_eq_some, Option.some.injEq] at h
    obtain ⟨⟨hspace, hwaiting, -, -⟩, rfl⟩ := h
    refine Finset.sum_lt_sum (fun q _ => ?_) ⟨p, Finset.mem_univ p, ?_⟩
    · obtain rfl | hq := eq_or_ne q p
      · simp [hwaiting]
      · simp [hq]
    · simp only [Function.update_self, hwaiting, Bool.toNat_true, Bool.toNat_false]
      omega
  · unfold RemapState.complete at h
    simp only [Option.ite_none_right_eq_some] at h
    obtain ⟨⟨hspace, hwaiting⟩, h⟩ := h
    obtain ⟨recv, -, h⟩ := Option.bind_eq_some_iff.mp h
    obtain ⟨ghost, -, h⟩ := Option.bind_eq_some_iff.mp h
    cases h
    have hlt : 2 * (spaces - (s.space p + 1)) < 2 * (spaces - s.space p) - 1 := by omega
    refine Finset.sum_lt_sum (fun q _ => ?_) ⟨p, Finset.mem_univ p, ?_⟩
    · obtain rfl | hq := eq_or_ne q p
      · simpa [hwaiting] using hlt.le
      · simp [hq]
    · simpa [hwaiting] using hlt

theorem RemapState.Inv.remapped (h : s.Inv initial spaces) (hfinal : s.Final spaces) {k : ℕ} (hk : k < spaces)
    (hd : Dual (initial k)) : Remapped (initial k) fun p => s.coloring p k := by
  have heq : (fun p => s.coloring p k) = renumbered (initial k) := by
    funext p
    have hsent : k < s.sent p := by
      rw [RemapState.sent, hfinal p]
      exact hk.trans_le (Nat.le_add_right _ _)
    rw [h.coloring, decide_eq_true hsent, hfinal p, decide_eq_true hk]
    rfl
  exact heq ▸ hd.remapped

end

/-- On any number of ranks, every run over all index spaces ends, and then the offsets of all
index spaces are positions in the shared lists. -/
theorem remap_all_spaces (spaces : ℕ) (initial : ℕ → Fin n → IndexColoring) (h : ∀ k < spaces, Dual (initial k)) :
    (∃ s, ReflTransGen (RemapState.Step spaces) (.start initial) s ∧ s.Final spaces) ∧
    (∀ s, ReflTransGen (RemapState.Step spaces) (.start initial) s →
      (s.Final spaces → ∀ k < spaces, Remapped (initial k) fun p => s.coloring p k) ∧
      (¬s.Final spaces → ∃ t, RemapState.Step spaces s t)) ∧
    ∀ run : ℕ → RemapState n, ¬∀ i, RemapState.Step spaces (run i) (run (i + 1)) := by
  have hstep : ∀ s t, s.Inv initial spaces → RemapState.Step spaces s t → t.Inv initial spaces :=
    fun _ _ hs ht => hs.step h ht
  refine ⟨?_, fun s hs => ?_, Runs.terminates fun _ _ hs => hs.weight_lt⟩
  · exact Runs.exists_final hstep (fun _ _ hs => hs.weight_lt) (fun _ hs hfinal => hs.progress h hfinal)
      RemapState.start_inv
  · have hinv := Runs.invariant hstep RemapState.start_inv hs
    exact ⟨fun hfinal k hk => hinv.remapped hfinal hk (h k hk), hinv.progress h⟩

/-- Four cells in a row, two for each rank, as `get_owner_info` colors them: a ghost carries the
rank that holds it. -/
def cellColoring : Fin 2 → IndexColoring
  | 0 => ⟨[⟨0, 0, 0, ∅⟩], [⟨1, 0, 1, {1}⟩], [⟨2, 1, 0, {0}⟩]⟩
  | 1 => ⟨[⟨3, 1, 1, ∅⟩], [⟨2, 1, 0, {0}⟩], [⟨1, 0, 1, {1}⟩]⟩

theorem cellColoring_dual : Dual cellColoring where
  wide := by decide
  sorted := by decide
  ghost := by decide
  users := by decide

theorem remap_all_spaces_cells :
    ∃ s, ReflTransGen (RemapState.Step 2) (.start fun _ => cellColoring) s ∧
      ∀ k < 2, Remapped cellColoring fun p => s.coloring p k := by
  obtain ⟨⟨s, hs, hfinal⟩, hall, -⟩ := remap_all_spaces 2 (fun _ => cellColoring) fun _ _ => cellColoring_dual
  exact ⟨s, hs, (hall s hs).1 hfinal⟩

/-- The shared set of the ghost of rank 1 is not kept. -/
theorem ghost_shared_changed : Dual cellColoring ∧
    ∃ s, ReflTransGen (RemapState.Step 1) (.start fun _ => cellColoring) s ∧ s.Final 1 ∧
      (cellColoring 1).ghost.map (·.shared) = [{1}] ∧ (s.coloring 1 0).ghost.map (·.shared) = [{0}] := by
  have hdual : ∀ k < 1, Dual ((fun _ => cellColoring) k) := fun _ _ => cellColoring_dual
  have hstep : ∀ s t : RemapState 2, s.Inv (fun _ => cellColoring) 1 → RemapState.Step 1 s t →
      t.Inv (fun _ => cellColoring) 1 := fun _ _ hs ht => hs.step hdual ht
  obtain ⟨s, hs, hfinal⟩ := Runs.exists_final hstep (fun _ _ hs => hs.weight_lt)
    (fun _ hs hfinal => hs.progress hdual hfinal) RemapState.start_inv
  refine ⟨cellColoring_dual, s, hs, hfinal, rfl, ?_⟩
  have hinv := Runs.invariant hstep RemapState.start_inv hs
  rw [hinv.coloring, hfinal 1]
  rfl

end Flecsi.Execution
