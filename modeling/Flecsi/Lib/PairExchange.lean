import Flecsi.Lib.Runs

/-!
# One message from each party to each

Every party posts a receive for each party that announced elements, sends its nonempty messages
in order, waits for its receives and is done. A send waits for the receive it is for unless the
message is buffered; which messages are, and when, is left open.
-/

namespace PairExchange

open Relation (ReflTransGen)

variable {n : ℕ} {α : Type*}

inductive Phase (n : ℕ)
  | start
  | sending (pending : List (Fin n))
  | done

/-- Messages by sender and receiver. -/
structure Exchange (n : ℕ) (α : Type*) where
  message : Fin n → Fin n → List α
  announced : Fin n → Fin n → ℕ

structure State (n : ℕ) (α : Type*) where
  phase : Fin n → Phase n
  flight : Fin n × Fin n → Option (List α)
  received : Fin n × Fin n → Option (List α)

def State.initial : State n α := ⟨fun _ => .start, fun _ => none, fun _ => none⟩

def State.Final (s : State n α) : Prop := ∀ p, s.phase p = .done

def Phase.rest (receivers : List (Fin n)) : Phase n → List (Fin n)
  | .start => receivers
  | .sending pending => pending
  | .done => []

def Phase.weight (receivers : List (Fin n)) : Phase n → ℕ
  | .start => 2 + 2 * receivers.length
  | .sending pending => 1 + 2 * pending.length
  | .done => 0

namespace Exchange

variable (x : Exchange n α)

def receivers (p : Fin n) : List (Fin n) := (List.finRange n).filter fun r => x.message p r ≠ []

@[simp] theorem mem_receivers {x : Exchange n α} : r ∈ x.receivers p ↔ x.message p r ≠ [] := by
  simp [receivers]

/-- A receive that is posted and has no message yet. -/
def Posted (s : State n α) (p r : Fin n) : Prop :=
  s.phase r ≠ .start ∧ x.announced p r ≠ 0 ∧ s.received (p, r) = none

section
variable [Inhabited α] (buffered : State n α → Fin n → Fin n → Prop)

/-- What a party does next. A message shorter than its receive leaves the rest of the buffer as
it was resized; a longer one is an error. -/
inductive Step : State n α → State n α → Prop
  | post {s p} (hp : s.phase p = .start) :
      Step s { s with phase := Function.update s.phase p (.sending (x.receivers p)) }
  | send {s p r pending} (hp : s.phase p = .sending (r :: pending))
      (hready : buffered s p r ∨ x.Posted s p r) :
      Step s { s with
        phase := Function.update s.phase p (.sending pending)
        flight := Function.update s.flight (p, r) (some (x.message p r)) }
  | receive {s p r m} (hm : s.flight (p, r) = some m) (hposted : x.Posted s p r)
      (hlen : m.length ≤ x.announced p r) :
      Step s { s with
        flight := Function.update s.flight (p, r) none
        received := Function.update s.received (p, r)
          (some (m ++ List.replicate (x.announced p r - m.length) default)) }
  | finish {s p} (hp : s.phase p = .sending [])
      (hall : ∀ q, x.announced q p ≠ 0 → s.received (q, p) ≠ none) :
      Step s { s with phase := Function.update s.phase p .done }

end

-- ---------------------------------------------------------------------------
-- Invariant
-- ---------------------------------------------------------------------------

/-- Where a message is. -/
inductive Place (p r : Fin n) (unsent : Prop) (phase : Phase n)
    (flight received : Option (List α)) : Prop
  | absent (hm : x.message p r = []) (hu : ¬unsent) (hf : flight = none) (hr : received = none)
  | waits (hm : x.message p r ≠ []) (hu : unsent) (hf : flight = none) (hr : received = none)
      (hphase : phase ≠ .done)
  | travels (hm : x.message p r ≠ []) (hu : ¬unsent) (hf : flight = some (x.message p r))
      (hr : received = none) (hphase : phase ≠ .done)
  | arrived (hm : x.message p r ≠ []) (hu : ¬unsent) (hf : flight = none)
      (hr : received = some (x.message p r)) (hphase : phase ≠ .start)

structure Inv (s : State n α) : Prop where
  nodup : ∀ p, ((s.phase p).rest (x.receivers p)).Nodup
  place : ∀ p r, x.Place p r (r ∈ (s.phase p).rest (x.receivers p)) (s.phase r)
    (s.flight (p, r)) (s.received (p, r))

variable {x}

theorem Place.mono (h : x.Place p r unsent phase flight received) (hu : unsent' ↔ unsent)
    (hstart : phase ≠ .start → phase' ≠ .start) (hdone : phase ≠ .done → phase' ≠ .done) :
    x.Place p r unsent' phase' flight received := by
  cases h with
  | absent hm hn hf hr => exact .absent hm (mt hu.mp hn) hf hr
  | waits hm hn hf hr hp => exact .waits hm (hu.mpr hn) hf hr (hdone hp)
  | travels hm hn hf hr hp => exact .travels hm (mt hu.mp hn) hf hr (hdone hp)
  | arrived hm hn hf hr hp => exact .arrived hm (mt hu.mp hn) hf hr (hstart hp)

theorem inv_initial : x.Inv .initial where
  nodup _ := (List.nodup_finRange n).filter _
  place p r := by
    by_cases hm : x.message p r = []
    · exact .absent hm (fun h => mem_receivers.mp h hm) rfl rfl
    · exact .waits hm (mem_receivers.mpr hm) rfl rfl nofun

/-- A party goes on to a phase in which it has the same messages to send. -/
theorem Inv.update_phase (h : x.Inv s) (hrest : phase.rest (x.receivers p) =
    (s.phase p).rest (x.receivers p)) (hstart : phase ≠ .start)
    (hdone : phase = .done → ∀ q, x.message q p ≠ [] → s.received (q, p) ≠ none) :
    x.Inv { s with phase := Function.update s.phase p phase } := by
  have hsame : ∀ q, (Function.update s.phase p phase q).rest (x.receivers q) =
      (s.phase q).rest (x.receivers q) := by
    intro q
    by_cases hq : q = p
    · subst hq
      simpa using hrest
    · simp [hq]
  constructor
  · intro q
    rw [hsame]
    exact h.nodup q
  · intro q r
    have hplace := h.place q r
    simp only [hsame]
    by_cases hr : r = p
    · subst hr
      simp only [Function.update_self]
      cases hplace with
      | absent hm hu hf hr => exact .absent hm hu hf hr
      | waits hm hu hf hr => exact .waits hm hu hf hr fun hp => hdone hp q hm hr
      | travels hm hu hf hr => exact .travels hm hu hf hr fun hp => hdone hp q hm hr
      | arrived hm hu hf hr => exact .arrived hm hu hf hr hstart
    · simpa [hr] using hplace

theorem Inv.send (h : x.Inv s) (hp : s.phase p = .sending (r :: pending)) :
    x.Inv { s with
      phase := Function.update s.phase p (.sending pending)
      flight := Function.update s.flight (p, r) (some (x.message p r)) } := by
  obtain ⟨hr, hnodup⟩ : r ∉ pending ∧ pending.Nodup := by
    have hall := h.nodup p
    rw [hp] at hall
    exact List.nodup_cons.mp hall
  have hphase : ∀ q, (s.phase q ≠ .start → Function.update s.phase p (.sending pending) q ≠ .start) ∧
      (s.phase q ≠ .done → Function.update s.phase p (.sending pending) q ≠ .done) := by
    intro q
    by_cases hq : q = p
    · subst hq
      simp
    · simp [hq]
  constructor
  · intro q
    by_cases hq : q = p
    · subst hq
      simpa [Phase.rest] using hnodup
    · simpa [hq] using h.nodup q
  · intro q r'
    have hplace := h.place q r'
    by_cases hq : q = p
    · subst hq
      simp only [hp] at hplace
      by_cases hr' : r' = r
      · subst hr'
        cases hplace with
        | absent hm hu => exact absurd (List.mem_cons_self ..) hu
        | waits hm hu hf hr' hdone =>
          refine .travels hm ?_ (by simp) hr' ((hphase r').2 hdone)
          simpa [Phase.rest] using hr
        | travels hm hu => exact absurd (List.mem_cons_self ..) hu
        | arrived hm hu => exact absurd (List.mem_cons_self ..) hu
      · have hstill : r' ∈ pending ↔ r' ∈ (Phase.sending (r :: pending)).rest (x.receivers q) := by
          simp [Phase.rest, hr']
        have hmono := hplace.mono hstill (hphase r').1 (hphase r').2
        simpa [hr', Phase.rest] using hmono
    · have hmono := hplace.mono Iff.rfl (hphase r').1 (hphase r').2
      simpa [hq] using hmono

theorem Inv.receive (h : x.Inv s) (hm : s.flight (p, r) = some m) (hstart : s.phase r ≠ .start) :
    m = x.message p r ∧ x.Inv { s with
      flight := Function.update s.flight (p, r) none
      received := Function.update s.received (p, r) (some (x.message p r)) } := by
  cases h.place p r with
  | absent hm' hu hf => exact absurd (hm.symm.trans hf) nofun
  | waits hm' hu hf => exact absurd (hm.symm.trans hf) nofun
  | arrived hm' hu hf => exact absurd (hm.symm.trans hf) nofun
  | travels hm' hu hf hr hdone =>
    refine ⟨Option.some.inj (hm.symm.trans hf), h.nodup, ?_⟩
    intro q r'
    by_cases hq : (q, r') = (p, r)
    · obtain ⟨rfl, rfl⟩ := Prod.mk.inj hq
      exact .arrived hm' hu (by simp) (by simp) hstart
    · simpa [Function.update_of_ne hq] using h.place q r'

/-- A message that is taken has the announced length. -/
theorem length_flight (hann : ∀ p r, x.announced p r = (x.message p r).length) (h : x.Inv s)
    (hm : s.flight (p, r) = some m) : m.length = x.announced p r := by
  cases h.place p r with
  | absent _ _ hf => exact absurd (hm.symm.trans hf) nofun
  | waits _ _ hf => exact absurd (hm.symm.trans hf) nofun
  | arrived _ _ hf => exact absurd (hm.symm.trans hf) nofun
  | travels _ _ hf =>
    obtain rfl := Option.some.inj (hm.symm.trans hf)
    exact (hann p r).symm

theorem Inv.posted (hann : ∀ p r, x.announced p r = (x.message p r).length)
    (hr : s.phase r ≠ .start) (hm : x.message p r ≠ []) (hrec : s.received (p, r) = none) :
    x.Posted s p r :=
  ⟨hr, by rw [hann]; exact mt List.length_eq_zero_iff.mp hm, hrec⟩

/-- When all parties are done, every nonempty message is received, and no other. -/
theorem Inv.final (h : x.Inv s) (hfinal : s.Final) (p r : Fin n) : s.flight (p, r) = none ∧
    s.received (p, r) = if x.message p r = [] then none else some (x.message p r) := by
  cases h.place p r with
  | absent hm _ hf hr => simp [hm, hf, hr]
  | waits _ _ _ _ hp => exact absurd (hfinal r) hp
  | travels _ _ _ _ hp => exact absurd (hfinal r) hp
  | arrived hm _ hf hr => simp [hm, hf, hr]

-- ---------------------------------------------------------------------------
-- Steps that are left
-- ---------------------------------------------------------------------------

theorem sum_update {ι : Type*} [Fintype ι] [DecidableEq ι] {β : ι → Type*} (g : ∀ i, β i → ℕ)
    (f : ∀ i, β i) (i : ι) (b : β i) :
    ∑ j, g j (Function.update f i b j) + g i (f i) = ∑ j, g j (f j) + g i b := by
  have hrest : ∑ j ∈ Finset.univ.erase i, g j (Function.update f i b j) =
      ∑ j ∈ Finset.univ.erase i, g j (f j) := by
    refine Finset.sum_congr rfl fun j hj => ?_
    rw [Function.update_of_ne (Finset.ne_of_mem_erase hj)]
  have hleft := Finset.add_sum_erase Finset.univ (fun j => g j (Function.update f i b j)) (Finset.mem_univ i)
  have hright := Finset.add_sum_erase Finset.univ (fun j => g j (f j)) (Finset.mem_univ i)
  simp only [Function.update_self] at hleft
  omega

def phases (x : Exchange n α) (phase : Fin n → Phase n) : ℕ :=
  ∑ p, (phase p).weight (x.receivers p)

def flights (flight : Fin n × Fin n → Option (List α)) : ℕ := ∑ l, (flight l).toList.length

def weight (x : Exchange n α) (s : State n α) : ℕ := phases x s.phase + flights s.flight

theorem phases_update (x : Exchange n α) (phase : Fin n → Phase n) (p : Fin n) (a : Phase n) :
    phases x (Function.update phase p a) + (phase p).weight (x.receivers p) =
      phases x phase + a.weight (x.receivers p) :=
  sum_update (fun q (a : Phase n) => a.weight (x.receivers q)) phase p a

theorem flights_update (flight : Fin n × Fin n → Option (List α)) (l : Fin n × Fin n)
    (m : Option (List α)) :
    flights (Function.update flight l m) + (flight l).toList.length =
      flights flight + m.toList.length :=
  sum_update (fun _ (a : Option (List α)) => a.toList.length) flight l m

section
variable [Inhabited α] {buffered : State n α → Fin n → Fin n → Prop}

theorem inv_step (hann : ∀ p r, x.announced p r = (x.message p r).length)
    (h : x.Inv s) (hs : x.Step buffered s t) : x.Inv t := by
  cases hs with
  | post hp => exact h.update_phase (by rw [hp]; rfl) nofun nofun
  | send hp => exact h.send hp
  | receive hm hposted =>
    obtain ⟨rfl, hinv⟩ := h.receive hm hposted.1
    simpa [hann] using hinv
  | finish hp hall =>
    refine h.update_phase (by rw [hp]; rfl) nofun fun _ q hq => hall q ?_
    rw [hann]
    exact mt List.length_eq_zero_iff.mp hq

-- ---------------------------------------------------------------------------
-- Runs
-- ---------------------------------------------------------------------------

theorem inv_reachable (hann : ∀ p r, x.announced p r = (x.message p r).length)
    (h : ReflTransGen (x.Step buffered) .initial s) : x.Inv s :=
  Runs.invariant (fun _ _ => inv_step hann) inv_initial h

/-- Some party can go on, also when no message is buffered. -/
theorem progress (hann : ∀ p r, x.announced p r = (x.message p r).length) (h : x.Inv s)
    (hfinal : ¬s.Final) : ∃ t, x.Step buffered s t := by
  by_cases hstart : ∃ p, s.phase p = .start
  · obtain ⟨p, hp⟩ := hstart
    exact ⟨_, .post hp⟩
  replace hstart : ∀ p, s.phase p ≠ .start := fun p hp => hstart ⟨p, hp⟩
  by_cases hsend : ∃ p r pending, s.phase p = .sending (r :: pending)
  · obtain ⟨p, r, pending, hp⟩ := hsend
    have hu : r ∈ (s.phase p).rest (x.receivers p) := by
      rw [hp]
      exact List.mem_cons_self ..
    cases h.place p r with
    | absent _ hn => exact absurd hu hn
    | travels _ hn => exact absurd hu hn
    | arrived _ hn => exact absurd hu hn
    | waits hm _ _ hrec => exact ⟨_, .send hp (.inr (Inv.posted hann (hstart r) hm hrec))⟩
  -- everything is sent
  have hrest : ∀ p, (s.phase p).rest (x.receivers p) = [] := by
    intro p
    cases hp : s.phase p with
    | start => exact absurd hp (hstart p)
    | done => rfl
    | sending pending =>
      cases pending with
      | nil => rfl
      | cons r pending => exact absurd ⟨p, r, pending, hp⟩ hsend
  by_cases hflight : ∃ p r, s.flight (p, r) ≠ none
  · obtain ⟨p, r, hf⟩ := hflight
    cases h.place p r with
    | absent _ _ hn => exact absurd hn hf
    | waits _ _ hn => exact absurd hn hf
    | arrived _ _ hn => exact absurd hn hf
    | travels hm _ hf hrec =>
      exact ⟨_, .receive hf (Inv.posted hann (hstart r) hm hrec) (hann p r).ge⟩
  · obtain ⟨p, hp⟩ := not_forall.mp hfinal
    have hnil : s.phase p = .sending [] := by
      have := hrest p
      cases hq : s.phase p with
      | start => exact absurd hq (hstart p)
      | done => exact absurd hq hp
      | sending pending =>
        rw [hq] at this
        exact congrArg Phase.sending this
    refine ⟨_, .finish hnil fun q hq hrec => ?_⟩
    cases h.place q p with
    | absent hm => exact hq (by rw [hann, hm]; rfl)
    | waits _ hu => exact absurd (hrest q ▸ hu) List.not_mem_nil
    | travels _ _ hf => exact hflight ⟨q, p, by simp [hf]⟩
    | arrived _ _ _ hr => exact absurd (hr.symm.trans hrec) nofun

theorem weight_step (hs : x.Step buffered s t) : weight x t < weight x s := by
  cases hs with
  | @post p hp =>
    have hphases := phases_update x s.phase p (.sending (x.receivers p))
    simp only [hp, Phase.weight] at hphases
    simp only [weight]
    omega
  | @send p r pending hp =>
    have hphases := phases_update x s.phase p (.sending pending)
    have hflights := flights_update s.flight (p, r) (some (x.message p r))
    simp only [hp, Phase.weight, List.length_cons] at hphases
    simp only [Option.toList_some, List.length_singleton] at hflights
    simp only [weight]
    omega
  | @receive p r m hm =>
    have hflights := flights_update s.flight (p, r) none
    simp only [hm, Option.toList_some, List.length_singleton, Option.toList_none,
      List.length_nil] at hflights
    simp only [weight]
    omega
  | @finish p hp =>
    have hphases := phases_update x s.phase p .done
    simp only [hp, Phase.weight, List.length_nil] at hphases
    simp only [weight]
    omega

end

end Exchange

end PairExchange
