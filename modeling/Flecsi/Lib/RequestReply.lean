import Flecsi.Lib.PairExchange

/-!
# Requests and replies between parties

Every party posts a receive for each party that announced a request, sends its nonempty requests
in order and waits for the requests to it. Then it posts a receive for each party it asked, sends
its replies in order and waits for the replies to it. Nothing tells a request from a reply but
their order: what one party sends another is received as sent, by the receives as posted. A send
waits for its receive unless it is buffered; which sends are, and when, is left open.
-/

namespace RequestReply

open Relation (ReflTransGen)

variable {n : ℕ} {α : Type*}

inductive Phase (n : ℕ)
  | start
  | asking (pending : List (Fin n))
  | replying (pending : List (Fin n))
  | done

/-- Requests by sender and receiver, and a party's replies to the requests it has. -/
structure Protocol (n : ℕ) (α : Type*) where
  request : Fin n → Fin n → List α
  announced : Fin n → Fin n → ℕ
  reply : Fin n → (Fin n → List α) → Fin n → List α

structure State (n : ℕ) (α : Type*) where
  phase : Fin n → Phase n
  flight : Fin n × Fin n → List (List α)
  requests : Fin n × Fin n → Option (List α)
  replies : Fin n × Fin n → Option (List α)

def State.initial : State n α := ⟨fun _ => .start, fun _ => [], fun _ => none, fun _ => none⟩

def State.Final (s : State n α) : Prop := ∀ p, s.phase p = .done

@[simp] def Phase.level : Phase n → ℕ
  | .start => 0
  | .asking _ => 1
  | .replying _ => 2
  | .done => 3

/-- The steps a phase leaves, with a receive for each send. -/
def Phase.weight (asked askers : ℕ) : Phase n → ℕ
  | .start => 3 + 2 * asked + 2 * askers
  | .asking pending => 2 + 2 * pending.length + 2 * askers
  | .replying pending => 1 + 2 * pending.length
  | .done => 0

namespace Protocol

variable (x : Protocol n α)

def asked (p : Fin n) : List (Fin n) := (List.finRange n).filter fun r => x.request p r ≠ []

def askers (p : Fin n) : List (Fin n) := (List.finRange n).filter fun r => x.announced r p ≠ 0

/-- The requests a party has not sent. -/
def asks (p : Fin n) : Phase n → List (Fin n)
  | .start => x.asked p
  | .asking pending => pending
  | _ => []

/-- The replies a party has not sent. -/
def answers (p : Fin n) : Phase n → List (Fin n)
  | .replying pending => pending
  | .done => []
  | _ => x.askers p

def PostedRequest (s : State n α) (p r : Fin n) : Prop :=
  s.phase r ≠ .start ∧ x.announced p r ≠ 0 ∧ s.requests (p, r) = none

def PostedReply (s : State n α) (p r : Fin n) : Prop :=
  2 ≤ (s.phase r).level ∧ x.request r p ≠ [] ∧ s.replies (p, r) = none

section
variable [Inhabited α]

/-- The receive buffers for the requests to a party. -/
def inbox (s : State n α) (r p : Fin n) : List α :=
  (s.requests (p, r)).getD (List.replicate (x.announced p r) default)

/-- A receive buffer with a message in front of what was there. -/
def fill (m : List α) (size : ℕ) : List α := m ++ List.replicate (size - m.length) default

def Ready (buffered : State n α → Fin n → Fin n → Prop) (s : State n α) (p r : Fin n) : Prop :=
  buffered s p r ∨ s.flight (p, r) = [] ∧ (x.PostedRequest s p r ∨ x.PostedReply s p r)

variable (buffered : State n α → Fin n → Fin n → Prop)

/-- What a party does next. A message goes to the receive posted first, a message longer than
its receive is an error. -/
inductive Step : State n α → State n α → Prop
  | post {s p} (hp : s.phase p = .start) :
      Step s { s with phase := Function.update s.phase p (.asking (x.asked p)) }
  | ask {s p r pending} (hp : s.phase p = .asking (r :: pending)) (hready : x.Ready buffered s p r) :
      Step s { s with
        phase := Function.update s.phase p (.asking pending)
        flight := Function.update s.flight (p, r) (s.flight (p, r) ++ [x.request p r]) }
  | turn {s p} (hp : s.phase p = .asking [])
      (hall : ∀ q, x.announced q p ≠ 0 → s.requests (q, p) ≠ none) :
      Step s { s with phase := Function.update s.phase p (.replying (x.askers p)) }
  | answer {s p r pending} (hp : s.phase p = .replying (r :: pending))
      (hready : x.Ready buffered s p r) :
      Step s { s with
        phase := Function.update s.phase p (.replying pending)
        flight := Function.update s.flight (p, r)
          (s.flight (p, r) ++ [x.reply p (x.inbox s p) r]) }
  | receiveRequest {s p r m rest} (hm : s.flight (p, r) = m :: rest)
      (hposted : x.PostedRequest s p r) (hlen : m.length ≤ x.announced p r) :
      Step s { s with
        flight := Function.update s.flight (p, r) rest
        requests := Function.update s.requests (p, r) (some (fill m (x.announced p r))) }
  | receiveReply {s p r m rest} (hm : s.flight (p, r) = m :: rest)
      (hfirst : ¬x.PostedRequest s p r) (hposted : x.PostedReply s p r)
      (hlen : m.length ≤ (x.request r p).length) :
      Step s { s with
        flight := Function.update s.flight (p, r) rest
        replies := Function.update s.replies (p, r) (some (fill m (x.request r p).length)) }
  | finish {s p} (hp : s.phase p = .replying [])
      (hall : ∀ q, x.request p q ≠ [] → s.replies (q, p) ≠ none) :
      Step s { s with phase := Function.update s.phase p .done }

end

/-- The counts of the two ends agree, and a reply is as long as its request. -/
structure Counted : Prop where
  announced : ∀ p r, x.announced p r = (x.request p r).length
  reply : ∀ p inbox r, (x.reply p inbox r).length = (inbox r).length

/-- The reply of `p` to `r` when all requests are there. -/
def answer (p r : Fin n) : List α := x.reply p (fun q => x.request q p) r

variable {x}

@[simp] theorem mem_asked : r ∈ x.asked p ↔ x.request p r ≠ [] := by simp [asked]

theorem Counted.announced_ne (h : x.Counted) : x.announced p r ≠ 0 ↔ x.request p r ≠ [] := by
  rw [h.announced]
  exact not_congr List.length_eq_zero_iff

theorem Counted.mem_askers (h : x.Counted) : r ∈ x.askers p ↔ x.request r p ≠ [] := by
  simpa [askers] using h.announced_ne

theorem Counted.length_answer (h : x.Counted) (p r : Fin n) :
    (x.answer p r).length = (x.request r p).length := h.reply ..

theorem fill_self [Inhabited α] {m : List α} (h : size = m.length) : fill m size = m := by
  simp [fill, h]

-- ---------------------------------------------------------------------------
-- Invariant
-- ---------------------------------------------------------------------------

inductive Stage
  | absent
  | unsent
  | flying
  | arrived

def Stage.flight (m : List α) : Stage → List (List α)
  | .flying => [m]
  | _ => []

def Stage.received (m : List α) : Stage → Option (List α)
  | .arrived => some m
  | _ => none

/-- Where the request and the reply from `p` to `r` are. -/
structure Link (x : Protocol n α) (s : State n α) (p r : Fin n) (a b : Stage) : Prop where
  flight : s.flight (p, r) = a.flight (x.request p r) ++ b.flight (x.answer p r)
  requests : s.requests (p, r) = a.received (x.request p r)
  replies : s.replies (p, r) = b.received (x.answer p r)
  absent : a = .absent ↔ x.request p r = []
  unsent : a = .unsent ↔ r ∈ x.asks p (s.phase p)
  arrived : a = .arrived → 1 ≤ (s.phase r).level
  settled : 2 ≤ (s.phase r).level → a = .absent ∨ a = .arrived
  absent' : b = .absent ↔ x.request r p = []
  unsent' : b = .unsent ↔ r ∈ x.answers p (s.phase p)
  arrived' : b = .arrived → 2 ≤ (s.phase r).level
  settled' : 3 ≤ (s.phase r).level → b = .absent ∨ b = .arrived

structure Inv (x : Protocol n α) (s : State n α) : Prop where
  nodup : ∀ p, (x.asks p (s.phase p)).Nodup
  nodup' : ∀ p, (x.answers p (s.phase p)).Nodup
  link : ∀ p r, ∃ a b, Link x s p r a b

theorem inv_initial (h : x.Counted) : Inv x .initial where
  nodup _ := (List.nodup_finRange n).filter _
  nodup' _ := (List.nodup_finRange n).filter _
  link p r := by
    have hstage : ∀ m : List α, ∃ a : Stage, a.flight m = [] ∧ a.received m = none ∧
        (a = .absent ↔ m = []) ∧ (a = .unsent ↔ m ≠ []) ∧ a ≠ .arrived := by
      intro m
      by_cases hm : m = []
      · exact ⟨.absent, by simp [hm, Stage.flight, Stage.received]⟩
      · exact ⟨.unsent, by simp [hm, Stage.flight, Stage.received]⟩
    obtain ⟨a, hflight, hreceived, habsent, hunsent, harrived⟩ := hstage (x.request p r)
    have hanswer : ∃ b : Stage, b.flight (x.answer p r) = [] ∧ b.received (x.answer p r) = none ∧
        (b = .absent ↔ x.request r p = []) ∧ (b = .unsent ↔ x.request r p ≠ []) ∧ b ≠ .arrived := by
      obtain ⟨b, hb⟩ := hstage (x.answer p r)
      have hnil : x.answer p r = [] ↔ x.request r p = [] := by
        rw [← List.length_eq_zero_iff, h.length_answer, List.length_eq_zero_iff]
      exact ⟨b, by simpa only [ne_eq, hnil] using hb⟩
    obtain ⟨b, hflight', hreceived', habsent', hunsent', harrived'⟩ := hanswer
    refine ⟨a, b, ?_, hreceived.symm, hreceived'.symm, habsent, ?_, fun h => absurd h harrived, ?_,
      habsent', ?_, fun h => absurd h harrived', ?_⟩
    · rw [hflight, hflight']
      rfl
    · exact hunsent.trans mem_asked.symm
    · simp [State.initial]
    · exact hunsent'.trans h.mem_askers.symm
    · simp [State.initial]

/-- A reply is sent after all requests of its sender. -/
theorem Link.order (h : x.Counted) (hl : Link x s p r a b) (ha : a = .unsent) :
    b = .absent ∨ b = .unsent := by
  by_cases hb : b = .absent
  · exact .inl hb
  · refine .inr (hl.unsent'.mpr ?_)
    have hask := hl.unsent.mp ha
    have hmem := h.mem_askers.mpr (mt hl.absent'.mpr hb)
    cases hp : s.phase p with
    | start => exact hmem
    | asking => exact hmem
    | replying => simp [hp, asks] at hask
    | done => simp [hp, asks] at hask

/-- The messages of one link and the phases of others do not matter to it. -/
theorem Link.congr (hl : Link x s p r a b) (hflight : t.flight (p, r) = s.flight (p, r))
    (hrequests : t.requests (p, r) = s.requests (p, r)) (hreplies : t.replies (p, r) = s.replies (p, r))
    (hasks : r ∈ x.asks p (t.phase p) ↔ r ∈ x.asks p (s.phase p))
    (hanswers : r ∈ x.answers p (t.phase p) ↔ r ∈ x.answers p (s.phase p))
    (hlevel : (t.phase r).level = (s.phase r).level) : Link x t p r a b where
  flight := hflight.trans hl.flight
  requests := hrequests.trans hl.requests
  replies := hreplies.trans hl.replies
  absent := hl.absent
  unsent := hl.unsent.trans hasks.symm
  arrived := hlevel ▸ hl.arrived
  settled := hlevel ▸ hl.settled
  absent' := hl.absent'
  unsent' := hl.unsent'.trans hanswers.symm
  arrived' := hlevel ▸ hl.arrived'
  settled' := hlevel ▸ hl.settled'

/-- A party goes on to a phase in which it has the same messages to send. -/
theorem Inv.update_phase (h : Inv x s) (hasks : x.asks p phase = x.asks p (s.phase p))
    (hanswers : x.answers p phase = x.answers p (s.phase p)) (hlevel : (s.phase p).level ≤ phase.level)
    (hsettled : 2 ≤ phase.level → ∀ q a b, Link x s q p a b → a = .absent ∨ a = .arrived)
    (hsettled' : 3 ≤ phase.level → ∀ q a b, Link x s q p a b → b = .absent ∨ b = .arrived) :
    Inv x { s with phase := Function.update s.phase p phase } := by
  have hsame : ∀ q, x.asks q (Function.update s.phase p phase q) = x.asks q (s.phase q) ∧
      x.answers q (Function.update s.phase p phase q) = x.answers q (s.phase q) := by
    intro q
    by_cases hq : q = p
    · subst hq
      simpa using ⟨hasks, hanswers⟩
    · simp [hq]
  constructor
  · intro q
    rw [(hsame q).1]
    exact h.nodup q
  · intro q
    rw [(hsame q).2]
    exact h.nodup' q
  · intro q r
    obtain ⟨a, b, hl⟩ := h.link q r
    refine ⟨a, b, ?_⟩
    by_cases hr : r = p
    · subst hr
      exact {
        flight := hl.flight
        requests := hl.requests
        replies := hl.replies
        absent := hl.absent
        unsent := by
          simp only [(hsame q).1]
          exact hl.unsent
        arrived := fun ha => by simpa using (hl.arrived ha).trans hlevel
        settled := fun hlate => hsettled (by simpa using hlate) q a b hl
        absent' := hl.absent'
        unsent' := by
          simp only [(hsame q).2]
          exact hl.unsent'
        arrived' := fun hb => by simpa using (hl.arrived' hb).trans hlevel
        settled' := fun hlate => hsettled' (by simpa using hlate) q a b hl }
    · exact hl.congr rfl rfl rfl (by simp only [(hsame q).1]) (by simp only [(hsame q).2]) (by simp [hr])

theorem level_update {s : State n α} (h : phase.level = (s.phase p).level) (q : Fin n) :
    (Function.update s.phase p phase q).level = (s.phase q).level := by
  by_cases hq : q = p
  · subst hq
    simpa using h
  · simp [hq]

/-- A party with a message to `r` first in its list sends it. -/
theorem Inv.send (h : Inv x s) {phase : Phase n} (hlevel : phase.level = (s.phase p).level)
    (hasks : (x.asks p phase).Nodup) (hanswers : (x.answers p phase).Nodup)
    (hother : ∀ q, q ≠ r → (q ∈ x.asks p phase ↔ q ∈ x.asks p (s.phase p)) ∧
      (q ∈ x.answers p phase ↔ q ∈ x.answers p (s.phase p)))
    (hlink : ∀ a b, Link x s p r a b → ∃ a b, Link x { s with
      phase := Function.update s.phase p phase
      flight := Function.update s.flight (p, r) (s.flight (p, r) ++ [m]) } p r a b) :
    Inv x { s with
      phase := Function.update s.phase p phase
      flight := Function.update s.flight (p, r) (s.flight (p, r) ++ [m]) } := by
  have hsame := level_update hlevel
  constructor
  · intro q
    by_cases hq : q = p
    · subst hq
      simpa using hasks
    · simpa [hq] using h.nodup q
  · intro q
    by_cases hq : q = p
    · subst hq
      simpa using hanswers
    · simpa [hq] using h.nodup' q
  · intro q q'
    obtain ⟨a, b, hl⟩ := h.link q q'
    by_cases hq : q = p
    · subst hq
      by_cases hr : q' = r
      · subst hr
        exact hlink a b hl
      · exact ⟨a, b, hl.congr (by simp [hr]) rfl rfl (by simpa using (hother q' hr).1)
          (by simpa using (hother q' hr).2) (hsame q')⟩
    · exact ⟨a, b, hl.congr (by simp [hq]) rfl rfl (by simp [hq]) (by simp [hq]) (hsame q')⟩

theorem Inv.ask (h : Inv x s) (hc : x.Counted) (hp : s.phase p = .asking (r :: pending)) :
    Inv x { s with
      phase := Function.update s.phase p (.asking pending)
      flight := Function.update s.flight (p, r) (s.flight (p, r) ++ [x.request p r]) } := by
  obtain ⟨hr, hnodup⟩ : r ∉ pending ∧ pending.Nodup := by
    have hall := h.nodup p
    rw [hp] at hall
    exact List.nodup_cons.mp hall
  refine h.send (by rw [hp]; rfl) hnodup ((List.nodup_finRange n).filter _) (fun q hq => ?_) fun a b hl => ?_
  · rw [hp]
    exact ⟨by simp [asks, hq], Iff.rfl⟩
  · have hlevel : (Phase.asking pending).level = (s.phase p).level := by rw [hp]; rfl
    have hsame := level_update hlevel r
    obtain rfl : a = .unsent := hl.unsent.mpr (by rw [hp]; exact List.mem_cons_self ..)
    have hb := hl.order hc rfl
    have hne : x.request p r ≠ [] := fun hnil => Stage.noConfusion (hl.absent.mpr hnil)
    refine ⟨.flying, b, ?_, hl.requests, hl.replies, by simp [hne], ?_, nofun, ?_, hl.absent', ?_, ?_, ?_⟩
    · have hflight := hl.flight
      rcases hb with rfl | rfl <;> simpa [Stage.flight] using hflight
    · simpa [asks] using hr
    · simp only [hsame]
      exact fun hlate => absurd (hl.settled hlate) (by simp)
    · rw [hl.unsent', hp]
      simp [answers]
    · intro hb'
      rcases hb with rfl | rfl <;> cases hb'
    · simp only [hsame]
      exact hl.settled'

theorem Inv.answer (h : Inv x s) (hp : s.phase p = .replying (r :: pending)) :
    Inv x { s with
      phase := Function.update s.phase p (.replying pending)
      flight := Function.update s.flight (p, r) (s.flight (p, r) ++ [x.answer p r]) } := by
  obtain ⟨hr, hnodup⟩ : r ∉ pending ∧ pending.Nodup := by
    have hall := h.nodup' p
    rw [hp] at hall
    exact List.nodup_cons.mp hall
  refine h.send (by rw [hp]; rfl) List.nodup_nil hnodup (fun q hq => ?_) fun a b hl => ?_
  · rw [hp]
    exact ⟨Iff.rfl, by simp [answers, hq]⟩
  · have hlevel : (Phase.replying pending).level = (s.phase p).level := by rw [hp]; rfl
    have hsame := level_update hlevel r
    obtain rfl : b = .unsent := hl.unsent'.mpr (by rw [hp]; exact List.mem_cons_self ..)
    have hne : x.request r p ≠ [] := fun hnil => Stage.noConfusion (hl.absent'.mpr hnil)
    refine ⟨a, .flying, ?_, hl.requests, hl.replies, hl.absent, ?_, ?_, ?_, by simp [hne], ?_, nofun, ?_⟩
    · simp [hl.flight, Stage.flight]
    · rw [hl.unsent, hp]
      simp [asks]
    · simp only [hsame]
      exact hl.arrived
    · simp only [hsame]
      exact hl.settled
    · simpa [answers] using hr
    · simp only [hsame]
      exact fun hlate => absurd (hl.settled' hlate) (by simp)

-- ---------------------------------------------------------------------------
-- Receives
-- ---------------------------------------------------------------------------

/-- Only the messages of one link change. -/
theorem Inv.update_link (h : Inv x s) (p r : Fin n) (hphase : t.phase = s.phase)
    (hflight : ∀ l, l ≠ (p, r) → t.flight l = s.flight l)
    (hrequests : ∀ l, l ≠ (p, r) → t.requests l = s.requests l)
    (hreplies : ∀ l, l ≠ (p, r) → t.replies l = s.replies l)
    (hlink : ∀ a b, Link x s p r a b → ∃ a b, Link x t p r a b) : Inv x t := by
  refine ⟨fun q => hphase ▸ h.nodup q, fun q => hphase ▸ h.nodup' q, fun q q' => ?_⟩
  obtain ⟨a, b, hl⟩ := h.link q q'
  by_cases hq : (q, q') = (p, r)
  · obtain ⟨rfl, rfl⟩ := Prod.mk.inj hq
    exact hlink a b hl
  · exact ⟨a, b, hl.congr (hflight _ hq) (hrequests _ hq) (hreplies _ hq) (by rw [hphase]) (by rw [hphase])
      (by rw [hphase])⟩

/-- A posted request receive finds the request. -/
theorem Link.flying_of_request (hc : x.Counted) (hl : Link x s p r a b) (hm : s.flight (p, r) = m :: rest)
    (hposted : x.PostedRequest s p r) : a = .flying := by
  cases a with
  | flying => rfl
  | absent => exact absurd (hl.absent.mp rfl) (hc.announced_ne.mp hposted.2.1)
  | arrived => exact absurd (hposted.2.2.symm.trans hl.requests) nofun
  | unsent =>
    have hflight := hl.flight.symm.trans hm
    rcases hl.order hc rfl with rfl | rfl <;> cases hflight

/-- A reply receive that is first in line finds the reply. -/
theorem Link.flying_of_reply (hl : Link x s p r a b) (hm : s.flight (p, r) = m :: rest)
    (hposted : x.PostedReply s p r) : b = .flying ∧ (a = .absent ∨ a = .arrived) := by
  have ha := hl.settled hposted.1
  have hflight := hl.flight.symm.trans hm
  refine ⟨?_, ha⟩
  cases b with
  | flying => rfl
  | absent => exact absurd (hl.absent'.mp rfl) hposted.2.1
  | arrived => exact absurd (hposted.2.2.symm.trans hl.replies) nofun
  | unsent => rcases ha with rfl | rfl <;> cases hflight

theorem Inv.receiveRequest (h : Inv x s) (hc : x.Counted) (hm : s.flight (p, r) = m :: rest)
    (hposted : x.PostedRequest s p r) : m = x.request p r ∧ Inv x { s with
      flight := Function.update s.flight (p, r) rest
      requests := Function.update s.requests (p, r) (some (x.request p r)) } := by
  obtain ⟨a, b, hl⟩ := h.link p r
  obtain rfl := hl.flying_of_request hc hm hposted
  refine ⟨(List.cons.inj (hm.symm.trans hl.flight)).1, h.update_link p r rfl ?_ ?_ (fun _ _ => rfl) ?_⟩
  · exact fun l hl => Function.update_of_ne hl _ _
  · exact fun l hl => Function.update_of_ne hl _ _
  · intro a b hl
    obtain rfl := hl.flying_of_request hc hm hposted
    have hne : x.request p r ≠ [] := hc.announced_ne.mp hposted.2.1
    refine ⟨.arrived, b, ?_, ?_, hl.replies, by simp [hne], ?_, fun _ => ?_, fun _ => .inr rfl, hl.absent',
      hl.unsent', hl.arrived', hl.settled'⟩
    · have htail := (List.cons.inj (hm.symm.trans hl.flight)).2
      simpa [Stage.flight] using htail
    · simp [Stage.received]
    · rw [← hl.unsent]
      simp
    · have hstart := hposted.1
      cases hr : s.phase r with
      | start => exact absurd hr hstart
      | _ => simp

theorem Inv.receiveReply (h : Inv x s) (hm : s.flight (p, r) = m :: rest)
    (hposted : x.PostedReply s p r) : m = x.answer p r ∧ Inv x { s with
      flight := Function.update s.flight (p, r) rest
      replies := Function.update s.replies (p, r) (some (x.answer p r)) } := by
  have hsplit : ∀ a b, Link x s p r a b → b = .flying ∧ (a = .absent ∨ a = .arrived) ∧
      m = x.answer p r ∧ rest = [] := by
    intro a b hl
    obtain ⟨rfl, ha⟩ := hl.flying_of_reply hm hposted
    have hflight := hm.symm.trans hl.flight
    refine ⟨rfl, ha, ?_⟩
    rcases ha with rfl | rfl <;> simpa [Stage.flight] using hflight
  obtain ⟨a, b, hl⟩ := h.link p r
  refine ⟨(hsplit a b hl).2.2.1, h.update_link p r rfl ?_ (fun _ _ => rfl) ?_ ?_⟩
  · exact fun l hl => Function.update_of_ne hl _ _
  · exact fun l hl => Function.update_of_ne hl _ _
  · intro a b hl
    obtain ⟨rfl, ha, -, rfl⟩ := hsplit a b hl
    refine ⟨a, .arrived, ?_, hl.requests, ?_, hl.absent, hl.unsent, hl.arrived, hl.settled,
      by simp [hposted.2.1], ?_, fun _ => hposted.1, fun _ => .inr rfl⟩
    · rcases ha with rfl | rfl <;> simp [Stage.flight]
    · simp [Stage.received]
    · rw [← hl.unsent']
      simp

/-- The requests to a party that has waited for them. -/
theorem Inv.inbox_eq [Inhabited α] (h : Inv x s) (hc : x.Counted) (hlate : 2 ≤ (s.phase p).level) :
    x.inbox s p = fun q => x.request q p := by
  funext q
  obtain ⟨a, b, hl⟩ := h.link q p
  rcases hl.settled hlate with rfl | rfl
  · have hnil := hl.absent.mp rfl
    simp [inbox, hl.requests, Stage.received, hc.announced, hnil]
  · simp [inbox, hl.requests, Stage.received]

/-- When all parties are done, every request and every reply is received, and no more. -/
theorem Inv.final (h : Inv x s) (hfinal : s.Final) (p r : Fin n) : s.flight (p, r) = [] ∧
    s.requests (p, r) = (if x.request p r = [] then none else some (x.request p r)) ∧
    s.replies (p, r) = (if x.request r p = [] then none else some (x.answer p r)) := by
  obtain ⟨a, b, hl⟩ := h.link p r
  have hlevel : (s.phase r).level = 3 := by rw [hfinal r]; rfl
  have hflight := hl.flight
  have hrequests := hl.requests
  have hreplies := hl.replies
  have habsent := hl.absent
  have habsent' := hl.absent'
  rcases hl.settled (by omega) with rfl | rfl <;> rcases hl.settled' (by omega) with rfl | rfl <;>
    simp_all [Stage.flight, Stage.received]

-- ---------------------------------------------------------------------------
-- Runs
-- ---------------------------------------------------------------------------

section
variable [Inhabited α] {buffered : State n α → Fin n → Fin n → Prop}

theorem inv_step (hc : x.Counted) (h : Inv x s) (hs : x.Step buffered s t) : Inv x t := by
  cases hs with
  | post hp =>
    exact h.update_phase (by rw [hp]; rfl) (by rw [hp]; rfl) (by simp [hp]) (fun hlate => absurd hlate (by simp))
      fun hlate => absurd hlate (by simp)
  | ask hp => exact h.ask hc hp
  | @turn p hp hall =>
    refine h.update_phase (by rw [hp]; rfl) (by rw [hp]; rfl) (by simp [hp]) (fun _ q a b hl => ?_)
      (fun hlate => absurd hlate (by simp))
    by_cases hq : x.request q p = []
    · exact .inl (hl.absent.mpr hq)
    · have hgot := hall q (hc.announced_ne.mpr hq)
      cases a with
      | arrived => exact .inr rfl
      | _ => exact absurd hl.requests hgot
  | @answer p r pending hp hready =>
    rw [h.inbox_eq hc (by simp [hp])]
    exact h.answer hp
  | receiveRequest hm hposted =>
    obtain ⟨rfl, hinv⟩ := h.receiveRequest hc hm hposted
    rwa [fill_self (hc.announced _ _)]
  | receiveReply hm hfirst hposted =>
    obtain ⟨rfl, hinv⟩ := h.receiveReply hm hposted
    rwa [fill_self (hc.length_answer _ _).symm]
  | @finish p hp hall =>
    refine h.update_phase (by rw [hp]; rfl) (by rw [hp]; rfl) (by simp [hp]) (fun _ q a b hl => ?_)
      fun _ q a b hl => ?_
    · exact hl.settled (by simp [hp])
    · by_cases hq : x.request p q = []
      · exact .inl (hl.absent'.mpr hq)
      · have hgot := hall q hq
        cases b with
        | arrived => exact .inr rfl
        | _ => exact absurd hl.replies hgot

theorem inv_reachable (hc : x.Counted) (h : ReflTransGen (x.Step buffered) .initial s) : Inv x s :=
  Runs.invariant (fun _ _ => inv_step hc) (inv_initial hc) h

/-- Some party can go on, also when no message is buffered. -/
theorem progress (hc : x.Counted) (h : Inv x s) (hfinal : ¬s.Final) : ∃ t, x.Step buffered s t := by
  by_cases hstart : ∃ p, s.phase p = .start
  · obtain ⟨p, hp⟩ := hstart
    exact ⟨_, .post hp⟩
  replace hstart : ∀ p, s.phase p ≠ .start := fun p hp => hstart ⟨p, hp⟩
  by_cases hask : ∃ p r pending, s.phase p = .asking (r :: pending)
  · obtain ⟨p, r, pending, hp⟩ := hask
    obtain ⟨a, b, hl⟩ := h.link p r
    obtain rfl : a = .unsent := hl.unsent.mpr (by rw [hp]; exact List.mem_cons_self ..)
    have hne : x.request p r ≠ [] := fun hnil => Stage.noConfusion (hl.absent.mpr hnil)
    have hposted : x.PostedRequest s p r := ⟨hstart r, hc.announced_ne.mpr hne, hl.requests⟩
    refine ⟨_, .ask hp (.inr ⟨?_, .inl hposted⟩)⟩
    rw [hl.flight]
    rcases hl.order hc rfl with rfl | rfl <;> rfl
  -- all requests are sent
  have hasks : ∀ p, x.asks p (s.phase p) = [] := by
    intro p
    cases hp : s.phase p with
    | start => exact absurd hp (hstart p)
    | asking pending =>
      cases pending with
      | nil => rfl
      | cons r pending => exact absurd ⟨p, r, pending, hp⟩ hask
    | _ => rfl
  by_cases hflying : ∃ p r b, Link x s p r .flying b
  · obtain ⟨p, r, b, hl⟩ := hflying
    have hne : x.request p r ≠ [] := fun hnil => Stage.noConfusion (hl.absent.mpr hnil)
    exact ⟨_, .receiveRequest hl.flight ⟨hstart r, hc.announced_ne.mpr hne, hl.requests⟩ (hc.announced p r).ge⟩
  have hsettled : ∀ {p r a b}, Link x s p r a b → a = .absent ∨ a = .arrived := by
    intro p r a b hl
    cases a with
    | absent => exact .inl rfl
    | arrived => exact .inr rfl
    | flying => exact absurd ⟨p, r, b, hl⟩ hflying
    | unsent => exact absurd (hl.unsent.mp rfl) (by simp [hasks])
  by_cases hturn : ∃ p, s.phase p = .asking []
  · obtain ⟨p, hp⟩ := hturn
    refine ⟨_, .turn hp fun q hq hnone => ?_⟩
    obtain ⟨a, b, hl⟩ := h.link q p
    rcases hsettled hl with rfl | rfl
    · exact hc.announced_ne.mp hq (hl.absent.mp rfl)
    · exact absurd (hl.requests.symm.trans hnone) nofun
  -- all parties answer
  have hlate : ∀ p, 2 ≤ (s.phase p).level := by
    intro p
    have hp := hasks p
    cases hphase : s.phase p with
    | start => exact absurd hphase (hstart p)
    | asking pending =>
      rw [hphase] at hp
      exact absurd ⟨p, hphase.trans (congrArg Phase.asking hp)⟩ hturn
    | _ => simp
  by_cases hanswer : ∃ p r pending, s.phase p = .replying (r :: pending)
  · obtain ⟨p, r, pending, hp⟩ := hanswer
    obtain ⟨a, b, hl⟩ := h.link p r
    obtain rfl : b = .unsent := hl.unsent'.mpr (by rw [hp]; exact List.mem_cons_self ..)
    have hne : x.request r p ≠ [] := fun hnil => Stage.noConfusion (hl.absent'.mpr hnil)
    refine ⟨_, .answer hp (.inr ⟨?_, .inr ⟨hlate r, hne, hl.replies⟩⟩)⟩
    rw [hl.flight]
    rcases hsettled hl with rfl | rfl <;> rfl
  by_cases hflying' : ∃ p r a, Link x s p r a .flying
  · obtain ⟨p, r, a, hl⟩ := hflying'
    have hne : x.request r p ≠ [] := fun hnil => Stage.noConfusion (hl.absent'.mpr hnil)
    have hflight : s.flight (p, r) = [x.answer p r] := by
      rw [hl.flight]
      rcases hsettled hl with rfl | rfl <;> rfl
    refine ⟨_, .receiveReply hflight (fun hposted => ?_) ⟨hlate r, hne, hl.replies⟩ (hc.length_answer p r).le⟩
    rcases hsettled hl with rfl | rfl
    · exact hc.announced_ne.mp hposted.2.1 (hl.absent.mp rfl)
    · exact absurd (hl.requests.symm.trans hposted.2.2) nofun
  obtain ⟨p, hp⟩ := not_forall.mp hfinal
  have hnil : s.phase p = .replying [] := by
    have hlevel := hlate p
    cases hphase : s.phase p with
    | start => simp [hphase] at hlevel
    | asking => simp [hphase] at hlevel
    | done => exact absurd hphase hp
    | replying pending =>
      cases pending with
      | nil => rfl
      | cons r pending => exact absurd ⟨p, r, pending, hphase⟩ hanswer
  refine ⟨_, .finish hnil fun q hq hnone => ?_⟩
  obtain ⟨a, b, hl⟩ := h.link q p
  cases b with
  | absent => exact hq (hl.absent'.mp rfl)
  | arrived => exact absurd (hl.replies.symm.trans hnone) nofun
  | flying => exact hflying' ⟨q, p, a, hl⟩
  | unsent =>
    have hmem := hl.unsent'.mp rfl
    cases hphase : s.phase q with
    | replying pending =>
      cases pending with
      | nil => simp [hphase, answers] at hmem
      | cons r pending => exact absurd ⟨q, r, pending, hphase⟩ hanswer
    | done => simp [hphase, answers] at hmem
    | _ =>
      have hlevel := hlate q
      simp [hphase] at hlevel

end

-- ---------------------------------------------------------------------------
-- Steps that are left
-- ---------------------------------------------------------------------------

def phases (x : Protocol n α) (phase : Fin n → Phase n) : ℕ :=
  ∑ p, (phase p).weight (x.asked p).length (x.askers p).length

def weight (x : Protocol n α) (s : State n α) : ℕ := phases x s.phase + ∑ l, (s.flight l).length

theorem phases_update (x : Protocol n α) (phase : Fin n → Phase n) (p : Fin n) (a : Phase n) :
    phases x (Function.update phase p a) + (phase p).weight (x.asked p).length (x.askers p).length =
      phases x phase + a.weight (x.asked p).length (x.askers p).length :=
  PairExchange.Exchange.sum_update (fun q (a : Phase n) => a.weight (x.asked q).length (x.askers q).length)
    phase p a

theorem flights_update (flight : Fin n × Fin n → List (List α)) (l : Fin n × Fin n) (ms : List (List α)) :
    ∑ k, (Function.update flight l ms k).length + (flight l).length =
      ∑ k, (flight k).length + ms.length :=
  PairExchange.Exchange.sum_update (fun _ (ms : List (List α)) => ms.length) flight l ms

section
variable [Inhabited α] {buffered : State n α → Fin n → Fin n → Prop}

theorem weight_step (hs : x.Step buffered s t) : weight x t < weight x s := by
  cases hs with
  | @post p hp =>
    have hphases := phases_update x s.phase p (.asking (x.asked p))
    simp only [hp, Phase.weight] at hphases
    simp only [weight]
    omega
  | @ask p r pending hp =>
    have hphases := phases_update x s.phase p (.asking pending)
    have hflights := flights_update s.flight (p, r) (s.flight (p, r) ++ [x.request p r])
    simp only [hp, Phase.weight, List.length_cons] at hphases
    simp only [List.length_append, List.length_singleton] at hflights
    simp only [weight]
    omega
  | @turn p hp =>
    have hphases := phases_update x s.phase p (.replying (x.askers p))
    simp only [hp, Phase.weight, List.length_nil] at hphases
    simp only [weight]
    omega
  | @answer p r pending hp =>
    have hphases := phases_update x s.phase p (.replying pending)
    have hflights := flights_update s.flight (p, r) (s.flight (p, r) ++ [x.reply p (x.inbox s p) r])
    simp only [hp, Phase.weight, List.length_cons] at hphases
    simp only [List.length_append, List.length_singleton] at hflights
    simp only [weight]
    omega
  | @receiveRequest p r m rest hm =>
    have hflights := flights_update s.flight (p, r) rest
    simp only [hm, List.length_cons] at hflights
    simp only [weight]
    omega
  | @receiveReply p r m rest hm =>
    have hflights := flights_update s.flight (p, r) rest
    simp only [hm, List.length_cons] at hflights
    simp only [weight]
    omega
  | @finish p hp =>
    have hphases := phases_update x s.phase p .done
    simp only [hp, Phase.weight, List.length_nil] at hphases
    simp only [weight]
    omega

end

end Protocol

end RequestReply
