import Flecsi.Concurrency.VirtualSemaphore
import Flecsi.Lib.Runs

/-!
# Runs of the thread pool

The workers run `run_`, any threads call `queue`, one thread calls `start` and may call `join`.
A step is a section under a mutex, an access to an atomic flag, a notification or a wait. A
worker that has woken up holds the semaphore's mutex while it checks `done_` again.
-/

namespace Flecsi.Concurrency.Pool

open Relation (ReflTransGen)

-- ---------------------------------------------------------------------------
-- Threads
-- ---------------------------------------------------------------------------

/-- A thread with functions to queue. It is `releasing` in a call of `queue` after the push. -/
structure Client (F : Type) where
  program : List F
  releasing : Bool

/-- A worker before the check of `done_` in `acquire`, past it, in the condition variable, woken
up, past the check after that, back from `acquire` with or without a unit, with a function
popped, in the function, or returned. -/
inductive Worker (F : Type) where
  | ready
  | testing
  | waiting
  | woken
  | holding
  | taking (unit : Bool)
  | calling (f : F)
  | running (c : Client F)
  | exited

/-- The thread that calls `start` with so many workers left, then perhaps `join`: past its check,
with `done_` set, with the semaphore's `done_` set, past `interrupt`, returned. -/
inductive Control where
  | starting (left : ℕ)
  | started
  | joining
  | stopped
  | interrupting
  | waiting
  | joined

structure Shared (F : Type) where
  done_ : Bool
  sem_ : VirtualSemaphore
  queue_ : List F
  queued : List F
  executed : List F

structure State (F : Type) extends Shared F where
  control : Control
  workers : List (Worker F)
  clients : List (Client F)

variable {F : Type}

def State.start (num_threads : ℕ) (programs : List (List F)) : State F where
  done_ := false
  sem_ := .ofCount 0
  queue_ := []
  queued := []
  executed := []
  control := .starting num_threads
  workers := []
  clients := programs.map fun program => ⟨program, false⟩

-- ---------------------------------------------------------------------------
-- Steps
-- ---------------------------------------------------------------------------

def Shared.push (sh : Shared F) (f : F) : Shared F :=
  { sh with queue_ := sh.queue_ ++ [f], queued := sh.queued ++ [f] }

def Shared.acquire (sh : Shared F) : Shared F :=
  { sh with sem_ := { sh.sem_ with count_ := sh.sem_.count_ - 1 } }

/-- The steps of a worker in which it wakes nobody. While another one holds the semaphore's mutex
it cannot lock it. -/
inductive Moves (calls : F → List F) (held : Prop) (sh : Shared F) : Worker F → Worker F → Shared F → Prop
  | interrupted (h : sh.sem_.done_ = true) : Moves calls held sh .ready (.taking false) sh
  | check (h : sh.sem_.done_ = false) : Moves calls held sh .ready .testing sh
  | wait (hh : ¬held) (h : sh.sem_.count_ ≤ 0) : Moves calls held sh .testing .waiting sh
  | acquire (hh : ¬held) (h : 0 < sh.sem_.count_) :
      Moves calls held sh .testing (.taking true) sh.acquire
  | unblock (hh : ¬held) (h : sh.sem_.done_ = true) : Moves calls held sh .woken (.taking false) sh
  | recheck (hh : ¬held) (h : sh.sem_.done_ = false) : Moves calls held sh .woken .holding sh
  | rewait (h : sh.sem_.count_ ≤ 0) : Moves calls held sh .holding .waiting sh
  | reacquire (h : 0 < sh.sem_.count_) : Moves calls held sh .holding (.taking true) sh.acquire
  | exit {unit : Bool} (h : sh.done_ = true) : Moves calls held sh (.taking unit) .exited sh
  | pop {unit : Bool} {f : F} {fs : List F} (h : sh.done_ = false) (hq : sh.queue_ = f :: fs) :
      Moves calls held sh (.taking unit) (.calling f) { sh with queue_ := fs }
  | call {f : F} : Moves calls held sh (.calling f) (.running ⟨calls f, false⟩)
      { sh with executed := sh.executed ++ [f] }
  | push {f : F} {program : List F} : Moves calls held sh (.running ⟨f :: program, false⟩)
      (.running ⟨program, true⟩) (sh.push f)
  | finish : Moves calls held sh (.running ⟨[], false⟩) .ready sh

/-- `notify_one` -/
inductive NotifyOne : List (Worker F) → List (Worker F) → Prop
  | none {ws : List (Worker F)} (h : .waiting ∉ ws) : NotifyOne ws ws
  | one (ws₁ ws₂ : List (Worker F)) : NotifyOne (ws₁ ++ .waiting :: ws₂) (ws₁ ++ .woken :: ws₂)

def Worker.notify : Worker F → Worker F
  | .waiting => .woken
  | w => w

def State.Held (s : State F) : Prop := .holding ∈ s.workers

def State.release (s : State F) (ws : List (Worker F)) : State F :=
  { s with sem_ := s.sem_.release, workers := ws }

inductive WorkerStep (calls : F → List F) (s : State F) : State F → Prop
  | move {ws₁ ws₂ : List (Worker F)} {w w' : Worker F} {sh : Shared F}
      (h : s.workers = ws₁ ++ w :: ws₂) (hm : Moves calls s.Held s.toShared w w' sh) :
      WorkerStep calls s { s with toShared := sh, workers := ws₁ ++ w' :: ws₂ }
  | release {ws₁ ws₂ ws : List (Worker F)} {program : List F}
      (h : s.workers = ws₁ ++ .running ⟨program, true⟩ :: ws₂) (hh : ¬s.Held)
      (hn : NotifyOne (ws₁ ++ .running ⟨program, false⟩ :: ws₂) ws) :
      WorkerStep calls s (s.release ws)

inductive ClientStep (s : State F) : State F → Prop
  | push {cs₁ cs₂ : List (Client F)} {f : F} {program : List F}
      (h : s.clients = cs₁ ++ ⟨f :: program, false⟩ :: cs₂) :
      ClientStep s { s with toShared := s.toShared.push f, clients := cs₁ ++ ⟨program, true⟩ :: cs₂ }
  | release {cs₁ cs₂ : List (Client F)} {ws : List (Worker F)} {program : List F}
      (h : s.clients = cs₁ ++ ⟨program, true⟩ :: cs₂) (hh : ¬s.Held) (hn : NotifyOne s.workers ws) :
      ClientStep s { s.release ws with clients := cs₁ ++ ⟨program, false⟩ :: cs₂ }

/-- `join` waits for each thread in turn; here for all at once. -/
inductive ControlStep (s : State F) : State F → Prop
  | spawn {left : ℕ} (h : s.control = .starting (left + 1)) :
      ControlStep s { s with control := .starting left, workers := s.workers ++ [.ready] }
  | started (h : s.control = .starting 0) : ControlStep s { s with control := .started }
  | join (h : s.control = .started) (hd : s.done_ = false) : ControlStep s { s with control := .joining }
  | stop (h : s.control = .joining) : ControlStep s { s with control := .stopped, done_ := true }
  | interrupt (h : s.control = .stopped) :
      ControlStep s { s with control := .interrupting, sem_ := { s.sem_ with done_ := true } }
  | notifyAll (h : s.control = .interrupting) :
      ControlStep s { s with control := .waiting, workers := s.workers.map Worker.notify }
  | joined (h : s.control = .waiting) (hw : ∀ w ∈ s.workers, w = .exited) :
      ControlStep s { s with control := .joined }

inductive Step (calls : F → List F) (s : State F) : State F → Prop
  | worker {t : State F} (h : WorkerStep calls s t) : Step calls s t
  | client {t : State F} (h : ClientStep s t) : Step calls s t
  | control {t : State F} (h : ControlStep s t) : Step calls s t
  | spurious {ws₁ ws₂ : List (Worker F)} (h : s.workers = ws₁ ++ .waiting :: ws₂) :
      Step calls s { s with workers := ws₁ ++ .woken :: ws₂ }

-- ---------------------------------------------------------------------------
-- What a run owes
-- ---------------------------------------------------------------------------

def State.NoJoin (s : State F) : Prop := s.control = .started ∨ ∃ left, s.control = .starting left

/-- Past the `interrupt` of `join`. -/
def State.PastInterrupt (s : State F) : Prop := s.control = .waiting ∨ s.control = .joined

/-- No function is executed more often than it was queued, no front of an empty queue is taken,
and work is not left to sleeping workers. A call of `queue` has released what it pushed when it
is over. -/
structure State.Sound [DecidableEq F] (calls : F → List F) (s : State F) : Prop where
  once : ∀ f, s.executed.count f ≤ s.queued.count f
  front : ∀ unit, .taking unit ∈ s.workers → s.done_ = false → s.queue_ ≠ []
  idle : s.NoJoin → (¬∃ t, WorkerStep calls s t) → (∀ c ∈ s.clients, c.releasing = false) →
    s.queue_ = [] ∨ s.workers = []

/-- A worker that is not going to notify anybody once the semaphore is interrupted. -/
def Worker.Silent : Worker F → Prop
  | .calling _ | .running _ => False
  | _ => True

/-- `join` waits for a worker that waits for a notification nobody is left to make. -/
structure State.Deadlocked (s : State F) : Prop where
  past : s.PastInterrupt
  waiting : .waiting ∈ s.workers
  clients : ∀ c ∈ s.clients, c = ⟨[], false⟩
  workers : ∀ w ∈ s.workers, w.Silent

/-- Past a check of `done_` that was not set, and not yet waiting. -/
def Worker.Unaware : Worker F → Prop
  | .testing | .holding => True
  | _ => False

/-- A step that does not interrupt while a worker is between its check of `done_` and its wait. -/
def TimelyStep (calls : F → List F) (s t : State F) : Prop :=
  Step calls s t ∧ (s.control = .interrupting → t.control = .waiting → ∀ w ∈ s.workers, ¬w.Unaware)

-- ---------------------------------------------------------------------------
-- Measures
-- ---------------------------------------------------------------------------

def Client.units (c : Client F) : ℕ := if c.releasing then 1 else 0

/-- Functions in the queue that are not in the count: a unit was taken, or is not yet released. -/
def Worker.units : Worker F → ℕ
  | .taking true => 1
  | .running c => c.units
  | _ => 0

def Worker.roused : Worker F → ℕ
  | .woken | .holding => 1
  | _ => 0

def Worker.inHand : Worker F → Multiset F
  | .calling f => {f}
  | _ => 0

section
variable {calls : F → List F} {held : Prop} {sh sh' : Shared F} {w w' : Worker F}

theorem Moves.flags (h : Moves calls held sh w w' sh') :
    sh'.done_ = sh.done_ ∧ sh'.sem_.done_ = sh.sem_.done_ ∧ sh'.sem_.max_count_ = sh.sem_.max_count_ := by
  cases h <;> exact ⟨rfl, rfl, rfl⟩

theorem Moves.nonneg (h : Moves calls held sh w w' sh') (hn : 0 ≤ sh.sem_.count_) :
    0 ≤ sh'.sem_.count_ := by
  cases h with
  | acquire _ h => exact Int.sub_nonneg_of_le h
  | reacquire h => exact Int.sub_nonneg_of_le h
  | _ => exact hn

/-- Every function is in the queue, in hand or executed. -/
theorem Moves.functions (h : Moves calls held sh w w' sh') :
    (sh'.executed : Multiset F) + w'.inHand + sh'.queue_ + sh.queued =
      sh.executed + w.inHand + sh.queue_ + sh'.queued := by
  cases h with
  | pop _ hq =>
    simp only [hq, Worker.inHand, ← Multiset.cons_coe, ← Multiset.singleton_add]
    abel
  | call =>
    simp only [Worker.inHand, ← Multiset.coe_add, Multiset.coe_singleton]
    abel
  | push =>
    simp only [Shared.push, Worker.inHand, ← Multiset.coe_add, Multiset.coe_singleton]
    abel
  | _ => rfl

/-- As long as nobody joins, the count follows the queue. -/
theorem Moves.count (h : Moves calls held sh w w' sh') (hd : sh.done_ = false)
    (hs : sh.sem_.done_ = true → sh.done_ = true) (hw : w ≠ .taking false) :
    sh'.queue_.length - (sh'.sem_.count_ + w'.units) = sh.queue_.length - (sh.sem_.count_ + w.units) := by
  cases h with
  | interrupted h => exact absurd (hs h) (hd ▸ nofun)
  | unblock _ h => exact absurd (hs h) (hd ▸ nofun)
  | exit h => exact absurd h (hd ▸ nofun)
  | check | wait | recheck | rewait => rfl
  | acquire _ h =>
    simp only [Shared.acquire, Worker.units]
    omega
  | reacquire h =>
    simp only [Shared.acquire, Worker.units]
    omega
  | @pop unit f fs h hq =>
    cases unit with
    | false => exact absurd rfl hw
    | true =>
      simp only [hq, Worker.units, List.length_cons]
      omega
  | call => rfl
  | push =>
    simp [Shared.push, Worker.units, Client.units]
  | finish => rfl

/-- A worker that goes to sleep has seen the count; the others take no more units than there
were for those awake. -/
theorem Moves.roused (h : Moves calls held sh w w' sh') (hs : sh.sem_.done_ = false) :
    w ≠ .waiting ∧ (w' = .waiting ∧ sh'.sem_.count_ ≤ 0 ∨
      w' ≠ .waiting ∧ sh'.sem_.count_ + w.roused ≤ sh.sem_.count_ + w'.roused) := by
  cases h with
  | wait _ h => exact ⟨nofun, .inl ⟨rfl, h⟩⟩
  | rewait h => exact ⟨nofun, .inl ⟨rfl, h⟩⟩
  | unblock _ h => exact absurd h (hs ▸ nofun)
  | acquire _ h =>
    refine ⟨nofun, .inr ⟨nofun, ?_⟩⟩
    simp only [Shared.acquire, Worker.roused]
    omega
  | reacquire h =>
    refine ⟨nofun, .inr ⟨nofun, ?_⟩⟩
    simp only [Shared.acquire, Worker.roused]
    omega
  | _ => exact ⟨nofun, .inr ⟨nofun, le_rfl⟩⟩

theorem Moves.stopped (h : Moves calls held sh w w' sh') :
    (w' = .taking false → sh.sem_.done_ = true) ∧ (w' = .exited → sh.done_ = true) := by
  cases h with
  | interrupted h => exact ⟨fun _ => h, nofun⟩
  | unblock _ h => exact ⟨fun _ => h, nofun⟩
  | exit h => exact ⟨nofun, fun _ => h⟩
  | _ => exact ⟨nofun, nofun⟩

theorem NotifyOne.sum {M : Type} [AddCommMonoid M] {ws ws' : List (Worker F)} (h : NotifyOne ws ws')
    (μ : Worker F → M) (hμ : μ .woken = μ .waiting) : (ws'.map μ).sum = (ws.map μ).sum := by
  cases h with
  | none _ => rfl
  | one ws₁ ws₂ => simp [hμ]

/-- While somebody still waits, somebody else was woken up. -/
theorem NotifyOne.roused {ws ws' : List (Worker F)} (h : NotifyOne ws ws') (hw : .waiting ∈ ws') :
    .waiting ∈ ws ∧ (ws'.map Worker.roused).sum = (ws.map Worker.roused).sum + 1 := by
  cases h with
  | none h => exact absurd hw h
  | one ws₁ ws₂ =>
    refine ⟨List.mem_append_right _ (List.mem_cons_self ..), ?_⟩
    simp only [List.map_append, List.map_cons, List.sum_append, List.sum_cons, Worker.roused]
    omega

theorem NotifyOne.mem {ws ws' : List (Worker F)} (h : NotifyOne ws ws') (hw : w ∈ ws')
    (hne : w ≠ .woken) : w ∈ ws := by
  cases h with
  | none _ => exact hw
  | one ws₁ ws₂ =>
    simp only [List.mem_append, List.mem_cons, hne, false_or] at hw
    exact hw.elim (List.mem_append_left _) fun h => List.mem_append_right _ (List.mem_cons_of_mem _ h)

theorem mem_replace {ws₁ ws₂ : List (Worker F)} {v : Worker F} (hv : v ∈ ws₁ ++ w' :: ws₂) :
    v = w' ∨ v ∈ ws₁ ++ w :: ws₂ := by
  rcases List.mem_append.mp hv with hv | hv
  · exact .inr (List.mem_append_left _ hv)
  · rcases List.mem_cons.mp hv with rfl | hv
    · exact .inl rfl
    · exact .inr (List.mem_append_right _ (List.mem_cons_of_mem _ hv))

theorem exists_notifyOne (ws : List (Worker F)) : ∃ ws', NotifyOne ws ws' := by
  by_cases h : .waiting ∈ ws
  · obtain ⟨ws₁, ws₂, rfl⟩ := List.append_of_mem h
    exact ⟨_, .one ws₁ ws₂⟩
  · exact ⟨ws, .none h⟩

end

-- ---------------------------------------------------------------------------
-- Invariant
-- ---------------------------------------------------------------------------

/-- `done_` is set -/
def Control.stops : Control → Bool
  | .stopped | .interrupting | .waiting | .joined => true
  | _ => false

/-- The semaphore's `done_` is set. -/
def Control.interrupts : Control → Bool
  | .interrupting | .waiting | .joined => true
  | _ => false

structure State.Inv (s : State F) : Prop where
  nonneg : 0 ≤ s.sem_.count_
  unbounded : s.sem_.max_count_ = 0
  functions : (s.executed : Multiset F) + (s.workers.map Worker.inHand).sum + s.queue_ = s.queued
  count : s.done_ = false → (s.queue_.length : ℤ) =
    s.sem_.count_ + (s.workers.map Worker.units).sum + (s.clients.map Client.units).sum
  roused : s.sem_.done_ = false → .waiting ∈ s.workers →
    s.sem_.count_ ≤ (s.workers.map Worker.roused).sum
  interrupted : .taking false ∈ s.workers → s.sem_.done_ = true
  exited : .exited ∈ s.workers → s.done_ = true
  stops : s.done_ = s.control.stops
  interrupts : s.sem_.done_ = s.control.interrupts

theorem State.Inv.flags {s : State F} (hs : s.Inv) (h : s.sem_.done_ = true) : s.done_ = true := by
  rw [hs.interrupts] at h
  rw [hs.stops]
  cases hc : s.control <;> simp_all [Control.interrupts, Control.stops]

theorem State.Inv.noJoin {s : State F} (hs : s.Inv) (h : s.NoJoin) : s.done_ = false := by
  rw [hs.stops]
  rcases h with hc | ⟨left, hc⟩
  · rw [hc]
    rfl
  · rw [hc]
    rfl

theorem State.start_inv (num_threads : ℕ) (programs : List (List F)) :
    (State.start num_threads programs).Inv where
  nonneg := le_rfl
  unbounded := rfl
  functions := rfl
  count _ := by simp [State.start, VirtualSemaphore.ofCount, Client.units, Function.comp_def]
  roused _ hw := absurd hw List.not_mem_nil
  interrupted hw := absurd hw List.not_mem_nil
  exited hw := absurd hw List.not_mem_nil
  stops := rfl
  interrupts := rfl

section
variable {calls : F → List F} {s t : State F}

theorem State.Inv.move {ws₁ ws₂ : List (Worker F)} {w w' : Worker F} {sh : Shared F} (hs : s.Inv)
    (h : s.workers = ws₁ ++ w :: ws₂) (hm : Moves calls s.Held s.toShared w w' sh) :
    State.Inv { s with toShared := sh, workers := ws₁ ++ w' :: ws₂ } := by
  obtain ⟨hdone, hsem, hmax⟩ := hm.flags
  have hmem : w ∈ s.workers := h ▸ List.mem_append_right _ (List.mem_cons_self ..)
  constructor
  · exact hm.nonneg hs.nonneg
  · exact hmax.trans hs.unbounded
  · have hall := hs.functions
    have hstep := hm.functions
    simp only [h, List.map_append, List.map_cons, List.sum_append, List.sum_cons] at hall ⊢
    refine add_right_cancel (b := (s.queued : Multiset F)) ?_
    calc (sh.executed : Multiset F) + ((ws₁.map Worker.inHand).sum +
          (w'.inHand + (ws₂.map Worker.inHand).sum)) + sh.queue_ + s.queued
        = (sh.executed + w'.inHand + sh.queue_ + s.queued) +
          ((ws₁.map Worker.inHand).sum + (ws₂.map Worker.inHand).sum) := by abel
      _ = (s.executed + w.inHand + s.queue_ + sh.queued) +
          ((ws₁.map Worker.inHand).sum + (ws₂.map Worker.inHand).sum) := by rw [hstep]
      _ = (s.executed + ((ws₁.map Worker.inHand).sum +
          (w.inHand + (ws₂.map Worker.inHand).sum)) + s.queue_) + sh.queued := by abel
      _ = sh.queued + s.queued := by rw [hall, add_comm]
  · intro hd
    have hopen : s.done_ = false := hdone.symm.trans hd
    have hall := hs.count hopen
    have hstep := hm.count hopen hs.flags ?_
    · simp only [h, List.map_append, List.map_cons, List.sum_append, List.sum_cons] at hall ⊢
      push_cast at hall ⊢
      omega
    · rintro rfl
      exact absurd (hs.flags (hs.interrupted hmem)) (hopen ▸ nofun)
  · intro hd hw
    obtain ⟨hne, ⟨rfl, hcount⟩ | ⟨hne', hcount⟩⟩ := hm.roused (hsem ▸ hd)
    · exact hcount.trans (Int.natCast_nonneg _)
    · have hwait : .waiting ∈ s.workers := by
        rw [h]
        exact (mem_replace hw).resolve_left (Ne.symm hne')
      have hall := hs.roused (hsem ▸ hd) hwait
      simp only [h, List.map_append, List.map_cons, List.sum_append, List.sum_cons] at hall ⊢
      push_cast at hall ⊢
      omega
  · intro hw
    rcases mem_replace (w := w) hw with heq | hw
    · exact hsem.trans (hm.stopped.1 heq.symm)
    · exact hsem.trans (hs.interrupted (h ▸ hw))
  · intro hw
    rcases mem_replace (w := w) hw with heq | hw
    · exact hdone.trans (hm.stopped.2 heq.symm)
    · exact hdone.trans (hs.exited (h ▸ hw))
  · exact hdone.trans hs.stops
  · exact hsem.trans hs.interrupts

/-- A thread releases what it pushed and wakes one worker. -/
theorem State.Inv.release {ws ws' : List (Worker F)} {cs : List (Client F)} (hs : s.Inv)
    (hn : NotifyOne ws ws') (hmem : ∀ w ∈ ws, w ∈ s.workers ∨ ∃ c, w = .running c)
    (hhand : (ws.map Worker.inHand).sum = (s.workers.map Worker.inHand).sum)
    (hroused : (ws.map Worker.roused).sum = (s.workers.map Worker.roused).sum)
    (hunits : (ws.map Worker.units).sum + (cs.map Client.units).sum + 1 =
      (s.workers.map Worker.units).sum + (s.clients.map Client.units).sum) :
    State.Inv { s.release ws' with clients := cs } := by
  have hcount : s.sem_.release.count_ = s.sem_.count_ + 1 := by
    simp [VirtualSemaphore.release, hs.unbounded]
  have hflags : s.sem_.release.done_ = s.sem_.done_ ∧ s.sem_.release.max_count_ = s.sem_.max_count_ := by
    simp [VirtualSemaphore.release, hs.unbounded]
  constructor
  · have := hs.nonneg
    change 0 ≤ s.sem_.release.count_
    omega
  · exact hflags.2.trans hs.unbounded
  · simpa only [State.release, hn.sum Worker.inHand rfl, hhand] using hs.functions
  · intro hd
    have hall := hs.count hd
    simp only [State.release, hcount, hn.sum Worker.units rfl]
    omega
  · intro hd hw
    obtain ⟨hw, hone⟩ := hn.roused hw
    have hwait : .waiting ∈ s.workers := by
      rcases hmem _ hw with hw | ⟨c, hc⟩
      · exact hw
      · cases hc
    have hall := hs.roused (hflags.1 ▸ hd) hwait
    simp only [State.release, hcount]
    rw [hone, hroused, Nat.cast_add, Nat.cast_one]
    omega
  · intro hw
    rcases hmem _ (hn.mem hw fun heq => by cases heq) with hw | ⟨c, hc⟩
    · exact hflags.1.trans (hs.interrupted hw)
    · cases hc
  · intro hw
    rcases hmem _ (hn.mem hw fun heq => by cases heq) with hw | ⟨c, hc⟩
    · exact hs.exited hw
    · cases hc
  · exact hs.stops
  · exact hflags.1.trans hs.interrupts

theorem State.Inv.worker (hs : s.Inv) (h : WorkerStep calls s t) : t.Inv := by
  cases h with
  | move h hm => exact hs.move h hm
  | @release ws₁ ws₂ ws program h hh hn =>
    refine hs.release hn (fun w hw => ?_) ?_ ?_ ?_
    · rw [h]
      exact (mem_replace hw).symm.imp_right fun h => ⟨_, h⟩
    · simp [h, Worker.inHand]
    · simp [h, Worker.roused]
    · simp [h, Worker.units, Client.units]
      omega

theorem State.Inv.client (hs : s.Inv) (h : ClientStep s t) : t.Inv := by
  cases h with
  | @push cs₁ cs₂ f program h =>
    refine ⟨hs.nonneg, hs.unbounded, ?_, fun hd => ?_, hs.roused, hs.interrupted, hs.exited, hs.stops, hs.interrupts⟩
    · simp only [Shared.push, ← Multiset.coe_add, ← hs.functions]
      abel
    · have hall := hs.count hd
      simp only [h, List.map_append, List.map_cons, List.sum_append, List.sum_cons, Client.units,
        Bool.false_eq_true, if_false, if_true, Shared.push, List.length_append, List.length_singleton] at hall ⊢
      push_cast at hall ⊢
      omega
  | @release cs₁ cs₂ ws program h hh hn =>
    refine hs.release hn (fun w hw => .inl hw) rfl rfl ?_
    simp [h, Client.units]
    omega

theorem State.Inv.control (hs : s.Inv) (h : ControlStep s t) : t.Inv := by
  cases h with
  | spawn h =>
    have hnew : ∀ w ∈ s.workers ++ [Worker.ready], w ≠ .ready → w ∈ s.workers := by
      intro w hw hne
      exact (List.mem_append.mp hw).resolve_right fun h => hne (List.mem_singleton.mp h)
    refine ⟨hs.nonneg, hs.unbounded, ?_, fun hd => ?_, fun hd hw => ?_, fun hw => ?_, fun hw => ?_,
      hs.stops.trans (h ▸ rfl), hs.interrupts.trans (h ▸ rfl)⟩
    · simpa [Worker.inHand] using hs.functions
    · simpa [Worker.units] using hs.count hd
    · simpa [Worker.roused] using hs.roused hd (hnew _ hw nofun)
    · exact hs.interrupted (hnew _ hw nofun)
    · exact hs.exited (hnew _ hw nofun)
  | started h =>
    exact { hs with stops := hs.stops.trans (h ▸ rfl), interrupts := hs.interrupts.trans (h ▸ rfl) }
  | join h hd =>
    exact { hs with stops := hs.stops.trans (h ▸ rfl), interrupts := hs.interrupts.trans (h ▸ rfl) }
  | stop h =>
    exact { hs with
      count := nofun
      exited := fun _ => rfl
      stops := rfl
      interrupts := hs.interrupts.trans (h ▸ rfl) }
  | interrupt h =>
    exact { hs with
      roused := nofun
      interrupted := fun _ => rfl
      stops := hs.stops.trans (h ▸ rfl)
      interrupts := rfl }
  | notifyAll h =>
    have hd : s.sem_.done_ = true := hs.interrupts.trans (h ▸ rfl)
    have hmem : ∀ w ∈ s.workers.map Worker.notify, w ≠ .woken → w ∈ s.workers := by
      intro w hw hne
      obtain ⟨v, hv, rfl⟩ := List.mem_map.mp hw
      cases v with
      | waiting => exact absurd rfl hne
      | _ => exact hv
    have hhand : (s.workers.map Worker.notify).map Worker.inHand = s.workers.map Worker.inHand := by
      rw [List.map_map]
      refine List.map_congr_left fun w _ => ?_
      cases w <;> rfl
    have hunits : (s.workers.map Worker.notify).map Worker.units = s.workers.map Worker.units := by
      rw [List.map_map]
      refine List.map_congr_left fun w _ => ?_
      cases w <;> rfl
    exact { hs with
      functions := by simpa only [hhand] using hs.functions
      count := fun hd => by simpa only [hunits] using hs.count hd
      roused := fun hd' => absurd (hd.symm.trans hd') nofun
      interrupted := fun _ => hd
      exited := fun hw => hs.exited (hmem _ hw nofun)
      stops := hs.stops.trans (h ▸ rfl)
      interrupts := hs.interrupts.trans (h ▸ rfl) }
  | joined h hw =>
    exact { hs with stops := hs.stops.trans (h ▸ rfl), interrupts := hs.interrupts.trans (h ▸ rfl) }

/-- A worker that wakes up by itself counts as one more that is awake. -/
theorem State.Inv.spurious {ws₁ ws₂ : List (Worker F)} (hs : s.Inv) (h : s.workers = ws₁ ++ .waiting :: ws₂) :
    State.Inv { s with workers := ws₁ ++ .woken :: ws₂ } := by
  have hn : NotifyOne s.workers (ws₁ ++ .woken :: ws₂) := by
    rw [h]
    exact .one ws₁ ws₂
  exact { hs with
    functions := by simpa only [hn.sum Worker.inHand rfl] using hs.functions
    count := fun hd => by simpa only [hn.sum Worker.units rfl] using hs.count hd
    roused := fun hd hw => by
      obtain ⟨hwait, hone⟩ := hn.roused hw
      rw [hone, Nat.cast_add, Nat.cast_one]
      exact (hs.roused hd hwait).trans (Int.le_add_of_nonneg_right Int.one_nonneg)
    interrupted := fun hw => hs.interrupted (hn.mem hw nofun)
    exited := fun hw => hs.exited (hn.mem hw nofun) }

theorem State.Inv.step (hs : s.Inv) (h : Step calls s t) : t.Inv := by
  cases h with
  | worker h => exact hs.worker h
  | client h => exact hs.client h
  | control h => exact hs.control h
  | spurious h => exact hs.spurious h

-- ---------------------------------------------------------------------------
-- Results
-- ---------------------------------------------------------------------------

theorem State.Inv.once [DecidableEq F] (hs : s.Inv) (f : F) : s.executed.count f ≤ s.queued.count f := by
  have hcount := congrArg (Multiset.count f) hs.functions
  simp only [Multiset.count_add, Multiset.coe_count] at hcount
  omega

/-- A unit is taken only for a function that is in the queue. -/
theorem State.Inv.front (hs : s.Inv) {unit : Bool} (hw : .taking unit ∈ s.workers) (hd : s.done_ = false) :
    s.queue_ ≠ [] := by
  cases unit with
  | false => exact absurd (hs.flags (hs.interrupted hw)) (hd ▸ nofun)
  | true =>
    intro hnil
    have hcount := hs.count hd
    have hnonneg := hs.nonneg
    have hpos : 1 ≤ (s.workers.map Worker.units).sum :=
      List.single_le_sum (fun _ _ => Nat.zero_le _) _ (List.mem_map.mpr ⟨_, hw, rfl⟩)
    rw [hnil, List.length_nil] at hcount
    omega

/-- A worker that is awake can go on when nobody joins. -/
theorem State.Inv.worker_step (hs : s.Inv) (hd : s.done_ = false) (hw : w ∈ s.workers)
    (hne : w ≠ .waiting) : ∃ t, WorkerStep calls s t := by
  have hsem : s.sem_.done_ = false := by
    by_contra h
    exact absurd (hs.flags (by simpa using h)) (hd ▸ nofun)
  by_cases hheld : s.Held
  · obtain ⟨ws₁, ws₂, h⟩ := List.append_of_mem hheld
    by_cases hc : s.sem_.count_ ≤ 0
    · exact ⟨_, .move h (.rewait hc)⟩
    · exact ⟨_, .move h (.reacquire (Int.not_le.mp hc))⟩
  obtain ⟨ws₁, ws₂, h⟩ := List.append_of_mem hw
  cases w with
  | ready => exact ⟨_, .move h (.check hsem)⟩
  | testing =>
    by_cases hc : s.sem_.count_ ≤ 0
    · exact ⟨_, .move h (.wait hheld hc)⟩
    · exact ⟨_, .move h (.acquire hheld (Int.not_le.mp hc))⟩
  | waiting => exact absurd rfl hne
  | woken => exact ⟨_, .move h (.recheck hheld hsem)⟩
  | holding => exact absurd hw hheld
  | taking unit =>
    obtain ⟨f, fs, hq⟩ := List.exists_cons_of_ne_nil (hs.front hw hd)
    exact ⟨_, .move h (.pop hd hq)⟩
  | calling f => exact ⟨_, .move h .call⟩
  | running c =>
    obtain ⟨program, releasing⟩ := c
    cases releasing with
    | true =>
      obtain ⟨ws, hn⟩ := exists_notifyOne (ws₁ ++ .running ⟨program, false⟩ :: ws₂)
      exact ⟨_, .release h hheld hn⟩
    | false =>
      cases program with
      | nil => exact ⟨_, .move h .finish⟩
      | cons f program => exact ⟨_, .move h .push⟩
  | exited => exact absurd (hs.exited hw) (hd ▸ nofun)

theorem State.Inv.idle (hs : s.Inv) (hn : s.NoJoin) (hstuck : ¬∃ t, WorkerStep calls s t)
    (hclients : ∀ c ∈ s.clients, c.releasing = false) : s.queue_ = [] ∨ s.workers = [] := by
  by_cases hempty : s.workers = []
  · exact .inr hempty
  have hd := hs.noJoin hn
  have hall : ∀ w ∈ s.workers, w = .waiting := by
    intro w hw
    by_contra hne
    exact hstuck (hs.worker_step hd hw hne)
  obtain ⟨w, hw⟩ := List.exists_mem_of_ne_nil _ hempty
  have hsem : s.sem_.done_ = false := by
    by_contra h
    exact absurd (hs.flags (by simpa using h)) (hd ▸ nofun)
  have hcount := hs.count hd
  have hroused := hs.roused hsem (hall w hw ▸ hw)
  have hawake : (s.workers.map Worker.roused).sum = 0 := by
    refine List.sum_eq_zero fun x hx => ?_
    obtain ⟨w, hw, rfl⟩ := List.mem_map.mp hx
    rw [hall w hw]
    rfl
  have hunits : (s.workers.map Worker.units).sum = 0 := by
    refine List.sum_eq_zero fun x hx => ?_
    obtain ⟨w, hw, rfl⟩ := List.mem_map.mp hx
    rw [hall w hw]
    rfl
  have hreleased : (s.clients.map Client.units).sum = 0 := by
    refine List.sum_eq_zero fun x hx => ?_
    obtain ⟨c, hc, rfl⟩ := List.mem_map.mp hx
    rw [Client.units, hclients c hc]
    rfl
  rw [hawake] at hroused
  rw [hunits, hreleased] at hcount
  refine .inl (List.length_eq_zero_iff.mp ?_)
  omega

theorem State.Inv.sound [DecidableEq F] (hs : s.Inv) : s.Sound calls where
  once := hs.once
  front _ := hs.front
  idle := hs.idle

/-- Past the interrupt nobody waits any more, nor is about to. -/
def State.Alert (s : State F) : Prop := s.PastInterrupt → ∀ w ∈ s.workers, w ≠ .waiting ∧ ¬w.Unaware

theorem Moves.alert {held : Prop} {sh sh' : Shared F} {w w' : Worker F} (h : Moves calls held sh w w' sh')
    (hd : sh.sem_.done_ = true) (hw : w ≠ .waiting ∧ ¬w.Unaware) : w' ≠ .waiting ∧ ¬w'.Unaware := by
  cases h with
  | check h => exact absurd (hd.symm.trans h) nofun
  | recheck _ h => exact absurd (hd.symm.trans h) nofun
  | wait => exact absurd trivial hw.2
  | rewait => exact absurd trivial hw.2
  | _ => exact ⟨nofun, id⟩

theorem NotifyOne.alert {ws ws' : List (Worker F)} (h : NotifyOne ws ws')
    (hall : ∀ w ∈ ws, w ≠ .waiting ∧ ¬w.Unaware) : ∀ w ∈ ws', w ≠ .waiting ∧ ¬w.Unaware := by
  intro w hw
  by_cases hne : w = .woken
  · subst hne
    exact ⟨nofun, id⟩
  · exact hall w (h.mem hw hne)

theorem State.Alert.step (ha : s.Alert) (hs : s.Inv) (h : TimelyStep calls s t) : t.Alert := by
  obtain ⟨h, htimely⟩ := h
  intro hp
  cases h with
  | worker h =>
    cases h with
    | @move ws₁ ws₂ w w' sh h hm =>
      have hall := ha hp
      have hd : s.sem_.done_ = true := by
        rw [hs.interrupts]
        rcases hp with hc | hc
        · exact congrArg Control.interrupts hc
        · exact congrArg Control.interrupts hc
      intro v hv
      rcases mem_replace (w := w) hv with rfl | hv
      · exact hm.alert hd (hall w (h ▸ List.mem_append_right _ (List.mem_cons_self ..)))
      · exact hall v (h ▸ hv)
    | @release ws₁ ws₂ ws program h hh hn =>
      refine hn.alert fun v hv => ?_
      rcases mem_replace (w := .running ⟨program, true⟩) hv with rfl | hv
      · exact ⟨nofun, id⟩
      · exact ha hp v (h ▸ hv)
  | client h =>
    cases h with
    | push h => exact ha hp
    | release h hh hn => exact hn.alert (ha hp)
  | control h =>
    cases h with
    | notifyAll h =>
      intro w hw
      obtain ⟨v, hv, rfl⟩ := List.mem_map.mp hw
      have haware := htimely h rfl v hv
      cases v with
      | testing => exact absurd trivial haware
      | holding => exact absurd trivial haware
      | _ => exact ⟨nofun, id⟩
    | joined h hw => exact ha (.inl h)
    | spawn h => rcases hp with hc | hc <;> cases hc
    | started h => rcases hp with hc | hc <;> cases hc
    | join h hd => rcases hp with hc | hc <;> cases hc
    | stop h => rcases hp with hc | hc <;> cases hc
    | interrupt h => rcases hp with hc | hc <;> cases hc
  | @spurious ws₁ ws₂ h =>
    have hwait : .waiting ∈ s.workers := h ▸ List.mem_append_right _ (List.mem_cons_self ..)
    exact absurd rfl (ha hp _ hwait).1

theorem inv_reachable (h : ReflTransGen (Step calls) (State.start n programs) s) : s.Inv :=
  Runs.invariant (fun _ _ => State.Inv.step) (State.start_inv n programs) h

theorem alert_reachable (h : ReflTransGen (TimelyStep calls) (State.start n programs) s) :
    s.Inv ∧ s.Alert := by
  refine @Runs.invariant _ _ (fun s => s.Inv ∧ s.Alert) _ _ (fun a b ha hab => ?_) ?_ h
  · exact ⟨ha.1.step hab.1, ha.2.step ha.1 hab⟩
  · refine ⟨State.start_inv n programs, ?_⟩
    rintro (hc | hc)
    · cases hc
    · cases hc

end

/-- Every run is sound. In a run that never interrupts between a worker's check and its wait,
`join` never waits for a worker that nobody wakes. -/
theorem pool_sound [DecidableEq F] (calls : F → List F) (num_threads : ℕ) (programs : List (List F)) :
    (∀ s, ReflTransGen (Step calls) (State.start num_threads programs) s → s.Sound calls) ∧
    ∀ s, ReflTransGen (TimelyStep calls) (State.start num_threads programs) s → ¬s.Deadlocked := by
  refine ⟨fun s hs => (inv_reachable hs).sound, fun s hs hdead => ?_⟩
  exact ((alert_reachable hs).2 hdead.past _ hdead.waiting).1 rfl

/-- Workers that wait do not go on by themselves. -/
theorem asleep_stuck {calls : F → List F} {s : State F} (hall : ∀ w ∈ s.workers, w = .waiting) :
    ¬∃ t, WorkerStep calls s t := by
  rintro ⟨t, ht⟩
  cases ht with
  | move h hm =>
    obtain rfl := hall _ (h ▸ List.mem_append_right _ (List.mem_cons_self ..))
    cases hm
  | @release ws₁ ws₂ ws program h =>
    have hmem : .running ⟨program, true⟩ ∈ s.workers :=
      h ▸ List.mem_append_right _ (List.mem_cons_self ..)
    exact absurd (hall _ hmem) nofun

/-- A pool with one worker and nothing queued. -/
def oneWorker (control : Control) (done semDone : Bool) (w : Worker ℕ) (clients : List (Client ℕ)) : State ℕ where
  done_ := done
  sem_ := ⟨0, 0, semDone⟩
  queue_ := []
  queued := []
  executed := []
  control := control
  workers := [w]
  clients := clients

theorem oneWorker_testing (clients : List (List ℕ)) :
    ReflTransGen (Step fun _ => []) (State.start 1 clients)
      (oneWorker .started false false .testing (clients.map fun program => ⟨program, false⟩)) := by
  let cs : List (Client ℕ) := clients.map fun program => ⟨program, false⟩
  have hspawn : Step (fun _ => []) (State.start 1 clients) (oneWorker (.starting 0) false false .ready cs) :=
    .control (.spawn rfl)
  have hstarted : Step (fun _ => []) (oneWorker (.starting 0) false false .ready cs)
      (oneWorker .started false false .ready cs) := .control (.started rfl)
  have hcheck : Step (fun _ => []) (oneWorker .started false false .ready cs)
      (oneWorker .started false false .testing cs) :=
    .worker (@WorkerStep.move _ _ _ [] [] _ _ _ rfl (.check rfl))
  exact ((ReflTransGen.single hspawn).tail hstarted).tail hcheck

theorem oneWorker_wait (control : Control) (done semDone : Bool) (clients : List (Client ℕ)) :
    Step (fun _ => []) (oneWorker control done semDone .testing clients)
      (oneWorker control done semDone .waiting clients) := by
  have hfree : ¬(oneWorker control done semDone .testing clients).Held := by
    intro hheld
    exact absurd (List.mem_singleton.mp hheld) nofun
  exact .worker (@WorkerStep.move _ _ _ [] [] _ _ _ rfl (.wait hfree le_rfl))

/-- A function that is pushed waits for its release while the worker sleeps; and a worker that
has passed its check when `join` notifies goes to sleep for good. -/
theorem not_pool_sound :
    (¬∀ s, ReflTransGen (Step fun _ : ℕ => []) (State.start 1 [[7]]) s → s.NoJoin →
      (¬∃ t, WorkerStep (fun _ => []) s t) → s.queue_ = [] ∨ s.workers = []) ∧
    ¬∀ s, ReflTransGen (Step fun _ : ℕ => []) (State.start 1 []) s → ¬s.Deadlocked := by
  constructor
  · intro h
    have hrun := (oneWorker_testing [[7]]).tail (oneWorker_wait _ _ _ _)
    have hpush := hrun.tail (.client (@ClientStep.push _ _ [] [] 7 [] rfl))
    refine (h _ hpush (.inl rfl) ?_).elim (absurd · nofun) (absurd · nofun)
    exact asleep_stuck fun w hw => List.mem_singleton.mp hw
  · intro h
    have hjoin : Step (fun _ => []) (oneWorker .started false false .testing [])
        (oneWorker .joining false false .testing []) := .control (.join rfl rfl)
    have hstop : Step (fun _ => []) (oneWorker .joining false false .testing [])
        (oneWorker .stopped true false .testing []) := .control (.stop rfl)
    have hinterrupt : Step (fun _ => []) (oneWorker .stopped true false .testing [])
        (oneWorker .interrupting true true .testing []) := .control (.interrupt rfl)
    have hnotify : Step (fun _ => []) (oneWorker .interrupting true true .testing [])
        (oneWorker .waiting true true .testing []) := .control (.notifyAll rfl)
    have hrun := (((((oneWorker_testing []).tail hjoin).tail hstop).tail hinterrupt).tail hnotify).tail
      (oneWorker_wait _ _ _ _)
    refine h _ hrun ⟨.inl rfl, List.mem_singleton.mpr rfl, fun c hc => absurd hc List.not_mem_nil, ?_⟩
    intro w hw
    obtain rfl := List.mem_singleton.mp hw
    exact trivial

end Flecsi.Concurrency.Pool
