import Flecsi.Concurrency.VirtualSemaphore
import Flecsi.Lib.Runs

/-!
# A call that shares its work with a thread pool

The calling thread runs a straight program that executes instructions itself and
queues callables in the pool, then acquires a semaphore. The workers run the loop
of `thread_pool::run_`: acquire the pool's semaphore, pop the front callable, run
it. The pool is not joined during the call, so `done_` stays unset.

`Joins` says what the call owes its own caller, whatever the interleaving.
-/

namespace Flecsi.Concurrency

open Relation (ReflTransGen)

-- ---------------------------------------------------------------------------
-- The threads and what they share
-- ---------------------------------------------------------------------------

/-- `emit` records function applications, or the entities appended under one lock;
`release` is one `sem.release()`. -/
inductive Instr (ε : Type) where
  | emit (xs : List ε)
  | release

/-- The caller's program. `notify` is the `sem_.release()` that follows the push
in `thread_pool::queue`. -/
inductive MainInstr (ε : Type) where
  | run (instr : Instr ε)
  | queue (f : List (Instr ε))
  | notify

inductive Caller where
  | ready
  | waiting
  | woken
  | returned
  deriving DecidableEq

/-- A worker before its `acquire`, in the condition variable, past it and about to
pop, or inside a callable. -/
inductive Worker (ε : Type) where
  | ready
  | waiting
  | woken
  | popping
  | running (f : List (Instr ε))

structure State (ε : Type) where
  main : List (MainInstr ε)
  caller : Caller
  sem : VirtualSemaphore
  queue_ : List (List (Instr ε))
  sem_ : VirtualSemaphore
  workers : List (Worker ε)
  emitted : List ε

/-- `notify_one` on the semaphore only the caller waits for. -/
def Caller.notifyOne : Caller → Caller
  | .waiting => .woken
  | c => c

variable {ε : Type}

inductive Worker.NotifyOne : List (Worker ε) → List (Worker ε) → Prop
  | none {ws : List (Worker ε)} (h : .waiting ∉ ws) : NotifyOne ws ws
  | one (ws₁ ws₂ : List (Worker ε)) : NotifyOne (ws₁ ++ .waiting :: ws₂) (ws₁ ++ .woken :: ws₂)

def Worker.Acquiring : Worker ε → Prop
  | .ready | .waiting | .woken => True
  | _ => False

def Worker.Awake : Worker ε → Prop
  | .ready | .woken => True
  | _ => False

def State.exec (s : State ε) : Instr ε → State ε
  | .emit xs => { s with emitted := s.emitted ++ xs }
  | .release => { s with sem := s.sem.release, caller := s.caller.notifyOne }

/-- A waiting thread may also take a unit without having been notified, as a
spurious wake-up lets it. -/
inductive Step (s : State ε) : State ε → Prop
  | main {i : Instr ε} {rest : List (MainInstr ε)} (h : s.main = .run i :: rest) : Step s ({ s with main := rest }.exec i)
  | queue {f : List (Instr ε)} {rest : List (MainInstr ε)} (h : s.main = .queue f :: rest) :
      Step s { s with main := .notify :: rest, queue_ := s.queue_ ++ [f] }
  | notify {rest : List (MainInstr ε)} {ws : List (Worker ε)} (h : s.main = .notify :: rest)
      (hw : Worker.NotifyOne s.workers ws) :
      Step s { s with main := rest, sem_ := s.sem_.release, workers := ws }
  | sleep {ws₁ ws₂ : List (Worker ε)} {w : Worker ε} (h : s.workers = ws₁ ++ w :: ws₂) (hw : w.Awake)
      (ha : s.sem_.acquire = .wait) :
      Step s { s with workers := ws₁ ++ .waiting :: ws₂ }
  | acquire {ws₁ ws₂ : List (Worker ε)} {w : Worker ε} {sem : VirtualSemaphore}
      (h : s.workers = ws₁ ++ w :: ws₂) (hw : w.Acquiring) (ha : s.sem_.acquire = .acquired sem) :
      Step s { s with sem_ := sem, workers := ws₁ ++ .popping :: ws₂ }
  | pop {ws₁ ws₂ : List (Worker ε)} {f : List (Instr ε)} {fs : List (List (Instr ε))}
      (h : s.workers = ws₁ ++ .popping :: ws₂) (hq : s.queue_ = f :: fs) :
      Step s { s with queue_ := fs, workers := ws₁ ++ .running f :: ws₂ }
  | work {ws₁ ws₂ : List (Worker ε)} {i : Instr ε} {f : List (Instr ε)}
      (h : s.workers = ws₁ ++ Worker.running (i :: f) :: ws₂) :
      Step s ({ s with workers := ws₁ ++ Worker.running f :: ws₂ }.exec i)
  | finish {ws₁ ws₂ : List (Worker ε)} (h : s.workers = ws₁ ++ .running [] :: ws₂) :
      Step s { s with workers := ws₁ ++ .ready :: ws₂ }
  | callerWait (h : s.main = []) (hc : s.caller = .ready ∨ s.caller = .woken)
      (ha : s.sem.acquire = .wait) : Step s { s with caller := .waiting }
  | callerReturn {sem : VirtualSemaphore} (h : s.main = []) (hc : s.caller ≠ .returned)
      (ha : s.sem.acquire = .acquired sem) : Step s { s with sem := sem, caller := .returned }

/-- The semaphore constructed at `1 - m`, the pool idle. -/
def State.start (workers m : ℕ) (main : List (MainInstr ε)) : State ε :=
  { main := main
    caller := .ready
    sem := .ofCount (1 - m)
    queue_ := []
    sem_ := .ofCount 0
    workers := List.replicate workers .ready
    emitted := [] }

/-- No callable waits in the queue, is about to be popped, or has an instruction
left. -/
structure State.Joined (s : State ε) : Prop where
  queue : s.queue_ = []
  workers : ∀ w ∈ s.workers, w ≠ .popping ∧ ∀ f, w = .running f → f = []

-- ---------------------------------------------------------------------------
-- What is left to run
-- ---------------------------------------------------------------------------

section Left

variable {M : Type} [AddCommMonoid M]

def bodyTotal (μ : Instr ε → M) (f : List (Instr ε)) : M := (f.map μ).sum

def MainInstr.total (μ : Instr ε → M) : MainInstr ε → M
  | .run i => μ i
  | .queue f => bodyTotal μ f
  | .notify => 0

def Worker.total (μ : Instr ε → M) : Worker ε → M
  | .running f => bodyTotal μ f
  | _ => 0

def mainTotal (μ : Instr ε → M) (main : List (MainInstr ε)) : M :=
  (main.map (MainInstr.total μ)).sum

def State.left (μ : Instr ε → M) (s : State ε) : M :=
  mainTotal μ s.main + (s.queue_.map (bodyTotal μ)).sum + (s.workers.map (Worker.total μ)).sum

@[simp] theorem bodyTotal_nil (μ : Instr ε → M) : bodyTotal μ [] = 0 := rfl

@[simp] theorem bodyTotal_cons (μ : Instr ε → M) (i : Instr ε) (f : List (Instr ε)) :
    bodyTotal μ (i :: f) = μ i + bodyTotal μ f := by
  simp [bodyTotal]

@[simp] theorem bodyTotal_append (μ : Instr ε → M) (f g : List (Instr ε)) :
    bodyTotal μ (f ++ g) = bodyTotal μ f + bodyTotal μ g := by
  simp [bodyTotal]

@[simp] theorem mainTotal_nil (μ : Instr ε → M) : mainTotal μ [] = 0 := rfl

@[simp] theorem mainTotal_cons (μ : Instr ε → M) (i : MainInstr ε) (main : List (MainInstr ε)) :
    mainTotal μ (i :: main) = i.total μ + mainTotal μ main := by
  simp [mainTotal]

@[simp] theorem mainTotal_append (μ : Instr ε → M) (p q : List (MainInstr ε)) :
    mainTotal μ (p ++ q) = mainTotal μ p + mainTotal μ q := by
  simp [mainTotal]

@[simp] theorem exec_main (s : State ε) (i : Instr ε) : (s.exec i).main = s.main := by
  cases i <;> rfl

@[simp] theorem exec_queue (s : State ε) (i : Instr ε) : (s.exec i).queue_ = s.queue_ := by
  cases i <;> rfl

@[simp] theorem exec_sem_ (s : State ε) (i : Instr ε) : (s.exec i).sem_ = s.sem_ := by
  cases i <;> rfl

@[simp] theorem exec_workers (s : State ε) (i : Instr ε) : (s.exec i).workers = s.workers := by
  cases i <;> rfl

@[simp] theorem left_exec (μ : Instr ε → M) (s : State ε) (i : Instr ε) :
    (s.exec i).left μ = s.left μ := by
  cases i <;> rfl

theorem mainTotal_flatMap (μ : Instr ε → M) (l : List α) (p : α → List (MainInstr ε)) :
    mainTotal μ (l.flatMap p) = (l.map fun x => mainTotal μ (p x)).sum := by
  induction l with
  | nil => rfl
  | cons x l ih => simp [ih]

theorem mainTotal_run (μ : Instr ε → M) (f : List (Instr ε)) :
    mainTotal μ (f.map .run) = bodyTotal μ f := by
  induction f with
  | nil => rfl
  | cons i f ih => simp [ih, MainInstr.total]

@[simp] theorem Worker.total_ready (μ : Instr ε → M) : Worker.total μ .ready = 0 := rfl

@[simp] theorem Worker.total_waiting (μ : Instr ε → M) : Worker.total μ .waiting = 0 := rfl

@[simp] theorem Worker.total_woken (μ : Instr ε → M) : Worker.total μ .woken = 0 := rfl

@[simp] theorem Worker.total_popping (μ : Instr ε → M) : Worker.total μ .popping = 0 := rfl

@[simp] theorem Worker.total_running (μ : Instr ε → M) (f : List (Instr ε)) :
    Worker.total μ (.running f) = bodyTotal μ f := rfl

theorem Worker.total_acquiring {μ : Instr ε → M} {w : Worker ε} (h : w.Acquiring) :
    w.total μ = 0 := by
  cases w with
  | ready | waiting | woken => rfl
  | popping | running f => cases h

theorem Worker.Awake.acquiring {w : Worker ε} (h : w.Awake) : w.Acquiring := by
  cases w with
  | ready | woken => trivial
  | waiting | popping | running f => cases h

theorem Worker.NotifyOne.total {μ : Instr ε → M} (h : NotifyOne ws ws') :
    (ws'.map (Worker.total μ)).sum = (ws.map (Worker.total μ)).sum := by
  cases h with
  | none _ => rfl
  | one ws₁ ws₂ => simp [Worker.total]

/-- The unit the caller has taken. -/
def Caller.taken : Caller → ℤ
  | .returned => 1
  | _ => 0

/-- A step executes one instruction of the work that is left, or it leaves the work
and the units of the caller's semaphore as they were. -/
theorem Step.left {s t : State ε} (h : Step s t) :
    (∃ (i : Instr ε) (s' : State ε), t = s'.exec i ∧ s'.emitted = s.emitted ∧
        s'.sem = s.sem ∧ s'.caller = s.caller ∧
        ∀ {M : Type} [AddCommMonoid M] (μ : Instr ε → M), s.left μ = μ i + t.left μ) ∨
      (t.emitted = s.emitted ∧
        t.sem.count_ + t.caller.taken = s.sem.count_ + s.caller.taken ∧
        ∀ {M : Type} [AddCommMonoid M] (μ : Instr ε → M), t.left μ = s.left μ) := by
  cases h with
  | @main i rest h =>
    refine .inl ⟨i, _, rfl, rfl, rfl, rfl, fun μ => ?_⟩
    rw [left_exec]
    simp only [State.left, h, mainTotal_cons, MainInstr.total, add_assoc]
  | @queue f rest h =>
    refine .inr ⟨rfl, rfl, fun μ => ?_⟩
    simp only [State.left, h, mainTotal_cons, MainInstr.total, List.map_append, List.sum_append,
      List.map_singleton, List.sum_singleton, zero_add]
    abel
  | notify h hw =>
    refine .inr ⟨rfl, rfl, fun μ => ?_⟩
    simp only [State.left, h, mainTotal_cons, MainInstr.total, zero_add, hw.total]
  | sleep h hw ha =>
    refine .inr ⟨rfl, rfl, fun μ => ?_⟩
    simp [State.left, h, Worker.total_acquiring hw.acquiring]
  | acquire h hw ha =>
    refine .inr ⟨rfl, rfl, fun μ => ?_⟩
    simp [State.left, h, Worker.total_acquiring hw]
  | pop h hq =>
    refine .inr ⟨rfl, rfl, fun μ => ?_⟩
    simp only [State.left, h, hq, List.map_append, List.map_cons, List.sum_append, List.sum_cons,
      Worker.total_running, Worker.total_popping, zero_add]
    abel
  | @work ws₁ ws₂ i f h =>
    refine .inl ⟨i, _, rfl, rfl, rfl, rfl, fun μ => ?_⟩
    rw [left_exec]
    simp only [State.left, h, List.map_append, List.map_cons, List.sum_append, List.sum_cons,
      Worker.total_running, bodyTotal_cons]
    abel
  | finish h =>
    refine .inr ⟨rfl, rfl, fun μ => ?_⟩
    simp [State.left, h]
  | callerWait h hc ha =>
    refine .inr ⟨rfl, ?_, fun μ => rfl⟩
    rcases hc with hc | hc
    · simp [hc, Caller.taken]
    · simp [hc, Caller.taken]
  | callerReturn h hc ha =>
    obtain ⟨_, rfl⟩ := VirtualSemaphore.acquire_eq_acquired ha
    refine .inr ⟨rfl, ?_, fun μ => rfl⟩
    have h0 : s.caller.taken = 0 := by
      cases hs : s.caller with
      | ready | waiting | woken => rfl
      | returned => exact absurd hs hc
    have h1 : Caller.returned.taken = 1 := rfl
    simp only [h0, h1]
    omega

end Left

-- ---------------------------------------------------------------------------
-- Releases, events, weight
-- ---------------------------------------------------------------------------

def Instr.releases : Instr ε → ℕ
  | .emit _ => 0
  | .release => 1

def Instr.events : Instr ε → Multiset ε
  | .emit xs => xs
  | .release => 0

/-- Executing `emit` takes one step; a release may wake the caller, who then takes
one more. -/
def Instr.weight : Instr ε → ℕ
  | .emit _ => 1
  | .release => 2

def MainInstr.weight : MainInstr ε → ℕ
  | .run i => i.weight
  | .queue f => bodyTotal Instr.weight f + 7
  | .notify => 3

def Caller.weight : Caller → ℕ
  | .ready | .woken => 2
  | .waiting => 1
  | .returned => 0

def Worker.weight : Worker ε → ℕ
  | .ready | .woken => 1
  | .waiting | .popping => 0
  | .running f => bodyTotal Instr.weight f + 2

def State.weight (s : State ε) : ℕ :=
  (s.main.map MainInstr.weight).sum + s.caller.weight +
    (s.queue_.map fun f => bodyTotal Instr.weight f + 3).sum + s.sem_.count_.toNat +
    (s.workers.map Worker.weight).sum

theorem exec_emitted (s : State ε) (i : Instr ε) :
    ((s.exec i).emitted : Multiset ε) = s.emitted + i.events := by
  cases i with
  | emit xs => exact (Multiset.coe_add _ _).symm
  | release => simp [State.exec, Instr.events]

theorem exec_weight (s : State ε) (i : Instr ε) :
    (s.exec i).weight + 1 ≤ s.weight + i.weight := by
  cases i with
  | emit xs => exact le_rfl
  | release =>
    have hc : s.caller.notifyOne.weight ≤ s.caller.weight + 1 := by
      cases s.caller <;> decide
    simp only [State.weight, State.exec, Instr.weight]
    omega

theorem Worker.NotifyOne.weight {ws ws' : List (Worker ε)} (h : NotifyOne ws ws') :
    (ws'.map Worker.weight).sum ≤ (ws.map Worker.weight).sum + 1 := by
  cases h with
  | none _ => omega
  | one ws₁ ws₂ =>
    simp [Worker.weight]
    omega

theorem Worker.Awake.weight {w : Worker ε} (h : w.Awake) : w.weight = 1 := by
  cases w with
  | ready | woken => rfl
  | waiting | popping | running f => cases h

theorem acquire_toNat {sem sem' : VirtualSemaphore} (h : sem.acquire = .acquired sem') :
    sem'.count_.toNat + 1 = sem.count_.toNat := by
  obtain ⟨hpos, rfl⟩ := VirtualSemaphore.acquire_eq_acquired h
  show (sem.count_ - 1).toNat + 1 = _
  omega

theorem release_toNat (sem : VirtualSemaphore) :
    sem.release.count_.toNat ≤ sem.count_.toNat + 1 := by
  have := sem.release_le
  omega

theorem Step.weight {s t : State ε} (h : Step s t) : t.weight < s.weight := by
  cases h with
  | @main i rest h =>
    have := exec_weight { s with main := rest } i
    simp only [State.weight, h, List.map_cons, List.sum_cons, MainInstr.weight] at this ⊢
    omega
  | queue h =>
    simp [State.weight, h, MainInstr.weight]
    omega
  | notify h hw =>
    have h1 := hw.weight
    have h2 := release_toNat s.sem_
    simp only [State.weight, h, List.map_cons, List.sum_cons, MainInstr.weight]
    omega
  | sleep h hw ha =>
    have h0 : (Worker.waiting : Worker ε).weight = 0 := rfl
    simp [State.weight, h, hw.weight, h0]
  | acquire h hw ha =>
    have := acquire_toNat ha
    simp [State.weight, h, Worker.weight]
    omega
  | pop h hq =>
    simp [State.weight, h, hq, Worker.weight]
    omega
  | @work ws₁ ws₂ i f h =>
    have := exec_weight { s with workers := ws₁ ++ Worker.running f :: ws₂ } i
    simp only [State.weight, h, List.map_cons, List.sum_cons, List.map_append, List.sum_append,
      Worker.weight, bodyTotal_cons] at this ⊢
    omega
  | finish h =>
    simp [State.weight, h, Worker.weight]
  | callerWait h hc ha =>
    rcases hc with hc | hc
    · simp [State.weight, hc, Caller.weight]
    · simp [State.weight, hc, Caller.weight]
  | callerReturn h hc ha =>
    have : 0 < s.caller.weight := by
      cases hs : s.caller with
      | ready | waiting | woken => decide
      | returned => exact absurd hs hc
    have h0 : Caller.returned.weight = 0 := rfl
    simp only [State.weight, h0]
    omega

-- ---------------------------------------------------------------------------
-- What holds of every state reached
-- ---------------------------------------------------------------------------

/-- A callable whose last instruction is a release. -/
def EndsInRelease : List (Instr ε) → Prop
  | [] => False
  | [i] => i = .release
  | _ :: f => EndsInRelease f

theorem EndsInRelease.append (f : List (Instr ε)) : EndsInRelease (f ++ [.release]) := by
  induction f with
  | nil => rfl
  | cons i f ih =>
    cases f with
    | nil => exact ih
    | cons j f => exact ih

theorem EndsInRelease.tail {i : Instr ε} {f : List (Instr ε)} (h : EndsInRelease (i :: f))
    (hf : f ≠ []) : EndsInRelease f := by
  cases f with
  | nil => exact absurd rfl hf
  | cons j f => exact h

theorem EndsInRelease.releases {f : List (Instr ε)} (h : EndsInRelease f) :
    0 < bodyTotal Instr.releases f := by
  induction f with
  | nil => cases h
  | cons i f ih =>
    rw [bodyTotal_cons]
    cases f with
    | nil =>
      cases h
      exact Nat.one_pos
    | cons j f =>
      have := ih (h.tail (by simp))
      omega

/-- What a program may hold before it starts. -/
def MainInstr.Fresh : MainInstr ε → Prop
  | .run _ => True
  | .queue f => EndsInRelease f
  | .notify => False

/-- Every callable, queued or running, still has a release to make unless it is
over. -/
structure State.Bodies (s : State ε) : Prop where
  main : ∀ f, .queue f ∈ s.main → EndsInRelease f
  queue : ∀ f ∈ s.queue_, EndsInRelease f
  running : ∀ f, .running f ∈ s.workers → f ≠ [] → EndsInRelease f

/-- The caller sleeps only while the count is not positive, and not before its
program is over. -/
structure State.CallerOk (s : State ε) : Prop where
  plain : s.sem.Plain
  asleep : s.caller = .waiting → s.sem.count_ ≤ 0
  started : s.main ≠ [] → s.caller = .ready
  settled : s.caller = .returned → 0 ≤ s.sem.count_

def Worker.isPopping : Worker ε → Bool
  | .popping => true
  | _ => false

def Worker.isWoken : Worker ε → Bool
  | .woken => true
  | _ => false

def MainInstr.isNotify : MainInstr ε → Bool
  | .notify => true
  | _ => false

/-- The pool's count and the threads past `acquire` match the queue, and no wake-up
is lost: while a worker sleeps, each unit belongs to a worker already woken. -/
structure State.PoolOk (s : State ε) : Prop where
  plain : s.sem_.Plain
  nonneg : 0 ≤ s.sem_.count_
  queued : (s.queue_.length : ℤ) = s.sem_.count_ + s.workers.countP Worker.isPopping +
    s.main.countP MainInstr.isNotify
  roused : .waiting ∈ s.workers → s.sem_.count_ ≤ s.workers.countP Worker.isWoken
  busy : s.workers ≠ []

theorem Worker.NotifyOne.running {ws ws' : List (Worker ε)} (h : NotifyOne ws ws')
    (hf : .running f ∈ ws') : .running f ∈ ws := by
  cases h with
  | none _ => exact hf
  | one ws₁ ws₂ => simpa using hf

theorem Worker.NotifyOne.popping {ws ws' : List (Worker ε)} (h : NotifyOne ws ws') :
    ws'.countP isPopping = ws.countP isPopping := by
  cases h with
  | none _ => rfl
  | one ws₁ ws₂ => simp [isPopping]

theorem Worker.NotifyOne.woken {ws ws' : List (Worker ε)} (h : NotifyOne ws ws')
    (hw : .waiting ∈ ws') :
    .waiting ∈ ws ∧ ws'.countP isWoken = ws.countP isWoken + 1 := by
  cases h with
  | none hn => exact absurd hw hn
  | one ws₁ ws₂ =>
    refine ⟨by simp, ?_⟩
    simp [isWoken, List.countP_cons]
    omega

theorem Worker.NotifyOne.ne_nil {ws ws' : List (Worker ε)} (h : NotifyOne ws ws')
    (hn : ws ≠ []) : ws' ≠ [] := by
  cases h with
  | none _ => exact hn
  | one ws₁ ws₂ => simp

theorem State.Bodies.step {s t : State ε} (hs : s.Bodies) (h : Step s t) : t.Bodies := by
  obtain ⟨hm, hq, hr⟩ := hs
  cases h with
  | @main i rest h =>
    rw [h] at hm
    refine ⟨fun f hf => hm f ?_, by simpa using hq, by simpa using hr⟩
    rw [exec_main] at hf
    exact List.mem_cons_of_mem _ hf
  | @queue f rest h =>
    rw [h] at hm
    refine ⟨fun g hg => hm g ?_, fun g hg => ?_, hr⟩
    · simpa using Or.inr (show .queue g ∈ rest by simpa using hg)
    · rcases List.mem_append.mp hg with hg | hg
      · exact hq g hg
      · cases List.mem_singleton.mp hg
        exact hm _ (by simp)
  | notify h hw =>
    rw [h] at hm
    exact ⟨fun g hg => hm g (by simp [hg]), hq, fun g hg => hr g (hw.running hg)⟩
  | sleep h hw ha =>
    rw [h] at hr
    refine ⟨hm, hq, fun g hg => hr g ?_⟩
    simp at hg ⊢
    tauto
  | acquire h hw ha =>
    rw [h] at hr
    refine ⟨hm, hq, fun g hg => hr g ?_⟩
    simp at hg ⊢
    tauto
  | pop h hf =>
    rw [h] at hr
    rw [hf] at hq
    refine ⟨hm, fun g hg => hq g (by simp [hg]), fun g hg hne => ?_⟩
    simp at hg
    rcases hg with hg | rfl | hg
    · exact hr g (by simp [hg]) hne
    · exact hq g (by simp)
    · exact hr g (by simp [hg]) hne
  | @work ws₁ ws₂ i f h =>
    rw [h] at hr
    refine ⟨by simpa using hm, by simpa using hq, fun g hg hne => ?_⟩
    simp at hg
    rcases hg with hg | rfl | hg
    · exact hr g (by simp [hg]) hne
    · exact (hr (i :: g) (by simp) (by simp)).tail hne
    · exact hr g (by simp [hg]) hne
  | finish h =>
    rw [h] at hr
    refine ⟨hm, hq, fun g hg => hr g ?_⟩
    simp at hg ⊢
    tauto
  | callerWait _ _ _ => exact ⟨hm, hq, hr⟩
  | callerReturn _ _ _ => exact ⟨hm, hq, hr⟩

theorem State.CallerOk.exec {s : State ε} (hs : s.CallerOk) (i : Instr ε) :
    (s.exec i).CallerOk := by
  cases i with
  | emit xs => exact ⟨hs.plain, hs.asleep, hs.started, hs.settled⟩
  | release =>
    refine ⟨hs.plain.release, fun h => ?_, fun h => ?_, fun h => ?_⟩
    · simp only [State.exec] at h
      cases hc : s.caller <;> simp [hc, Caller.notifyOne] at h
    · simp only [State.exec, hs.started h, Caller.notifyOne]
    · simp only [State.exec, hs.plain.release_count]
      have : s.caller = .returned := by
        simp only [State.exec] at h
        cases hc : s.caller <;> simp [hc, Caller.notifyOne] at h ⊢
      have := hs.settled this
      omega

theorem State.CallerOk.step {s t : State ε} (hs : s.CallerOk) (h : Step s t) : t.CallerOk := by
  have ⟨hp, ha, hm, hr⟩ := hs
  cases h with
  | @main i rest h =>
    have hs' : State.CallerOk { s with main := rest } :=
      ⟨hp, ha, fun _ => hm (by simp [h]), hr⟩
    exact hs'.exec i
  | queue h => exact ⟨hp, ha, fun _ => hm (by simp [h]), hr⟩
  | notify h hw => exact ⟨hp, ha, fun _ => hm (by simp [h]), hr⟩
  | sleep h hw ha' => exact ⟨hp, ha, hm, hr⟩
  | acquire h hw ha' => exact ⟨hp, ha, hm, hr⟩
  | pop h hq => exact ⟨hp, ha, hm, hr⟩
  | @work ws₁ ws₂ i f h =>
    have hs' : State.CallerOk { s with workers := ws₁ ++ Worker.running f :: ws₂ } :=
      ⟨hp, ha, hm, hr⟩
    exact hs'.exec i
  | finish h => exact ⟨hp, ha, hm, hr⟩
  | callerWait h hc ha' =>
    exact ⟨hp, fun _ => VirtualSemaphore.acquire_eq_wait ha', fun hne => absurd h hne, nofun⟩
  | callerReturn h hc ha' =>
    obtain ⟨hpos, rfl⟩ := VirtualSemaphore.acquire_eq_acquired ha'
    refine ⟨hp, nofun, fun hne => absurd h hne, fun _ => ?_⟩
    show 0 ≤ s.sem.count_ - 1
    omega

theorem Worker.Acquiring.isPopping {w : Worker ε} (h : w.Acquiring) : w.isPopping = false := by
  cases w with
  | ready | waiting | woken => rfl
  | popping | running f => cases h

theorem State.PoolOk.step {s t : State ε} (hs : s.PoolOk) (h : Step s t) : t.PoolOk := by
  have ⟨hp, hn, hq, hr, hb⟩ := hs
  cases h with
  | @main i rest h =>
    refine ⟨by simpa using hp, by simpa using hn, ?_, by simpa using hr, by simpa using hb⟩
    simpa [h, MainInstr.isNotify] using hq
  | queue h =>
    refine ⟨hp, hn, ?_, hr, hb⟩
    simp [h, MainInstr.isNotify, List.countP_cons] at hq ⊢
    omega
  | notify h hw =>
    refine ⟨hp.release, ?_, ?_, fun hwait => ?_, hw.ne_nil hb⟩
    · have := hp.release_count
      show 0 ≤ s.sem_.release.count_
      omega
    · simp [h, MainInstr.isNotify, List.countP_cons] at hq ⊢
      simp only [hp.release_count, hw.popping]
      omega
    · obtain ⟨hwait, hcount⟩ := hw.woken hwait
      have := hr hwait
      simp only [hp.release_count, hcount]
      omega
  | sleep h hw ha =>
    have := VirtualSemaphore.acquire_eq_wait ha
    refine ⟨hp, hn, ?_, fun _ => ?_, by simp⟩
    · have h0 : (Worker.waiting : Worker ε).isPopping = false := rfl
      simpa [h, hw.acquiring.isPopping, h0, List.countP_cons] using hq
    · show s.sem_.count_ ≤ _
      omega
  | @acquire ws₁ ws₂ w sem h hw ha =>
    obtain ⟨hpos, rfl⟩ := VirtualSemaphore.acquire_eq_acquired ha
    refine ⟨hp, ?_, ?_, fun hwait => ?_, by simp⟩
    · show 0 ≤ s.sem_.count_ - 1
      omega
    · have h0 : (Worker.popping : Worker ε).isPopping = true := rfl
      simp [h, hw.isPopping, h0] at hq ⊢
      omega
    · have := hr (by rw [h]; simp at hwait ⊢; tauto)
      have hle : s.workers.countP Worker.isWoken ≤
          (ws₁ ++ .popping :: ws₂).countP Worker.isWoken + 1 := by
        simp [h, List.countP_cons]
        split <;> omega
      show s.sem_.count_ - 1 ≤ _
      simp only
      omega
  | pop h hf =>
    refine ⟨hp, hn, ?_, fun hwait => ?_, by simp⟩
    · simp [h, hf, Worker.isPopping, List.countP_cons] at hq ⊢
      omega
    · have := hr (by rw [h]; simpa using hwait)
      simpa [h, Worker.isWoken, List.countP_cons] using this
  | work h =>
    refine ⟨by simpa using hp, by simpa using hn, ?_, fun hwait => ?_, by simp⟩
    · simpa [h, Worker.isPopping, List.countP_cons] using hq
    · have := hr (by rw [h]; simpa using hwait)
      simpa [h, Worker.isWoken, List.countP_cons] using this
  | finish h =>
    refine ⟨hp, hn, ?_, fun hwait => ?_, by simp⟩
    · simpa [h, Worker.isPopping, List.countP_cons] using hq
    · have := hr (by rw [h]; simpa using hwait)
      simpa [h, Worker.isWoken, List.countP_cons] using this
  | callerWait _ _ _ => exact ⟨hp, hn, hq, hr, hb⟩
  | callerReturn _ _ _ => exact ⟨hp, hn, hq, hr, hb⟩

/-- The count of the caller's semaphore together with the releases still to come, and
the events made together with those to come, do not change. -/
structure State.Inv (events : Multiset ε) (s : State ε) : Prop where
  bodies : s.Bodies
  caller : s.CallerOk
  pool : s.PoolOk
  count : s.sem.count_ + (s.left Instr.releases : ℕ) + s.caller.taken = 1
  events : (s.emitted : Multiset ε) + s.left Instr.events = events

theorem exec_count {s : State ε} (hs : s.sem.Plain) (i : Instr ε) :
    (s.exec i).sem.count_ + (s.exec i).caller.taken =
      s.sem.count_ + s.caller.taken + (i.releases : ℕ) := by
  cases i with
  | emit xs => simp [State.exec, Instr.releases]
  | release =>
    have hc : s.caller.notifyOne.taken = s.caller.taken := by
      cases s.caller <;> rfl
    simp only [State.exec, Instr.releases, hc, hs.release_count]
    omega

theorem State.Inv.step {events : Multiset ε} {s t : State ε} (hs : s.Inv events)
    (h : Step s t) : t.Inv events := by
  refine ⟨hs.bodies.step h, hs.caller.step h, hs.pool.step h, ?_, ?_⟩
  · have hcount := hs.count
    rcases h.left with ⟨i, s', rfl, _, hsem, hcaller, hleft⟩ | ⟨_, hsem, hleft⟩
    · have := exec_count (s := s') (hsem ▸ hs.caller.plain) i
      rw [hsem, hcaller] at this
      rw [hleft] at hcount
      push_cast at hcount
      omega
    · rw [hleft]
      omega
  · have hevents := hs.events
    rcases h.left with ⟨i, s', rfl, hemit, _, _, hleft⟩ | ⟨hemit, _, hleft⟩
    · rw [exec_emitted, hemit, add_assoc, ← hleft, hevents]
    · rw [hemit, hleft, hevents]

theorem State.start_inv {n m : ℕ} {main : List (MainInstr ε)} (hn : 0 < n)
    (hm : mainTotal Instr.releases main = m) (hf : ∀ i ∈ main, i.Fresh) :
    (State.start n m main).Inv (mainTotal Instr.events main) where
  bodies := ⟨fun f => hf (.queue f), by simp [State.start], by simp [State.start]⟩
  caller := ⟨VirtualSemaphore.ofCount_plain _, nofun, fun _ => rfl, nofun⟩
  pool := by
    have hno : main.countP MainInstr.isNotify = 0 := by
      refine List.countP_eq_zero.mpr fun i hi => ?_
      cases i with
      | run i | queue f => simp [MainInstr.isNotify]
      | notify => exact (hf _ hi).elim
    refine ⟨VirtualSemaphore.ofCount_plain _, le_rfl, ?_, ?_, ?_⟩
    · simp [State.start, VirtualSemaphore.ofCount, hno, List.countP_replicate, Worker.isPopping]
    · simp [State.start]
    · simp [State.start]
      omega
  count := by
    simp [State.start, State.left, hm, VirtualSemaphore.ofCount, Caller.taken]
  events := by
    simp [State.start, State.left]

/-- What one call owes, with `n` workers and its semaphore started at `1 - m`: its
program makes `m` releases; when `acquire` returns, every callable has finished and
the events are those given; the call never blocks forever. -/
structure Joins (n m : ℕ) (main : List (MainInstr ε)) (events : List ε) : Prop where
  releases : mainTotal Instr.releases main = m
  joined : ∀ s, ReflTransGen Step (State.start n m main) s → s.caller = .returned →
    s.Joined ∧ s.emitted.Perm events
  progress : ∀ s, ReflTransGen Step (State.start n m main) s → s.caller ≠ .returned →
    ∃ t, Step s t
  terminates : ∀ run : ℕ → State ε, run 0 = State.start n m main →
    ¬∀ i, Step (run i) (run (i + 1))

theorem State.Inv.joined {events : Multiset ε} {s : State ε} (hs : s.Inv events)
    (h : s.caller = .returned) : s.Joined ∧ (s.emitted : Multiset ε) = events := by
  have hmain : s.main = [] := by
    by_contra hne
    simp [hs.caller.started hne] at h
  have hzero : s.left Instr.releases = 0 := by
    have := hs.count
    have := hs.caller.settled h
    have : s.caller.taken = 1 := by rw [h]; rfl
    omega
  simp only [State.left, hmain, mainTotal_nil, zero_add, Nat.add_eq_zero_iff,
    List.sum_eq_zero_iff, List.forall_mem_map] at hzero
  obtain ⟨hqueue, hworkers⟩ := hzero
  have hq : s.queue_ = [] := by
    refine List.eq_nil_iff_forall_not_mem.mpr fun f hf => ?_
    have := (hs.bodies.queue f hf).releases
    have := hqueue f hf
    omega
  have hrun : ∀ f, .running f ∈ s.workers → f = [] := by
    intro f hf
    by_contra hne
    have := (hs.bodies.running f hf hne).releases
    have := hworkers _ hf
    rw [Worker.total_running] at this
    omega
  have hpop : s.workers.countP Worker.isPopping = 0 := by
    have := hs.pool.queued
    have := hs.pool.nonneg
    simp only [hq, List.length_nil] at *
    omega
  refine ⟨⟨hq, fun w hw => ⟨?_, fun f hf => hrun f (hf ▸ hw)⟩⟩, ?_⟩
  · rintro rfl
    exact List.countP_eq_zero.mp hpop _ hw rfl
  · have hleft : s.left Instr.events = 0 := by
      simp only [State.left, hmain, hq, mainTotal_nil, List.map_nil, List.sum_nil, zero_add]
      refine List.sum_eq_zero fun x hx => ?_
      obtain ⟨w, hw, rfl⟩ := List.mem_map.mp hx
      cases w with
      | ready | waiting | woken | popping => rfl
      | running f => simp [hrun f hw]
    rw [← hs.events, hleft, add_zero]

theorem State.PoolOk.worker_step {s : State ε} (hs : s.PoolOk) {w : Worker ε}
    (hw : w ∈ s.workers) (hne : w ≠ .waiting) : ∃ t, Step s t := by
  obtain ⟨ws₁, ws₂, h⟩ := List.append_of_mem hw
  have awake (ha : w.Awake) : ∃ t, Step s t := by
    by_cases hc : s.sem_.count_ ≤ 0
    · exact ⟨_, .sleep h ha (by simp [hs.plain.acquire, hc])⟩
    · exact ⟨_, .acquire h ha.acquiring (by simp [hs.plain.acquire, hc]; rfl)⟩
  cases w with
  | ready => exact awake trivial
  | waiting => exact absurd rfl hne
  | woken => exact awake trivial
  | popping =>
    have hq := hs.queued
    have hn := hs.nonneg
    have hpos : 0 < s.workers.countP Worker.isPopping :=
      List.countP_pos_iff.mpr ⟨_, hw, rfl⟩
    cases hqueue : s.queue_ with
    | nil =>
      rw [hqueue, List.length_nil] at hq
      omega
    | cons f fs => exact ⟨_, .pop h hqueue⟩
  | running f =>
    cases f with
    | nil => exact ⟨_, .finish h⟩
    | cons i f => exact ⟨_, .work h⟩

/-- With every worker asleep and the caller's program over, no work is left. -/
theorem State.PoolOk.left_asleep {s : State ε} (hs : s.PoolOk)
    (hall : ∀ w ∈ s.workers, w = .waiting) (hmain : s.main = []) :
    s.left Instr.releases = 0 := by
  obtain ⟨w, hw⟩ := List.exists_mem_of_ne_nil _ hs.busy
  have hwoken : s.workers.countP Worker.isWoken = 0 :=
    List.countP_eq_zero.mpr fun w hw => by simp [hall w hw, Worker.isWoken]
  have hpop : s.workers.countP Worker.isPopping = 0 :=
    List.countP_eq_zero.mpr fun w hw => by simp [hall w hw, Worker.isPopping]
  have hcount := hs.roused (hall w hw ▸ hw)
  have hq := hs.queued
  rw [hpop, hmain, List.countP_nil] at hq
  have hnil : s.queue_ = [] := by
    refine List.length_eq_zero_iff.mp ?_
    omega
  have hzero : (s.workers.map (Worker.total Instr.releases)).sum = 0 := by
    refine List.sum_eq_zero fun x hx => ?_
    obtain ⟨w, hw, rfl⟩ := List.mem_map.mp hx
    simp [hall w hw]
  simp [State.left, hmain, hnil, hzero]

theorem State.Inv.progress {events : Multiset ε} {s : State ε} (hs : s.Inv events)
    (h : s.caller ≠ .returned) : ∃ t, Step s t := by
  cases hmain : s.main with
  | cons i rest =>
    cases i with
    | run i => exact ⟨_, .main hmain⟩
    | queue f => exact ⟨_, .queue hmain⟩
    | notify =>
      by_cases hw : .waiting ∈ s.workers
      · obtain ⟨ws₁, ws₂, hw⟩ := List.append_of_mem hw
        have hn : Worker.NotifyOne s.workers (ws₁ ++ .woken :: ws₂) := by
          rw [hw]
          exact .one ws₁ ws₂
        exact ⟨_, .notify hmain hn⟩
      · exact ⟨_, .notify hmain (.none hw)⟩
  | nil =>
    by_cases hc : s.sem.count_ ≤ 0
    · have hwait : s.sem.acquire = .wait := by simp [hs.caller.plain.acquire, hc]
      cases hcaller : s.caller with
      | ready => exact ⟨_, .callerWait hmain (.inl hcaller) hwait⟩
      | woken => exact ⟨_, .callerWait hmain (.inr hcaller) hwait⟩
      | returned => exact absurd hcaller h
      | waiting =>
        have hcount := hs.count
        have h0 : Caller.waiting.taken = 0 := rfl
        rw [hcaller, h0] at hcount
        have hsome : ∃ w ∈ s.workers, w ≠ .waiting := by
          by_contra hno
          push Not at hno
          have := hs.pool.left_asleep hno hmain
          omega
        obtain ⟨w, hw, hne⟩ := hsome
        exact hs.pool.worker_step hw hne
    · exact ⟨_, .callerReturn hmain h (by simp [hs.caller.plain.acquire, hc]; rfl)⟩

theorem joins {n m : ℕ} {main : List (MainInstr ε)} {events : List ε} (hn : 0 < n)
    (hm : mainTotal Instr.releases main = m) (hf : ∀ i ∈ main, i.Fresh)
    (he : mainTotal Instr.events main = events) :
    Joins n m main events := by
  have hinv {s : State ε} (h : ReflTransGen Step (State.start n m main) s) :
      s.Inv (mainTotal Instr.events main) :=
    Runs.invariant (fun _ _ ha hs => ha.step hs) (State.start_inv hn hm hf) h
  refine ⟨hm, fun s h hret => ?_, fun s h hret => (hinv h).progress hret, fun run _ => ?_⟩
  · obtain ⟨hjoined, hemit⟩ := (hinv h).joined hret
    exact ⟨hjoined, Multiset.coe_eq_coe.mp (hemit.trans he)⟩
  · exact Runs.terminates (fun _ _ hs => hs.weight) run

end Flecsi.Concurrency
