import Mathlib

/-!
# The virtual semaphore

`count_` may start negative. A call of `acquire` returns `false` once the
semaphore is interrupted, takes a unit while the count is positive, and waits on
the condition variable otherwise.
-/

namespace Flecsi.Concurrency

structure VirtualSemaphore where
  count_ : ℤ
  max_count_ : ℤ
  done_ : Bool
  deriving DecidableEq, Repr

inductive Acquire where
  | interrupted
  | acquired (sem : VirtualSemaphore)
  | wait
  deriving DecidableEq, Repr

namespace VirtualSemaphore

/-- The constructor that leaves the count without a maximum. -/
def ofCount (count : ℤ) : VirtualSemaphore :=
  { count_ := count, max_count_ := 0, done_ := false }

/-- One pass of the loop in `acquire`, from the check of `done_` to the return or
the next wait. -/
def acquire (sem : VirtualSemaphore) : Acquire :=
  if sem.done_ then .interrupted
  else if sem.count_ ≤ 0 then .wait
  else .acquired { sem with count_ := sem.count_ - 1 }

/-- The count after `release`; whom `notify_one` wakes is a matter of the threads
that wait. -/
def release (sem : VirtualSemaphore) : VirtualSemaphore :=
  if sem.max_count_ = 0 ∨ sem.count_ < sem.max_count_ then
    { sem with count_ := sem.count_ + 1 }
  else sem

/-- Neither bounded nor interrupted, as `ofCount` builds it. -/
def Plain (sem : VirtualSemaphore) : Prop :=
  sem.max_count_ = 0 ∧ sem.done_ = false

theorem ofCount_plain (count : ℤ) : (ofCount count).Plain := ⟨rfl, rfl⟩

theorem release_le (sem : VirtualSemaphore) : sem.release.count_ ≤ sem.count_ + 1 := by
  unfold release
  split
  · exact le_rfl
  · omega

theorem Plain.release_count {sem : VirtualSemaphore} (h : sem.Plain) :
    sem.release.count_ = sem.count_ + 1 := by
  simp [release, h.1]

theorem Plain.release {sem : VirtualSemaphore} (h : sem.Plain) : sem.release.Plain := by
  unfold VirtualSemaphore.release
  split
  · exact h
  · exact h

theorem acquire_eq_acquired {sem sem' : VirtualSemaphore} (h : sem.acquire = .acquired sem') :
    0 < sem.count_ ∧ sem' = { sem with count_ := sem.count_ - 1 } := by
  unfold acquire at h
  split at h
  · cases h
  split at h
  · cases h
  · cases h
    exact ⟨by omega, rfl⟩

theorem acquire_eq_wait {sem : VirtualSemaphore} (h : sem.acquire = .wait) : sem.count_ ≤ 0 := by
  unfold acquire at h
  split at h
  · cases h
  split at h
  · assumption
  · cases h

theorem Plain.acquire {sem : VirtualSemaphore} (h : sem.Plain) :
    sem.acquire = if sem.count_ ≤ 0 then .wait
      else .acquired { sem with count_ := sem.count_ - 1 } := by
  simp [VirtualSemaphore.acquire, h.2]

end VirtualSemaphore

end Flecsi.Concurrency
