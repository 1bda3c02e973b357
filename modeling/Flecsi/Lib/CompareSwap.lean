import Mathlib

/-!
# Compare-and-swap loops

Each of several calls reads a word of a shared memory, makes a new word of it and
writes that if the old word is still there, or else begins again. The calls take
effect one after another.
-/

namespace CompareSwap

open Relation (ReflTransGen)

variable {ι μ ω : Type*}

/-- What the calls read and write, and the words that they may make of the word
that was read. -/
structure Loop (ι μ ω : Type*) where
  read : ι → μ → Option ω
  next : ι → ω → ω → Prop
  write : ι → ω → μ → Option μ

inductive Phase (ω : Type*)
  | start
  | loaded (old new : ω)
  | done

structure State (ι μ ω : Type*) where
  mem : μ
  phase : ι → Phase ω

def initial (mem : μ) : State ι μ ω := ⟨mem, fun _ => .start⟩

/-- One call by itself. -/
def Atomic (loop : Loop ι μ ω) (t : ι) (mem mem' : μ) : Prop :=
  ∃ old new, loop.read t mem = some old ∧ loop.next t old new ∧ loop.write t new mem = some mem'

/-- The calls one after another. -/
inductive InOrder (loop : Loop ι μ ω) (mem : μ) : List ι → μ → Prop
  | nil : InOrder loop mem [] mem
  | snoc {order : List ι} {t : ι} {mem1 mem2 : μ} :
    InOrder loop mem order mem1 → Atomic loop t mem1 mem2 → InOrder loop mem (order ++ [t]) mem2

/-- The calls that are done have taken effect in some order, and the others have
made a word that they may. -/
structure Ordered (loop : Loop ι μ ω) (mem : μ) (s : State ι μ ω) (order : List ι) : Prop where
  nodup : order.Nodup
  done : ∀ t, t ∈ order ↔ s.phase t = .done
  loaded : ∀ t old new, s.phase t = .loaded old new → loop.next t old new
  effect : InOrder loop mem order s.mem

theorem Ordered.initial (loop : Loop ι μ ω) (mem : μ) : Ordered loop mem (initial mem) [] :=
  ⟨List.nodup_nil, fun _ => by simp [CompareSwap.initial], nofun, .nil⟩

section
variable [DecidableEq ι]

def State.enter (s : State ι μ ω) (t : ι) (phase : Phase ω) : State ι μ ω :=
  { s with phase := Function.update s.phase t phase }

@[simp] theorem enter_phase_self (s : State ι μ ω) (t : ι) (phase : Phase ω) : (s.enter t phase).phase t = phase := by
  simp [State.enter]

theorem enter_phase_of_ne (s : State ι μ ω) {t u : ι} (hne : u ≠ t) (phase : Phase ω) :
    (s.enter t phase).phase u = s.phase u := by
  simp [State.enter, hne]

inductive Step (loop : Loop ι μ ω) : State ι μ ω → State ι μ ω → Prop
  | load {s : State ι μ ω} {t : ι} {old new : ω} : s.phase t = .start → loop.read t s.mem = some old →
    loop.next t old new → Step loop s (s.enter t (.loaded old new))
  | swap {s : State ι μ ω} {t : ι} {old new : ω} {mem : μ} : s.phase t = .loaded old new →
    loop.read t s.mem = some old → loop.write t new s.mem = some mem → Step loop s (State.enter { s with mem } t .done)
  | retry {s : State ι μ ω} {t : ι} {old new : ω} : s.phase t = .loaded old new →
    loop.read t s.mem ≠ some old → Step loop s (s.enter t .start)

variable {loop : Loop ι μ ω} {mem : μ} {s s' : State ι μ ω}

/-- A call that is not done goes to another phase that is not the last one. -/
theorem Ordered.enter {order : List ι} (h : Ordered loop mem s order) {t : ι} (ht : s.phase t ≠ .done) {phase : Phase ω}
    (hphase : phase ≠ .done) (hloaded : ∀ old new, phase = .loaded old new → loop.next t old new) :
    Ordered loop mem (s.enter t phase) order := by
  refine ⟨h.nodup, fun u => ?_, fun u old new hu => ?_, h.effect⟩
  · rw [h.done]
    cases eq_or_ne u t with
    | inl heq =>
      subst heq
      simp [ht, hphase]
    | inr hne => rw [enter_phase_of_ne s hne]
  · cases eq_or_ne u t with
    | inl heq =>
      subst heq
      rw [enter_phase_self] at hu
      exact hloaded old new hu
    | inr hne =>
      rw [enter_phase_of_ne s hne] at hu
      exact h.loaded u old new hu

theorem Step.ordered {order : List ι} (h : Ordered loop mem s order) (hs : Step loop s s') :
    ∃ order', Ordered loop mem s' order' := by
  cases hs with
  | load ht hread hnext =>
    refine ⟨order, h.enter (by simp [ht]) (by simp) fun old new heq => ?_⟩
    cases heq
    exact hnext
  | retry ht hread => exact ⟨order, h.enter (by simp [ht]) (by simp) fun old new heq => by cases heq⟩
  | @swap t old new mem1 ht hread hwrite =>
    refine ⟨order ++ [t], ?_, fun u => ?_, fun u old new hu => ?_, ?_⟩
    · rw [List.nodup_append]
      refine ⟨h.nodup, List.nodup_singleton t, fun u hu v hv => ?_⟩
      rintro rfl
      obtain rfl := List.mem_singleton.mp hv
      rw [h.done, ht] at hu
      cases hu
    · rw [List.mem_append, List.mem_singleton, h.done]
      cases eq_or_ne u t with
      | inl heq => simp [heq]
      | inr hne => simp [enter_phase_of_ne _ hne, hne]
    · cases eq_or_ne u t with
      | inl heq =>
        subst heq
        rw [enter_phase_self] at hu
        cases hu
      | inr hne =>
        rw [enter_phase_of_ne _ hne] at hu
        exact h.loaded u old new hu
    · exact h.effect.snoc ⟨old, new, hread, h.loaded t old new ht, hwrite⟩

/-- In every interleaving the calls that are done have taken effect one after
another. -/
theorem run_ordered (h : ReflTransGen (Step loop) (initial mem) s) : ∃ order, Ordered loop mem s order := by
  induction h with
  | refl => exact ⟨[], .initial loop mem⟩
  | tail _ hs ih =>
    obtain ⟨order, h⟩ := ih
    exact hs.ordered h

/-- A call may run alone. -/
theorem Atomic.run {t : ι} {mem' : μ} (h : Atomic loop t mem mem') :
    ∃ s, ReflTransGen (Step loop) (initial mem) s ∧ s.mem = mem' := by
  obtain ⟨old, new, hread, hnext, hwrite⟩ := h
  have hload : Step loop (initial mem) ((initial mem).enter t (.loaded old new)) := .load rfl hread hnext
  have hswap : Step loop ((initial mem).enter t (.loaded old new)) _ :=
    .swap (enter_phase_self _ t _) hread hwrite
  exact ⟨_, (ReflTransGen.single hload).tail hswap, rfl⟩

end

end CompareSwap
