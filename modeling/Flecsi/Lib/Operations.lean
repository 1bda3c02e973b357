import Mathlib

/-!
# Sequences of operations

A component is given by what each operation does to its state, and an operation
may fail. It refines an abstract component when no allowed operation fails and
every one keeps the two related.
-/

namespace Operations

variable {σ α ω : Type*} {step : σ → ω → Option σ} {spec : α → ω → α} {ok : α → ω → Prop}

/-- The operations in their order. -/
def run (step : σ → ω → Option σ) (s : σ) (ops : List ω) : Option σ := ops.foldlM step s

/-- Every operation is allowed in the abstract state that the earlier ones lead
to. -/
def Allowed (ok : α → ω → Prop) (spec : α → ω → α) : α → List ω → Prop
  | _, [] => True
  | a, op :: ops => ok a op ∧ Allowed ok spec (spec a op) ops

/-- Every operation is allowed in the state of the component that the earlier
ones lead to. -/
def Permitted (ok : σ → ω → Prop) (step : σ → ω → Option σ) : σ → List ω → Prop
  | _, [] => True
  | s, op :: ops => ok s op ∧ ∀ s', step s op = some s' → Permitted ok step s' ops

theorem guard_bind {β : Type} {p : Prop} [Decidable p] (h : p) (rest : PUnit → Option β) :
    (guard p >>= rest) = rest () := by
  simp [guard, h]

@[simp] theorem run_nil (s : σ) : run step s [] = some s := rfl

@[simp] theorem run_cons (s : σ) (op : ω) (ops : List ω) :
    run step s (op :: ops) = (step s op).bind fun s' => run step s' ops := rfl

theorem run_concat (s : σ) (ops : List ω) (op : ω) :
    run step s (ops ++ [op]) = (run step s ops).bind fun s' => step s' op := by
  rw [run, run, List.foldlM_append]
  simp only [List.foldlM_cons, List.foldlM_nil, bind_pure]
  rfl

theorem allowed_append {a : α} {ops later : List ω} :
    Allowed ok spec a (ops ++ later) ↔ Allowed ok spec a ops ∧ Allowed ok spec (ops.foldl spec a) later := by
  induction ops generalizing a with
  | nil => simp [Allowed]
  | cons op ops ih => simp only [List.cons_append, Allowed, List.foldl_cons, ih, and_assoc]

theorem Allowed.and_forall {p : ω → Prop} {a : α} {ops : List ω} (h : Allowed ok spec a ops) (hp : ∀ op ∈ ops, p op) :
    Allowed (fun a op => ok a op ∧ p op) spec a ops := by
  induction ops generalizing a with
  | nil => trivial
  | cons op ops ih =>
    obtain ⟨hop, hops⟩ := List.forall_mem_cons.mp hp
    exact ⟨⟨h.1, hop⟩, ih h.2 hops⟩

/-- What one operation keeps, all of them keep. -/
theorem refines {R : σ → α → Prop}
    (hstep : ∀ s a op, R s a → ok a op → ∃ s', step s op = some s' ∧ R s' (spec a op)) {s : σ} {a : α} (h0 : R s a)
    {ops : List ω} (hops : Allowed ok spec a ops) : ∃ s', run step s ops = some s' ∧ R s' (ops.foldl spec a) := by
  induction ops generalizing s a with
  | nil => exact ⟨s, rfl, h0⟩
  | cons op ops ih =>
    obtain ⟨hop, hops⟩ := hops
    obtain ⟨s1, hs1, h1⟩ := hstep s a op h0 hop
    obtain ⟨s', hs', h'⟩ := ih h1 hops
    exact ⟨s', by rw [run_cons, hs1, Option.bind_some, hs'], h'⟩

/-- The same for what is allowed by the state of the component. -/
theorem refines_permitted {R : σ → α → Prop} {ok : σ → ω → Prop}
    (hstep : ∀ s a op, R s a → ok s op → ∃ s', step s op = some s' ∧ R s' (spec a op)) {s : σ} {a : α} (h0 : R s a)
    {ops : List ω} (hops : Permitted ok step s ops) : ∃ s', run step s ops = some s' ∧ R s' (ops.foldl spec a) := by
  induction ops generalizing s a with
  | nil => exact ⟨s, rfl, h0⟩
  | cons op ops ih =>
    obtain ⟨s1, hs1, h1⟩ := hstep s a op h0 hops.1
    obtain ⟨s', hs', h'⟩ := ih h1 (hops.2 s1 hs1)
    exact ⟨s', by rw [run_cons, hs1, Option.bind_some, hs'], h'⟩

/-- What each of the operations leaves as it is, all of them do. -/
theorem run_keeps {β : Type*} (f : σ → β) {s s' : σ} {ops : List ω}
    (hstep : ∀ op ∈ ops, ∀ s s', step s op = some s' → f s' = f s) (hrun : run step s ops = some s') : f s' = f s := by
  induction ops generalizing s with
  | nil => exact congrArg f (Option.some.inj hrun).symm
  | cons op ops ih =>
    obtain ⟨hop, hops⟩ := List.forall_mem_cons.mp hstep
    obtain ⟨s1, hs1, hrest⟩ := Option.bind_eq_some_iff.mp hrun
    exact (ih hops hrest).trans (hop s s1 hs1)

-- ---------------------------------------------------------------------------
-- Operations with results
-- ---------------------------------------------------------------------------

variable {ρ : Type*}

/-- The results so far are kept beside the state. -/
def logged (step : σ → ω → Option (σ × ρ)) (s : σ × List ρ) (op : ω) : Option (σ × List ρ) :=
  (step s.1 op).map fun (s', result) => (s', s.2 ++ [result])

def loggedSpec (spec : α → ω → α × ρ) (a : α × List ρ) (op : ω) : α × List ρ :=
  ((spec a.1 op).1, a.2 ++ [(spec a.1 op).2])

theorem Allowed.logged {spec : α → ω → α × ρ} {a : α} {ops : List ω}
    (h : Allowed ok (fun a op => (spec a op).1) a ops) (results : List ρ) :
    Allowed (fun a op => ok a.1 op) (loggedSpec spec) (a, results) ops := by
  induction ops generalizing a results with
  | nil => trivial
  | cons op ops ih => exact ⟨h.1, ih h.2 _⟩

theorem refines_logged {step : σ → ω → Option (σ × ρ)} {spec : α → ω → α × ρ} {R : σ → α → Prop}
    (hstep : ∀ s a op, R s a → ok a op → ∃ s', step s op = some (s', (spec a op).2) ∧ R s' (spec a op).1) {s : σ} {a : α}
    (h0 : R s a) {ops : List ω} (hops : Allowed ok (fun a op => (spec a op).1) a ops) :
    ∃ s', run (logged step) (s, []) ops = some (s', (ops.foldl (loggedSpec spec) (a, [])).2) ∧
      R s' (ops.foldl (loggedSpec spec) (a, [])).1 := by
  have hlogged (s : σ × List ρ) (a : α × List ρ) (op : ω) (h : R s.1 a.1 ∧ s.2 = a.2) (hok : ok a.1 op) :
      ∃ s', logged step s op = some s' ∧ R s'.1 (loggedSpec spec a op).1 ∧ s'.2 = (loggedSpec spec a op).2 := by
    obtain ⟨s', hs', h'⟩ := hstep s.1 a.1 op h.1 hok
    refine ⟨(s', s.2 ++ [(spec a.1 op).2]), by rw [logged, hs']; rfl, h', ?_⟩
    rw [h.2]
    rfl
  have hstart : R (s, ([] : List ρ)).1 (a, ([] : List ρ)).1 ∧ (s, ([] : List ρ)).2 = (a, ([] : List ρ)).2 := ⟨h0, rfl⟩
  obtain ⟨⟨s', results⟩, hrun, h', hresults⟩ := refines hlogged hstart (hops.logged [])
  rw [← hresults]
  exact ⟨s', hrun, h'⟩

-- ---------------------------------------------------------------------------
-- Operations that are not fully specified
-- ---------------------------------------------------------------------------

/-- Each operation has one of the results that it may have, and leads to one of
the states that it may lead to then. -/
inductive Follows (spec : α → ω → ρ → α → Prop) : α → List ω → List ρ → α → Prop
  | nil (a : α) : Follows spec a [] [] a
  | cons {a a1 a' : α} {op : ω} {ops : List ω} {result : ρ} {results : List ρ} :
    spec a op result a1 → Follows spec a1 ops results a' → Follows spec a (op :: ops) (result :: results) a'

/-- What one operation is allowed to do, all of them do. -/
theorem follows {step : σ → ω → Option (σ × ρ)} {spec : α → ω → ρ → α → Prop} {R : σ → α → Prop} {ok : σ → ω → Prop}
    (hstep : ∀ s a op, R s a → ok s op → ∃ s' result a', step s op = some (s', result) ∧ spec a op result a' ∧ R s' a')
    {s : σ} {a : α} (h0 : R s a) {ops : List ω} (hops : Permitted ok (fun s op => (step s op).map Prod.fst) s ops)
    (before : List ρ) :
    ∃ s' results a', run (logged step) (s, before) ops = some (s', before ++ results) ∧ Follows spec a ops results a' ∧
      R s' a' := by
  induction ops generalizing s a before with
  | nil => exact ⟨s, [], a, by rw [run_nil, List.append_nil], .nil a, h0⟩
  | cons op ops ih =>
    obtain ⟨s1, result, a1, hs1, hspec, h1⟩ := hstep s a op h0 hops.1
    obtain ⟨s', results, a', hrun, hfollows, h'⟩ := ih h1 (hops.2 s1 (congrArg (Option.map Prod.fst) hs1)) (before ++ [result])
    refine ⟨s', result :: results, a', ?_, .cons hspec hfollows, h'⟩
    rw [run_cons, logged, hs1, Option.map_some, Option.bind_some, hrun, List.append_assoc, List.singleton_append]

end Operations
