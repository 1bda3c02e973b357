import Flecsi.Lib.Runs
import Flecsi.ControlModel.ActionGraphs

/-!
# Runs of the control model

Every visit is complete and the phases follow the policy, as long as nothing is registered
once a phase is sorted.
-/

namespace Flecsi.ControlModel

open Flecsi.Utils
open Relation (ReflTransGen)

variable {A σ : Type} {act : A → σ → σ} {policy : Phases σ}

-- ---------------------------------------------------------------------------
-- Walks
-- ---------------------------------------------------------------------------

theorem Walked.started {whole : Bool} {user final : σ} {phases : Phases σ} {visits : List (Visit A)}
    (h : Walked act whole user phases visits final) : Walked act false user phases visits final := by
  induction h with
  | here user phases => exact .here user phases
  | nil user => exact .here user .nil
  | phase visit _ ih => exact .phase visit ih
  | stop body hp _ ih => exact .stop body hp ih
  | inside rest hp h => exact .inside rest hp h
  | again hp hbody _ _ ih => exact .again hp hbody ih

/-- The walks of nested tuples, the inner one first. -/
inductive WalkedAll (act : A → σ → σ) : Bool → σ → List (Phases σ) → List (Visit A) → σ → Prop
  | nil (whole : Bool) (user : σ) : WalkedAll act whole user [] [] user
  | inside {user phases visits final} (walks : List (Phases σ)) (h : Walked act false user phases visits final) :
    WalkedAll act false user (phases :: walks) visits final
  | next {whole user phases visits middle walks visits' final} (h : Walked act true user phases visits middle)
    (hrest : WalkedAll act whole middle walks visits' final) :
    WalkedAll act whole user (phases :: walks) (visits ++ visits') final

section
variable {whole : Bool} {user next final : σ} {rest body : Phases σ} {walks : List (Phases σ)}
  {visits : List (Visit A)} {predicate : σ → Bool × σ}

theorem WalkedAll.single (h : WalkedAll act whole user [rest] visits final) :
    Walked act whole user rest visits final := by
  cases h with
  | inside _ h => exact h
  | next h hrest =>
    cases hrest
    rw [List.append_nil]
    cases whole with
    | true => exact h
    | false => exact h.started

theorem WalkedAll.phase (visit : Visit A) (h : WalkedAll act whole (visit.after act user) (rest :: walks) visits final) :
    WalkedAll act whole user (.phase visit.phase rest :: walks) (visit :: visits) final := by
  cases h with
  | inside _ h => exact .inside walks (.phase visit h)
  | next h hrest => exact .next (.phase visit h) hrest

theorem WalkedAll.stop (body : Phases σ) (hp : predicate user = (false, next))
    (h : WalkedAll act whole next (rest :: walks) visits final) :
    WalkedAll act whole user (.cycle predicate body rest :: walks) visits final := by
  cases h with
  | inside _ h => exact .inside walks (.stop body hp h)
  | next h hrest => exact .next (.stop body hp h) hrest

theorem WalkedAll.again (hp : predicate user = (true, next))
    (h : WalkedAll act whole next (body :: .cycle predicate body rest :: walks) visits final) :
    WalkedAll act whole user (.cycle predicate body rest :: walks) visits final := by
  cases h with
  | inside _ h => exact .inside walks (.inside rest hp h)
  | next hbody h =>
    cases h with
    | inside _ h => exact .inside walks (.again hp hbody h)
    | next h hrest =>
      rw [← List.append_assoc]
      exact .next (.again hp hbody h) hrest

end

-- ---------------------------------------------------------------------------
-- Invariant
-- ---------------------------------------------------------------------------

/-- Whatever walk of `walks` follows, `e` has then walked its policy. -/
def Execute.Continues (act : A → σ → σ) (policy : Phases σ) (e : Execute A σ) (user : σ)
    (walks : List (Phases σ)) : Prop :=
  ∀ whole visits final, WalkedAll act whole user walks visits final →
    Walked act whole e.start policy (e.visits ++ visits) final

structure Execute.Inv (act : A → σ → σ) (policy : Phases σ) (e : Execute A σ) (c : Control A) (user : σ) : Prop where
  cached : c.Cached policy.values
  actions : ∀ v ∈ policy.values, ∀ n ∈ c.sorted.getD v [], n.policy.isSome
  values : ∀ w ∈ e.walks, ∀ v ∈ w.values, v ∈ policy.values
  complete : ∀ v ∈ e.visits, v.Complete
  idle : e.visiting = none → e.Continues act policy user e.walks
  visiting : ∀ (v : Visit A) (left : List (DagNode (Option A))), e.visiting = some (v, left) →
    ∃ before next walks, e.walks = next :: walks ∧ user = v.after act before ∧
      e.Continues act policy before (.phase v.phase next :: walks) ∧
      ∃ rest : List (ℕ × A), left.map (fun n => (n.hash, n.policy)) = rest.map (fun x => (x.1, some x.2)) ∧
        { v with ran := v.ran ++ rest }.Complete

structure State.Inv (act : A → σ → σ) (policy : Phases σ) (s : State A σ) : Prop where
  holds : s.control.Holds s.commands
  cached : s.control.Cached policy.values ∨ (s.executing = none ∧ s.control.sorted.size = 0)
  executed : ∀ e ∈ s.executed, e.Correct act policy
  executing : ∀ e, s.executing = some e → e.Inv act policy s.control s.user

section
variable {e : Execute A σ} {c c' : Control A} {user : σ} {s t : State A σ} {commands : List (Command A)}
  {visit : Visit A} {n : DagNode (Option A)} {left : List (DagNode (Option A))} {value : ℕ}
  {rest body : Phases σ} {walks : List (Phases σ)} {predicate : σ → Bool × σ} {next : σ} {again : Bool}

theorem Execute.Inv.correct (h : e.Inv act policy c user) : e.Correct act policy user where
  complete := h.complete
  visiting v left hv := by
    obtain ⟨_, _, _, _, _, _, hrest⟩ := h.visiting v left hv
    exact hrest
  walked := by
    cases hv : e.visiting with
    | none =>
      have hidle := h.idle hv false [] user
      cases hw : e.walks with
      | nil => exact hidle (hw ▸ .nil false user)
      | cons w walks => exact hidle (hw ▸ .inside walks (.here user w))
    | some visiting =>
      obtain ⟨v, left⟩ := visiting
      obtain ⟨before, next, walks, _, huser, hcontinues, _⟩ := h.visiting v left hv
      exact hcontinues false [v] user (huser ▸ .phase v (.inside walks (.here _ next)))

theorem State.Inv.correct (h : s.Inv act policy) : s.Correct act policy :=
  ⟨h.executed, fun e he => (h.executing e he).correct⟩

theorem State.start_inv (user : σ) : (State.start user : State A σ).Inv act policy where
  holds v := by
    have hdepends : Depends ([] : List (Command A)) v = fun _ _ => False := by
      funext target source
      simp [Depends]
    exact hdepends ▸ represents_empty
  cached := .inr ⟨rfl, rfl⟩
  executed _ he := absurd he List.not_mem_nil
  executing _ he := by cases he

theorem Control.Cached.getD_eq (h : c.Cached policy.values) (h' : c'.Cached policy.values)
    {v : ℕ} (hv : v ∈ policy.values) (hdag : c'.dag v = c.dag v) : c'.sorted.getD v [] = c.sorted.getD v [] :=
  Option.some.inj ((h' v hv).symm.trans (hdag ▸ h v hv))

/-- A call on its way does not see what leaves the graphs of its policy. -/
theorem Execute.Inv.of_dag (h : e.Inv act policy c user) (hc : c'.Cached policy.values)
    (hdag : ∀ v ∈ policy.values, c'.dag v = c.dag v) : e.Inv act policy c' user :=
  { h with
    cached := hc
    actions := fun v hv n hn => h.actions v hv n (h.cached.getD_eq hc hv (hdag v hv) ▸ hn) }

-- ---------------------------------------------------------------------------
-- Steps
-- ---------------------------------------------------------------------------

/-- A call on a graph of the policy, while nothing is sorted, or on another graph. -/
theorem State.Inv.update (h : s.Inv act policy) {phase : ℕ} (call : DagCall (Option A))
    (hallowed : phase ∈ policy.values → s.executing = none ∧ s.control.sorted.size = 0) :
    ((s.control.update phase call).Cached policy.values ∨
      (s.executing = none ∧ (s.control.update phase call).sorted.size = 0)) ∧
    ∀ e, s.executing = some e → e.Inv act policy (s.control.update phase call) s.user := by
  have hsorted : (s.control.update phase call).sorted = s.control.sorted :=
    Control.sorted_phase_map_eq s.control phase
  by_cases hphase : phase ∈ policy.values
  · obtain ⟨hidle, hzero⟩ := hallowed hphase
    refine ⟨.inr ⟨hidle, hsorted ▸ hzero⟩, fun e he => ?_⟩
    cases hidle.symm.trans he
  · have hdag : ∀ v ∈ policy.values, (s.control.update phase call).dag v = s.control.dag v := by
      intro v hv
      have hne : phase ≠ v := fun he => hphase (he ▸ hv)
      rw [Control.dag_update, if_neg hne]
    have hcached (h : s.control.Cached policy.values) : (s.control.update phase call).Cached policy.values := by
      intro v hv
      rw [hdag v hv, hsorted]
      exact h v hv
    refine ⟨h.cached.imp hcached fun hzero => ⟨hzero.1, hsorted ▸ hzero.2⟩, fun e he => ?_⟩
    exact (h.executing e he).of_dag (hcached (h.executing e he).cached) hdag

theorem State.Inv.sort_phases (h : s.Inv act policy) (hsort : s.control.sort_phases = some c) :
    c.Cached policy.values := by
  by_cases hzero : s.control.sorted.size = 0
  · exact Control.sort_phases_cached hsort hzero _
  · rw [Control.sort_phases, if_neg hzero] at hsort
    cases hsort
    exact h.cached.elim id fun hidle => absurd hidle.2 hzero

theorem State.Inv.write (h : s.Inv act policy) (hsort : s.control.sort_phases = some c) :
    (policy.write c).Cached policy.values ∧
    ∀ e, s.executing = some e → e.Inv act policy (policy.write c) s.user := by
  have hcached : (policy.write c).Cached policy.values := by
    intro v hv
    rw [Phases.write_dag, Phases.write_sorted]
    exact h.sort_phases hsort v hv
  refine ⟨hcached, fun e he => (h.executing e he).of_dag hcached fun v _ => ?_⟩
  rw [Phases.write_dag, Control.sort_phases_dag hsort]

theorem State.Inv.command (h : s.Inv act policy) {command : Command A}
    (hallowed : s.Allowed policy (.command command)) (hstep : s.step act policy (.command command) = some t) :
    t.Inv act policy := by
  obtain ⟨c, hc, rfl⟩ := Option.map_eq_some_iff.mp hstep
  have hholds := h.holds.command hc
  cases command with
  | register phase hash label action =>
    cases hc
    obtain ⟨hcached, hexecuting⟩ := h.update (.initialize_node ⟨hash, label, [], some action⟩) hallowed
    exact ⟨hholds, hcached, h.executed, hexecuting⟩
  | add_edge phase target source =>
    cases hc
    obtain ⟨hcached, hexecuting⟩ := h.update (.add_edge target source) hallowed
    exact ⟨hholds, hcached, h.executed, hexecuting⟩
  | write =>
    obtain ⟨sorted, hsort, rfl⟩ := Option.map_eq_some_iff.mp hc
    obtain ⟨hcached, hexecuting⟩ := h.write hsort
    exact ⟨hholds, .inl hcached, h.executed, hexecuting⟩

theorem State.Inv.execute (h : s.Inv act policy) (hallowed : s.Allowed policy .execute)
    (hstep : s.step act policy .execute = some t) : t.Inv act policy := by
  unfold State.step at hstep
  simp only at hstep
  split at hstep
  · cases hstep
  · obtain ⟨c, hsort, rfl⟩ := Option.map_eq_some_iff.mp hstep
    have hcached := h.sort_phases hsort
    have hdag := Control.sort_phases_dag hsort
    have hholds := h.holds.of_dag hdag
    refine ⟨hholds, .inl hcached, h.executed, fun e he => ?_⟩
    cases he
    refine ⟨hcached, fun v hv n hn => ?_, fun w hw v hv => ?_, fun _ hv => absurd hv List.not_mem_nil,
      fun _ _ _ _ hwalk => hwalk.single, nofun⟩
    · obtain ⟨x, hx, hpolicy⟩ := (hholds v).sorted_action (hcached v hv) hn
      rw [hdag v] at hx
      exact hpolicy ▸ hallowed v hv x hx
    · exact List.mem_singleton.mp hw ▸ hv

theorem Control.sorted_phase_map_cached (h : c.Cached policy.values) (phase : ℕ) :
    (c.sorted_phase_map phase).2.Cached policy.values ∧
    ∀ v, (c.sorted_phase_map phase).2.sorted.getD v [] = c.sorted.getD v [] := by
  have hget : ∀ v, (c.sorted_phase_map phase).2.sorted.getD v [] = c.sorted.getD v [] := by
    intro v
    unfold Control.sorted_phase_map
    split
    · rfl
    · rename_i hphase
      simp only [Std.TreeMap.getD_insert]
      split
      · rename_i hv
        rw [← Std.LawfulEqOrd.eq_of_compare hv, Std.TreeMap.getD_eq_fallback hphase]
      · rfl
  refine ⟨fun v hv => ?_, hget⟩
  rw [hget, ← h v hv]
  unfold Control.sorted_phase_map
  split <;> rfl

theorem Control.sorted_phase_map_dag (c : Control A) (phase v : ℕ) :
    (c.sorted_phase_map phase).2.dag v = c.dag v := by
  unfold Control.sorted_phase_map
  split <;> rfl

/-- A walk that starts a visit. -/
theorem Execute.Inv.enter (hholds : c.Holds commands) (h : e.Inv act policy c user) (hv : e.visiting = none)
    (hw : e.walks = .phase value rest :: walks) :
    Execute.Inv act policy { e with
      visiting := some (⟨value, commands, []⟩, c.sorted.getD value []), walks := rest :: walks }
      (c.sorted_phase_map value).2 user := by
  have hvalue : value ∈ policy.values :=
    h.values _ (hw ▸ List.mem_cons_self) value (List.mem_cons_self)
  obtain ⟨hcached, hget⟩ := Control.sorted_phase_map_cached h.cached value
  refine ⟨hcached, fun v hv n hn => h.actions v hv n (hget v ▸ hn), fun w hw' => ?_, h.complete,
    nofun, fun v left hv => ?_⟩
  · obtain rfl | hw' := List.mem_cons.mp hw'
    · exact fun v hv => h.values (.phase value _) (hw ▸ List.mem_cons_self) v (List.mem_cons_of_mem _ hv)
    · exact h.values w (hw ▸ List.mem_cons_of_mem _ hw')
  · cases hv
    obtain ⟨rest', hrest'⟩ := exists_actions (h.actions value hvalue)
    exact ⟨user, rest, walks, rfl, rfl, hw ▸ h.idle hv, rest', hrest',
      (hholds value).complete (h.cached value hvalue) hrest'⟩

theorem Execute.Inv.leave (h : e.Inv act policy c user) (hv : e.visiting = some (visit, [])) :
    Execute.Inv act policy { e with visits := e.visits ++ [visit], visiting := none } c user := by
  obtain ⟨before, next, walks, hwalks, rfl, hcontinues, rest, hrest, hcomplete⟩ := h.visiting visit [] hv
  have hnil : rest = [] := List.map_eq_nil_iff.mp hrest.symm
  rw [hnil, List.append_nil] at hcomplete
  refine ⟨h.cached, h.actions, h.values, List.forall_mem_append.mpr ⟨h.complete, by simpa using hcomplete⟩,
    fun _ whole visits final hwalk => ?_, nofun⟩
  simp only [List.append_assoc, List.singleton_append]
  exact hcontinues whole (visit :: visits) final ((hwalks ▸ hwalk).phase visit)

theorem Execute.Inv.run (h : e.Inv act policy c user) (hv : e.visiting = some (visit, n :: left)) :
    ∃ action, n.policy = some action ∧
      Execute.Inv act policy
        { e with visiting := some ({ visit with ran := visit.ran ++ [(n.hash, action)] }, left) } c
        (act action user) := by
  obtain ⟨before, next, walks, hwalks, rfl, hcontinues, rest, hrest, hcomplete⟩ := h.visiting visit _ hv
  cases rest with
  | nil => cases hrest
  | cons x rest =>
    obtain ⟨hhead, hrest⟩ := List.cons.inj hrest
    obtain ⟨hhash, hpolicy⟩ := Prod.mk.inj hhead
    refine ⟨x.2, hpolicy, h.cached, h.actions, h.values, h.complete, nofun, fun v left' hv => ?_⟩
    cases hv
    refine ⟨before, next, walks, hwalks, ?_, hcontinues, rest, hrest, ?_⟩
    · simp [Visit.after]
    · rw [hhash, List.append_assoc]
      exact hcomplete

theorem Execute.Inv.cycle (h : e.Inv act policy c user) (hv : e.visiting = none)
    (hw : e.walks = .cycle predicate body rest :: walks) (hp : predicate user = (again, next)) :
    Execute.Inv act policy { e with walks := if again then body :: e.walks else rest :: walks } c next := by
  have hvalues := h.values _ (hw ▸ List.mem_cons_self)
  have hcontinues := hw ▸ h.idle hv
  refine ⟨h.cached, h.actions, fun w hw' => ?_, h.complete, fun _ whole visits final hwalk => ?_,
    fun _ _ hv' => absurd (hv.symm.trans hv') nofun⟩
  · cases again with
    | true =>
      obtain rfl | hw' := List.mem_cons.mp hw'
      · exact fun v hv => hvalues v (List.mem_append_left _ hv)
      · exact h.values w hw'
    | false =>
      obtain rfl | hw' := List.mem_cons.mp hw'
      · exact fun v hv => hvalues v (List.mem_append_right _ hv)
      · exact h.values w (hw ▸ List.mem_cons_of_mem _ hw')
  · cases again with
    | true => exact hcontinues whole visits final (.again hp (hw ▸ hwalk))
    | false => exact hcontinues whole visits final (.stop body hp hwalk)

theorem Execute.Inv.up (h : e.Inv act policy c user) (hv : e.visiting = none) (hw : e.walks = .nil :: walks) :
    Execute.Inv act policy { e with walks := walks } c user where
  cached := h.cached
  actions := h.actions
  values w hw' := h.values w (hw ▸ List.mem_cons_of_mem _ hw')
  complete := h.complete
  idle _ whole visits final hwalk := (hw ▸ h.idle hv) whole visits final (.next (.nil user) hwalk)
  visiting _ _ hv' := absurd (hv.symm.trans hv') nofun

theorem Execute.Inv.finish (h : e.Inv act policy c user) (hv : e.visiting = none) (hw : e.walks = []) :
    Executed.Correct act policy ⟨e.start, e.visits, user, true⟩ where
  returned := rfl
  walked := by
    have hwalk := h.idle hv true [] user (hw ▸ .nil true user)
    rwa [List.append_nil] at hwalk
  complete := h.complete

theorem State.Inv.advance (h : s.Inv act policy) (hstep : s.step act policy .advance = some t) :
    t.Inv act policy := by
  obtain ⟨e, he, rfl⟩ := Option.map_eq_some_iff.mp hstep
  have hinv := h.executing e he
  have hcached := hinv.cached
  unfold State.advance
  split
  · rename_i visit _ hv
    exact ⟨h.holds, .inl hcached, h.executed, fun _ he' => Option.some.inj he' ▸ hinv.leave hv⟩
  · rename_i visit n left _ hv
    obtain ⟨action, haction, hrun⟩ := hinv.run hv
    rw [haction]
    exact ⟨h.holds, .inl hcached, h.executed, fun _ he' => Option.some.inj he' ▸ hrun⟩
  · rename_i value rest walks hv hw
    have henter := hinv.enter h.holds hv hw
    exact ⟨h.holds.of_dag (Control.sorted_phase_map_dag _ _), .inl henter.cached, h.executed,
      fun _ he' => Option.some.inj he' ▸ henter⟩
  · rename_i predicate body rest walks hv hw
    exact ⟨h.holds, .inl hcached, h.executed,
      fun _ he' => Option.some.inj he' ▸ hinv.cycle hv hw rfl⟩
  · rename_i walks hv hw
    exact ⟨h.holds, .inl hcached, h.executed, fun _ he' => Option.some.inj he' ▸ hinv.up hv hw⟩
  · rename_i hv hw
    exact ⟨h.holds, .inl hcached, List.forall_mem_append.mpr
      ⟨h.executed, by simpa using hinv.finish hv hw⟩, nofun⟩

end

/-- The steps of a program that meets the condition. -/
def AllowedStep (act : A → σ → σ) (policy : Phases σ) (s t : State A σ) : Prop :=
  ∃ label, s.Allowed policy label ∧ s.step act policy label = some t

theorem State.Inv.step {s t : State A σ} (h : s.Inv act policy) (hstep : AllowedStep act policy s t) :
    t.Inv act policy := by
  obtain ⟨label, hallowed, hstep⟩ := hstep
  cases label with
  | command c => exact h.command hallowed hstep
  | execute => exact h.execute hallowed hstep
  | advance => exact h.advance hstep

/-- In every run of allowed steps, every call of `execute` walks the policy and completes its
visits; it can start unless a graph has a cycle. -/
theorem execute_correct (act : A → σ → σ) (policy : Phases σ) (user : σ) (s : State A σ)
    (hs : ReflTransGen (AllowedStep act policy) (State.start user) s) :
    s.Correct act policy ∧
    ((∀ phase, (s.control.dag phase).Acyclic) → s.executing = none → ∃ t, s.step act policy .execute = some t) := by
  have hinv := Runs.invariant (fun _ _ ha hstep => ha.step hstep) (State.start_inv user) hs
  refine ⟨hinv.correct, fun hacyclic hidle => ?_⟩
  obtain ⟨c, hc⟩ := Option.isSome_iff_exists.mp (hinv.holds.sort_phases_isSome hacyclic)
  simp only [State.step, hidle, hc, Option.map_some]
  exact ⟨_, rfl⟩

instance (policy : Phases σ) (s : State A σ) (label : Label A) : Decidable (s.Allowed policy label) := by
  cases label with
  | command c =>
    cases c with
    | register | add_edge => exact inferInstanceAs (Decidable (_ ∈ _ → _ = none ∧ _ = 0))
    | write => exact inferInstanceAs (Decidable True)
  | execute => exact inferInstanceAs (Decidable (∀ phase ∈ policy.values, ∀ x ∈ _, _ = true))
  | advance => exact inferInstanceAs (Decidable True)

def State.allowedRun (act : A → σ → σ) (policy : Phases σ) (s : State A σ) (labels : List (Label A)) :
    Option (State A σ) :=
  labels.foldlM (fun s label => if s.Allowed policy label then s.step act policy label else none) s

theorem allowedRun_reaches {labels : List (Label A)} {s t : State A σ}
    (h : s.allowedRun act policy labels = some t) : ReflTransGen (AllowedStep act policy) s t := by
  induction labels generalizing s with
  | nil =>
    cases h
    exact .refl
  | cons label labels ih =>
    unfold State.allowedRun at h
    rw [List.foldlM_cons] at h
    obtain ⟨next, hnext, h⟩ := Option.bind_eq_some_iff.mp h
    split at hnext
    · rename_i hallowed
      exact .head ⟨label, hallowed, hnext⟩ (ih h)
    · cases hnext

theorem run_reaches {labels : List (Label A)} {s t : State A σ} (h : s.run act policy labels = some t) :
    ReflTransGen (fun s t => ∃ label, s.step act policy label = some t) s t := by
  induction labels generalizing s with
  | nil =>
    cases h
    exact .refl
  | cons label labels ih =>
    unfold State.run at h
    rw [List.foldlM_cons] at h
    obtain ⟨next, hnext, h⟩ := Option.bind_eq_some_iff.mp h
    exact .head ⟨label, hnext⟩ (ih h)

/-- A phase, and a cycle that repeats another until the count of actions is three. -/
def countedPolicy : Phases ℕ :=
  .phase 0 (.cycle (fun user => (decide (user < 3), user)) (.phase 1 .nil) .nil)

/-- Action 2 of phase 0 depends on action 1; phase 1 has one action. -/
def countedRun : List (Label ℕ) :=
  [.command (.add_edge 0 2 1), .command (.register 0 2 "second" 1), .command (.register 0 1 "first" 1),
    .command (.register 1 5 "again" 1), .execute] ++ List.replicate 12 .advance

theorem execute_correct_counted :
    ∃ s : State ℕ ℕ, s.executed.map (fun e => e.visits.map (·.ran)) = [[[(1, 1), (2, 1)], [(5, 1)]]] ∧
      s.Correct (fun a user => a + user) countedPolicy := by
  have hrun : ((State.start 0).allowedRun (fun a user => a + user) countedPolicy countedRun).map
      (fun s => s.executed.map (fun e => e.visits.map (·.ran))) = some [[[(1, 1), (2, 1)], [(5, 1)]]] := by
    decide
  obtain ⟨s, hs, hran⟩ := Option.map_eq_some_iff.mp hrun
  exact ⟨s, hran, (execute_correct _ countedPolicy 0 s (allowedRun_reaches hs)).1⟩

/-- Action 2 is registered between two calls of `execute`. -/
def staleRun : List (Label ℕ) :=
  [.command (.register 0 1 "first" 1), .execute] ++ List.replicate 5 .advance ++
    [.command (.register 0 2 "second" 2), .execute] ++ List.replicate 5 .advance

/-- The second call runs the order that the first has sorted. -/
theorem execute_stale :
    ∃ s : State ℕ ℕ,
      ReflTransGen (fun s t => ∃ label, s.step (fun _ user => user) (.phase 0 .nil) label = some t) (State.start 0) s ∧
      s.executed.map (fun e => e.visits.map fun v => (v.ran, lastAction v.before v.phase 2)) =
        [[([(1, 1)], none)], [([(1, 1)], some 2)]] ∧
      ¬s.Correct (fun _ user => user) (.phase 0 .nil) := by
  have hrun : ((State.start 0).run (fun _ user => user) (.phase 0 .nil) staleRun).map
      (fun s : State ℕ ℕ => s.executed.map fun e => e.visits.map fun v => (v.ran, lastAction v.before v.phase 2)) =
      some [[([(1, 1)], none)], [([(1, 1)], some 2)]] := by decide
  obtain ⟨s, hs, hran⟩ := Option.map_eq_some_iff.mp hrun
  refine ⟨s, run_reaches hs, hran, fun hcorrect => ?_⟩
  have hlast : [([(1, 1)], some 2)] ∈ s.executed.map (fun e => e.visits.map fun v =>
      (v.ran, lastAction v.before v.phase 2)) := by rw [hran]; decide
  obtain ⟨e, he, hvisits⟩ := List.mem_map.mp hlast
  obtain ⟨v, hv, hvisit⟩ := List.mem_map.mp (hvisits ▸ List.mem_singleton_self _)
  obtain ⟨hran, hregistered⟩ := Prod.mk.inj hvisit
  have hmem := (((hcorrect.executed e he).complete v hv).ran 2 2).mpr hregistered
  rw [hran] at hmem
  exact absurd hmem (by decide)

end Flecsi.ControlModel
