import Flecsi.Utils.DagSort

/-!
# The control model

`control_u`, which keeps a graph of actions for each phase and the sorted graphs beside it,
and `phase_walker_u`, which runs the phases of the policy.
-/

namespace Flecsi.ControlModel

open Std (TreeMap)
open Flecsi.Utils

variable {A σ : Type}

-- ---------------------------------------------------------------------------
-- Registry
-- ---------------------------------------------------------------------------

/-- `control_u`. The policy of a node is its action; a node that is not initialised has the
empty function. -/
structure Control (A : Type) where
  registry : TreeMap ℕ (Dag (Option A))
  sorted : TreeMap ℕ (List (DagNode (Option A)))

/-- `registry_[phase]` -/
def Control.dag (c : Control A) (phase : ℕ) : Dag (Option A) := c.registry.getD phase ⟨∅⟩

def Control.phase_map (c : Control A) (phase : ℕ) : Control A :=
  if phase ∈ c.registry then c else { c with registry := c.registry.insert phase ⟨∅⟩ }

/-- A call on the graph that `phase_map` returns. -/
def Control.update (c : Control A) (phase : ℕ) (call : DagCall (Option A)) : Control A :=
  let c := c.phase_map phase
  { c with registry := c.registry.insert phase ((c.dag phase).call none call) }

def sortAll (sorted : TreeMap ℕ (List (DagNode (Option A)))) (dags : List (ℕ × Dag (Option A))) :
    Option (TreeMap ℕ (List (DagNode (Option A)))) :=
  dags.foldlM (fun sorted d => d.2.sort.1.map (sorted.insert d.1)) sorted

/-- No result where a graph has a cycle and `clog_fatal` ends the program. -/
def Control.sort_phases (c : Control A) : Option (Control A) :=
  if c.sorted.size = 0 then
    (sortAll c.sorted c.registry.toList).map fun sorted => { c with sorted := sorted }
  else some c

/-- `sorted_[phase]`, which creates an entry where there is none. -/
def Control.sorted_phase_map (c : Control A) (phase : ℕ) : List (DagNode (Option A)) × Control A :=
  (c.sorted.getD phase [],
    if phase ∈ c.sorted then c else { c with sorted := c.sorted.insert phase [] })

-- ---------------------------------------------------------------------------
-- Phases
-- ---------------------------------------------------------------------------

/-- A tuple of `phase_` and `cycle_u` types. A predicate reads and changes the program's own
state. -/
inductive Phases (σ : Type) where
  | nil
  | phase (value : ℕ) (rest : Phases σ)
  | cycle (predicate : σ → Bool × σ) (body rest : Phases σ)

def Phases.values : Phases σ → List ℕ
  | .nil => []
  | .phase value rest => value :: rest.values
  | .cycle _ body rest => body.values ++ rest.values

/-- `BEGIN_TYPE::value`; a cycle in this place does not compile. -/
def Phases.begin : Phases σ → Option ℕ
  | .phase value _ => some value
  | _ => none

/-- `END_TYPE::value` -/
def Phases.end : Phases σ → Option ℕ
  | .nil => none
  | .phase value .nil => some value
  | .phase _ rest => rest.end
  | .cycle _ _ rest => rest.end

/-- The entries that `phase_writer_u` creates. -/
def Phases.write : Phases σ → Control A → Control A
  | .nil, c => c
  | .phase value rest, c =>
    let c := c.phase_map value
    rest.write (if 0 < value then c.phase_map (value - 1) else c)
  | .cycle _ body rest, c =>
    let c := body.write c
    rest.write <|
      if body.begin ≠ body.end then
        (body.end.toList).foldl Control.phase_map (body.begin.toList.foldl Control.phase_map c)
      else c

-- ---------------------------------------------------------------------------
-- Runs
-- ---------------------------------------------------------------------------

/-- What a program asks of the control model besides `execute`. -/
inductive Command (A : Type) where
  | register (phase hash : ℕ) (label : String) (action : A)
  | add_edge (phase target source : ℕ)
  | write

/-- A visit of a phase: the commands before it, and the actions it ran with their hashes. -/
structure Visit (A : Type) where
  phase : ℕ
  before : List (Command A)
  ran : List (ℕ × A)

/-- A call of `execute` on its way: the nodes left of the visit it is in, and what is left of
each tuple it walks. -/
structure Execute (A σ : Type) where
  start : σ
  visits : List (Visit A)
  visiting : Option (Visit A × List (DagNode (Option A)))
  walks : List (Phases σ)

/-- A call of `execute` that ended; it did not return if an action was empty. -/
structure Executed (A σ : Type) where
  start : σ
  visits : List (Visit A)
  final : σ
  returned : Bool

structure State (A σ : Type) where
  control : Control A
  user : σ
  commands : List (Command A)
  executed : List (Executed A σ)
  executing : Option (Execute A σ)

def State.start (user : σ) : State A σ := ⟨⟨∅, ∅⟩, user, [], [], none⟩

inductive Label (A : Type) where
  | command (c : Command A)
  | execute
  | advance

section
variable (act : A → σ → σ) (policy : Phases σ)

def Control.command (c : Control A) : Command A → Option (Control A)
  | .register phase hash label action =>
    some (c.update phase (.initialize_node ⟨hash, label, [], some action⟩))
  | .add_edge phase target source => some (c.update phase (.add_edge target source))
  | .write => c.sort_phases.map policy.write

/-- The next step of the walk: an action of the visit, its end, or the next type of the tuple. -/
def State.advance (s : State A σ) (e : Execute A σ) : State A σ :=
  match e.visiting, e.walks with
  | some (visit, []), _ =>
    { s with executing := some { e with visits := e.visits ++ [visit], visiting := none } }
  | some (visit, n :: left), _ =>
    match n.policy with
    | some action =>
      let visit := { visit with ran := visit.ran ++ [(n.hash, action)] }
      { s with user := act action s.user, executing := some { e with visiting := some (visit, left) } }
    | none =>
      { s with
        executed := s.executed ++ [⟨e.start, e.visits ++ [visit], s.user, false⟩], executing := none }
  | none, .phase value rest :: walks =>
    let (sorted, control) := s.control.sorted_phase_map value
    { s with
      control := control
      executing := some { e with visiting := some (⟨value, s.commands, []⟩, sorted), walks := rest :: walks } }
  | none, .cycle predicate body rest :: walks =>
    let (value, user) := predicate s.user
    { s with
      user := user
      executing := some { e with walks := if value then body :: e.walks else rest :: walks } }
  | none, .nil :: walks => { s with executing := some { e with walks := walks } }
  | none, [] =>
    { s with executed := s.executed ++ [⟨e.start, e.visits, s.user, true⟩], executing := none }

/-- An action or a predicate may register actions too, so commands come at any time. -/
def State.step (s : State A σ) : Label A → Option (State A σ)
  | .command c => (s.control.command policy c).map fun control =>
    { s with control := control, commands := s.commands ++ [c] }
  | .execute =>
    match s.executing with
    | some _ => none
    | none => s.control.sort_phases.map fun control =>
      { s with control := control, executing := some ⟨s.user, [], none, [policy]⟩ }
  | .advance => s.executing.map (s.advance act)

def State.run (s : State A σ) (labels : List (Label A)) : Option (State A σ) :=
  labels.foldlM (State.step act policy) s

-- ---------------------------------------------------------------------------
-- What execute is to do
-- ---------------------------------------------------------------------------

/-- The last action registered for a hash. -/
def lastAction (commands : List (Command A)) (phase hash : ℕ) : Option A :=
  commands.foldl (fun last c =>
    match c with
    | .register phase' hash' _ action => if phase' = phase ∧ hash' = hash then some action else last
    | _ => last) none

def Depends (commands : List (Command A)) (phase target source : ℕ) : Prop :=
  .add_edge phase target source ∈ commands

/-- Every action registered before the visit ran once, after the actions it depends on. -/
structure Visit.Complete (v : Visit A) : Prop where
  once : (v.ran.map (·.1)).Nodup
  ran : ∀ (hash : ℕ) (action : A), (hash, action) ∈ v.ran ↔ lastAction v.before v.phase hash = some action
  order : ∀ (target source : ℕ), Depends v.before v.phase target source →
    (v.ran.map (·.1)).idxOf source < (v.ran.map (·.1)).idxOf target

def Visit.after (v : Visit A) (user : σ) : σ := v.ran.foldl (fun user x => act x.2 user) user

/-- The visits of a walk and the state after it. The walk is whole or has come this far. -/
inductive Walked : Bool → σ → Phases σ → List (Visit A) → σ → Prop
  | here (user : σ) (phases : Phases σ) : Walked false user phases [] user
  | nil (user : σ) : Walked true user .nil [] user
  | phase (visit : Visit A) {whole user rest visits final} (h : Walked whole (visit.after act user) rest visits final) :
    Walked whole user (.phase visit.phase rest) (visit :: visits) final
  | stop {whole user predicate next} (body : Phases σ) {rest visits final} (hp : predicate user = (false, next))
    (h : Walked whole next rest visits final) : Walked whole user (.cycle predicate body rest) visits final
  | inside {user predicate next body} (rest : Phases σ) {visits final} (hp : predicate user = (true, next))
    (h : Walked false next body visits final) : Walked false user (.cycle predicate body rest) visits final
  | again {whole user predicate next body rest visits middle visits' final} (hp : predicate user = (true, next))
    (hbody : Walked true next body visits middle)
    (h : Walked whole middle (.cycle predicate body rest) visits' final) :
    Walked whole user (.cycle predicate body rest) (visits ++ visits') final

/-- A call of `execute` that ended has walked the policy, and every visit was complete. -/
structure Executed.Correct (e : Executed A σ) : Prop where
  returned : e.returned = true
  walked : Walked act true e.start policy e.visits e.final
  complete : ∀ v ∈ e.visits, v.Complete

/-- The visit that is not over still runs what makes it complete. -/
structure Execute.Correct (e : Execute A σ) (user : σ) : Prop where
  walked : Walked act false e.start policy (e.visits ++ e.visiting.toList.map (·.1)) user
  complete : ∀ v ∈ e.visits, v.Complete
  visiting : ∀ (v : Visit A) (left : List (DagNode (Option A))), e.visiting = some (v, left) →
    ∃ rest : List (ℕ × A), left.map (fun n => (n.hash, n.policy)) = rest.map (fun x => (x.1, some x.2)) ∧
      { v with ran := v.ran ++ rest }.Complete

structure State.Correct (s : State A σ) : Prop where
  executed : ∀ e ∈ s.executed, e.Correct act policy
  executing : ∀ e, s.executing = some e → e.Correct act policy s.user

/-- Commands that change a graph of the policy come while nothing is sorted and no call of
`execute` is on its way, and `execute` finds an action at every node. -/
def State.Allowed (s : State A σ) : Label A → Prop
  | .command (.register phase ..) | .command (.add_edge phase ..) =>
    phase ∈ policy.values → s.executing = none ∧ s.control.sorted.size = 0
  | .execute => ∀ phase ∈ policy.values, ∀ x ∈ (s.control.dag phase).nodes.toList, x.2.policy.isSome
  | _ => True

end

end Flecsi.ControlModel
