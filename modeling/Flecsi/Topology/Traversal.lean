import Flecsi.Concurrency.ThreadPool
import Flecsi.Topology.Branch

/-!
# Traversals of the tree

A sequential traversal lists the entities it finds, or the applications it makes. A
concurrent one gives the program of the calling thread: what that thread applies
itself, the releases it makes for what it does not queue, and the callables it queues.
-/

namespace Flecsi.Topology

open Concurrency

variable {ε : Type} {dim : ℕ}

/-- `get_queue_depth` on a pool of `n` threads: `log2(n) / log2(2^dimension) + 1`,
truncated. -/
def get_queue_depth (dim n : ℕ) : ℕ := Nat.log 2 n / dim + 1

def releaseLoop (m : ℕ) : List (MainInstr α) := List.replicate m (.run .release)

/-- One application of a function after the other. -/
def applications (xs : List α) : List (Instr α) := xs.map fun x => .emit [x]

/-- A critical section that appends. -/
def append (xs : List α) : List (Instr α) := [.emit xs]

-- ---------------------------------------------------------------------------
-- `find_` and `apply_`
-- ---------------------------------------------------------------------------

/-- What a traversal reads besides the branches: where the policy places a branch,
and the scale of the tree. -/
structure View (dim : ℕ) (ε P : Type) where
  coordinates : Branch dim ε → P
  scale : P

section Descend

variable {P K : Type} [Div K] [OfNat K 2] (view : View dim ε P) (bf : P → K → P → Bool)

/-- The recursion of `find_` and `apply_`, which differ in what they take from the
entities of a leaf. -/
def descend (leaf : List ε → List ε) : Branch dim ε → K → List ε
  | .leaf _ _ ents, _ => leaf ents
  | .node _ _ _ children, size =>
    (List.finRange (2 ^ dim)).flatMap fun i =>
      if bf (view.coordinates (children i)) (size / 2) view.scale then
        descend leaf (children i) (size / 2)
      else []

/-- The recursion of the concurrent `find_` and `apply_`. `body` is the code that does
what is taken from the entities. -/
def descend_pool (leaf : List ε → List ε) (body : List ε → List (Instr ε))
    (queue_depth : ℕ) : ℕ → Branch dim ε → K → List (MainInstr ε)
  | depth, .leaf _ _ ents, _ =>
    (body (leaf ents)).map .run ++ releaseLoop (1 <<< ((queue_depth - depth) * dim))
  | depth, .node _ _ _ children, size =>
    (List.finRange (2 ^ dim)).flatMap fun i =>
      if bf (view.coordinates (children i)) (size / 2) view.scale then
        if depth + 1 = queue_depth then
          [.queue (body (descend view bf leaf (children i) (size / 2)) ++ [.release])]
        else descend_pool leaf body queue_depth (depth + 1) (children i) (size / 2)
      else if depth + 1 > queue_depth then []
      else releaseLoop (1 <<< ((queue_depth - (depth + 1)) * dim))

def find_ (ef : ε → Bool) : Branch dim ε → K → List ε :=
  descend view bf fun ents => ents.filter ef

def find_pool (ef : ε → Bool) (queue_depth depth : ℕ) (b : Branch dim ε) (size : K) :
    List (MainInstr ε) :=
  descend_pool view bf (fun ents => ents.filter ef) append queue_depth depth b size

/-- The applications `ef(ent, args...)`, by their entity. -/
def apply_ : Branch dim ε → K → List ε :=
  descend view bf id

def apply_pool (queue_depth depth : ℕ) (b : Branch dim ε) (size : K) : List (MainInstr ε) :=
  descend_pool view bf id applications queue_depth depth b size

end Descend

-- ---------------------------------------------------------------------------
-- `visit_`
-- ---------------------------------------------------------------------------

section Visit

variable (f : Branch dim ε → ℕ → Bool)

/-- The applications `f(b, depth, args...)`; a `true` ends the visit below `b`. -/
def visit_ : Branch dim ε → ℕ → List (Branch dim ε × ℕ)
  | .leaf id action ents, depth => [(.leaf id action ents, depth)]
  | .node id action ents children, depth =>
    (.node id action ents children, depth) ::
      if f (.node id action ents children) depth then []
      else (List.finRange (2 ^ dim)).flatMap fun i => visit_ (children i) (depth + 1)

def visit_pool (queue_depth : ℕ) : Branch dim ε → ℕ → List (MainInstr (Branch dim ε × ℕ))
  | .leaf id action ents, depth =>
    if depth = queue_depth then
      [.queue (applications (visit_ f (.leaf id action ents) depth) ++ [.release])]
    else
      -- the same releases whether `f` returns true or the leaf is reached
      .run (.emit [(.leaf id action ents, depth)]) ::
        releaseLoop (1 <<< ((queue_depth - depth) * dim))
  | .node id action ents children, depth =>
    if depth = queue_depth then
      [.queue (applications (visit_ f (.node id action ents children) depth) ++ [.release])]
    else
      .run (.emit [(.node id action ents children, depth)]) ::
        if f (.node id action ents children) depth then
          releaseLoop (1 <<< ((queue_depth - depth) * dim))
        else
          (List.finRange (2 ^ dim)).flatMap fun i =>
            visit_pool queue_depth (children i) (depth + 1)

end Visit

-- ---------------------------------------------------------------------------
-- `visit_children`
-- ---------------------------------------------------------------------------

/-- The applications `f(ent, args...)`. -/
def visit_children : Branch dim ε → List ε
  | .leaf _ _ ents => ents
  | .node _ _ _ children =>
    (List.finRange (2 ^ dim)).flatMap fun i => visit_children (children i)

def visit_children_pool (queue_depth : ℕ) : ℕ → Branch dim ε → List (MainInstr ε)
  | depth, .leaf id action ents =>
    if depth = queue_depth then
      [.queue (applications (visit_children (Branch.leaf id action ents : Branch dim ε)) ++ [.release])]
    else
      (applications ents).map .run ++ releaseLoop (1 <<< ((queue_depth - depth) * dim))
  | depth, .node id action ents children =>
    if depth = queue_depth then
      [.queue (applications (visit_children (.node id action ents children)) ++ [.release])]
    else
      (List.finRange (2 ^ dim)).flatMap fun i =>
        visit_children_pool queue_depth (depth + 1) (children i)

end Flecsi.Topology
