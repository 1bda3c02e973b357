import Mathlib
import Flecsi.Lib.TopoOrder

/-!
# Directed acyclic graphs

`dag_u`, whose nodes lie in a map by their hashes and store the hashes they depend on.
-/

namespace Flecsi.Utils

open Std (TreeMap)

/-- `dag_node_u`; `policy` is the state of the node's policy. -/
structure DagNode (α : Type) where
  hash : ℕ
  label : String
  edges : List ℕ
  policy : α
  deriving DecidableEq, Repr

/-- `dag_node_u()` -/
def DagNode.default (policy : α) : DagNode α := ⟨0, "", [], policy⟩

/-- `initialize` keeps the edges. -/
def DagNode.initialized (n node : DagNode α) : DagNode α :=
  { n with hash := node.hash, label := node.label, policy := node.policy }

structure Dag (α : Type) where
  nodes : TreeMap ℕ (DagNode α)

section
variable (policy : α)

/-- `nodes_[hash]`, which creates a node where there is none. -/
def Dag.at_ (d : Dag α) (hash : ℕ) : DagNode α := d.nodes.getD hash (.default policy)

def Dag.set (d : Dag α) (hash : ℕ) (n : DagNode α) : Dag α := ⟨d.nodes.insert hash n⟩

def Dag.node (d : Dag α) (hash : ℕ) : Dag α := d.set hash (d.at_ policy hash)

def Dag.initialize_node (d : Dag α) (node : DagNode α) : Dag α :=
  d.set node.hash ((d.at_ policy node.hash).initialized node)

/-- A node that an edge names first gets its hash. -/
def Dag.add_missing (d : Dag α) (hash : ℕ) : Dag α :=
  if hash ∈ d.nodes then d else d.set hash { DagNode.default policy with hash := hash }

/-- `target` depends on `source`. -/
def Dag.add_edge (d : Dag α) (target source : ℕ) : Dag α :=
  let d := (d.add_missing policy target).add_missing policy source
  let n := d.at_ policy target
  d.set target { n with edges := n.edges ++ [source] }

inductive DagCall (α : Type) where
  | node (hash : ℕ)
  | initialize_node (node : DagNode α)
  | add_edge (target source : ℕ)

def Dag.call (d : Dag α) : DagCall α → Dag α
  | .node hash => d.node policy hash
  | .initialize_node node => d.initialize_node policy node
  | .add_edge target source => d.add_edge policy target source

/-- The graph after any calls. -/
def Dag.build (calls : List (DagCall α)) : Dag α := calls.foldl (Dag.call policy) ⟨∅⟩

end

-- ---------------------------------------------------------------------------
-- Sorting
-- ---------------------------------------------------------------------------

/-- One pass over the remaining nodes after `hash` was sorted: the nodes that got ready, in
the order they are pushed, and the others. The iterator stays at a node until none of its
edges names `hash`. -/
def release (hash : ℕ) : List (DagNode α) → List (DagNode α) × List (DagNode α)
  | [] => ([], [])
  | n :: nodes =>
    let (ready, rest) := release hash nodes
    if hash ∈ n.edges then
      let n := { n with edges := n.edges.filter (· ≠ hash) }
      if n.edges = [] then (n :: ready, rest) else (ready, n :: rest)
    else (ready, n :: rest)

/-- The loop over the queue. Every pass takes one node out of the queue or the list, so
their number is enough fuel. -/
def sortLoop : ℕ → List (DagNode α) → List (DagNode α) → List (DagNode α) → List (DagNode α)
  | 0, _, _, sorted => sorted
  | _ + 1, [], _, sorted => sorted
  | fuel + 1, root :: q, nodes, sorted =>
    let (ready, rest) := release root.hash nodes
    sortLoop fuel (q ++ ready) rest (sorted ++ [root])

/-- `sort`, with the graph it leaves; no result where `clog_fatal` ends the program. -/
def Dag.sort (d : Dag α) : Option (List (DagNode α)) × Dag α :=
  let nodes := d.nodes.toList.map (·.2)
  let sorted := sortLoop nodes.length (nodes.filter (·.edges = [])) (nodes.filter (·.edges ≠ [])) []
  (if sorted.length ≠ d.nodes.size then none else some sorted, d)

-- ---------------------------------------------------------------------------
-- Topological order
-- ---------------------------------------------------------------------------

/-- The node stored at `target` has an edge from `source`. -/
def Dag.Edge (d : Dag α) (target source : ℕ) : Prop :=
  ∃ n, d.nodes[target]? = some n ∧ source ∈ n.edges

def Dag.Acyclic (d : Dag α) : Prop := TopoOrder.Acyclic d.Edge

/-- A node as `sort` returns it, with its edges removed. -/
def Dag.sorted_node (d : Dag α) (n : DagNode α) (k : ℕ) : Prop :=
  ∃ stored, d.nodes[k]? = some stored ∧ n = { stored with edges := [] }

/-- All nodes once, each after the nodes its edges name. -/
def Dag.TopologicalSort (d : Dag α) (sorted : List (DagNode α)) : Prop :=
  ∃ keys : List ℕ, keys.Perm d.nodes.keys ∧ List.Forall₂ d.sorted_node sorted keys ∧
    ∀ target source, d.Edge target source → keys.idxOf source < keys.idxOf target

/-- What `sort` is to do. -/
def Dag.SortCorrect (d : Dag α) : Prop :=
  (d.Acyclic → ∃ sorted, d.sort.1 = some sorted ∧ d.TopologicalSort sorted) ∧
  (¬d.Acyclic → d.sort.1 = none)

/-- The hash of every edge is that of its own node, and of no other. -/
def Dag.Named (d : Dag α) : Prop :=
  ∀ target source, d.Edge target source → ∀ k n, d.nodes[k]? = some n → (n.hash = source ↔ k = source)

/-- An edge names a node that `node` has created and nothing has initialised. -/
def Dag.Unnamed (d : Dag α) : Prop :=
  ∃ target source n, d.Edge target source ∧ d.nodes[source]? = some n ∧ n.hash ≠ source

end Flecsi.Utils
