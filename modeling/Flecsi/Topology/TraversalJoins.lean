import Flecsi.Topology.Traversal

/-!
# The concurrent traversals join and agree with the sequential ones

A subtree met at `depth` accounts for `2^((queue_depth - depth) * dimension)`
releases, made by the caller or by the callables it queues. `Covers` states this
together with the events, and is closed under the ways the traversals build their
programs.
-/

namespace Flecsi.Topology

open Concurrency

variable {ε α : Type} {dim : ℕ}

structure Covers (dim queue_depth depth : ℕ) (main : List (MainInstr α)) (events : List α) :
    Prop where
  releases : mainTotal Instr.releases main = 2 ^ ((queue_depth - depth) * dim)
  events : mainTotal Instr.events main = events
  fresh : ∀ i ∈ main, i.Fresh

theorem sum_map_coe (l : List β) (xs : β → List α) :
    (l.map fun x => (xs x : Multiset α)).sum = (l.flatMap xs : List α) := by
  induction l with
  | nil => rfl
  | cons x l ih => simp [ih]

theorem mainTotal_releaseLoop {M : Type} [AddCommMonoid M] (μ : Instr α → M) (m : ℕ) :
    mainTotal μ (releaseLoop m) = m • μ .release := by
  simp [mainTotal, releaseLoop, MainInstr.total]

theorem fresh_releaseLoop (m : ℕ) : ∀ i ∈ (releaseLoop m : List (MainInstr α)), i.Fresh := by
  intro i hi
  obtain ⟨_, rfl⟩ := List.mem_replicate.mp hi
  trivial

/-- Code that makes the events `xs` and no release. -/
structure Records (f : List (Instr α)) (xs : List α) : Prop where
  releases : bodyTotal Instr.releases f = 0
  events : bodyTotal Instr.events f = xs

theorem records_append (xs : List α) : Records (append xs) xs :=
  ⟨rfl, by simp [append, Instr.events]⟩

theorem records_applications (xs : List α) : Records (applications xs) xs := by
  induction xs with
  | nil => exact ⟨rfl, rfl⟩
  | cons x xs ih =>
    have hcons : applications (x :: xs) = .emit [x] :: applications xs := rfl
    refine ⟨?_, ?_⟩
    · rw [hcons, bodyTotal_cons, ih.releases]
      rfl
    · rw [hcons, bodyTotal_cons, ih.events]
      rfl

theorem Covers.pruned (queue_depth depth : ℕ) :
    Covers dim queue_depth depth
      (releaseLoop (1 <<< ((queue_depth - depth) * dim)) : List (MainInstr α)) [] where
  releases := by simp [mainTotal_releaseLoop, Instr.releases, Nat.one_shiftLeft]
  events := by simp [mainTotal_releaseLoop, Instr.events]
  fresh := fresh_releaseLoop _

theorem Covers.leaf {f : List (Instr α)} {xs : List α} (h : Records f xs)
    (queue_depth depth : ℕ) :
    Covers dim queue_depth depth
      (f.map .run ++ releaseLoop (1 <<< ((queue_depth - depth) * dim))) xs where
  releases := by
    simp [mainTotal_run, h.releases, mainTotal_releaseLoop, Instr.releases, Nat.one_shiftLeft]
  events := by simp [mainTotal_run, h.events, mainTotal_releaseLoop, Instr.events]
  fresh := by
    intro i hi
    rcases List.mem_append.mp hi with hi | hi
    · obtain ⟨_, _, rfl⟩ := List.mem_map.mp hi
      trivial
    · exact fresh_releaseLoop _ i hi

theorem Covers.emit {queue_depth depth : ℕ} {main : List (MainInstr α)} {xs : List α} (x : α)
    (h : Covers dim queue_depth depth main xs) :
    Covers dim queue_depth depth (.run (.emit [x]) :: main) (x :: xs) where
  releases := by simp [MainInstr.total, Instr.releases, h.releases]
  events := by simp [MainInstr.total, Instr.events, h.events]
  fresh := by
    intro i hi
    rcases List.mem_cons.mp hi with rfl | hi
    · trivial
    · exact h.fresh i hi

theorem Covers.queue {f : List (Instr α)} {xs : List α} (h : Records f xs) (queue_depth : ℕ) :
    Covers dim queue_depth queue_depth [.queue (f ++ [.release])] xs where
  releases := by simp [MainInstr.total, h.releases, Instr.releases]
  events := by simp [MainInstr.total, h.events, Instr.events]
  fresh := by
    simp only [List.mem_singleton, forall_eq]
    exact EndsInRelease.append f

theorem Covers.children {queue_depth depth : ℕ} (hd : depth < queue_depth)
    {main : Fin (2 ^ dim) → List (MainInstr α)} {xs : Fin (2 ^ dim) → List α}
    (h : ∀ i, Covers dim queue_depth (depth + 1) (main i) (xs i)) :
    Covers dim queue_depth depth ((List.finRange (2 ^ dim)).flatMap main)
      ((List.finRange (2 ^ dim)).flatMap xs) where
  releases := by
    have hpow : (queue_depth - depth) * dim = dim + (queue_depth - (depth + 1)) * dim := by
      obtain ⟨k, rfl⟩ := Nat.exists_eq_add_of_lt hd
      have h1 : depth + k + 1 - depth = k + 1 := by omega
      have h2 : depth + k + 1 - (depth + 1) = k := by omega
      rw [h1, h2]
      ring
    simp [mainTotal_flatMap, (h _).releases, hpow, pow_add]
  events := by simp [mainTotal_flatMap, (h _).events, sum_map_coe]
  fresh := by
    intro j hj
    obtain ⟨i, _, hi⟩ := List.mem_flatMap.mp hj
    exact (h i).fresh j hi

section Descend

variable {P K : Type} [Div K] [OfNat K 2] (view : View dim ε P) (bf : P → K → P → Bool)

theorem descend_covers {leaf : List ε → List ε} {body : List ε → List (Instr ε)}
    (hbody : ∀ xs, Records (body xs) xs) {queue_depth : ℕ} (b : Branch dim ε) :
    ∀ (depth : ℕ) (size : K), depth < queue_depth →
      Covers dim queue_depth depth (descend_pool view bf leaf body queue_depth depth b size)
        (descend view bf leaf b size) := by
  induction b with
  | leaf id action ents => exact fun depth size hd => .leaf (hbody _) _ _
  | node id action ents children ih =>
    intro depth size hd
    refine .children hd fun i => ?_
    split
    · split
      · rename_i hq
        rw [← hq]
        exact .queue (hbody _) _
      · exact ih i _ _ (by omega)
    · split
      · omega
      · exact .pruned _ _

end Descend

theorem visit_covers (f : Branch dim ε → ℕ → Bool) {queue_depth : ℕ} (b : Branch dim ε) :
    ∀ depth, depth ≤ queue_depth →
      Covers dim queue_depth depth (visit_pool f queue_depth b depth) (visit_ f b depth) := by
  induction b with
  | leaf id action ents =>
    intro depth hd
    unfold visit_pool
    split
    · rename_i hq
      subst hq
      exact .queue (records_applications _) _
    · exact (Covers.pruned _ _).emit _
  | node id action ents children ih =>
    intro depth hd
    unfold visit_pool
    split
    · rename_i hq
      subst hq
      exact .queue (records_applications _) _
    · unfold visit_
      refine Covers.emit _ ?_
      split
      · exact .pruned _ _
      · exact .children (by omega) fun i => ih i _ (by omega)

theorem visit_children_covers {queue_depth : ℕ} (b : Branch dim ε) :
    ∀ depth, depth ≤ queue_depth →
      Covers dim queue_depth depth (visit_children_pool queue_depth depth b)
        (visit_children b) := by
  induction b with
  | leaf id action ents =>
    intro depth hd
    unfold visit_children_pool
    split
    · rename_i hq
      subst hq
      exact .queue (records_applications _) _
    · exact .leaf (records_applications ents) _ _
  | node id action ents children ih =>
    intro depth hd
    unfold visit_children_pool
    split
    · rename_i hq
      subst hq
      exact .queue (records_applications _) _
    · exact .children (by omega) fun i => ih i _ (by omega)

theorem Covers.joins {q depth n : ℕ} {main : List (MainInstr α)} {events : List α}
    (h : Covers dim (q + depth) depth main events) (hn : 0 < n) :
    Joins n (2 ^ (q * dim)) main events := by
  refine Concurrency.joins hn ?_ h.fresh h.events
  rw [h.releases, Nat.add_sub_cancel]

/-- On a pool with at least one worker, from any branch, at any nominal depth `depth`
(which may exceed the branch's own), with any predicates: each concurrent traversal
makes `m = 2^(queue_depth * dimension)` releases in all, is joined by an `acquire` of
a semaphore started at `1 - m`, which is reached in every run, and yields the entities
or the applications of the sequential traversal. -/
theorem concurrent_traversals_join {P K : Type} [Div K] [OfNat K 2] (view : View dim ε P)
    (ef : ε → Bool) (bf : P → K → P → Bool) (f : Branch dim ε → ℕ → Bool) (b : Branch dim ε)
    (depth : ℕ) (size : K) {n : ℕ} (hn : 0 < n) :
    let queue_depth := get_queue_depth dim n
    let m := 2 ^ (queue_depth * dim)
    Joins n m (find_pool view bf ef (queue_depth + depth) depth b size)
        (find_ view bf ef b size) ∧
      Joins n m (apply_pool view bf (queue_depth + depth) depth b size)
        (apply_ view bf b size) ∧
      Joins n m (visit_pool f queue_depth b 0) (visit_ f b 0) ∧
      Joins n m (visit_children_pool queue_depth 0 b) (visit_children b) := by
  intro queue_depth m
  have hd : depth < queue_depth + depth := Nat.lt_add_of_pos_left (Nat.succ_pos _)
  refine ⟨?_, ?_, ?_, ?_⟩
  · exact (descend_covers view bf records_append b depth size hd).joins hn
  · exact (descend_covers view bf records_applications b depth size hd).joins hn
  · have h : Covers dim (queue_depth + 0) 0 _ _ := visit_covers f b 0 (Nat.zero_le _)
    exact h.joins hn
  · have h : Covers dim (queue_depth + 0) 0 _ _ := visit_children_covers b 0 (Nat.zero_le _)
    exact h.joins hn

/-- A root with two leaf children. -/
def twoLeaves : Branch 1 ℕ :=
  .node 1 .none [] fun i => if i = 0 then .leaf 2 .none [1, 2] else .leaf 3 .none [3]

theorem concurrent_traversals_join_twoLeaves :
    Joins 2 4 (find_pool ⟨fun _ => (), ()⟩ (fun _ (_ : ℚ) _ => true) (1 < ·) 2 0 twoLeaves 1)
        [2, 3] ∧
      Joins 2 4 (visit_children_pool 2 0 twoLeaves) [1, 2, 3] := by
  have hdepth : get_queue_depth 1 2 = 2 := by
    have hlog : Nat.log 2 2 = 1 := Nat.log_pow one_lt_two 1
    simp [get_queue_depth, hlog]
  have h := concurrent_traversals_join ⟨fun _ => (), ()⟩ (1 < ·) (fun _ (_ : ℚ) _ => true)
    (fun _ _ => false) twoLeaves 0 1 (n := 2) (by decide)
  rw [hdepth] at h
  obtain ⟨hfind, _, _, hchildren⟩ := h
  exact ⟨hfind, hchildren⟩

end Flecsi.Topology
