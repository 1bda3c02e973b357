import Mathlib

/-!
# Runs of consecutive integers

A list of integers kept as the lengths and the first elements of runs of consecutive ones.
-/

namespace ConsecutiveRuns

variable {lens starts l : List ℤ}

def run (len start : ℤ) : List ℤ := (List.range len.toNat).map fun (i : ℕ) => start + (i : ℤ)

def expand (lens starts : List ℤ) : List ℤ := (lens.zip starts).flatMap fun x => run x.1 x.2

/-- The runs of a list, none of them empty. -/
structure Encodes (lens starts l : List ℤ) : Prop where
  paired : lens.length = starts.length
  positive : ∀ len ∈ lens, 0 < len
  expand : expand lens starts = l

theorem run_one (start : ℤ) : run 1 start = [start] := by simp [run]

theorem run_succ {len : ℤ} (h : 0 < len) (start : ℤ) : run (len + 1) start = run len start ++ [start + len] := by
  obtain ⟨k, rfl⟩ := Int.eq_ofNat_of_zero_le h.le
  have hsucc : ((k : ℤ) + 1).toNat = k + 1 := rfl
  unfold run
  rw [hsucc, List.range_succ, List.map_append]
  rfl

theorem getLast?_run {len : ℤ} (h : 0 < len) (start : ℤ) : (run len start).getLast? = some (start + len - 1) := by
  obtain ⟨k, rfl⟩ := Int.eq_succ_of_zero_lt h
  have hsucc : ((k : ℤ) + 1).toNat = k + 1 := rfl
  unfold run
  rw [hsucc, List.range_succ, List.map_append, List.map_singleton, List.getLast?_concat]
  congr 1
  ring

theorem expand_concat (h : lens.length = starts.length) (len start : ℤ) :
    expand (lens ++ [len]) (starts ++ [start]) = expand lens starts ++ run len start := by
  unfold expand
  rw [List.zip_append h, List.flatMap_append]
  simp

theorem encodes_single (x : ℤ) : Encodes [1] [x] [x] where
  paired := rfl
  positive := by simp
  expand := run_one x

/-- An element that starts a run of its own. -/
theorem Encodes.start (h : Encodes lens starts l) (x : ℤ) : Encodes (lens ++ [1]) (starts ++ [x]) (l ++ [x]) where
  paired := by simp [h.paired]
  positive := List.forall_mem_append.mpr ⟨h.positive, by simp⟩
  expand := by rw [expand_concat h.paired, h.expand, run_one]

/-- An element that follows the last one lengthens its run. -/
theorem Encodes.extend {len prev : ℤ} (h : Encodes (lens ++ [len]) starts l) (hlast : l.getLast? = some prev) :
    Encodes (lens ++ [len + 1]) starts (l ++ [prev + 1]) := by
  obtain ⟨hpos, hlen⟩ := List.forall_mem_append.mp h.positive
  have hlen : 0 < len := hlen len (List.mem_singleton_self _)
  cases starts using List.reverseRecOn with
  | nil => simpa using h.paired
  | append_singleton starts start =>
    have hpaired : lens.length = starts.length := by simpa using h.paired
    have hl : l = ConsecutiveRuns.expand lens starts ++ run len start := by
      rw [← h.expand, expand_concat hpaired]
    have hprev : prev = start + len - 1 := by
      rw [hl, List.getLast?_append, getLast?_run hlen] at hlast
      exact (Option.some.inj hlast).symm
    refine ⟨by simp [hpaired], List.forall_mem_append.mpr ⟨hpos, by simpa using by omega⟩, ?_⟩
    rw [expand_concat hpaired, run_succ hlen, ← List.append_assoc, ← hl, hprev]
    congr 2
    ring

theorem Encodes.len_le (h : Encodes lens starts l) {len : ℤ} (hlen : len ∈ lens) : len ≤ l.length := by
  rw [← List.map_fst_zip h.paired.le] at hlen
  obtain ⟨x, hx, rfl⟩ := List.mem_map.mp hlen
  have hsub : (run x.1 x.2).length ≤ (ConsecutiveRuns.expand lens starts).length := by
    unfold ConsecutiveRuns.expand
    rw [List.flatMap_def]
    exact (List.sublist_flatten_of_mem (List.mem_map_of_mem (f := fun x => run x.1 x.2) hx)).length_le
  rw [h.expand, run, List.length_map, List.length_range] at hsub
  omega

end ConsecutiveRuns
