import Mathlib

/-!
# Slices of an index launch

`slice_task` of the Legion mapper cuts the domain of an index launch into slices
and gives each a processor. How it does so depends on the tag of the launch.
-/

namespace Flecsi.Execution.Mapper

inductive Kind
  | loc
  | toc
  | omp
  deriving DecidableEq

structure Processor where
  id : ℕ
  kind : Kind
  addressSpace : BitVec 32
  deriving DecidableEq

/-- A one-dimensional domain that is not empty. -/
structure Domain where
  points : List ℤ
  sorted : points.Pairwise (· < ·)
  ne_nil : points ≠ []

namespace Domain

def lo (d : Domain) : ℤ := d.points.head d.ne_nil

def hi (d : Domain) : ℤ := d.points.getLast d.ne_nil

def single (p : ℤ) : Domain := ⟨[p], List.pairwise_singleton _ p, List.cons_ne_nil p []⟩

end Domain

/-- A default-constructed slice has no domain and no processor. -/
structure TaskSlice where
  domain : Option Domain
  proc : Option Processor
  recurse : Bool
  stealable : Bool

def TaskSlice.unset : TaskSlice := ⟨none, none, false, false⟩

def TaskSlice.points (s : TaskSlice) : List ℤ := s.domain.elim [] Domain.points

def forceRankMatch : ℕ := 0x00001000
def compactedStorage : ℕ := 0x00002000
def subrankLaunch : ℕ := 0x00003000
def preferGpu : ℕ := 0x11000001
def preferOmp : ℕ := 0x11000002

/-- The machine, the processor of the mapper, and the local processors as the
default mapper leaves them. -/
structure MpiMapper where
  machine : List Processor
  localProc : Processor
  baseCpus : List Processor
  baseGpus : List Processor
  baseOmps : List Processor

namespace MpiMapper

/-- The processors that the constructor adds. -/
def localOf (m : MpiMapper) (kind : Kind) : List Processor :=
  m.machine.filter fun p => p.addressSpace = m.localProc.addressSpace ∧ p.kind = kind

def localCpus (m : MpiMapper) : List Processor := m.baseCpus ++ m.localOf .loc

def localGpus (m : MpiMapper) : List Processor := m.baseGpus ++ m.localOf .toc

def localOmps (m : MpiMapper) : List Processor := m.baseOmps

end MpiMapper

-- ---------------------------------------------------------------------------
-- The slices
-- ---------------------------------------------------------------------------

/-- One processor for every address space, by its number as an `int`. -/
def addTarget (targets : ℤ → Option Processor) (p : Processor) : ℤ → Option Processor :=
  let a := p.addressSpace.toInt
  if targets a = none then Function.update targets a (some p) else targets

def targets (machine : List Processor) : ℤ → Option Processor :=
  (machine.filter fun p => p.kind = .loc).foldl addTarget fun _ => none

/-- The loop over the ranks of a domain that ends at `hi`, with an `int` counter
and the one slice. -/
def matchRanks (targets : ℤ → Option Processor) (hi : ℤ) : ℕ → ℤ → TaskSlice → Option TaskSlice
  | 0, _, _ => none
  | fuel + 1, a, slice =>
    if hi < a then some slice
    else
      (targets a).bind fun proc =>
      let slice := { slice with domain := some (.single a), proc := some proc }
      if a = 2 ^ 31 - 1 then none else matchRanks targets hi fuel (a + 1) slice

/-- One point, for the next of the local processors. -/
def addSlice (procs : List Processor) (st : ℕ × List TaskSlice) (p : ℤ) : Option (ℕ × List TaskSlice) :=
  procs[st.1]?.map fun proc =>
  let index := st.1 + 1
  (if index = procs.length then 0 else index, st.2 ++ [⟨some (.single p), some proc, false, false⟩])

def divide (procs : List Processor) (points : List ℤ) : Option (List TaskSlice) :=
  (points.foldlM (addSlice procs) (0, [])).map Prod.snd

/-- The slices, with the assertions of the mapper. There are none before. -/
def sliceTask (m : MpiMapper) (tag : ℕ) (targetProc : Processor) (d : Domain) : Option (List TaskSlice) :=
  if tag = subrankLaunch then some [{ TaskSlice.unset with domain := some d, proc := some targetProc }]
  else if tag = forceRankMatch ∨ tag = compactedStorage then
    let a := (BitVec.ofInt 32 d.lo).toInt
    (matchRanks (targets m.machine) d.hi ((d.hi - a).toNat + 2) a .unset).map fun slice => [slice]
  else if tag = preferGpu ∧ m.localGpus ≠ [] then divide m.localGpus d.points
  else if tag = preferOmp ∧ m.localOmps ≠ [] then divide m.localOmps d.points
  else divide m.localCpus d.points

-- ---------------------------------------------------------------------------
-- What slices have to be
-- ---------------------------------------------------------------------------

/-- Every point of the domain is in one slice and no other point is. -/
structure Covers (d : Domain) (slices : List TaskSlice) : Prop where
  disjoint : slices.Pairwise fun s t => ∀ p ∈ s.points, p ∉ t.points
  union : ∀ p, (∃ s ∈ slices, p ∈ s.points) ↔ p ∈ d.points

def RankMatching (tag : ℕ) : Prop := tag = forceRankMatch ∨ tag = compactedStorage

/-- Every address space that a point names has a CPU processor. -/
def HasCpus (machine : List Processor) (d : Domain) : Prop :=
  ∀ p ∈ d.points, ∃ proc ∈ machine, proc.kind = .loc ∧ (proc.addressSpace.toNat : ℤ) = p

/-- Every point goes to the address space that it names. -/
def Matches (slices : List TaskSlice) : Prop :=
  ∀ s ∈ slices, ∀ p ∈ s.points, ∃ proc, s.proc = some proc ∧ (proc.addressSpace.toNat : ℤ) = p

/-- The processors that the points are divided over. -/
def MpiMapper.preferred (m : MpiMapper) (tag : ℕ) : List Processor :=
  if tag = preferGpu ∧ m.localGpus ≠ [] then m.localGpus
  else if tag = preferOmp ∧ m.localOmps ≠ [] then m.localOmps
  else m.localCpus

/-- A launch by rank has one point, and there is a processor for the points of
any other. -/
structure Sliceable (m : MpiMapper) (tag : ℕ) (d : Domain) : Prop where
  onePoint : RankMatching tag → d.points.length = 1 ∧ d.hi < 2 ^ 31 - 1
  procs : ¬RankMatching tag → tag = subrankLaunch ∨ m.preferred tag ≠ []

/-- The slices are there, cover the domain and match the ranks where they
have to. -/
def Sliced (m : MpiMapper) (tag : ℕ) (targetProc : Processor) (d : Domain) : Prop :=
  ∃ slices, sliceTask m tag targetProc d = some slices ∧ Covers d slices ∧ (RankMatching tag → Matches slices)

-- ---------------------------------------------------------------------------
-- Points divided over processors
-- ---------------------------------------------------------------------------

theorem points_single (p : ℤ) (proc : Option Processor) (recurse stealable : Bool) :
    TaskSlice.points ⟨some (.single p), proc, recurse, stealable⟩ = [p] := rfl

theorem foldlM_addSlice {procs : List Processor} (points : List ℤ) {index : ℕ} (hindex : index < procs.length)
    (slices : List TaskSlice) :
    ∃ index' added, points.foldlM (addSlice procs) (index, slices) = some (index', slices ++ added) ∧
      added.map TaskSlice.points = points.map fun p => [p] := by
  induction points generalizing index slices with
  | nil => exact ⟨index, [], by simp, rfl⟩
  | cons p points ih =>
    have hnext : (if index + 1 = procs.length then 0 else index + 1) < procs.length := by
      split
      · exact Nat.zero_lt_of_lt hindex
      · omega
    obtain ⟨index', added, hrun, hpoints⟩ := ih hnext (slices ++ [⟨some (.single p), some procs[index], false, false⟩])
    refine ⟨index', ⟨some (.single p), some procs[index], false, false⟩ :: added, ?_, ?_⟩
    · rw [List.foldlM_cons, addSlice, List.getElem?_eq_getElem hindex]
      rw [List.append_assoc] at hrun
      exact hrun
    · rw [List.map_cons, List.map_cons, points_single, hpoints]

theorem divide_covers {procs : List Processor} (hprocs : procs ≠ []) (d : Domain) :
    ∃ slices, divide procs d.points = some slices ∧ Covers d slices := by
  obtain ⟨index', slices, hrun, hpoints⟩ := foldlM_addSlice d.points (List.length_pos_iff.mpr hprocs) []
  refine ⟨slices, by rw [divide, hrun]; rfl, ?_, fun p => ?_⟩
  · have hdistinct : (slices.map TaskSlice.points).Pairwise fun s t => ∀ p ∈ s, p ∉ t := by
      rw [hpoints, List.pairwise_map]
      refine d.sorted.imp fun hlt r hr hr' => ?_
      rw [List.mem_singleton] at hr hr'
      exact hlt.ne (hr.symm.trans hr')
    exact List.pairwise_map.mp hdistinct
  · have hmem : (∃ s ∈ slices, p ∈ s.points) ↔ ∃ l ∈ slices.map TaskSlice.points, p ∈ l := by simp
    rw [hmem, hpoints]
    simp

theorem divide_nil (d : Domain) : divide [] d.points = none := by
  cases hpoints : d.points with
  | nil => exact absurd hpoints d.ne_nil
  | cons p points => rfl

theorem sliceTask_divide {m : MpiMapper} {tag : ℕ} (hsubrank : tag ≠ subrankLaunch) (hmatch : ¬RankMatching tag)
    (targetProc : Processor) (d : Domain) : sliceTask m tag targetProc d = divide (m.preferred tag) d.points := by
  rw [sliceTask, if_neg hsubrank]
  unfold RankMatching at hmatch
  rw [if_neg hmatch, MpiMapper.preferred]
  split
  · rfl
  · split <;> rfl

-- ---------------------------------------------------------------------------
-- Points matched with ranks
-- ---------------------------------------------------------------------------

theorem foldl_addTarget (procs : List Processor) (found : ℤ → Option Processor) (a : ℤ) :
    procs.foldl addTarget found a = (found a).or (procs.find? fun p => p.addressSpace.toInt = a) := by
  induction procs generalizing found with
  | nil => simp
  | cons p procs ih =>
    rw [List.foldl_cons, ih, List.find?_cons, addTarget]
    cases eq_or_ne p.addressSpace.toInt a with
    | inl heq =>
      subst heq
      cases hfound : found p.addressSpace.toInt with
      | none => simp
      | some q => simp [hfound]
    | inr hne =>
      simp only [hne, decide_false]
      split
      · rw [Function.update_of_ne hne.symm]
      · rfl

theorem targets_eq (machine : List Processor) (a : ℤ) :
    targets machine a = (machine.filter fun p => p.kind = .loc).find? fun p => p.addressSpace.toInt = a := by
  rw [targets, foldl_addTarget, Option.none_or]

theorem toInt_eq_iff (space : BitVec 32) {p : ℤ} (h0 : 0 ≤ p) (hlt : p < 2 ^ 31) :
    space.toInt = p ↔ (space.toNat : ℤ) = p := by
  have hspace := space.isLt
  rw [BitVec.toInt_eq_toNat_cond]
  split <;> omega

theorem targets_of_hasCpus {machine : List Processor} {d : Domain} (hcpus : HasCpus machine d) {p : ℤ}
    (hp : p ∈ d.points) (hlt : p < 2 ^ 31) :
    ∃ proc, targets machine p = some proc ∧ (proc.addressSpace.toNat : ℤ) = p := by
  obtain ⟨proc, hmem, hkind, hspace⟩ := hcpus p hp
  have h0 : 0 ≤ p := hspace ▸ Int.natCast_nonneg _
  have hfound : ((machine.filter fun p => p.kind = .loc).find? fun q => q.addressSpace.toInt = p).isSome := by
    rw [List.find?_isSome]
    exact ⟨proc, by simp [hmem, hkind], by simpa using (toInt_eq_iff _ h0 hlt).mpr hspace⟩
  obtain ⟨proc', hproc'⟩ := Option.isSome_iff_exists.mp hfound
  refine ⟨proc', by rw [targets_eq, hproc'], ?_⟩
  have hint := List.find?_some hproc'
  exact (toInt_eq_iff _ h0 hlt).mp (by simpa using hint)

/-- Every pass writes the one slice again. -/
theorem matchRanks_last {targets : ℤ → Option Processor} {hi a : ℤ} {fuel : ℕ} {slice s : TaskSlice}
    (h : matchRanks targets hi fuel a slice = some s) : hi < a ∧ s = slice ∨ s.domain = some (.single hi) := by
  induction fuel generalizing a slice with
  | zero => simp [matchRanks] at h
  | succ fuel ih =>
    rw [matchRanks] at h
    cases Int.lt_or_le hi a with
    | inl hlt =>
      rw [if_pos hlt, Option.some.injEq] at h
      exact .inl ⟨hlt, h.symm⟩
    | inr hle =>
      rw [if_neg hle.not_gt] at h
      obtain ⟨proc, -, h⟩ := Option.bind_eq_some_iff.mp h
      rw [Option.ite_none_left_eq_some] at h
      cases ih h.2 with
      | inl hdone =>
        obtain ⟨hlt, rfl⟩ := hdone
        obtain rfl : a = hi := by omega
        exact .inr rfl
      | inr hdomain => exact .inr hdomain

/-- The counter cannot go past the largest `int`. -/
theorem matchRanks_overflow (targets : ℤ → Option Processor) {hi a : ℤ} (fuel : ℕ) (slice : TaskSlice)
    (ha : a ≤ 2 ^ 31 - 1) (hhi : 2 ^ 31 - 1 ≤ hi) : matchRanks targets hi fuel a slice = none := by
  induction fuel generalizing a slice with
  | zero => rfl
  | succ fuel ih =>
    rw [matchRanks, if_neg (ha.trans hhi).not_gt]
    refine Option.bind_eq_none_iff.mpr fun proc _ => ?_
    cases eq_or_ne a (2 ^ 31 - 1) with
    | inl heq => exact if_pos heq
    | inr hne =>
      rw [if_neg hne]
      exact ih _ (by omega)

theorem sliceTask_match {m : MpiMapper} {tag : ℕ} (hmatch : RankMatching tag) (targetProc : Processor) (d : Domain) :
    sliceTask m tag targetProc d =
      (matchRanks (targets m.machine) d.hi ((d.hi - (BitVec.ofInt 32 d.lo).toInt).toNat + 2) (BitVec.ofInt 32 d.lo).toInt
        .unset).map fun slice => [slice] := by
  have hsubrank : tag ≠ subrankLaunch := by
    rintro rfl
    exact absurd hmatch (by unfold RankMatching; decide)
  rw [sliceTask, if_neg hsubrank]
  exact if_pos hmatch

/-- The slices of a launch by rank cover no more than its last point. -/
theorem length_points_of_covers {m : MpiMapper} {tag : ℕ} (hmatch : RankMatching tag) {targetProc : Processor}
    {d : Domain} (h : Sliced m tag targetProc d) : d.points.length = 1 ∧ d.hi < 2 ^ 31 - 1 := by
  obtain ⟨slices, hslices, hcovers, -⟩ := h
  rw [sliceTask_match hmatch] at hslices
  obtain ⟨slice, hslice, rfl⟩ := Option.map_eq_some_iff.mp hslices
  have hlast : ∀ p ∈ d.points, p = d.hi := by
    intro p hp
    obtain ⟨s, hs, hps⟩ := (hcovers.union p).mpr hp
    obtain rfl := List.mem_singleton.mp hs
    cases matchRanks_last hslice with
    | inl hunset => simp [hunset.2, TaskSlice.unset, TaskSlice.points] at hps
    | inr hdomain => simpa [TaskSlice.points, hdomain, Domain.single] using hps
  constructor
  · have hsorted := d.sorted
    cases hpoints : d.points with
    | nil => exact absurd hpoints d.ne_nil
    | cons p points =>
      cases points with
      | nil => rfl
      | cons q points =>
        rw [hpoints] at hsorted hlast
        have hlt := List.rel_of_pairwise_cons hsorted List.mem_cons_self
        rw [hlast p (by simp), hlast q (by simp)] at hlt
        exact absurd hlt (lt_irrefl _)
  · by_contra hhi
    have hnone := matchRanks_overflow (targets m.machine) ((d.hi - (BitVec.ofInt 32 d.lo).toInt).toNat + 2) .unset
      (Int.le_sub_one_of_lt (BitVec.toInt_lt (x := BitVec.ofInt 32 d.lo))) (Int.not_lt.mp hhi)
    rw [hnone] at hslice
    cases hslice

/-- A launch by rank with one point. -/
theorem sliced_single {m : MpiMapper} {tag : ℕ} (hmatch : RankMatching tag) (targetProc : Processor) {d : Domain}
    (hcpus : HasCpus m.machine d) (hone : d.points.length = 1) (hhi : d.hi < 2 ^ 31 - 1) : Sliced m tag targetProc d := by
  obtain ⟨p, hp⟩ := List.length_eq_one_iff.mp hone
  have hlo : d.lo = p := by simp [Domain.lo, hp]
  have hhi' : d.hi = p := by simp [Domain.hi, hp]
  rw [hhi'] at hhi
  obtain ⟨proc, hproc, hspace⟩ := targets_of_hasCpus hcpus (p := p) (by simp [hp]) (by omega)
  have h0 : 0 ≤ p := hspace ▸ Int.natCast_nonneg _
  have hint : (BitVec.ofInt 32 p).toInt = p := by
    rw [BitVec.toInt_ofInt, Int.bmod_eq_of_le] <;> omega
  refine ⟨[⟨some (.single p), some proc, false, false⟩], ?_, ⟨List.pairwise_singleton _ _, ?_⟩, fun _ => ?_⟩
  · have hfuel : (p - p).toNat + 2 = 2 := by simp
    rw [sliceTask_match hmatch, hlo, hhi', hint, hfuel, matchRanks, if_neg (lt_irrefl p), hproc, Option.bind_some,
      if_neg hhi.ne, matchRanks, if_pos (Int.lt_succ p)]
    rfl
  · intro q
    simp [points_single, hp]
  · intro s hs q hq
    obtain rfl := List.mem_singleton.mp hs
    rw [points_single, List.mem_singleton] at hq
    exact ⟨proc, rfl, hq ▸ hspace⟩

/-- A launch is cut right if it is not by rank, or has one point. -/
theorem sliced_iff {m : MpiMapper} {tag : ℕ} {d : Domain} (hcpus : RankMatching tag → HasCpus m.machine d)
    (targetProc : Processor) : Sliced m tag targetProc d ↔ Sliceable m tag d := by
  cases Classical.em (RankMatching tag) with
  | inl hmatch =>
    constructor
    · intro h
      exact ⟨fun _ => length_points_of_covers hmatch h, fun hnot => absurd hmatch hnot⟩
    · intro h
      obtain ⟨hone, hhi⟩ := h.onePoint hmatch
      exact sliced_single hmatch targetProc (hcpus hmatch) hone hhi
  | inr hmatch =>
    cases eq_or_ne tag subrankLaunch with
    | inl hsubrank =>
      have hslices : Sliced m tag targetProc d := by
        refine ⟨_, if_pos hsubrank, ⟨List.pairwise_singleton _ _, fun p => ?_⟩, fun h => absurd h hmatch⟩
        simp [TaskSlice.points]
      exact ⟨fun _ => ⟨fun h => absurd h hmatch, fun _ => .inl hsubrank⟩, fun _ => hslices⟩
    | inr hsubrank =>
      constructor
      · rintro ⟨slices, hslices, -⟩
        refine ⟨fun h => absurd h hmatch, fun _ => .inr fun hnil => ?_⟩
        rw [sliceTask_divide hsubrank hmatch, hnil, divide_nil] at hslices
        cases hslices
      · intro h
        have hprocs := (h.procs hmatch).resolve_left hsubrank
        obtain ⟨slices, hslices, hcovers⟩ := divide_covers hprocs d
        exact ⟨slices, by rw [sliceTask_divide hsubrank hmatch, hslices], hcovers, fun h => absurd h hmatch⟩

def cpu (addressSpace : BitVec 32) : Processor := ⟨addressSpace.toNat, .loc, addressSpace⟩

def twoNodes : MpiMapper := ⟨[cpu 0, cpu 1], cpu 0, [], [], []⟩

def twoRanks : Domain := ⟨[0, 1], by simp, by simp⟩

theorem hasCpus_twoRanks : HasCpus twoNodes.machine twoRanks := by
  intro p hp
  have hrank : p = 0 ∨ p = 1 := by simpa [twoRanks] using hp
  cases hrank with
  | inl heq => exact ⟨cpu 0, by decide, rfl, heq.symm⟩
  | inr heq => exact ⟨cpu 1, by decide, rfl, heq.symm⟩

theorem sliced_iff_twoRanks : Sliced twoNodes forceRankMatch (cpu 0) twoRanks ↔ Sliceable twoNodes forceRankMatch twoRanks :=
  sliced_iff (fun _ => hasCpus_twoRanks) (cpu 0)

/-- The first of two ranks gets no task. -/
theorem twoRanks_not_sliced : HasCpus twoNodes.machine twoRanks ∧ ¬Sliced twoNodes forceRankMatch (cpu 0) twoRanks := by
  refine ⟨hasCpus_twoRanks, fun h => ?_⟩
  exact absurd (length_points_of_covers (.inl rfl) h).1 (by decide)

end Flecsi.Execution.Mapper
