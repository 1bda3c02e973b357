import Flecsi.Execution.BuildsAgree
import Flecsi.Execution.Checkpoint

/-!
# Runs after a restart

A checkpoint holds the buffers of the fields, but not the flags that say whether their ghosts
are up to date. A context that has no flag set which was clear when the checkpoint was written
goes on as the saved one would have.
-/

namespace Flecsi.Execution

open Coloring Checkpoint

variable {r : Registry n}

section
variable (hr : ∀ i, ExchangeColoring (r.coloring i))
include hr

/-- One task from two contexts with equal exclusive and shared elements. -/
theorem SamePrimary.step {s s' next next' : Fin n → DenseContext} (h : SamePrimary r s s') (hs : DenseInv r s)
    (hs' : DenseInv r s') (t : Task r) (hstep : Task.aggregated s t = some next)
    (hstep' : Task.aggregated s' t = some next') :
    SamePrimary r next next' ∧ DenseInv r next ∧ DenseInv r next' := by
  obtain ⟨b, hb, rfl⟩ := Option.map_eq_some_iff.mp hstep
  obtain ⟨b', hb', rfl⟩ := Option.map_eq_some_iff.mp hstep'
  obtain ⟨hinv, hread⟩ := hs.start hr hb
  obtain ⟨hinv', hread'⟩ := hs'.start hr hb'
  have hsame : SamePrimary r b b' := fun p f i hi =>
    (startTask_primary hr hs hb p f i hi).trans
      ((h p f i hi).trans (startTask_primary hr hs' hb' p f i hi).symm)
  refine ⟨fun p f i hi => ?_, hinv.performs t.ghosts (t.performs b), hinv'.performs t.ghosts (t.performs b')⟩
  refine t.visible _ _ (fun p f i hvisible => ?_) p f i hi
  rcases hvisible with hlt | ⟨a, ha, rfl, hro⟩
  · exact hsame p f i hlt
  · have hcoherent : Coherent r b a.fid := fun p => hinv.coherent p _ (hread p a ha hro) p
    have hcoherent' : Coherent r b' a.fid := fun p => hinv'.coherent p _ (hread' p a ha hro) p
    exact hsame.ghosts hr hinv.length hinv'.length hcoherent hcoherent' p i

theorem SamePrimary.run {s s' last last' : Fin n → DenseContext} (h : SamePrimary r s s') (hs : DenseInv r s)
    (hs' : DenseInv r s') (tasks : List (Task r)) (hrun : tasks.foldlM Task.aggregated s = some last)
    (hrun' : tasks.foldlM Task.aggregated s' = some last') :
    SamePrimary r last last' ∧ DenseInv r last ∧ DenseInv r last' := by
  induction tasks generalizing s s' with
  | nil =>
    obtain rfl := Option.some.inj hrun
    obtain rfl := Option.some.inj hrun'
    exact ⟨h, hs, hs'⟩
  | cons t tasks ih =>
    rw [List.foldlM_cons] at hrun hrun'
    obtain ⟨next, hnext, hrest⟩ := Option.bind_eq_some_iff.mp hrun
    obtain ⟨next', hnext', hrest'⟩ := Option.bind_eq_some_iff.mp hrun'
    obtain ⟨hsame, hinv, hinv'⟩ := h.step hr hs hs' t hnext hnext'
    exact ih hsame hinv hinv' hrest hrest'

end

-- ---------------------------------------------------------------------------
-- Restart
-- ---------------------------------------------------------------------------

end Flecsi.Execution
