import Flecsi.Coloring.MpiCommunicator
import Flecsi.Lib.RequestReply

/-!
# Offsets of entities of other ranks

`get_entity_info`: every rank sends the ids it asks for to the ranks it asks, and gets their offsets
back. The ranks go on in any order after the exchange of the counts.
-/

namespace Flecsi.Coloring.MpiCommunicator

open RequestReply
open Relation (ReflTransGen)

section
variable (entity_info : Fin n → EntitySet) (request_indices : Fin n → List (Finset ℕ))

def send_cnts (p : Fin n) : List ℕ := (List.range n).map fun r => ((request_indices p).getD r ∅).card

def recv_cnts (p : Fin n) : List ℕ := mpiAlltoall (send_cnts request_indices) p

/-- `entity_info_map[i].offset`, that of a new entry where there is none. -/
def offsetOf (entity_info : EntitySet) (i : ℕ) : ℕ :=
  match entity_info.find i with
  | some e => e.offset
  | none => 0

/-- The requests and their answers; calls with a count of zero are skipped. -/
def entityProtocol : Protocol n ℕ where
  request p r := ((request_indices p).getD r ∅).sort
  announced p r := (recv_cnts request_indices r).getD p 0
  reply p rbuffers r := (rbuffers r).map (offsetOf (entity_info p))

/-- `rbuffers[r]` after the second exchange. -/
def answerBuffer (s : State n ℕ) (p r : Fin n) : List ℕ :=
  (s.replies (r, p)).getD (List.replicate ((send_cnts request_indices p).getD r 0) 0)

/-- `remote[r]` on rank `p`. -/
def remoteOffsets (s : State n ℕ) (p r : Fin n) : Finset ℕ :=
  (List.range ((send_cnts request_indices p).getD r 0)).foldl (fun remote i =>
    insert ((answerBuffer request_indices s p r).getD i 0) remote) ∅

end

section
variable {entity_info : Fin n → EntitySet} {request_indices : Fin n → List (Finset ℕ)}

theorem getD_send_cnts (p r : Fin n) :
    (send_cnts request_indices p).getD r 0 = ((request_indices p).getD r ∅).card := by
  simp [send_cnts]

theorem entityProtocol_counted : (entityProtocol entity_info request_indices).Counted where
  announced p r := by
    have hcount : (entityProtocol entity_info request_indices).announced p r = (send_cnts request_indices p).getD r 0 := by
      simp [entityProtocol, recv_cnts, mpiAlltoall]
    rw [hcount, getD_send_cnts]
    exact (Finset.length_sort _).symm
  reply p inbox r := List.length_map _

theorem remoteOffsets_eq {s : State n ℕ} (h : (entityProtocol entity_info request_indices).Inv s) (hfinal : s.Final)
    (p r : Fin n) : remoteOffsets request_indices s p r =
      ((request_indices p).getD r ∅).image (offsetOf (entity_info r)) := by
  set requested := (request_indices p).getD r ∅ with hrequested
  have hreplies : s.replies (r, p) =
      if requested.sort = [] then none else some (requested.sort.map (offsetOf (entity_info r))) :=
    (h.final hfinal r p).2.2
  have hcount : (send_cnts request_indices p).getD r 0 = requested.sort.length := by
    rw [getD_send_cnts, Finset.length_sort]
  have hanswer : answerBuffer request_indices s p r = requested.sort.map (offsetOf (entity_info r)) := by
    rw [answerBuffer, hreplies, hcount]
    split_ifs with hnil
    · rw [hnil]
      rfl
    · rfl
  ext x
  rw [remoteOffsets, SetLoops.mem_foldl_insert, hanswer, hcount, Finset.mem_image]
  simp only [Finset.notMem_empty, false_or, List.mem_range]
  constructor
  · rintro ⟨i, hi, rfl⟩
    refine ⟨requested.sort[i], (requested.mem_sort _).mp (List.getElem_mem hi), ?_⟩
    rw [List.getD_eq_getElem _ _ (by simpa using hi), List.getElem_map]
  · rintro ⟨y, hy, rfl⟩
    obtain ⟨i, hi, rfl⟩ := List.getElem_of_mem ((requested.mem_sort (· ≤ ·)).mpr hy)
    refine ⟨i, hi, ?_⟩
    rw [List.getD_eq_getElem _ _ (by simpa using hi), List.getElem_map]

/-- In every run the messages go to the receives posted for them, some rank can go on until all are
done, and then every rank has the offsets of what it asked for. -/
theorem get_entity_info_offsets (entity_info : Fin n → EntitySet) (request_indices : Fin n → List (Finset ℕ))
    (buffered : State n ℕ → Fin n → Fin n → Prop) :
    (∀ run : ℕ → State n ℕ,
      ¬∀ i, (entityProtocol entity_info request_indices).Step buffered (run i) (run (i + 1))) ∧
    ∀ s, ReflTransGen ((entityProtocol entity_info request_indices).Step buffered) .initial s →
      (s.Final ∨ ∃ t, (entityProtocol entity_info request_indices).Step buffered s t) ∧
      (∀ p r ids, s.requests (p, r) = some ids → ids = ((request_indices p).getD r ∅).sort) ∧
      (s.Final → ∀ p r, s.flight (p, r) = [] ∧ remoteOffsets request_indices s p r =
        ((request_indices p).getD r ∅).image (offsetOf (entity_info r))) := by
  refine ⟨Runs.terminates fun _ _ => Protocol.weight_step, fun s hs => ?_⟩
  have hinv := Protocol.inv_reachable entityProtocol_counted hs
  refine ⟨?_, fun p r ids hids => ?_, fun hfinal p r =>
    ⟨(hinv.final hfinal p r).1, remoteOffsets_eq hinv hfinal p r⟩⟩
  · by_cases hfinal : s.Final
    · exact .inl hfinal
    · exact .inr (Protocol.progress entityProtocol_counted hinv hfinal)
  · obtain ⟨a, b, hl⟩ := hinv.link p r
    have hrequests := hl.requests.symm.trans hids
    cases a with
    | arrived => exact (Option.some.inj hrequests).symm
    | _ => cases hrequests

end

end Flecsi.Coloring.MpiCommunicator
