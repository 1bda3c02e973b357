import Flecsi.Coloring.Comm
import Flecsi.Lib.SlotCopy

/-!
# Aggregated messages

The block the three exchanges of the task prolog repeat: post the receives, pack and
send one buffer for each rank, wait, unpack. The sizes of the buffers are computed
separately on the two sides.
-/

namespace Flecsi.Execution

open Coloring SlotCopy

variable {κ κ' β : Type} [Inhabited β] [DecidableEq κ']

/-- Conversion to `int`. Out of range its value is implementation defined: the run stops. -/
def toInt (x : ℕ) : Option ℕ := if x < 2 ^ 31 then some x else none

structure Plan (n : ℕ) (κ κ' : Type) where
  /-- The receive `p` posts for a message from `q`. -/
  recvSize : Fin n → Fin n → Option ℕ
  /-- The message `q` sends to `p`. -/
  sendSize : Fin n → Fin n → Option ℕ
  recvSlots : Fin n → Fin n → List (Slot κ')
  sendSlots : Fin n → Fin n → List (Slot κ)

/-- The send buffer; packing past its end fails. -/
def packMessage (size : Option ℕ) (data : κ → List β) (slots : List (Slot κ)) :
    Option (Option (List β)) :=
  match size with
  | none => some none
  | some size => do
    let msg ← pack data slots
    if msg.length ≤ size then some (some (msg ++ List.replicate (size - msg.length) default))
    else none

/-- The receive buffer after the wait. A receive without a send, or a send without a
receive, is never completed. -/
def deliver : Option ℕ → Option (List β) → Option (Option (List β))
  | none, none => some none
  | some count, some msg =>
    if msg.length ≤ count then some (some (msg ++ List.replicate (count - msg.length) default))
    else none
  | _, _ => none

def unpackMessages (plan : Plan n κ κ') (p : Fin n) (bufs : Fin n → Option (List β))
    (data : κ' → List β) : Option (κ' → List β) :=
  (List.finRange n).foldlM (fun data q =>
    match bufs q with
    | none => some data
    | some buf => unpack buf (plan.recvSlots p q) data) data

def Plan.exchange (plan : Plan n κ κ') (src : Fin n → κ → List β) (dst : Fin n → κ' → List β) :
    Option (Fin n → κ' → List β) := do
  let msgs ← allRanks fun q => allRanks fun p =>
    packMessage (plan.sendSize q p) (src q) (plan.sendSlots q p)
  let bufs ← allRanks fun p => allRanks fun q => deliver (plan.recvSize p q) (msgs q p)
  allRanks fun p => unpackMessages plan p (bufs p) (dst p)

-- ---------------------------------------------------------------------------
-- Plans on which the ranks agree
-- ---------------------------------------------------------------------------

/-- The two sides compute the same sizes, and what a rank receives for a cell is the
cell's value. -/
structure Plan.Matched (plan : Plan n κ κ') (src : Fin n → κ → List β)
    (dst : Fin n → κ' → List β) (value : Fin n → κ' × ℕ → Option β) : Prop where
  size : ∀ p q, plan.recvSize p q = plan.sendSize q p
  none : ∀ p q, plan.recvSize p q = none → cells (plan.recvSlots p q) = []
  some : ∀ p q k, plan.recvSize p q = some k → (cells (plan.recvSlots p q)).length = k
  fits_src : ∀ p q, Fits (src q) (plan.sendSlots q p)
  fits_dst : ∀ p q, Fits (dst p) (plan.recvSlots p q)
  value : ∀ p q, (cells (plan.recvSlots p q)).map (value p) =
    (cells (plan.sendSlots q p)).map (readCell (src q))

omit [Inhabited β] in
theorem unpackMessages_from (plan : Plan n κ κ') (p : Fin n) (bufs : Fin n → Option (List β))
    {data : κ' → List β} (value : κ' × ℕ → Option β) (ranks : List (Fin n))
    (hbufs : ∀ q, ((bufs q).getD []).map some = (cells (plan.recvSlots p q)).map value)
    (hfits : ∀ q, Fits data (plan.recvSlots p q)) :
    ∃ data', ranks.foldlM (fun data q =>
        match bufs q with
        | none => some data
        | some buf => unpack buf (plan.recvSlots p q) data) data = some data' ∧
      Stored data data' (ranks.flatMap fun q => cells (plan.recvSlots p q)) ∧
      ∀ c ∈ ranks.flatMap fun q => cells (plan.recvSlots p q), readCell data' c = value c := by
  induction ranks generalizing data with
  | nil => exact ⟨data, rfl, Stored.refl data, by simp⟩
  | cons q ranks ih =>
    obtain ⟨data₁, hstep, hstored, hread⟩ : ∃ data₁,
        (match bufs q with
          | none => some data
          | some buf => unpack buf (plan.recvSlots p q) data) = some data₁ ∧
        Stored data data₁ (cells (plan.recvSlots p q)) ∧
        ∀ c ∈ cells (plan.recvSlots p q), readCell data₁ c = value c := by
      have hq := hbufs q
      cases hbuf : bufs q with
      | none =>
        rw [hbuf] at hq
        have hnil : cells (plan.recvSlots p q) = [] := by simpa using hq.symm
        rw [hnil]
        exact ⟨data, rfl, Stored.refl data, by simp⟩
      | some buf =>
        rw [hbuf] at hq
        exact unpack_eq (hfits q) hq
    obtain ⟨data₂, hfold, hstored', hread'⟩ := ih fun q => hstored.fits (hfits q)
    refine ⟨data₂, ?_, ?_, fun c hc => ?_⟩
    · rw [List.foldlM_cons, hstep]
      exact hfold
    · rw [List.flatMap_cons]
      exact hstored.trans hstored'
    · by_cases hmem : c ∈ ranks.flatMap fun q => cells (plan.recvSlots p q)
      · exact hread' c hmem
      · rw [hstored'.frame c hmem]
        rw [List.flatMap_cons] at hc
        exact hread c ((List.mem_append.mp hc).resolve_right hmem)

/-- Every cell of a receive slot gets its value, the others keep theirs. -/
theorem Plan.Matched.exchange_eq {plan : Plan n κ κ'} {src : Fin n → κ → List β}
    {dst : Fin n → κ' → List β} {value : Fin n → κ' × ℕ → Option β} (h : plan.Matched src dst value) :
    ∃ dst', plan.exchange src dst = Option.some dst' ∧ ∀ p,
      Stored (dst p) (dst' p) ((List.finRange n).flatMap fun q => cells (plan.recvSlots p q)) ∧
      ∀ q, ∀ c ∈ cells (plan.recvSlots p q), readCell (dst' p) c = value p c := by
  choose msg hpack hmsg using fun q p => pack_eq (h.fits_src p q)
  have hlen (p q : Fin n) : (msg q p).length = (cells (plan.recvSlots p q)).length := by
    simpa using congrArg List.length ((hmsg q p).trans (h.value p q).symm)
  have hsend (q p : Fin n) : packMessage (plan.sendSize q p) (src q) (plan.sendSlots q p) =
      Option.some ((plan.recvSize p q).map fun _ => msg q p) := by
    rw [← h.size]
    cases hsize : plan.recvSize p q with
    | none => rfl
    | some k =>
      have hk := h.some p q k hsize
      simp [packMessage, hpack, hlen, hk]
  have hrecv (p q : Fin n) : deliver (plan.recvSize p q)
      ((plan.recvSize p q).map fun _ => msg q p) =
        Option.some ((plan.recvSize p q).map fun _ => msg q p) := by
    cases hsize : plan.recvSize p q with
    | none => rfl
    | some k =>
      have hk := h.some p q k hsize
      simp [deliver, hlen, hk]
  have hbufs (p q : Fin n) : (((plan.recvSize p q).map fun _ => msg q p).getD []).map Option.some =
      (cells (plan.recvSlots p q)).map (value p) := by
    cases hsize : plan.recvSize p q with
    | none =>
      rw [h.none p q hsize]
      rfl
    | some k =>
      rw [h.value]
      exact hmsg q p
  choose dst' hfold hstored hread using fun p => unpackMessages_from plan p
    (fun q => (plan.recvSize p q).map fun _ => msg q p) (value p) (List.finRange n) (hbufs p)
    (h.fits_dst p)
  refine ⟨dst', ?_, fun p => ⟨hstored p, fun q c hc => hread p c ?_⟩⟩
  · simp only [Plan.exchange, hsend, allRanks_some, Option.bind_eq_bind, Option.bind_some, hrecv]
    exact allRanks_eq_some.mpr hfold
  · exact List.mem_flatMap.mpr ⟨q, List.mem_finRange q, hc⟩

end Flecsi.Execution
