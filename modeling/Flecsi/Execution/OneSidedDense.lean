import Flecsi.Execution.DenseCoherence
import Flecsi.Execution.GhostTypes
import Flecsi.Lib.StrideSlots

/-!
# One-sided ghost copies of dense fields

The MPI backend without aggregated messages: the epilog of every task that may have changed
shared elements fetches all ghosts of the field from their owners' windows, with the indexed
types of `register_field_metadata`. The prolog does nothing.
-/

namespace Flecsi.Execution

open Coloring PackedBuffer Segments StrideSlots

-- ---------------------------------------------------------------------------
-- Access epochs
-- ---------------------------------------------------------------------------

/-- What a rank's record says about its lists. -/
structure Described (info : ColoringInfo) (c : IndexColoring) : Prop where
  exclusive : info.exclusive = c.exclusive.length
  shared : info.shared = c.shared.length
  ghost : info.ghost = c.ghost.length
  users : ∀ r, r ∈ info.sharedUsers ↔ ∃ e ∈ c.shared, r ∈ e.shared
  owners : ∀ r, r ∈ info.ghostOwners ↔ ∃ g ∈ c.ghost, g.rank = r

namespace OneSided

/-- `MPI_Win_post` to the shared users, `MPI_Win_start` on the ghost owners, `MPI_Win_complete`
and `MPI_Win_wait`. A rank waits forever for one that does not name it in turn. -/
def epoch (info : Fin n → ColoringInfo) : Option Unit :=
  if ∀ p q : Fin n, (q : ℕ) ∈ (info p).ghostOwners ↔ (p : ℕ) ∈ (info q).sharedUsers then some ()
  else none

theorem epoch_some {coloring : Fin n → IndexColoring} {info : Fin n → ColoringInfo}
    (hc : ExchangeColoring coloring) (hinfo : ∀ p, Described (info p) (coloring p)) :
    epoch info = some () := by
  refine if_pos fun p q => ?_
  rw [(hinfo p).owners, (hinfo q).users]
  constructor
  · rintro ⟨g, hg, hq⟩
    obtain ⟨e, he, -, -, hp⟩ := hc.owner hg hq
    exact ⟨e, he, hp⟩
  · rintro ⟨e, he, hp⟩
    obtain ⟨p', hp', g, hg, -, hq⟩ := hc.users q e he p hp
    exact ⟨g, Fin.ext hp' ▸ hg, hq⟩

/-- The window of a rank. -/
def windowOf (windows : Fin n → List α) (rank : ℕ) : Option (List α) :=
  if h : rank < n then some (windows ⟨rank, h⟩) else none

@[simp] theorem windowOf_fin (windows : Fin n → List α) (q : Fin n) :
    windowOf windows q = some (windows q) := dif_pos q.isLt

-- ---------------------------------------------------------------------------
-- The epilog
-- ---------------------------------------------------------------------------

/-- `MPI_Get` with an indexed type on each side, of elements of `size` bytes. -/
def mpiGet (size : ℕ) (origin target : List ℤ) (window ghost_data : List UInt8) : Option (List UInt8) :=
  if origin.length = target.length then
    (origin.zip target).foldlM (fun data x => do
      let value ← loadAt window (x.2 * size) size
      storeAt data (x.1 * size) value) ghost_data
  else none

section
variable (r : Registry n) (info : ℕ → Fin n → ColoringInfo)

def fieldInfo (f : ℕ) (p : Fin n) : ColoringInfo := info (r.fields f).index_space p

/-- The window created at registration: the shared elements of the field. -/
def window (f : ℕ) (q : Fin n) (data : List UInt8) : List UInt8 :=
  (data.drop ((fieldInfo r info f q).exclusive * r.size f)).take ((fieldInfo r info f q).shared * r.size f)

/-- The offset of `ghost_data` in a field's buffer. -/
def ghostStart (f : ℕ) (p : Fin n) : ℕ :=
  ((fieldInfo r info f p).exclusive + (fieldInfo r info f p).shared) * r.size f

/-- The gets of one rank, one for each owner. -/
def getGhosts (f : ℕ) (p : Fin n) (windows : Fin n → List UInt8) (ghost_data : List UInt8) :
    Option (List UInt8) := do
  let types ← registerFieldMetadata_ (fieldInfo r info f p) (r.fieldColoring f p)
  ((fieldInfo r info f p).ghostOwners.sort (· ≤ ·)).foldlM (fun data ghost_owner => do
    let window ← windowOf windows ghost_owner
    mpiGet (r.size f) (types.origin ghost_owner) (types.target ghost_owner) window data) ghost_data

/-- The copy of one field on all ranks. -/
def copyGhosts (f : ℕ) (data : Fin n → ℕ → List UInt8) : Option (Fin n → ℕ → List UInt8) := do
  epoch (fieldInfo r info f)
  allRanks fun p => do
    let ghost_data ← getGhosts r info f p (fun q => window r info f q (data q f))
      ((data p f).drop (ghostStart r info f p))
    some (Function.update (data p) f ((data p f).take (ghostStart r info f p) ++ ghost_data))

/-- `task_epilog_t::handle`. -/
def handle (data : Fin n → ℕ → List UInt8) (a : DenseAccessor) : Option (Fin n → ℕ → List UInt8) :=
  if a.shared = .ro ∨ a.ghost = .rw ∨ a.ghost = .wo then some data
  else copyGhosts r info a.fid data

/-- The epilog of a task, on all ranks. -/
def epilog (args : List DenseAccessor) (s : Fin n → DenseContext) : Option (Fin n → DenseContext) := do
  let field_data ← args.foldlM (handle r info) fun p => (s p).field_data
  some fun p => { s p with field_data := field_data p }

/-- One task on all ranks. -/
def TaskStep (args : List DenseAccessor) (s s' : Fin n → DenseContext) : Prop :=
  ∃ b, Performs r args s b ∧ epilog r info args b = some s'

/-- A state some sequence of tasks with ghost permissions `na` and `ro` leads to. -/
def Reachable (s : Fin n → DenseContext) : Prop :=
  Relation.ReflTransGen
    (fun s s' => ∃ args, (∀ a ∈ args, a.ghost = .na ∨ a.ghost = .ro) ∧ TaskStep r info args s s')
    (initialContext r) s

/-- The displacements of the ghosts fit in an `int`. -/
def DisplacementsFit : Prop :=
  ∀ i p, (r.coloring i p).ghost.length < 2 ^ 31 ∧ ∀ g ∈ (r.coloring i p).ghost, g.offset < 2 ^ 31

end

-- ---------------------------------------------------------------------------
-- The gets
-- ---------------------------------------------------------------------------

/-- What the owner of a ghost holds for it. -/
def ownerElement (r : Registry n) (f : ℕ) (p : Fin n) (data : Fin n → ℕ → List UInt8) (k : ℕ) : List UInt8 :=
  match (r.fieldColoring f p).ghost[k]? with
  | some g =>
    if h : g.rank < n then
      element (r.size f) (data ⟨g.rank, h⟩ f)
        ((r.fieldColoring f ⟨g.rank, h⟩).exclusive.length + g.offset)
    else []
  | none => []

theorem ownerElement_eq {r : Registry n} {f : ℕ} {p q : Fin n} {g : EntityInfo} {k : ℕ}
    (hg : (r.fieldColoring f p).ghost[k]? = some g) (hq : g.rank = q) (data : Fin n → ℕ → List UInt8) :
    ownerElement r f p data k =
      element (r.size f) (data q f) ((r.fieldColoring f q).exclusive.length + g.offset) := by
  have hlt : g.rank < n := hq ▸ q.isLt
  have hrank : (⟨g.rank, hlt⟩ : Fin n) = q := Fin.ext hq
  simp only [ownerElement, hg, dif_pos hlt, hrank]

section
variable {r : Registry n} {info : ℕ → Fin n → ColoringInfo}
  (hr : ∀ i, ExchangeColoring (r.coloring i)) (hinfo : ∀ i p, Described (info i p) (r.coloring i p))
  (hfit : DisplacementsFit r)
  {data : Fin n → ℕ → List UInt8} (hdata : ∀ p f, (data p f).length = r.dataSize f p)

include hinfo in
theorem window_eq (f : ℕ) (q : Fin n) (data : List UInt8) : window r info f q data =
    (data.drop (r.sharedData f q)).take ((r.fieldColoring f q).shared.length * r.size f) := by
  have hd := hinfo (r.fields f).index_space q
  rw [window, fieldInfo, hd.exclusive, hd.shared]
  rfl

include hinfo in
theorem ghostStart_eq (f : ℕ) (p : Fin n) : ghostStart r info f p = r.ghostData f p := by
  have hd := hinfo (r.fields f).index_space p
  rw [ghostStart, fieldInfo, hd.exclusive, hd.shared, Nat.add_mul]
  rfl

include hr hinfo hdata in
/-- A ghost's element lies in its owner's window. -/
theorem loadAt_window {f k : ℕ} {p q : Fin n} {g : EntityInfo}
    (hg : (r.fieldColoring f p).ghost[k]? = some g) (hq : g.rank = q) :
    loadAt (window r info f q (data q f)) ((g.offset : ℤ) * (r.size f : ℤ)) (r.size f) =
      some (ownerElement r f p data k) := by
  obtain ⟨e, he, -, hoff, -⟩ := (hr (r.fields f).index_space).owner (List.mem_of_getElem? hg) hq
  have hlt : g.offset < (r.fieldColoring f q).shared.length :=
    hoff ▸ (hr (r.fields f).index_space).offset_lt he
  have hend : (g.offset + 1) * r.size f ≤ (r.fieldColoring f q).shared.length * r.size f :=
    Nat.mul_le_mul_right _ hlt
  rw [Nat.succ_mul] at hend
  have hlen := hdata q f
  simp only [Registry.dataSize, Registry.ghostData] at hlen
  rw [← Nat.cast_mul, loadAt_nat, ownerElement_eq hg hq, window_eq hinfo]
  refine ⟨?_, ?_⟩
  · rw [List.length_take, List.length_drop, hlen]
    omega
  · have hat : r.sharedData f q + g.offset * r.size f =
        ((r.fieldColoring f q).exclusive.length + g.offset) * r.size f := by
      rw [Nat.add_mul]
      rfl
    rw [element, List.drop_take, List.take_take, List.drop_drop, hat]
    congr 1
    omega

include hr hinfo hdata in
theorem length_ownerElement {f k : ℕ} {p : Fin n} (hk : k < (r.fieldColoring f p).ghost.length) :
    (ownerElement r f p data k).length = r.size f := by
  obtain ⟨q, hq, -⟩ := (hr (r.fields f).index_space).ghost p _ (List.getElem_mem hk)
  exact length_loadAt (loadAt_window hr hinfo hdata (List.getElem?_eq_getElem hk) hq)

include hr hinfo hdata in
/-- The get from one owner fills the slots of its ghosts. -/
theorem mpiGet_filled {types : CompactTypes} {f : ℕ} {p : Fin n} {owner : ℕ}
    (htypes : types.PairsGhosts (fieldInfo r info f p).ghostOwners (r.fieldColoring f p).ghost)
    (howner : owner ∈ (fieldInfo r info f p).ghostOwners) {buf : List UInt8}
    (hbuf : buf.length = (r.fieldColoring f p).ghost.length * r.size f) {keys : List ℕ} {mid : List UInt8}
    (h : Filled (r.size f) (ownerElement r f p data) buf keys mid) :
    ∃ buf', (do
      let window ← windowOf (fun q => window r info f q (data q f)) owner
      mpiGet (r.size f) (types.origin owner) (types.target owner) window mid) = some buf' ∧
      Filled (r.size f) (ownerElement r f p data) buf
        (keys ++ (ownedGhosts (r.fieldColoring f p).ghost owner).map Prod.snd) buf' := by
  obtain ⟨g, hg, hrank⟩ := ((hinfo (r.fields f).index_space p).owners owner).mp howner
  obtain ⟨q, hq, -⟩ := (hr (r.fields f).index_space).ghost p g hg
  obtain rfl : owner = q := hrank.symm.trans hq
  rw [windowOf_fin, Option.bind_eq_bind, Option.bind_some, mpiGet, if_pos (htypes.lengths q),
    htypes.pairs _ howner, List.foldlM_map]
  have hstep (x : EntityInfo × ℕ) (hx : x ∈ ownedGhosts (r.fieldColoring f p).ghost q) (keys : List ℕ)
      (mid : List UInt8) (hmid : Filled (r.size f) (ownerElement r f p data) buf keys mid) :
      ∃ buf', (do
        let value ← loadAt (window r info f q (data q f)) ((x.1.offset : ℤ) * (r.size f : ℤ)) (r.size f)
        storeAt mid ((x.2 : ℤ) * (r.size f : ℤ)) value) = some buf' ∧
        Filled (r.size f) (ownerElement r f p data) buf (keys ++ [x.2]) buf' := by
    obtain ⟨hget, hxq⟩ := mem_ownedGhosts.mp hx
    have hlt := (List.getElem?_eq_some_iff.mp hget).1
    rw [loadAt_window hr hinfo hdata hget hxq, Option.bind_eq_bind, Option.bind_some, ← Nat.cast_mul]
    exact hmid.store (length_ownerElement hr hinfo hdata hlt) (hbuf ▸ Nat.mul_le_mul_right _ hlt)
  have hloop := Filled.loop hstep h
  rw [← List.map_eq_flatMap] at hloop
  exact hloop

include hr hinfo hfit hdata in
/-- The gets of a rank leave every ghost with its owner's element. -/
theorem getGhosts_filled (f : ℕ) (p : Fin n) {buf : List UInt8}
    (hbuf : buf.length = (r.fieldColoring f p).ghost.length * r.size f) :
    ∃ buf', getGhosts r info f p (fun q => window r info f q (data q f)) buf = some buf' ∧
      buf'.length = buf.length ∧
      ∀ k < (r.fieldColoring f p).ghost.length, ∀ b < r.size f,
        buf'[k * r.size f + b]? = (ownerElement r f p data k)[b]? := by
  have howners := (hinfo (r.fields f).index_space p).owners
  obtain ⟨types, hsome, htypes⟩ := (registerFieldMetadata_pairs_iff (fieldInfo r info f p)
    (r.fieldColoring f p) howners).mpr (hfit (r.fields f).index_space p)
  have hstep (owner : ℕ) (howner : owner ∈ (fieldInfo r info f p).ghostOwners.sort (· ≤ ·)) (keys : List ℕ)
      (mid : List UInt8) (hmid : Filled (r.size f) (ownerElement r f p data) buf keys mid) :=
    mpiGet_filled hr hinfo hdata htypes ((Finset.mem_sort _).mp howner) hbuf hmid
  obtain ⟨buf', hrun, hfilled⟩ := Filled.loop hstep (Filled.nil _ (ownerElement r f p data) buf)
  refine ⟨buf', ?_, hfilled.length, fun k hk b hb => hfilled.filled k ?_ b hb⟩
  · rw [getGhosts, hsome]
    exact hrun
  · rw [List.nil_append]
    have hget := List.getElem?_eq_getElem hk
    refine List.mem_flatMap.mpr ⟨_, (Finset.mem_sort _).mpr ((howners _).mpr ⟨_, List.getElem_mem hk, rfl⟩), ?_⟩
    exact List.mem_map.mpr ⟨(_, k), mem_ownedGhosts.mpr ⟨hget, rfl⟩, rfl⟩

/-- What the copy of a field does to the buffers. -/
structure Copied (r : Registry n) (f : ℕ) (data data' : Fin n → ℕ → List UInt8) : Prop where
  length : ∀ p f', (data' p f').length = (data p f').length
  frame : ∀ p f' i, f' ≠ f ∨ i < r.ghostData f' p → (data' p f')[i]? = (data p f')[i]?
  ghosts : ∀ (p : Fin n), ∀ k < (r.fieldColoring f p).ghost.length, ∀ b < r.size f,
    (data' p f)[r.ghostData f p + (k * r.size f + b)]? = (ownerElement r f p data k)[b]?

include hr hinfo hfit hdata in
theorem copyGhosts_copied (f : ℕ) : ∃ data', copyGhosts r info f data = some data' ∧ Copied r f data data' := by
  have hlen (p : Fin n) : ((data p f).drop (ghostStart r info f p)).length =
      (r.fieldColoring f p).ghost.length * r.size f := by
    rw [List.length_drop, hdata, ghostStart_eq hinfo, Registry.dataSize, Nat.add_sub_cancel_left]
  choose ghosts hget hglen hghosts using fun p => getGhosts_filled hr hinfo hfit hdata f p (hlen p)
  refine ⟨fun p => Function.update (data p) f ((data p f).take (r.ghostData f p) ++ ghosts p), ?_, ?_, ?_, ?_⟩
  · have hepoch : epoch (fieldInfo r info f) = some () := epoch_some (hr _) (hinfo _)
    simp only [copyGhosts, hepoch, hget, Option.bind_eq_bind, Option.bind_some]
    simp only [ghostStart_eq hinfo, allRanks_some]
  · intro p f'
    by_cases hf : f' = f
    · subst hf
      rw [Function.update_self, List.length_append, hglen, hlen, List.length_take, hdata,
        Registry.dataSize]
      omega
    · rw [Function.update_of_ne hf]
  · intro p f' i hi
    by_cases hf : f' = f
    · subst hf
      have hlt : i < r.ghostData f' p := hi.resolve_left fun h => h rfl
      have hin : i < ((data p f').take (r.ghostData f' p)).length := by
        rw [List.length_take, hdata, Registry.dataSize]
        omega
      rw [Function.update_self, List.getElem?_append_left hin, List.getElem?_take, if_pos hlt]
    · rw [Function.update_of_ne hf]
  · intro p k hk b hb
    have hin : ((data p f).take (r.ghostData f p)).length = r.ghostData f p := by
      rw [List.length_take, hdata, Registry.dataSize]
      omega
    rw [Function.update_self, List.getElem?_append_right (by omega), hin, Nat.add_sub_cancel_left]
    exact hghosts p k hk b hb

-- ---------------------------------------------------------------------------
-- Coherence
-- ---------------------------------------------------------------------------

/-- The ghosts of a field are their owners' elements. -/
def CoherentData (r : Registry n) (data : Fin n → ℕ → List UInt8) (f : ℕ) : Prop :=
  Coherent r (fun p => ⟨data p, fun _ => true⟩) f

theorem getElem?_element {size b : ℕ} (hb : b < size) (d : List UInt8) (i : ℕ) :
    (element size d i)[b]? = d[i * size + b]? := by
  rw [element, List.getElem?_take, if_pos hb, List.getElem?_drop]

omit hfit hdata in
include hr in
/-- Copied ghosts are their owners' elements. -/
theorem Copied.coherent {f : ℕ} {data' : Fin n → ℕ → List UInt8} (h : Copied r f data data') :
    CoherentData r data' f := by
  intro p k ghost hghost q hq
  obtain ⟨e, he, -, hoff, -⟩ := (hr (r.fields f).index_space).owner (List.mem_of_getElem? hghost) hq
  have hlt := (hr (r.fields f).index_space).offset_lt he
  rw [← hoff] at hlt
  refine element_congr fun b hb => ?_
  rw [ghost_index, shared_index, h.ghosts p k (List.getElem?_eq_some_iff.mp hghost).1 b hb,
    ownerElement_eq hghost hq, h.frame q f _ (.inr (shared_lt hlt hb)), ← shared_index,
    getElem?_element hb]

/-- What the epilog of some accessors does. -/
structure Refreshed (r : Registry n) (args : List DenseAccessor) (data data' : Fin n → ℕ → List UInt8) :
    Prop where
  length : ∀ p f, (data' p f).length = (data p f).length
  primary : ∀ p f i, i < r.ghostData f p → (data' p f)[i]? = (data p f)[i]?
  keeps : ∀ f, CoherentData r data f → CoherentData r data' f
  fetched : ∀ a ∈ args, a.shared ≠ .ro → CoherentData r data' a.fid

include hr hinfo hfit hdata in
theorem handle_refreshed {a : DenseAccessor} (ha : a.ghost = .na ∨ a.ghost = .ro) :
    ∃ data', handle r info data a = some data' ∧ Refreshed r [a] data data' := by
  by_cases hro : a.shared = .ro
  · refine ⟨data, if_pos (.inl hro), fun _ _ => rfl, fun _ _ _ _ => rfl, fun _ h => h, ?_⟩
    intro b hb hshared
    rw [List.mem_singleton.mp hb] at hshared
    exact absurd hro hshared
  · have hcopy : ¬(a.shared = .ro ∨ a.ghost = .rw ∨ a.ghost = .wo) := by
      rintro (h | h | h)
      · exact hro h
      · simp [h] at ha
      · simp [h] at ha
    obtain ⟨data', hdata', hcopied⟩ := copyGhosts_copied hr hinfo hfit hdata a.fid
    refine ⟨data', (if_neg hcopy).trans hdata', hcopied.length,
      fun p f i hi => hcopied.frame p f i (.inr hi), fun f h => ?_, fun b hb _ => ?_⟩
    · by_cases hf : f = a.fid
      · exact hf ▸ hcopied.coherent hr
      · exact Coherent.congr h fun p i _ => hcopied.frame p f i (.inl hf)
    · rw [List.mem_singleton.mp hb]
      exact hcopied.coherent hr

omit hdata in
include hr hinfo hfit in
theorem handles_refreshed (args : List DenseAccessor) (hargs : ∀ a ∈ args, a.ghost = .na ∨ a.ghost = .ro)
    (data : Fin n → ℕ → List UInt8) (hdata : ∀ p f, (data p f).length = r.dataSize f p) :
    ∃ data', args.foldlM (handle r info) data = some data' ∧ Refreshed r args data data' := by
  induction args generalizing data with
  | nil => exact ⟨data, rfl, fun _ _ => rfl, fun _ _ _ _ => rfl, fun _ h => h, fun _ ha => absurd ha List.not_mem_nil⟩
  | cons a args ih =>
    obtain ⟨mid, hmid, hone⟩ := handle_refreshed hr hinfo hfit hdata (hargs a (by simp))
    obtain ⟨data', hrest, hall⟩ := ih (fun b hb => hargs b (by simp [hb])) mid
      fun p f => (hone.length p f).trans (hdata p f)
    refine ⟨data', ?_, fun p f => (hall.length p f).trans (hone.length p f),
      fun p f i hi => (hall.primary p f i hi).trans (hone.primary p f i hi),
      fun f h => hall.keeps f (hone.keeps f h), fun b hb hshared => ?_⟩
    · rw [List.foldlM_cons, hmid]
      exact hrest
    · cases hb with
      | head => exact hall.keeps _ (hone.fetched a (by simp) hshared)
      | tail _ hb => exact hall.fetched b hb hshared

-- ---------------------------------------------------------------------------
-- Tasks
-- ---------------------------------------------------------------------------

/-- The state between two tasks. -/
structure Inv (r : Registry n) (s : Fin n → DenseContext) : Prop where
  length : ∀ p f, ((s p).field_data f).length = r.dataSize f p
  coherent : ∀ f, Coherent r s f

omit hfit in
theorem initial_inv (hr : ∀ i, ExchangeColoring (r.coloring i)) : Inv r (initialContext r) where
  length _ _ := List.length_replicate
  coherent f p := (Flecsi.Execution.initial_inv hr).coherent p f rfl p

include hr hinfo hfit in
omit hdata in
/-- The epilog completes after any task, and the ghosts are coherent again. -/
theorem Inv.finish {s b : Fin n → DenseContext} (h : Inv r s) {args : List DenseAccessor}
    (hargs : ∀ a ∈ args, a.ghost = .na ∨ a.ghost = .ro) (hb : Performs r args s b) :
    ∃ s', epilog r info args b = some s' ∧ Inv r s' ∧
      ∀ p f i, i < r.ghostData f p → ((s' p).field_data f)[i]? = ((b p).field_data f)[i]? := by
  have hlen (p : Fin n) (f : ℕ) : ((b p).field_data f).length = r.dataSize f p :=
    (hb.length p f).trans (h.length p f)
  obtain ⟨data', hrun, href⟩ := handles_refreshed hr hinfo hfit args hargs _ hlen
  refine ⟨fun p => { b p with field_data := data' p }, ?_, ⟨fun p f => ?_, fun f => ?_⟩, href.primary⟩
  · rw [epilog, hrun]
    rfl
  · exact (href.length p f).trans (hlen p f)
  · by_cases hwrites : ∃ a ∈ args, a.fid = f ∧ a.shared.Writes
    · obtain ⟨a, ha, rfl, hw⟩ := hwrites
      exact href.fetched a ha fun hro => by simp [hro, Privilege.Writes] at hw
    · refine href.keeps f ((h.coherent f).congr fun p i hi => hb.frame p f i ?_)
      rintro ⟨a, ha, hfid, hw | hw | hw⟩
      · exact absurd hw.1 (by omega)
      · exact hwrites ⟨a, ha, hfid, hw.2.2⟩
      · rcases hargs a ha with hg | hg <;> simp [hg, Privilege.Writes] at hw

end

/-- In the one-sided build the ghosts of every field are their owners' elements between any two
tasks, and the epilog of the next task completes. -/
theorem one_sided_coherent (r : Registry n) (info : ℕ → Fin n → ColoringInfo)
    (hr : ∀ i, ExchangeColoring (r.coloring i)) (hinfo : ∀ i p, Described (info i p) (r.coloring i p))
    (hfit : DisplacementsFit r) (s : Fin n → DenseContext) (hs : Reachable r info s) :
    (∀ f, Coherent r s f) ∧ ∀ args, (∀ a ∈ args, a.ghost = .na ∨ a.ghost = .ro) →
      ∀ b, Performs r args s b → ∃ s', epilog r info args b = some s' := by
  have hinv : Inv r s := by
    refine Runs.invariant (fun s s' hs ⟨args, hargs, b, hb, hepilog⟩ => ?_) (initial_inv hr) hs
    obtain ⟨s'', hrun, hinv, -⟩ := hs.finish hr hinfo hfit hargs hb
    rw [hepilog] at hrun
    obtain rfl := Option.some.inj hrun
    exact hinv
  refine ⟨hinv.coherent, fun args hargs b hb => ?_⟩
  obtain ⟨s', hrun, -, -⟩ := hinv.finish hr hinfo hfit hargs hb
  exact ⟨s', hrun⟩

def pairInfo (p : Fin 2) : ColoringInfo := ⟨0, 1, 1, {1 - p.val}, {1 - p.val}⟩

theorem pairInfo_described (p : Fin 2) : Described (pairInfo p) (pairColoring p) where
  exclusive := rfl
  shared := rfl
  ghost := rfl
  users r := by simp [pairInfo, pairColoring]
  owners r := by simp [pairInfo, pairColoring, eq_comm]

/-- Rank 0 has written its shared byte; the ghost of rank 1 is out of date. -/
def pairWritten (p : Fin 2) : DenseContext :=
  ⟨fun f => if p.val = 0 ∧ f = 0 then [7, 0] else [0, 0], fun _ => true⟩

theorem pairWritten_performs :
    Performs pairRegistry [⟨0, .rw, .rw, .na⟩] (initialContext pairRegistry) pairWritten where
  flags _ := rfl
  length p f := by
    simp only [pairWritten]
    split <;> rfl
  frame p f i hw := by
    by_cases hpf : p.val = 0 ∧ f = 0
    · obtain ⟨hp, rfl⟩ := hpf
      obtain rfl : p = 0 := Fin.ext hp
      cases i with
      | zero =>
        refine absurd ⟨⟨0, .rw, .rw, .na⟩, by simp, rfl, .inr (.inl ⟨by decide, by decide, ?_⟩)⟩ hw
        exact .inr rfl
      | succ i => rfl
    · simp only [pairWritten, if_neg hpf]
      rfl

theorem pairRegistry_fits : DisplacementsFit pairRegistry := by
  have h : ∀ p : Fin 2, (pairColoring p).ghost.length < 2 ^ 31 ∧ ∀ g ∈ (pairColoring p).ghost, g.offset < 2 ^ 31 := by
    decide
  exact fun _ p => h p

theorem one_sided_coherent_pair : ∃ s', epilog pairRegistry (fun _ => pairInfo) [⟨0, .rw, .rw, .na⟩]
    pairWritten = some s' ∧ Coherent pairRegistry s' 0 := by
  have h := one_sided_coherent pairRegistry (fun _ => pairInfo) (fun _ => pairColoring_exchange)
    (fun _ => pairInfo_described) pairRegistry_fits
  obtain ⟨s', hrun⟩ := (h _ Relation.ReflTransGen.refl).2 [⟨0, .rw, .rw, .na⟩] (by simp) _
    pairWritten_performs
  have hreach : Reachable pairRegistry (fun _ => pairInfo) s' :=
    .single ⟨[⟨0, .rw, .rw, .na⟩], by simp, _, pairWritten_performs, hrun⟩
  exact ⟨s', hrun, (h s' hreach).1 0⟩

end OneSided

end Flecsi.Execution
