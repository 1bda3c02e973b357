import Flecsi.Utils.Serialize

/-!
# Reading back what was written

A lawful specialisation writes the same bytes on every sink, and reads them
back from in front of anything. Each specialisation is lawful when its parts
are; the theorem about all types is an induction over the universe.
-/

namespace Flecsi.Utils

open PackedBuffer ByteCast

-- ---------------------------------------------------------------------------
-- Sinks
-- ---------------------------------------------------------------------------

/-- Writing in pieces is writing at once. -/
class LawfulSink (P : Type) [Sink P] : Prop where
  mempcpy_nil : ∀ p : P, mempcpy p [] = p
  mempcpy_mempcpy : ∀ (p : P) xs ys, mempcpy (mempcpy p xs) ys = mempcpy p (xs ++ ys)

instance : LawfulSink ℕ where
  mempcpy_nil _ := rfl
  mempcpy_mempcpy p xs ys := by simp [mempcpy, Nat.add_assoc]

instance : LawfulSink (List UInt8) where
  mempcpy_nil p := List.append_nil p
  mempcpy_mempcpy p xs ys := List.append_assoc p xs ys

instance : LawfulSink Cursor where
  mempcpy_nil _ := rfl
  mempcpy_mempcpy p xs ys := by simp [mempcpy, writeAt_writeAt, Nat.add_assoc]

-- ---------------------------------------------------------------------------
-- Lawful specialisations
-- ---------------------------------------------------------------------------

namespace SerialType

/-- The bytes of a value. -/
def bytes (t : SerialType) (x : t.carrier) : List UInt8 := t.put ([] : List UInt8) x

/-- Every sink gets the bytes of the value. -/
def Writes (t : SerialType) : Prop :=
  ∀ {P : Type} [Sink P] [LawfulSink P] (p : P) x, t.put p x = mempcpy p (t.bytes x)

/-- The value read back is related to the one written, and the rest is left. -/
def Decodes (t : SerialType) (R : t.carrier → t.carrier → Prop) : Prop :=
  ∀ x s, ∃ y, t.get (t.bytes x ++ s) = some (y, s) ∧ R x y

/-- Ordered types give the very value back, others an equal one. -/
def Same (t : SerialType) (ordered : Bool) (x y : t.carrier) : Prop :=
  t.Eq x y ∧ (ordered → y = x)

structure Lawful (t : SerialType) (ordered : Bool) : Prop where
  writes : t.Writes
  decodes : t.Decodes (t.Same ordered)

theorem Decodes.mono {t : SerialType} {R R' : t.carrier → t.carrier → Prop} (h : t.Decodes R)
    (hR : ∀ x y, R x y → R' x y) : t.Decodes R' := fun x s =>
  (h x s).imp fun y hy => ⟨hy.1, hR x y hy.2⟩

end SerialType

open SerialType

theorem getBytes_append {n : ℕ} (bytes : {bytes : List UInt8 // bytes.length = n})
    (s : List UInt8) : getBytes n (bytes.1 ++ s) = some (bytes, s) := by
  obtain ⟨bytes, rfl⟩ := bytes
  simp [getBytes]

theorem getSize_append {n : ℕ} (h : n < 2 ^ 64) (s : List UInt8) :
    getSize (toBytes 8 n ++ s) = some (n, s) := by
  have hn : n < 256 ^ 8 := h.trans_eq (by norm_num)
  rw [getSize, getBytes_append ⟨toBytes 8 n, length_toBytes 8 n⟩]
  simp only [Option.bind_eq_bind, Option.bind_some, fromBytes_toBytes, Nat.mod_eq_of_lt hn]

theorem serialMemcpy_lawful (s : Scalar) : (serialMemcpy s).Lawful b where
  writes _ _ := rfl
  decodes x rest := ⟨x, getBytes_append x rest, rfl, fun _ => rfl⟩

section
variable {a c : SerialType}

theorem serialPair_put (ha : a.Writes) (hc : c.Writes) {P : Type} [Sink P] [LawfulSink P] (p : P)
    (x : (serialPair a c).carrier) :
    (serialPair a c).put p x = mempcpy p (a.bytes x.1 ++ c.bytes x.2) := by
  rw [← LawfulSink.mempcpy_mempcpy, ← ha, ← hc]
  rfl

theorem serialPair_bytes (ha : a.Writes) (hc : c.Writes) (x : (serialPair a c).carrier) :
    (serialPair a c).bytes x = a.bytes x.1 ++ c.bytes x.2 :=
  serialPair_put ha hc _ x

theorem serialPair_writes (ha : a.Writes) (hc : c.Writes) : (serialPair a c).Writes := by
  intro P _ _ p x
  rw [bytes, serialPair_put ha hc, serialPair_put ha hc]
  rfl

theorem serialPair_decodes (ha : a.Writes) (hc : c.Writes) {R : a.carrier → a.carrier → Prop}
    {R' : c.carrier → c.carrier → Prop} (hR : a.Decodes R) (hR' : c.Decodes R') :
    (serialPair a c).Decodes fun x y => R x.1 y.1 ∧ R' x.2 y.2 := by
  intro x s
  obtain ⟨y₁, hy₁, h₁⟩ := hR x.1 (c.bytes x.2 ++ s)
  obtain ⟨y₂, hy₂, h₂⟩ := hR' x.2 s
  refine ⟨(y₁, y₂), ?_, h₁, h₂⟩
  have hget : (serialPair a c).get (a.bytes x.1 ++ (c.bytes x.2 ++ s)) = some ((y₁, y₂), s) := by
    simp only [serialPair, hy₁, hy₂, Option.bind_eq_bind, Option.bind_some]
  refine (congrArg (serialPair a c).get ?_).trans hget
  rw [serialPair_bytes ha hc, List.append_assoc]

theorem serialPair_lawful (ha : a.Lawful b) (hc : c.Lawful b) : (serialPair a c).Lawful b where
  writes := serialPair_writes ha.writes hc.writes
  decodes := (serialPair_decodes ha.writes hc.writes ha.decodes hc.decodes).mono
    fun _ _ h => ⟨⟨h.1.1, h.2.1⟩, fun hb => Prod.ext (h.1.2 hb) (h.2.2 hb)⟩

end

-- ---------------------------------------------------------------------------
-- Containers
-- ---------------------------------------------------------------------------

section
variable {t : SerialType} {c : Container t.carrier} {eq : List t.carrier → List t.carrier → Prop}

theorem foldl_put (ht : t.Writes) {P : Type} [Sink P] [LawfulSink P] (p : P) (l : List t.carrier) :
    l.foldl (fun p x => t.put p x) p = mempcpy p (l.flatMap t.bytes) := by
  induction l generalizing p with
  | nil => exact (LawfulSink.mempcpy_nil p).symm
  | cons x l ih =>
    rw [List.foldl_cons, ih, ht, LawfulSink.mempcpy_mempcpy, List.flatMap_cons]

theorem serialContainer_put (ht : t.Writes) {P : Type} [Sink P] [LawfulSink P] (p : P)
    (x : (serialContainer t c eq).carrier) : (serialContainer t c eq).put p x =
      mempcpy p (toBytes 8 x.1.length ++ x.1.flatMap t.bytes) := by
  rw [← LawfulSink.mempcpy_mempcpy]
  exact foldl_put ht _ _

theorem serialContainer_writes (ht : t.Writes) : (serialContainer t c eq).Writes := by
  intro P _ _ p x
  rw [bytes, serialContainer_put ht, serialContainer_put ht]
  rfl

theorem getElements_eq {R : t.carrier → t.carrier → Prop} (hR : t.Decodes R) (l : List t.carrier)
    (ret : {l // c.Inv l}) (s : List UInt8) :
    ∃ ys h, getElements t c l.length ret (l.flatMap t.bytes ++ s) =
      some (⟨ys.foldl c.insert ret.1, h⟩, s) ∧ List.Forall₂ R l ys := by
  induction l generalizing ret with
  | nil => exact ⟨[], ret.2, rfl, .nil⟩
  | cons x l ih =>
    obtain ⟨y, hy, hxy⟩ := hR x (l.flatMap t.bytes ++ s)
    obtain ⟨ys, h, hys, hall⟩ := ih ⟨c.insert ret.1 y, c.inv_insert ret.1 y ret.2⟩
    refine ⟨y :: ys, h, ?_, .cons hxy hall⟩
    rw [List.flatMap_cons, List.append_assoc, List.length_cons, getElements, hy]
    exact hys

/-- A container is read back as what its elements, read back and inserted one
after another, make of it. -/
theorem serialContainer_decodes {R : t.carrier → t.carrier → Prop}
    {Q : List t.carrier → List t.carrier → Prop} (ht : t.Writes) (hR : t.Decodes R)
    (hlen : ∀ l l', Q l l' → l'.length = l.length)
    (hQ : ∀ l ys, c.Inv l → List.Forall₂ R l ys → Q l (ys.foldl c.insert [])) :
    (serialContainer t c eq).Decodes fun x y => Q x.1 y.1 := by
  intro x s
  obtain ⟨l, hl, hinv⟩ := x
  obtain ⟨ys, h, hys, hall⟩ := getElements_eq (c := c) hR l ⟨[], c.inv_nil⟩ s
  have hq := hQ l ys hinv hall
  have hlt : (ys.foldl c.insert []).length < 2 ^ 64 := hlen _ _ hq ▸ hl
  refine ⟨⟨ys.foldl c.insert [], hlt, h⟩, ?_, hq⟩
  have hbytes : (serialContainer t c eq).bytes ⟨l, hl, hinv⟩ =
      toBytes 8 l.length ++ l.flatMap t.bytes := serialContainer_put ht _ _
  rw [hbytes, List.append_assoc]
  simp only [serialContainer, getSize_append hl, hys, Option.bind_eq_bind, Option.bind_some,
    dif_pos hlt]

end

theorem forall₂_same {t : SerialType} {l l' : List t.carrier} (h : List.Forall₂ (t.Same b) l l') :
    List.Forall₂ t.Eq l l' ∧ (b → l' = l) := by
  induction h with
  | nil => exact ⟨.nil, fun _ => rfl⟩
  | cons hxy _ ih => exact ⟨.cons hxy.1 ih.1, fun hb => by rw [hxy.2 hb, ih.2 hb]⟩

theorem foldl_concat {α : Type} (l ys : List α) : ys.foldl (fun l x => l ++ [x]) l = l ++ ys := by
  induction ys generalizing l with
  | nil => simp
  | cons y ys ih => rw [List.foldl_cons, ih, List.append_assoc]; rfl

theorem serialVector_lawful {t : SerialType} (ht : t.Lawful b) : (serialVector t).Lawful b where
  writes := serialContainer_writes ht.writes
  decodes := (serialContainer_decodes (Q := fun l l' => List.Forall₂ (t.Same b) l l') ht.writes
    ht.decodes (fun _ _ h => h.length_eq.symm) fun l ys _ h => by
      have hfold : ys.foldl (vectorContainer t.carrier).insert [] = ys := foldl_concat [] ys
      rwa [hfold]).mono fun _ _ h =>
    ⟨(forall₂_same h).1, fun hb => Subtype.ext ((forall₂_same h).2 hb)⟩

theorem serialSet_lawful {t : SerialType} (ht : t.Lawful true) : (serialSet t).Lawful b where
  writes := serialContainer_writes ht.writes
  decodes := (serialContainer_decodes (Q := fun l l' => List.Forall₂ t.Eq l l' ∧ l' = l) ht.writes
    ht.decodes (fun _ _ h => by rw [h.2]) fun l ys hl h => by
      obtain ⟨heq, hsame⟩ := forall₂_same h
      obtain rfl := hsame rfl
      have hfold := t.order.foldl_insertUnique (l := []) hl
      exact ⟨hfold.symm ▸ heq, hfold⟩).mono
    fun _ _ h => ⟨h.1, fun _ => Subtype.ext h.2⟩

section
variable {k v : SerialType} (hk : k.Lawful true) (hv : v.Lawful b)

/-- An entry read back has the very key. -/
def SameEntry (k v : SerialType) (ordered : Bool) (x y : k.carrier × v.carrier) : Prop :=
  k.Same true x.1 y.1 ∧ v.Same ordered x.2 y.2

include hk hv in
theorem entry_decodes : (serialPair k v).Decodes (SameEntry k v b) :=
  serialPair_decodes hk.writes hv.writes hk.decodes hv.decodes

theorem map_fst_eq {l ys : List (k.carrier × v.carrier)} (h : List.Forall₂ (SameEntry k v b) l ys) :
    ys.map Prod.fst = l.map Prod.fst := by
  induction h with
  | nil => rfl
  | cons hxy _ ih => rw [List.map_cons, List.map_cons, hxy.1.2 rfl, ih]

theorem forall₂_sameEntry {l ys : List (k.carrier × v.carrier)}
    (h : List.Forall₂ (SameEntry k v b) l ys) :
    List.Forall₂ (serialPair k v).Eq l ys ∧ (b → ys = l) := by
  induction h with
  | nil => exact ⟨.nil, fun _ => rfl⟩
  | cons hxy _ ih =>
    exact ⟨.cons ⟨hxy.1.1, hxy.2.1⟩ ih.1, fun hb => by
      rw [Prod.ext (hxy.1.2 rfl) (hxy.2.2 hb), ih.2 hb]⟩

include hk hv in
theorem serialMap_lawful : (serialMap k v).Lawful b where
  writes := serialContainer_writes (serialPair_writes hk.writes hv.writes)
  decodes := by
    refine (serialContainer_decodes (Q := List.Forall₂ (SameEntry k v b))
      (serialPair_writes hk.writes hv.writes) (entry_decodes hk hv)
      (fun _ _ h => h.length_eq.symm) fun l ys hl h => ?_).mono fun x y h =>
        ⟨(forall₂_sameEntry h).1, fun hb => Subtype.ext ((forall₂_sameEntry h).2 hb)⟩
    -- the keys are the same, so the entries come in sorted again
    have hsorted : ys.Pairwise ((k.order.comap Prod.fst).less · ·) := by
      have hkeys : (l.map Prod.fst).Pairwise (k.order.less · ·) := List.pairwise_map.mpr hl
      exact List.pairwise_map.mp (map_fst_eq h ▸ hkeys)
    have hfold := (k.order.comap Prod.fst).foldl_insertUnique (l := []) hsorted
    exact hfold.symm ▸ h

/-- Entries with new keys all get into a hash table. -/
theorem foldl_hashInsert {κ ν : Type} [DecidableEq κ] (place : List (κ × ν) → κ → ℕ)
    (l ys : List (κ × ν)) (h : ((l ++ ys).map Prod.fst).Nodup) :
    (l ++ ys).Perm (ys.foldl (hashContainer place).insert l) := by
  induction ys generalizing l with
  | nil => rw [List.append_nil]; rfl
  | cons y ys ih =>
    have hnew : y.1 ∉ l.map Prod.fst := by
      rw [List.map_append, List.nodup_append] at h
      exact fun hy => h.2.2 _ hy _ (by simp) rfl
    have hinsert : (hashContainer place).insert l y =
        l.insertIdx (min (place l y.1) l.length) y := if_neg hnew
    have hperm : (l ++ y :: ys).Perm ((hashContainer place).insert l y ++ ys) := by
      rw [hinsert]
      exact List.perm_middle.trans
        ((List.perm_insertIdx y l (min_le_right _ _)).symm.append_right ys)
    exact hperm.trans (ih _ ((hperm.map Prod.fst).nodup_iff.mp h))

include hk hv in
theorem serialUnorderedMap_lawful (place : List (k.carrier × v.carrier) → k.carrier → ℕ) :
    (serialUnorderedMap k v place).Lawful false where
  writes := serialContainer_writes (serialPair_writes hk.writes hv.writes)
  decodes := by
    refine (serialContainer_decodes
      (Q := fun l l' : List (k.carrier × v.carrier) =>
        ∃ l₁ : List (k.carrier × v.carrier), l₁.Perm l' ∧ List.Forall₂ (serialPair k v).Eq l l₁)
      (serialPair_writes hk.writes hv.writes) (entry_decodes hk hv)
      (fun l l' h => ?_) fun l ys hl h => ?_).mono fun x y h => ⟨h, fun hb => by cases hb⟩
    · obtain ⟨l₁, hperm, hall⟩ := h
      exact hperm.length_eq.symm.trans hall.length_eq.symm
    · have hkeys : (ys.map Prod.fst).Nodup := map_fst_eq h ▸ hl
      exact ⟨ys, foldl_hashInsert place [] ys hkeys, (forall₂_sameEntry h).1⟩

end

theorem serialString_lawful : serialString.Lawful b where
  writes p x := by
    have hput : ∀ {P : Type} [Sink P] [LawfulSink P] (p : P) (x : serialString.carrier),
        serialString.put p x = mempcpy p (toBytes 8 x.1.length ++ x.1) := fun p x =>
      LawfulSink.mempcpy_mempcpy _ _ _
    rw [bytes, hput, hput]
    rfl
  decodes x s := by
    obtain ⟨l, hl⟩ := x
    refine ⟨⟨l, hl⟩, ?_, rfl, fun _ => rfl⟩
    have hbytes : serialString.bytes ⟨l, hl⟩ = toBytes 8 l.length ++ l := rfl
    rw [hbytes, List.append_assoc]
    have hget : getBytes l.length (l ++ s) = some (⟨l, rfl⟩, s) := getBytes_append ⟨l, rfl⟩ s
    simp only [serialString, getSize_append hl, hget, Option.bind_eq_bind, Option.bind_some, dif_pos hl]

-- ---------------------------------------------------------------------------
-- All types
-- ---------------------------------------------------------------------------

mutual
theorem Ty.lawful (place : Placement) : (t : Ty b) → (t.serial place).Lawful b
  | .scalar s => serialMemcpy_lawful s
  | .pair t u => serialPair_lawful (t.lawful place) (u.lawful place)
  | .tuple ts => ts.lawful place
  | .vector t => serialVector_lawful (t.lawful place)
  | .set t => serialSet_lawful (t.lawful place)
  | .map k v => serialMap_lawful (k.lawful place) (v.lawful place)
  | .unorderedMap k v => serialUnorderedMap_lawful (k.lawful place) (v.lawful place) _
  | .string => serialString_lawful
theorem Elements.lawful (place : Placement) : (ts : Elements b) → (ts.serial place).Lawful b
  | .last t => t.lawful place
  | .cons t ts => serialPair_lawful (t.lawful place) (ts.lawful place)
end

/-- `serial_get` undoes `serial_put` on every type: a single object is written
into exactly `serial_size` bytes, a pointer into a larger buffer moves by that
much, and what is read back leaves whatever follows. -/
theorem serialGet_serialPut (place : Placement) (t : Ty b) (x : (t.serial place).carrier) :
    ∃ bytes, serialPut (t.serial place) x = some bytes ∧
      bytes.length = serialSize (t.serial place) x ∧
      (∀ p : Cursor, (t.serial place).put p x =
        ⟨writeAt p.buf p.pos bytes, p.pos + serialSize (t.serial place) x⟩) ∧
      ∀ s, ∃ y, serialGet (t.serial place) (bytes ++ s) = some (y, s) ∧ (t.serial place).Eq x y := by
  have h := t.lawful place
  have hsize : serialSize (t.serial place) x = ((t.serial place).bytes x).length :=
    (h.writes 0 x).trans (Nat.zero_add _)
  refine ⟨(t.serial place).bytes x, ?_, hsize.symm, fun p => ?_, fun s => ?_⟩
  · have hput := h.writes (Cursor.mk (List.replicate (serialSize (t.serial place) x) 0) 0) x
    have hfill := writeAt_fill [] (List.replicate (serialSize (t.serial place) x) 0)
      ((t.serial place).bytes x) (by simp [hsize])
    have hbuf : writeAt (List.replicate (serialSize (t.serial place) x) 0) 0
        ((t.serial place).bytes x) = (t.serial place).bytes x := by
      simpa [hsize] using hfill
    simp only [serialPut, hput, mempcpy, hbuf, List.length_replicate, Nat.zero_add, ← hsize, if_true]
  · rw [h.writes p x, hsize]
    rfl
  · obtain ⟨y, hy, heq⟩ := h.decodes x s
    exact ⟨y, hy, heq.1⟩

end Flecsi.Utils
