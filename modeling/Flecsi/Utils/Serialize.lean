import Flecsi.Lib.ByteCast
import Flecsi.Lib.StrictWeakOrder

/-!
# Serialisation of nested types

`serialize.h` picks a specialisation of `serial` by the type and nests them.
A specialisation is a `SerialType`: its `put` runs on any `Sink`, once to count
bytes and once to write them, and its `get` reads a value and leaves the rest
of the bytes. `Ty` is the universe of the types that can be nested, and
`Ty.serial` the choice of specialisations.
-/

namespace Flecsi.Utils

open PackedBuffer ByteCast

-- ---------------------------------------------------------------------------
-- mempcpy
-- ---------------------------------------------------------------------------

/-- What the first argument of `serial_put` may be. -/
class Sink (P : Type) where
  mempcpy : P → List UInt8 → P

export Sink (mempcpy)

/-- For size precalculation. -/
instance : Sink ℕ := ⟨fun x s => x + s.length⟩

/-- A pointer into a buffer. -/
structure Cursor where
  buf : List UInt8
  pos : ℕ

instance : Sink Cursor := ⟨fun d s => ⟨writeAt d.buf d.pos s, d.pos + s.length⟩⟩

/-- The bytes written so far. -/
instance : Sink (List UInt8) := ⟨fun d s => d ++ s⟩

-- ---------------------------------------------------------------------------
-- serial
-- ---------------------------------------------------------------------------

/-- A type with its comparisons and its specialisation of `serial`. -/
structure SerialType where
  carrier : Type
  decEq : DecidableEq carrier
  /-- `operator<`, where there is one. -/
  order : StrictWeakOrder carrier
  /-- `operator==`. -/
  Eq : carrier → carrier → Prop
  put : {P : Type} → [Sink P] → P → carrier → P
  get : List UInt8 → Option (carrier × List UInt8)

instance (t : SerialType) : DecidableEq t.carrier := t.decEq

/-- `n` bytes read at the pointer. -/
def getBytes (n : ℕ) (s : List UInt8) : Option ({bytes : List UInt8 // bytes.length = n} × List UInt8) :=
  if h : n ≤ s.length then some (⟨s.take n, List.length_take_of_le h⟩, s.drop n) else none

/-- A `memcpy`-able type: the size of its objects and how they compare. -/
structure Scalar where
  width : ℕ
  order : StrictWeakOrder {bytes : List UInt8 // bytes.length = width}

/-- `serial<T>` where `memcpyable_v<T>`. -/
def serialMemcpy (s : Scalar) : SerialType where
  carrier := {bytes : List UInt8 // bytes.length = s.width}
  decEq := inferInstance
  order := s.order
  Eq x y := x = y
  put p t := mempcpy p t.1
  get := getBytes s.width

/-- `serial<std::pair<T, U>>`. -/
def serialPair (a b : SerialType) : SerialType where
  carrier := a.carrier × b.carrier
  decEq := inferInstance
  order := a.order.lexProd b.order
  Eq x y := a.Eq x.1 y.1 ∧ b.Eq x.2 y.2
  put p v := b.put (a.put p v.1) v.2
  get s := do
    let (first, s) ← a.get s
    let (second, s) ← b.get s
    some ((first, second), s)

def putSize {P : Type} [Sink P] (p : P) (n : ℕ) : P := mempcpy p (toBytes 8 n)

def getSize (s : List UInt8) : Option (ℕ × List UInt8) := do
  let (bytes, s) ← getBytes 8 s
  some (fromBytes bytes.1, s)

/-- A class template for containers: what holds of its elements in iteration
order, and its insertion. -/
structure Container (α : Type) where
  Inv : List α → Prop
  inv_nil : Inv []
  insert : List α → α → List α
  inv_insert : ∀ l x, Inv l → Inv (insert l x)

/-- The loop that reads `n` elements and inserts them. -/
def getElements (t : SerialType) (c : Container t.carrier) :
    ℕ → {l // c.Inv l} → List UInt8 → Option ({l // c.Inv l} × List UInt8)
  | 0, ret, s => some (ret, s)
  | n + 1, ret, s => do
    let (x, s) ← t.get s
    getElements t c n ⟨c.insert ret.1 x, c.inv_insert ret.1 x ret.2⟩ s

/-- `detail::serial_container<T>`. Sizes are `size_t`, so a container with more
elements cannot be made. -/
def serialContainer (t : SerialType) (c : Container t.carrier)
    (eq : List t.carrier → List t.carrier → Prop) : SerialType where
  carrier := {l : List t.carrier // l.length < 2 ^ 64 ∧ c.Inv l}
  decEq := inferInstance
  order := t.order.lexList.comap (·.1)
  Eq x y := eq x.1 y.1
  put p v := v.1.foldl (fun p x => t.put p x) (putSize p v.1.length)
  get s := do
    let (n, s) ← getSize s
    let (ret, s) ← getElements t c n ⟨[], c.inv_nil⟩ s
    if h : ret.1.length < 2 ^ 64 then some (⟨ret.1, h, ret.2⟩, s) else none

def vectorContainer (α : Type) : Container α where
  Inv _ := True
  inv_nil := trivial
  insert l x := l ++ [x]
  inv_insert _ _ _ := trivial

/-- The balanced trees behind `std::set` and `std::map`. -/
def orderedContainer {α : Type} (o : StrictWeakOrder α) : Container α where
  Inv l := l.Pairwise (o.less · ·)
  inv_nil := .nil
  insert := o.insertUnique
  inv_insert _ x := o.insertUnique_pairwise x

theorem keys_insertIdx {κ ν : Type} [DecidableEq κ] (l : List (κ × ν)) (x : κ × ν) (i : ℕ)
    (h : (l.map Prod.fst).Nodup) : ((if x.1 ∈ l.map Prod.fst then l else
      l.insertIdx (min i l.length) x).map Prod.fst).Nodup := by
  split
  · exact h
  · rename_i hx
    have hperm := (List.perm_insertIdx x l (min_le_right i l.length)).map Prod.fst
    exact hperm.nodup_iff.mpr (List.nodup_cons.mpr ⟨hx, h⟩)

/-- The hash table behind `std::unordered_map`. Where it links a new node,
which decides the order of iteration, is up to the implementation. -/
def hashContainer {κ ν : Type} [DecidableEq κ] (place : List (κ × ν) → κ → ℕ) :
    Container (κ × ν) where
  Inv l := (l.map Prod.fst).Nodup
  inv_nil := .nil
  insert l x :=
    if x.1 ∈ l.map Prod.fst then l else l.insertIdx (min (place l x.1) l.length) x
  inv_insert l x := keys_insertIdx l x _

/-- `serial<std::vector<T>>`. -/
def serialVector (t : SerialType) : SerialType :=
  serialContainer t (vectorContainer t.carrier) (List.Forall₂ t.Eq)

/-- `serial<std::set<T>>`. -/
def serialSet (t : SerialType) : SerialType :=
  serialContainer t (orderedContainer t.order) (List.Forall₂ t.Eq)

/-- `serial<std::map<K, V>>`; the elements are pairs with a constant key, and
`serial` is chosen without the `const`. -/
def serialMap (k v : SerialType) : SerialType :=
  serialContainer (serialPair k v) (orderedContainer (k.order.comap Prod.fst))
    (List.Forall₂ (serialPair k v).Eq)

/-- `serial<std::unordered_map<K, V>>`; maps are equal in any order. -/
def serialUnorderedMap (k v : SerialType) (place : List (k.carrier × v.carrier) → k.carrier → ℕ) :
    SerialType :=
  serialContainer (serialPair k v) (hashContainer place) fun l l' =>
    ∃ l₁, l₁.Perm l' ∧ List.Forall₂ (serialPair k v).Eq l l₁

/-- `operator<` on characters. -/
def charOrder : StrictWeakOrder UInt8 where
  less a b := a < b
  asymm a b := by simpa using UInt8.le_of_lt
  negTrans a b c := by
    simp only [decide_eq_true_eq]
    intro h
    exact (UInt8.lt_or_le a b).imp_right fun hba => UInt8.lt_of_le_of_lt hba h

/-- `serial<std::string>`. -/
def serialString : SerialType where
  carrier := {l : List UInt8 // l.length < 2 ^ 64}
  decEq := inferInstance
  order := charOrder.lexList.comap (·.1)
  Eq x y := x = y
  put p v := mempcpy (putSize p v.1.length) v.1
  get s := do
    let (n, s) ← getSize s
    let (bytes, s) ← getBytes n s
    if h : bytes.1.length < 2 ^ 64 then some (⟨bytes.1, h⟩, s) else none

-- ---------------------------------------------------------------------------
-- The universe
-- ---------------------------------------------------------------------------

mutual
/-- Types in any nesting. `Ty true` are those with an `operator<`, which sets
and keys need; `std::unordered_map` has none. -/
inductive Ty : Bool → Type
  | scalar : Scalar → Ty b
  | pair : Ty b → Ty b → Ty b
  | tuple : Elements b → Ty b
  | vector : Ty b → Ty b
  | set : Ty true → Ty b
  | map : Ty true → Ty b → Ty b
  | unorderedMap : Ty true → Ty false → Ty false
  | string : Ty b
/-- The element types of a tuple; the empty tuple is `memcpy`-able. -/
inductive Elements : Bool → Type
  | last : Ty b → Elements b
  | cons : Ty b → Elements b → Elements b
end

/-- Where hash tables link new nodes. -/
abbrev Placement := (κ ν : Type) → List (κ × ν) → κ → ℕ

mutual
/-- The specialisation of `serial` for a type. -/
def Ty.serial (place : Placement) : Ty b → SerialType
  | .scalar s => serialMemcpy s
  | .pair t u => serialPair (t.serial place) (u.serial place)
  | .tuple ts => ts.serial place
  | .vector t => serialVector (t.serial place)
  | .set t => serialSet (t.serial place)
  | .map k v => serialMap (k.serial place) (v.serial place)
  | .unorderedMap k v => serialUnorderedMap (k.serial place) (v.serial place) (place _ _)
  | .string => serialString
/-- `serial<std::tuple<TT...>>`: the elements one after another. -/
def Elements.serial (place : Placement) : Elements b → SerialType
  | .last t => t.serial place
  | .cons t ts => serialPair (t.serial place) (ts.serial place)
end

/-- `serial_size`. -/
def serialSize (t : SerialType) (x : t.carrier) : ℕ := t.put 0 x

/-- `serial_put` for a single object, with its assertion. -/
def serialPut (t : SerialType) (x : t.carrier) : Option (List UInt8) :=
  let ret := List.replicate (serialSize t x) 0
  let p := t.put (Cursor.mk ret 0) x
  if p.pos = ret.length then some p.buf else none

/-- `serial_get`. -/
def serialGet (t : SerialType) (p : List UInt8) : Option (t.carrier × List UInt8) := t.get p

end Flecsi.Utils
