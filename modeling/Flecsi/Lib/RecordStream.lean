import Flecsi.Lib.ByteCast

/-!
# Streams of records

Words and records read one after another from a stream of bytes, by loops that stop when a
record cannot be read.
-/

namespace RecordStream

open ByteCast

variable {σ : Type u} {ρ : Type v}

def readBytes (len : ℕ) (stream : List UInt8) : Option (List UInt8 × List UInt8) :=
  if len ≤ stream.length then some (stream.take len, stream.drop len) else none

theorem readBytes_append {bytes : List UInt8} {len : ℕ} (h : bytes.length = len) (rest : List UInt8) :
    readBytes len (bytes ++ rest) = some (bytes, rest) := by
  rw [readBytes, if_pos (by simp [h]), List.take_left' h, List.drop_left' h]

def readWord (stream : List UInt8) : Option (ℕ × List UInt8) :=
  (readBytes 8 stream).map fun x => (fromBytes x.1, x.2)

theorem readWord_append {x : ℕ} (h : x < 2 ^ 64) (rest : List UInt8) :
    readWord (toBytes 8 x ++ rest) = some (x, rest) := by
  have hx : x < 256 ^ 8 := h.trans_eq (by norm_num)
  rw [readWord, readBytes_append (length_toBytes 8 x), Option.map_some, fromBytes_toBytes,
    Nat.mod_eq_of_lt hx]

/-- `for(i = first; n records are left; ++i)` -/
def readRecords (record : ℕ → σ → List UInt8 → Option (σ × List UInt8)) :
    ℕ → ℕ → σ → List UInt8 → Option (σ × List UInt8)
  | _, 0, s, stream => some (s, stream)
  | i, n + 1, s, stream => do
    let next ← record i s stream
    readRecords record (i + 1) n next.1 next.2

/-- The next record is read if it is acceptable and stops the loop if it is not; `J` holds of
the records read so far. -/
def Reads (J : List ρ → σ → Prop) (ok : ρ → Prop) (enc : ρ → List UInt8)
    (record : ℕ → σ → List UInt8 → Option (σ × List UInt8)) (items : List ρ) : Prop :=
  ∀ done item, done ++ [item] <+: items → ∀ s rest, J done s →
    (ok item → ∃ s', record done.length s (enc item ++ rest) = some (s', rest) ∧ J (done ++ [item]) s') ∧
    (¬ok item → record done.length s (enc item ++ rest) = none)

variable {J : List ρ → σ → Prop} {ok : ρ → Prop} {enc : ρ → List UInt8}
  {record : ℕ → σ → List UInt8 → Option (σ × List UInt8)} {items : List ρ}

theorem Reads.from (h : Reads J ok enc record items) (done todo : List ρ) (hitems : done ++ todo = items)
    (s : σ) (hJ : J done s) (rest : List UInt8) :
    ((∀ x ∈ todo, ok x) → ∃ s',
      readRecords record done.length todo.length s (todo.flatMap enc ++ rest) = some (s', rest) ∧ J items s') ∧
    ((∃ x ∈ todo, ¬ok x) →
      readRecords record done.length todo.length s (todo.flatMap enc ++ rest) = none) := by
  induction todo generalizing done s with
  | nil =>
    rw [List.append_nil] at hitems
    exact ⟨fun _ => ⟨s, rfl, hitems ▸ hJ⟩, fun ⟨x, hx, _⟩ => absurd hx List.not_mem_nil⟩
  | cons item todo ih =>
    have hprefix : done ++ [item] <+: items := ⟨todo, by rw [← hitems]; simp⟩
    obtain ⟨hread, hstop⟩ := h done item hprefix s (todo.flatMap enc ++ rest) hJ
    rw [List.flatMap_cons, List.append_assoc, List.length_cons, readRecords]
    by_cases hok : ok item
    · obtain ⟨s', hs', hJ'⟩ := hread hok
      have hrest := ih (done ++ [item]) (by rw [← hitems]; simp) s' hJ'
      rw [List.length_append, List.length_singleton] at hrest
      rw [hs', Option.bind_eq_bind, Option.bind_some]
      refine ⟨fun hall => hrest.1 fun x hx => hall x (List.mem_cons_of_mem _ hx), fun ⟨x, hx, hnot⟩ => hrest.2 ?_⟩
      obtain rfl | hx := List.mem_cons.mp hx
      · exact absurd hok hnot
      · exact ⟨x, hx, hnot⟩
    · refine ⟨fun hall => absurd (hall item List.mem_cons_self) hok, fun _ => ?_⟩
      rw [hstop hok]
      rfl

/-- The whole loop reads all records, or stops at one that is not acceptable. -/
theorem Reads.all (h : Reads J ok enc record items) {s : σ} (hJ : J [] s) (rest : List UInt8) :
    ((∀ x ∈ items, ok x) → ∃ s',
      readRecords record 0 items.length s (items.flatMap enc ++ rest) = some (s', rest) ∧ J items s') ∧
    ((∃ x ∈ items, ¬ok x) → readRecords record 0 items.length s (items.flatMap enc ++ rest) = none) :=
  h.from [] items rfl s hJ rest

end RecordStream
