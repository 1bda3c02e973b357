import Flecsi.Lib.PackedBuffer

/-!
# Tagged messages

Messages between two parties are received in the order they were sent among those of one
tag. A receive names the sender and the tag.
-/

namespace Mailbox

open PackedBuffer

variable {β : Type u} {γ : Type v}

/-- The first message with a tag, and the messages that stay. -/
def take (tag : ℕ) : List (ℕ × β) → Option (β × List (ℕ × β))
  | [] => none
  | msg :: rest =>
    if msg.1 = tag then some (msg.2, rest)
    else (take tag rest).map fun x => (x.1, msg :: x.2)

/-- Receives in the order they were posted; `mailbox` holds what each sender has sent. -/
def receive (mailbox : ℕ → List (ℕ × β)) : List (ℕ × ℕ) → Option (List β × (ℕ → List (ℕ × β)))
  | [] => some ([], mailbox)
  | (sender, tag) :: posted => do
    let taken ← take tag (mailbox sender)
    let received ← receive (Function.update mailbox sender taken.2) posted
    some (taken.1 :: received.1, received.2)

/-- All receives complete and no message of the first `n` senders is left. -/
def receiveAll (n : ℕ) (mailbox : ℕ → List (ℕ × β)) (posted : List (ℕ × ℕ)) : Option (List β) := do
  let received ← receive mailbox posted
  if (List.range n).all fun sender => (received.2 sender).isEmpty then some received.1 else none

@[simp] theorem take_head (tag : ℕ) (x : β) (rest : List (ℕ × β)) :
    take tag ((tag, x) :: rest) = some (x, rest) := if_pos rfl

/-- Each sender has sent what its receives ask for, in their order. -/
theorem receive_eq (items : List (ℕ × γ)) (tag : γ → ℕ) (value : γ → β) (mailbox : ℕ → List (ℕ × β))
    (h : ∀ sender, mailbox sender = (itemsFor sender items).map fun x => (tag x, value x)) :
    receive mailbox (items.map fun x => (x.1, tag x.2)) =
      some (items.map fun x => value x.2, fun _ => []) := by
  induction items generalizing mailbox with
  | nil =>
    have hempty : mailbox = fun _ => [] := funext fun sender => by simpa [itemsFor] using h sender
    rw [hempty]
    rfl
  | cons item items ih =>
    obtain ⟨sender, x⟩ := item
    have hhead : mailbox sender =
        (tag x, value x) :: (itemsFor sender items).map fun x => (tag x, value x) := by
      rw [h]
      simp [itemsFor]
    have hrest (s : ℕ) : Function.update mailbox sender
        ((itemsFor sender items).map fun x => (tag x, value x)) s =
          (itemsFor s items).map fun x => (tag x, value x) := by
      by_cases hs : s = sender
      · rw [hs, Function.update_self]
      · rw [Function.update_of_ne hs, h]
        simp [itemsFor, Ne.symm hs]
    simp only [List.map_cons, receive, hhead, take_head, Option.bind_eq_bind, Option.bind_some,
      ih _ hrest]

theorem receiveAll_eq {items : List (ℕ × γ)} (tag : γ → ℕ) {value : γ → β}
    {mailbox : ℕ → List (ℕ × β)} (n : ℕ)
    (h : ∀ sender, mailbox sender = (itemsFor sender items).map fun x => (tag x, value x)) :
    receiveAll n mailbox (items.map fun x => (x.1, tag x.2)) = some (items.map fun x => value x.2) := by
  rw [receiveAll, receive_eq items tag value mailbox h]
  simp

end Mailbox
