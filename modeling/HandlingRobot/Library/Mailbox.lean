import Mathlib.Data.List.Basic

/-! # Bounded mailboxes

A mailbox of capacity `cap` is a FIFO queue that never holds more than `cap` mails; the bound is
part of the type. Sending to a full mailbox fails and leaves the queue unchanged, without blocking
the sender. -/

namespace HandlingRobot

/-- **A mailbox of capacity `cap`**: the queued mails, oldest first. -/
structure Mailbox (α : Type*) (cap : ℕ) where
  /-- The queued mails, oldest first. -/
  mails : List α
  length_le : mails.length ≤ cap

namespace Mailbox

variable {α : Type*} {cap : ℕ}

/-- The mailbox as it is created. -/
def empty : Mailbox α cap := ⟨[], Nat.zero_le _⟩

/-- Whether a `send` now would be accepted. -/
def HasRoom (m : Mailbox α cap) : Prop := m.mails.length < cap

instance (m : Mailbox α cap) : Decidable m.HasRoom := inferInstanceAs (Decidable (_ < _))

/-- Send without blocking: the mail is queued if there is room, else dropped. -/
def send (m : Mailbox α cap) (a : α) : Mailbox α cap :=
  if h : m.HasRoom then ⟨m.mails ++ [a], by rw [List.length_append]; exact h⟩ else m

/-- The oldest mail and the rest of the queue; `none` while the receiver would wait. -/
def recv (m : Mailbox α cap) : Option (α × Mailbox α cap) :=
  match h : m.mails with
  | [] => none
  | a :: as => some (a, ⟨as, by have := m.length_le; rw [h] at this; exact Nat.le_of_succ_le this⟩)

@[simp] theorem mails_empty : (empty : Mailbox α cap).mails = [] := rfl

/-- A send into a mailbox with room queues the mail. -/
theorem mails_send_of_hasRoom {m : Mailbox α cap} (h : m.HasRoom) (a : α) :
    (m.send a).mails = m.mails ++ [a] := by
  rw [send, dif_pos h]

/-- A send into a full mailbox changes nothing. -/
theorem send_of_not_hasRoom {m : Mailbox α cap} (h : ¬ m.HasRoom) (a : α) : m.send a = m := by
  rw [send, dif_neg h]

/-- After a send the mailbox is not empty, whether the mail was accepted or not. -/
theorem mails_send_ne_nil (m : Mailbox α 1) (a : α) : (m.send a).mails ≠ [] := by
  by_cases h : m.HasRoom
  · rw [mails_send_of_hasRoom h]
    exact List.append_ne_nil_of_right_ne_nil _ (List.cons_ne_nil a [])
  · rw [send_of_not_hasRoom h]
    intro hnil
    exact h (by rw [HasRoom, hnil]; exact Nat.zero_lt_one)

/-- What is in the mailbox after a send was there before, or is the mail. -/
theorem mem_mails_send {m : Mailbox α cap} {a b : α} (h : b ∈ (m.send a).mails) :
    b ∈ m.mails ∨ b = a := by
  by_cases hroom : m.HasRoom
  · rw [mails_send_of_hasRoom hroom, List.mem_append, List.mem_singleton] at h
    exact h
  · rw [send_of_not_hasRoom hroom] at h
    exact Or.inl h

/-- Receiving takes the oldest mail off the queue. -/
theorem recv_eq_some_iff {m m' : Mailbox α cap} {a : α} :
    m.recv = some (a, m') ↔ m.mails = a :: m'.mails := by
  obtain ⟨l, hl⟩ := m
  obtain ⟨l', hl'⟩ := m'
  cases l with
  | nil => simp [recv]
  | cons b l =>
      simp only [recv, Option.some.injEq, Prod.mk.injEq, Mailbox.mk.injEq, List.cons.injEq]

/-- A mailbox of capacity 1 is empty or holds one mail. -/
theorem mails_eq_nil_or_singleton (m : Mailbox α 1) : m.mails = [] ∨ ∃ a, m.mails = [a] := by
  obtain ⟨l, hl⟩ := m
  match l, hl with
  | [], _ => exact Or.inl rfl
  | [a], _ => exact Or.inr ⟨a, rfl⟩

/-- A mailbox of capacity 1 has room exactly when it is empty. -/
theorem hasRoom_iff (m : Mailbox α 1) : m.HasRoom ↔ m.mails = [] := by
  rw [HasRoom, Nat.lt_one_iff, List.length_eq_zero_iff]

end Mailbox

end HandlingRobot
