import Mathlib.Data.List.Basic

/-!
# A bounded mailbox

A queue with room for `cap` messages and one receiver. What does not fit is lost.
-/

namespace Lib

structure Mailbox (α : Type) (cap : Nat) where
  /-- Everything that was ever offered, in order. -/
  offered : List α
  received : List α
  items : List α
  listening : Bool
  bounded : items.length ≤ cap
  /-- Nothing comes twice or out of order. -/
  ordered : (received ++ items).Sublist offered

namespace Mailbox

variable {α : Type} {cap : Nat} {m m' : Mailbox α cap}

def empty : Mailbox α cap := ⟨[], [], [], true, Nat.zero_le _, List.Sublist.slnil⟩

/-- The message goes in where there is room and someone listens. -/
def trySend (m : Mailbox α cap) (a : α) : Mailbox α cap :=
  if h : m.listening = true ∧ m.items.length < cap then
    { m with
      offered := m.offered ++ [a]
      items := m.items ++ [a]
      bounded := by simp; omega
      ordered := by
        rw [← List.append_assoc]
        exact m.ordered.append_right [a] }
  else
    { m with
      offered := m.offered ++ [a]
      ordered := m.ordered.trans (List.sublist_append_left _ _) }

def recv (m : Mailbox α cap) : Option (Mailbox α cap) :=
  match h : m.items with
  | [] => none
  | a :: items =>
    if m.listening then
      some { m with
        received := m.received ++ [a]
        items := items
        bounded := by
          have hbound := m.bounded
          rw [h, List.length_cons] at hbound
          omega
        ordered := by
          have hordered := m.ordered
          rw [h] at hordered
          simpa using hordered }
    else none

def close (m : Mailbox α cap) : Mailbox α cap := { m with listening := false }

/-- Nothing was lost. -/
def Intact (m : Mailbox α cap) : Prop := m.offered = m.received ++ m.items

instance [DecidableEq α] (m : Mailbox α cap) : Decidable m.Intact :=
  inferInstanceAs (Decidable (m.offered = m.received ++ m.items))

theorem intact_iff_length : m.Intact ↔ m.offered.length = m.received.length + m.items.length := by
  unfold Intact
  rw [← List.length_append]
  constructor
  · intro h
    rw [h]
  · intro h
    exact (m.ordered.eq_of_length h.symm).symm

/-- A message is kept when there is room, and what was lost stays lost. -/
theorem intact_trySend_iff {a : α} (h : m.listening = true) :
    (m.trySend a).Intact ↔ m.Intact ∧ m.items.length < cap := by
  rw [intact_iff_length, intact_iff_length]
  have hle := m.ordered.length_le
  rw [List.length_append] at hle
  unfold trySend
  split
  · rename_i hroom
    simp only [List.length_append, List.length_singleton, hroom.2, and_true]
    omega
  · rename_i hfull
    have hfull : ¬ m.items.length < cap := fun hroom => hfull ⟨h, hroom⟩
    simp only [List.length_append, List.length_singleton, hfull, and_false, iff_false]
    omega

@[simp]
theorem listening_trySend {a : α} : (m.trySend a).listening = m.listening := by
  unfold trySend
  split <;> rfl

@[simp]
theorem listening_close : m.close.listening = false := rfl

theorem recv_spec (h : m.recv = some m') :
    ∃ a, m.items = a :: m'.items ∧ m'.received = m.received ++ [a] ∧ m'.offered = m.offered ∧
      m'.listening = m.listening := by
  unfold recv at h
  split at h
  · cases h
  · rename_i a items hitems
    split at h
    · cases h
      exact ⟨a, hitems, rfl, rfl, rfl⟩
    · cases h

theorem intact_recv_iff (h : m.recv = some m') : m'.Intact ↔ m.Intact := by
  obtain ⟨a, hitems, hreceived, hoffered, -⟩ := recv_spec h
  unfold Intact
  rw [hitems, hreceived, hoffered, List.append_assoc, List.singleton_append]

end Mailbox

end Lib
