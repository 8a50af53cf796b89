import AtomVault.Transfer.Sender
import AtomVault.Transfer.Follower

/-!
# A session between two honest ends

The two ends run at their own pace over two reliable channels. A move is one step of one
end. A cut is a `session.recv` or a `session.send` that fails, at any point and for either
end, whatever is still in flight.
-/

open Lib

namespace AtomVault.Transfer

inductive Side
  | sender
  | receiver
  deriving DecidableEq

/-- Who takes part. `draws` is the sender's jitter. -/
structure Setting where
  sends : Transfer
  recvs : Transfer
  source : String
  dest : String
  draws : Draws

structure Move where
  side : Side
  cancelled : Bool
  recvFails : Option String
  sendFails : Option String

structure Session where
  sender : Sender
  receiver : Receiver
  toReceiver : Channel Bytes
  toSender : Channel Bytes
  /-- What an observer sees: who sent a frame, and how long it was. -/
  log : List (Side × Nat)

def SendPhase.isReturned : SendPhase → Bool
  | .returned _ => true
  | _ => false

def RecvPhase.isReturned : RecvPhase → Bool
  | .returned _ => true
  | _ => false

namespace Session

def start (hs hr : Host) : Session :=
  ⟨⟨hs, .start⟩, ⟨hr, .awaitOffer⟩, Channel.empty, Channel.empty, []⟩

/-- What `session.recv` returns, if the step calls it and does not have to wait. -/
def delivery (m : Move) (listens : Bool) (ch : Channel Bytes) :
    Option (Except String Bytes × Channel Bytes) :=
  if listens then
    match m.recvFails with
    | some e => some (.error e, ch)
    | none => ch.next.map fun raw => (.ok raw, ch.take)
  else some (.error "", ch)

def record (side : Side) (out : Option Bytes) : List (Side × Nat) :=
  out.toList.map fun raw => (side, raw.length)

variable (blake3 : Bytes → Hash) (c : Setting)

def next (m : Move) (s : Session) : Option Session :=
  match m.side with
  | .sender =>
    if s.sender.phase.isReturned then none else do
      let (d, toSender) ← delivery m (Sender.listens s.sender.phase) s.toSender
      let (sender, out) := s.sender.step blake3 c.sends c.source ⟨m.cancelled, d, m.sendFails, c.draws⟩
      return { s with
        sender, toSender
        toReceiver := s.toReceiver.put out, log := s.log ++ record .sender out }
  | .receiver =>
    if s.receiver.phase.isReturned then none else do
      let (d, toReceiver) ← delivery m (Receiver.listens s.receiver.phase m.cancelled) s.toReceiver
      let (receiver, out) := s.receiver.step blake3 c.recvs c.dest ⟨m.cancelled, d, m.sendFails, c.draws⟩
      return { s with
        receiver, toReceiver
        toSender := s.toSender.put out, log := s.log ++ record .receiver out }

/-- A run of both ends. There is none when a move would have to wait. -/
def run : List Move → Session → Option Session
  | [], s => some s
  | m :: ms, s => next blake3 c m s >>= run ms

end Session

/-! ## What one move can do -/

section Moves

variable {blake3 : Bytes → Hash} {c : Setting} {m : Move} {s s' : Session}

theorem delivery_cases {listens : Bool} {ch ch' : Channel Bytes} {d : Except String Bytes}
    (h : Session.delivery m listens ch = some (d, ch')) :
    (listens = false ∧ ch' = ch) ∨
    (listens = true ∧ m.recvFails ≠ none ∧ (∃ e, d = .error e) ∧ ch' = ch) ∨
    (listens = true ∧ ∃ raw, ch.next = some raw ∧ d = .ok raw ∧ ch' = ch.take) := by
  unfold Session.delivery at h
  cases listens with
  | false =>
    cases h
    exact Or.inl ⟨rfl, rfl⟩
  | true =>
    simp only [if_true] at h
    split at h
    · rename_i e he
      cases h
      exact Or.inr (Or.inl ⟨rfl, by simp [he], ⟨e, rfl⟩, rfl⟩)
    · obtain ⟨raw, hraw, h⟩ := Option.map_eq_some_iff.mp h
      cases h
      exact Or.inr (Or.inr ⟨rfl, raw, hraw, rfl, rfl⟩)

theorem next_sender (h : Session.next blake3 c m s = some s') (hside : m.side = .sender) :
    s.sender.phase.isReturned = false ∧ ∃ d toSender,
      Session.delivery m (Sender.listens s.sender.phase) s.toSender = some (d, toSender) ∧
      s' = ⟨(s.sender.step blake3 c.sends c.source ⟨m.cancelled, d, m.sendFails, c.draws⟩).1,
        s.receiver,
        s.toReceiver.put
          (s.sender.step blake3 c.sends c.source ⟨m.cancelled, d, m.sendFails, c.draws⟩).2,
        toSender,
        s.log ++ Session.record .sender
          (s.sender.step blake3 c.sends c.source ⟨m.cancelled, d, m.sendFails, c.draws⟩).2⟩ := by
  unfold Session.next at h
  rw [hside] at h
  simp only at h
  split at h
  · cases h
  · rename_i hlive
    obtain ⟨⟨d, toSender⟩, hd, h⟩ := Option.bind_eq_some_iff.mp h
    cases h
    exact ⟨by simpa using hlive, d, toSender, hd, rfl⟩

theorem next_receiver (h : Session.next blake3 c m s = some s') (hside : m.side = .receiver) :
    s.receiver.phase.isReturned = false ∧ ∃ d toReceiver,
      Session.delivery m (Receiver.listens s.receiver.phase m.cancelled) s.toReceiver =
        some (d, toReceiver) ∧
      s' = ⟨s.sender,
        (s.receiver.step blake3 c.recvs c.dest ⟨m.cancelled, d, m.sendFails, c.draws⟩).1,
        toReceiver,
        s.toSender.put
          (s.receiver.step blake3 c.recvs c.dest ⟨m.cancelled, d, m.sendFails, c.draws⟩).2,
        s.log ++ Session.record .receiver
          (s.receiver.step blake3 c.recvs c.dest ⟨m.cancelled, d, m.sendFails, c.draws⟩).2⟩ := by
  unfold Session.next at h
  rw [hside] at h
  simp only at h
  split at h
  · cases h
  · rename_i hlive
    obtain ⟨⟨d, toReceiver⟩, hd, h⟩ := Option.bind_eq_some_iff.mp h
    cases h
    exact ⟨by simpa using hlive, d, toReceiver, hd, rfl⟩

end Moves

end AtomVault.Transfer
