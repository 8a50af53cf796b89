import AtomVault.Transfer.Pacing
import AtomVault.Lib.Calls

/-!
# Both ends of a transfer (`transfer.rs`)

`send` and `recv` run from one `session.recv` to the next. Between two of them lies a
phase, and a step takes an end from one phase to another, with at most one frame sent.
-/

open Lib

namespace AtomVault

/-- A configured transfer. -/
structure Transfer where
  chunkLen : Nat
  checkpointLen : Nat
  maxTotalLen : Option UInt64
  pacing : Transfer.Pacing
  chunk_pos : 1 ≤ chunkLen
  chunk_le : chunkLen ≤ Transfer.MAX_FRAME_LEN - Transfer.HEADER_LEN
  checkpoint_pos : 1 ≤ checkpointLen

namespace Transfer

def DEFAULT_CHUNK_LEN : Nat := 1 <<< 20
def DEFAULT_CHECKPOINT_LEN : Nat := 16 * DEFAULT_CHUNK_LEN

def new : Transfer where
  chunkLen := DEFAULT_CHUNK_LEN
  checkpointLen := DEFAULT_CHECKPOINT_LEN
  maxTotalLen := none
  pacing := { ladder := .powerOfTwo, minFrames := 16, jitterFrames := 64 }
  chunk_pos := by decide
  chunk_le := by decide
  checkpoint_pos := by decide

/-- `Transfer::chunk_len`, clamped to leave room for the header. -/
def withChunkLen (t : Transfer) (bytes : Nat) : Transfer :=
  { t with
    chunkLen := max 1 (min bytes (MAX_FRAME_LEN - HEADER_LEN))
    chunk_pos := le_max_left _ _
    chunk_le := max_le (by decide) (min_le_right _ _) }

def withCheckpointLen (t : Transfer) (bytes : Nat) : Transfer :=
  { t with checkpointLen := max bytes 1, checkpoint_pos := le_max_right _ _ }

def withPacing (t : Transfer) (pacing : Pacing) : Transfer := { t with pacing }

def withMaxTotalLen (t : Transfer) (bytes : UInt64) : Transfer :=
  { t with maxTotalLen := some bytes }

def frameLen (t : Transfer) : Nat := t.chunkLen + HEADER_LEN

def PARTIAL_SUFFIX : String := ".part"

def partialPath (dest : String) : String := dest ++ PARTIAL_SUFFIX

structure Summary where
  total : Nat
  resumedFrom : Nat
  hash : Hash
  coverFrames : UInt64
  deriving DecidableEq

/-- What the surroundings do in one step. -/
structure Event where
  cancelled : Bool
  /-- The result of `session.recv`, if the step calls it. -/
  delivery : Except String Bytes
  sendFails : Option String
  draws : Draws

/-! ## Hashing a prefix

A hasher is the bytes it was given.
-/

section Prefix

variable {σ : Type}

def hashPrefixLoop (fd len bufLen : Nat) : Nat → Nat → Bytes → Prog σ Error Bytes
  | 0, _, hasher => pure hasher
  | fuel + 1, read, hasher =>
    if read < len then do
      let want := min (len - read) bufLen
      let b ← Call.readExact (fun e => .transfer s!"read prefix at {read}: {e}") fd want
      hashPrefixLoop fd len bufLen fuel (read + want) (hasher ++ b)
    else pure hasher

def hashPrefix (fd len bufLen : Nat) : Prog σ Error Bytes := do
  Call.seek (fun e => .transfer s!"seek to 0: {e}") fd 0
  hashPrefixLoop fd len bufLen len 0 []

end Prefix

/-! ## Receiving -/

/-- What `recv` knows while it waits for `START`. `held` is the source's `have`. -/
structure Resuming where
  fd : Nat
  frameLen : Nat
  total : Nat
  held : Nat
  hasher : Bytes

/-- What `recv` knows at the head of its loop. -/
structure Receiving where
  fd : Nat
  frameLen : Nat
  total : Nat
  offset : Nat
  received : Nat
  lastCheckpoint : Nat
  hasher : Bytes
  coverFrames : UInt64
  hash : Option Hash

inductive RecvPhase
  | awaitOffer
  | awaitStart (st : Resuming)
  | receiving (st : Receiving)
  | returned (r : Except Error Summary)

section Receive

variable {σ : Type} (blake3 : Bytes → Hash) (t : Transfer) (dest : String)

def checkLimit (total : Nat) : Except Error Unit :=
  match t.maxTotalLen with
  | some max =>
    if total > max.toNat then
      .error (.transfer
        s!"offered payload of {total} bytes exceeds the {max.toNat}-byte limit")
    else .ok ()
  | none => .ok ()

def recvOffer (offer : Bytes) : Prog σ Error (Resuming × Bytes) := do
  let frameLen := offer.length
  if ¬(HEADER_LEN ≤ frameLen ∧ frameLen ≤ MAX_FRAME_LEN) then
    throw (.transfer s!"peer's frame size {frameLen} is out of range")
  let total ← ofExcept id (decodeOffer offer)
  ofExcept id (t.checkLimit total)
  let path := partialPath dest
  let fd ← Call.openOrCreate (fun e => .transfer s!"open {path}: {e}") path
  let onDisk ← Call.fileLen (fun e => .transfer s!"stat {path}: {e}") fd
  let held := min (onDisk / t.checkpointLen * t.checkpointLen) total
  Call.setLen (fun e => .transfer s!"truncate to {held}: {e}") fd held
  let hasher ← hashPrefix fd held t.chunkLen
  let resume := beBytes 8 held ++ (blake3 hasher).toList
  return ({ fd, frameLen, total, held, hasher }, frame Tag.RESUME resume frameLen)

def recvStart (st : Resuming) (raw : Bytes) : Prog σ Error Receiving := do
  let content ← ofExcept id (expect raw Tag.START)
  let offset ← ofExcept id (decodeStart content)
  if offset > st.held then
    throw (.transfer s!"sender asked to start at {offset} but we only have {st.held} bytes")
  let hasher ← if offset ≠ st.held then do
      Call.setLen (fun e => .transfer s!"truncate to {offset}: {e}") st.fd offset
      hashPrefix st.fd offset t.chunkLen
    else pure st.hasher
  Call.seek (fun e => .transfer s!"seek to {offset}: {e}") st.fd offset
  return {
    fd := st.fd, frameLen := st.frameLen, total := st.total, offset
    received := offset, lastCheckpoint := offset, hasher, coverFrames := 0, hash := none }

/-- `sync_parent_dir`: its errors are dropped. -/
def syncParentDir : Prog σ Error Unit := tryCatch (Call.probe .transfer) fun _ => pure ()

def finishPayload (st : Receiving) (claimed : Hash) : Prog σ Error Hash := do
  if st.received ≠ st.total then
    throw (.transfer s!"sender finished at {st.received} of {st.total} bytes")
  let hash := blake3 st.hasher
  if hash ≠ claimed then
    throw (.integrity (s!"payload hash mismatch: computed {hex hash.toList}, " ++
      s!"sender claimed {hex claimed.toList}"))
  Call.sync (fun e => .transfer s!"final fsync: {e}") st.fd
  Call.rename (fun e => .transfer s!"rename into {dest}: {e}") (partialPath dest) dest
  syncParentDir
  return hash

/-- A `DATA` frame. -/
def recvData (st : Receiving) (content : Bytes) : Prog σ Error Receiving := do
  if st.hash.isSome then throw (.transfer "data frame after DONE")
  if st.received + content.length > st.total then
    throw (.transfer "sender sent more data than it offered")
  Call.writeAll (fun e => .transfer s!"write at {st.received}: {e}") st.fd content
  let received := st.received + content.length
  let st := { st with hasher := st.hasher ++ content, received }
  if received - st.lastCheckpoint ≥ t.checkpointLen then
    Call.sync (fun e => .transfer s!"fsync at {received}: {e}") st.fd
    return { st with lastCheckpoint := received }
  else return st

/-- A `DONE` frame. -/
def recvDone (st : Receiving) (content : Bytes) : Prog σ Error Receiving := do
  if st.hash.isSome then throw (.transfer "duplicate DONE frame")
  let claimed ← ofExcept id (decodeDone content)
  let hash ← finishPayload blake3 dest st claimed
  return { st with hash := some hash }

/-- A `FINISH` frame: the summary that `recv` returns once its `ACK` is sent. -/
def recvFinish (st : Receiving) : Except Error Summary :=
  match st.hash with
  | some hash => .ok ⟨st.total, st.offset, hash, st.coverFrames⟩
  | none => .error (.transfer s!"stream ended at {st.received} of {st.total} bytes")

/-- One turn of the loop: the state of the next turn, or the summary. -/
def recvFrame (st : Receiving) (raw : Bytes) : Prog σ Error (Receiving ⊕ Summary) := do
  if raw.length ≠ st.frameLen then
    throw (.transfer
      s!"peer changed frame size from {st.frameLen} to {raw.length} mid-stream")
  let (tag, content) ← ofExcept id (parse raw)
  if tag = Tag.DATA then return .inl (← recvData t st content)
  else if tag = Tag.COVER then return .inl { st with coverFrames := st.coverFrames + 1 }
  else if tag = Tag.DONE then return .inl (← recvDone blake3 dest st content)
  else if tag = Tag.FINISH then return .inr (← ofExcept id (recvFinish st))
  else throw (.transfer s!"unexpected frame tag 0x{hexByte tag} during transfer")

end Receive

structure Receiver where
  host : Host
  phase : RecvPhase

namespace Receiver

/-- Runs a part of `recv` that no session call interrupts. -/
def exec {α : Type} (r : Receiver) (x : Prog Unit Error α)
    (next : Host → α → Receiver × Option Bytes) : Receiver × Option Bytes :=
  match x ⟨r.host, ()⟩ with
  | .ok a s => next s.host a
  | .error e s => (⟨s.host, .returned (.error e)⟩, none)

def emit (ev : Event) (h : Host) (raw : Bytes) (phase : RecvPhase) : Receiver × Option Bytes :=
  match ev.sendFails with
  | none => (⟨h, phase⟩, some raw)
  | some e => (⟨h, .returned (.error (.session e))⟩, none)

variable (blake3 : Bytes → Hash) (t : Transfer) (dest : String)

/-- One step of `recv`, and the frame it sent. -/
def step (ev : Event) (r : Receiver) : Receiver × Option Bytes :=
  match r.phase with
  | .returned _ => (r, none)
  | .awaitOffer =>
    match ev.delivery with
    | .error e => (⟨r.host, .returned (.error (.session e))⟩, none)
    | .ok raw => r.exec (recvOffer blake3 t dest raw) fun h (st, resume) =>
        emit ev h resume (.awaitStart st)
  | .awaitStart st =>
    match ev.delivery with
    | .error e => (⟨r.host, .returned (.error (.session e))⟩, none)
    | .ok raw => r.exec (recvStart t st raw) fun h st => (⟨h, .receiving st⟩, none)
  | .receiving st =>
    if ev.cancelled then (⟨r.host, .returned (.error .cancelled)⟩, none) else
      match ev.delivery with
      | .error e => (⟨r.host, .returned (.error (.session e))⟩, none)
      | .ok raw => r.exec (recvFrame blake3 t dest st raw) fun h turn =>
          match turn with
          | .inl st => (⟨h, .receiving st⟩, none)
          | .inr summary => emit ev h (frame Tag.ACK [] st.frameLen) (.returned (.ok summary))

end Receiver

/-! ## Sending -/

/-- What `send` knows once its `START` is out. -/
structure Planning where
  fd : Nat
  total : Nat
  offset : Nat
  hasher : Bytes

/-- What `send` knows in its loops. It is in the second one once it has a hash. -/
structure Sending where
  fd : Nat
  total : Nat
  offset : Nat
  sent : Nat
  emitted : Nat
  plannedFrames : Nat
  hasher : Bytes
  coverFrames : UInt64
  hash : Option Hash

inductive SendPhase
  | start
  | awaitResume (fd total : Nat)
  | planning (st : Planning)
  | sending (st : Sending)
  | awaitAck (summary : Summary)
  | returned (r : Except Error Summary)

section Send

variable {σ : Type} (blake3 : Bytes → Hash) (t : Transfer) (source : String)

def sendOffer : Prog σ Error (Nat × Nat) := do
  let fd ← Call.openFile (fun e => .transfer s!"open {source}: {e}") source
  let total ← Call.fileLen (fun e => .transfer s!"stat {source}: {e}") fd
  return (fd, total)

/-- The answer to a `RESUME`: where to start, with what in the hasher. -/
def sendStart (fd total : Nat) (raw : Bytes) : Prog σ Error Planning := do
  let content ← ofExcept id (expect raw Tag.RESUME)
  let (held, prefixHash) ← ofExcept id (decodeResume content)
  if 0 < held ∧ held ≤ total then
    let hasher ← hashPrefix fd held t.chunkLen
    if blake3 hasher = prefixHash then return ⟨fd, total, held, hasher⟩
    else return ⟨fd, total, 0, []⟩
  else return ⟨fd, total, 0, []⟩

def sendPlan (st : Planning) (draws : Draws) : Prog σ Error Sending := do
  Call.seek (fun e => .transfer s!"seek to {st.offset}: {e}") st.fd st.offset
  let realFrames := divCeil (st.total - st.offset) t.chunkLen
  let plannedFrames ← ofExcept id (t.pacing.plan realFrames draws)
  return {
    fd := st.fd, total := st.total, offset := st.offset, sent := st.offset, emitted := 0
    plannedFrames, hasher := st.hasher, coverFrames := 0, hash := none }

/-- One turn of the data loop, and its chunk. -/
def sendData (st : Sending) : Prog σ Error (Sending × Bytes) := do
  let want := min (st.total - st.sent) t.chunkLen
  let chunk ← Call.readExact (fun e => .transfer s!"read at {st.sent}: {e}") st.fd want
  return ({ st with
    hasher := st.hasher ++ chunk, sent := st.sent + want, emitted := st.emitted + 1 }, chunk)

end Send

structure Sender where
  host : Host
  phase : SendPhase

namespace Sender

def exec {α : Type} (s : Sender) (x : Prog Unit Error α)
    (next : Host → α → Sender × Option Bytes) : Sender × Option Bytes :=
  match x ⟨s.host, ()⟩ with
  | .ok a e => next e.host a
  | .error err e => (⟨e.host, .returned (.error err)⟩, none)

def emit (ev : Event) (h : Host) (raw : Bytes) (phase : SendPhase) : Sender × Option Bytes :=
  match ev.sendFails with
  | none => (⟨h, phase⟩, some raw)
  | some e => (⟨h, .returned (.error (.session e))⟩, none)

/-- Does the next step of `send` call `session.recv`? -/
def listens : SendPhase → Bool
  | .awaitResume _ _ => true
  | .awaitAck _ => true
  | _ => false

variable (blake3 : Bytes → Hash) (t : Transfer) (source : String)

/-- One turn of either loop, or the frame between them or behind them. -/
def turn (ev : Event) (s : Sender) (st : Sending) : Sender × Option Bytes :=
  match st.hash with
  | none =>
    if st.sent < st.total then
      if ev.cancelled then (⟨s.host, .returned (.error .cancelled)⟩, none) else
        s.exec (sendData t st) fun h (st, chunk) =>
          emit ev h (frame Tag.DATA chunk t.frameLen) (.sending st)
    else
      let hash := blake3 st.hasher
      emit ev s.host (frame Tag.DONE hash.toList t.frameLen) (.sending { st with hash := some hash })
  | some hash =>
    -- A cancelled ramp-down goes straight to `FINISH`.
    if st.emitted < st.plannedFrames ∧ ¬ev.cancelled then
      emit ev s.host (frame Tag.COVER [] t.frameLen)
        (.sending { st with emitted := st.emitted + 1, coverFrames := st.coverFrames + 1 })
    else
      emit ev s.host (frame Tag.FINISH [] t.frameLen)
        (.awaitAck ⟨st.total, st.offset, hash, st.coverFrames⟩)

/-- One step of `send`, and the frame it sent. -/
def step (ev : Event) (s : Sender) : Sender × Option Bytes :=
  match s.phase with
  | .returned _ => (s, none)
  | .start => s.exec (sendOffer source) fun h (fd, total) =>
      emit ev h (frame Tag.OFFER (beBytes 8 total) t.frameLen) (.awaitResume fd total)
  | .awaitResume fd total =>
    match ev.delivery with
    | .error e => (⟨s.host, .returned (.error (.session e))⟩, none)
    | .ok raw => s.exec (sendStart blake3 t fd total raw) fun h st =>
        emit ev h (frame Tag.START (beBytes 8 st.offset) t.frameLen) (.planning st)
  | .planning st => s.exec (sendPlan t st ev.draws) fun h st => (⟨h, .sending st⟩, none)
  | .sending st => turn blake3 t ev s st
  | .awaitAck summary =>
    match ev.delivery with
    | .error e => (⟨s.host, .returned (.error (.session e))⟩, none)
    | .ok raw => s.exec (ofExcept id (expect raw Tag.ACK)) fun h _ =>
        (⟨h, .returned (.ok summary)⟩, none)

end Sender

end Transfer

end AtomVault
