import AtomVault.Sync.Metadata
import AtomVault.Lib.Machine

/-!
# The background synchronisation (`p2p-sync/src/sync.rs`)

One `SyncManager`: its metadata and the vault file, the fetch tasks of its own
`synchronize` calls and of its listener, and the handlers that serve chunks to the peer.
A step is what lies between two `await`s of one of them. Nothing else is atomic, apart
from what the write lock and the metadata's lock make so.
-/

open Lib

namespace AtomVault.Sync

/-! ## What the tasks share -/

structure Vault where
  metadata : VaultMetadata
  file : Bytes
  /-- The task that holds the write lock. -/
  writeLock : Option Nat
  /-- Every chunk written down since the start, in order. -/
  log : List Record

/-! ## A fetch task -/

inductive Side
  | dialer
  | listener
  deriving DecidableEq

structure Reply where
  nonce : Nonce
  ciphertext : Bytes

inductive Phase
  /-- Up to the reply of the peer. -/
  | fetching
  | locking (r : Reply)
  | opening (r : Reply)
  | seeking (r : Reply)
  /-- In `write_all`, with that much of the ciphertext appended. -/
  | writing (r : Reply) (offset written : Nat)
  | syncing (r : Reply) (offset : Nat)
  | recording (r : Reply) (offset : Nat)
  | ended (recorded : Option Record)

structure Task where
  exchange : Nat
  side : Side
  wanted : Missing
  phase : Phase

inductive Input
  /-- What came back on the stream. `none` is a stream that did not open, a timeout, or an
  error in the reply. -/
  | reply (msg : Option SyncMessage)
  | ok
  | err
  | wrote (n : Nat)
  | read (n : Nat)

def Phase.live : Phase → Bool
  | .ended _ => false
  | _ => true

namespace Task

variable (t : Task)

/-- The dialer asserts that the reply is for its nonce. The listener does not look. -/
def accept : Option SyncMessage → Phase
  | some (.chunkTransfer nonce ciphertext) =>
    match t.side with
    | .dialer => if t.wanted.nonce = nonce then .locking ⟨nonce, ciphertext⟩ else .ended none
    | .listener => .locking ⟨nonce, ciphertext⟩
  | _ => .ended none

def recorded (r : Reply) (offset : Nat) : Record := ⟨t.wanted, r.nonce, r.ciphertext, offset⟩

/-- One step of the task with the number `me`. The guard of the write lock lives from
`lock().await` to the end of the task. -/
def step (me : Nat) (v : Vault) (i : Input) : Option (Phase × Vault) :=
  match t.phase, i with
  | .fetching, .reply msg => some (t.accept msg, v)
  | .locking r, .ok =>
    if v.writeLock = none then some (.opening r, { v with writeLock := some me }) else none
  | .opening r, .ok => some (.seeking r, v)
  | .opening _, .err => some (.ended none, { v with writeLock := none })
  | .seeking r, .ok => some (.writing r v.file.length 0, v)
  | .seeking _, .err => some (.ended none, { v with writeLock := none })
  | .writing r offset written, .wrote n =>
    if written + n ≤ r.ciphertext.length then
      some (.writing r offset (written + n), { v with file := v.file ++ slice r.ciphertext written n })
    else none
  | .writing r offset written, .ok =>
    if written = r.ciphertext.length then some (.syncing r offset, v) else none
  | .writing _ _ _, .err => some (.ended none, { v with writeLock := none })
  | .syncing r offset, .ok => some (.recording r offset, v)
  | .syncing _ _, .err => some (.ended none, { v with writeLock := none })
  | .recording r offset, .ok =>
    some (.ended (some (t.recorded r offset)),
      { v with
        metadata := v.metadata.record (t.recorded r offset)
        log := v.log ++ [t.recorded r offset]
        writeLock := none })
  | _, _ => none

end Task

/-! ## Serving a chunk -/

inductive ServePhase
  | opening
  | seeking
  | reading (buffer : Bytes)
  | ended (sent : Option Bytes)

/-- A `ChunkRequest` whose nonce was found. -/
structure Serve where
  nonce : Nonce
  found : ChunkEntry
  phase : ServePhase

def Serve.step (v : Serve) (file : Bytes) : Input → Option ServePhase
  | .ok =>
    match v.phase with
    | .opening => some .seeking
    | .seeking => some (.reading [])
    | .reading buffer => if buffer.length = v.found.cipherLen then some (.ended (some buffer)) else none
    | .ended _ => none
  | .err =>
    match v.phase with
    | .ended _ => none
    | _ => some (.ended none)
  | .read n =>
    match v.phase with
    | .reading buffer =>
      if buffer.length + n ≤ v.found.cipherLen ∧ v.found.offset + buffer.length + n ≤ file.length then
        some (.reading (buffer ++ slice file (v.found.offset + buffer.length) n))
      else none
    | _ => none
  | _ => none

/-! ## The whole -/

/-- A `synchronize` or a `MetadataExchange` handler, with the tasks it still has to spawn. -/
structure Exchange where
  side : Side
  queue : List Missing

structure State where
  vault : Vault
  exchanges : List Exchange
  tasks : List Task
  serves : List Serve

inductive Action
  /-- The remote's metadata arrived. -/
  | exchange (side : Side) (remote : VaultMetadata)
  | spawn (x : Nat)
  | task (t : Nat) (i : Input)
  | request (nonce : Nonce)
  | serve (v : Nat) (i : Input)

def PERMITS : Nat := 50

namespace State

variable (s : State)

def running (x : Nat) : Nat := s.tasks.countP fun t => t.exchange = x && t.phase.live

def step : Action → Option State
  | .exchange side remote =>
    some { s with exchanges := s.exchanges ++ [⟨side, s.vault.metadata.missingChunks remote⟩] }
  | .spawn x =>
    match s.exchanges[x]? with
    | some ⟨side, wanted :: queue⟩ =>
      if s.running x < PERMITS then
        some { s with
          exchanges := s.exchanges.set x ⟨side, queue⟩
          tasks := s.tasks ++ [⟨x, side, wanted, .fetching⟩] }
      else none
    | _ => none
  | .task k i => do
    let t ← s.tasks[k]?
    let (phase, vault) ← t.step k s.vault i
    return { s with vault, tasks := s.tasks.set k { t with phase } }
  | .request nonce =>
    match s.vault.metadata.chunkInfo nonce with
    | some found => some { s with serves := s.serves ++ [⟨nonce, found, .opening⟩] }
    | none => some s
  | .serve k i => do
    let v ← s.serves[k]?
    let phase ← v.step s.vault.file i
    return { s with serves := s.serves.set k { v with phase } }

/-- A manager as `new` makes it. -/
def start (metadata : VaultMetadata) (file : Bytes) : State := ⟨⟨metadata, file, none, []⟩, [], [], []⟩

end State

/-! ## What a step of a task can do -/

def Phase.holds : Phase → Bool
  | .fetching | .locking _ | .ended _ => false
  | _ => true

/-- One step of a task, case by case. -/
inductive Moves (t : Task) (me : Nat) (v : Vault) : Input → Phase → Vault → Prop
  | accept (msg : Option SyncMessage) (hp : t.phase = .fetching) :
    Moves t me v (.reply msg) (t.accept msg) v
  | lock {r : Reply} (hp : t.phase = .locking r) (hfree : v.writeLock = none) :
    Moves t me v .ok (.opening r) { v with writeLock := some me }
  | opened {r : Reply} (hp : t.phase = .opening r) : Moves t me v .ok (.seeking r) v
  | sought {r : Reply} (hp : t.phase = .seeking r) :
    Moves t me v .ok (.writing r v.file.length 0) v
  | wrote {r : Reply} {offset written : Nat} (n : Nat) (hp : t.phase = .writing r offset written)
    (hn : written + n ≤ r.ciphertext.length) :
    Moves t me v (.wrote n) (.writing r offset (written + n))
      { v with file := v.file ++ slice r.ciphertext written n }
  | written {r : Reply} {offset : Nat} (hp : t.phase = .writing r offset r.ciphertext.length) :
    Moves t me v .ok (.syncing r offset) v
  | synced {r : Reply} {offset : Nat} (hp : t.phase = .syncing r offset) :
    Moves t me v .ok (.recording r offset) v
  | failed (hp : t.phase.holds = true) : Moves t me v .err (.ended none) { v with writeLock := none }
  | record {r : Reply} {offset : Nat} (hp : t.phase = .recording r offset) :
    Moves t me v .ok (.ended (some (t.recorded r offset)))
      { v with
        metadata := v.metadata.record (t.recorded r offset)
        log := v.log ++ [t.recorded r offset]
        writeLock := none }

theorem Task.step_moves {t : Task} {me : Nat} {v v' : Vault} {i : Input} {p : Phase}
    (h : t.step me v i = some (p, v')) : Moves t me v i p v' := by
  unfold Task.step at h
  split at h
  · rename_i hp
    cases h
    exact .accept _ hp
  · rename_i hp
    split at h
    · rename_i hfree
      cases h
      exact .lock hp hfree
    · cases h
  · rename_i hp
    cases h
    exact .opened hp
  · rename_i hp
    cases h
    exact .failed (by rw [hp]; rfl)
  · rename_i hp
    cases h
    exact .sought hp
  · rename_i hp
    cases h
    exact .failed (by rw [hp]; rfl)
  · rename_i hp
    split at h
    · rename_i hn
      cases h
      exact .wrote _ hp hn
    · cases h
  · rename_i hp
    split at h
    · rename_i hn
      cases h
      exact .written (hn ▸ hp)
    · cases h
  · rename_i hp
    cases h
    exact .failed (by rw [hp]; rfl)
  · rename_i hp
    cases h
    exact .synced hp
  · rename_i hp
    cases h
    exact .failed (by rw [hp]; rfl)
  · rename_i hp
    cases h
    exact .record hp
  · cases h

/-! ## What a step of the manager can do -/

/-- One step of the manager, case by case. -/
inductive Steps (s : State) : Action → State → Prop
  | exchange (side : Side) (remote : VaultMetadata) :
    Steps s (.exchange side remote)
      { s with exchanges := s.exchanges ++ [⟨side, s.vault.metadata.missingChunks remote⟩] }
  | spawn {x : Nat} {side : Side} {wanted : Missing} {queue : List Missing}
    (hx : s.exchanges[x]? = some ⟨side, wanted :: queue⟩) (hrun : s.running x < PERMITS) :
    Steps s (.spawn x)
      { s with
        exchanges := s.exchanges.set x ⟨side, queue⟩
        tasks := s.tasks ++ [⟨x, side, wanted, .fetching⟩] }
  | task {k : Nat} {i : Input} {t : Task} {p : Phase} {v : Vault} (ht : s.tasks[k]? = some t)
    (hm : Moves t k s.vault i p v) :
    Steps s (.task k i) { s with vault := v, tasks := s.tasks.set k { t with phase := p } }
  | found {nonce : Nonce} {e : ChunkEntry} (he : s.vault.metadata.chunkInfo nonce = some e) :
    Steps s (.request nonce) { s with serves := s.serves ++ [⟨nonce, e, .opening⟩] }
  | absent {nonce : Nonce} (he : s.vault.metadata.chunkInfo nonce = none) :
    Steps s (.request nonce) s
  | serve {k : Nat} {i : Input} {v : Serve} {p : ServePhase} (hv : s.serves[k]? = some v)
    (hp : v.step s.vault.file i = some p) :
    Steps s (.serve k i) { s with serves := s.serves.set k { v with phase := p } }

theorem State.step_steps {s s' : State} {a : Action} (h : s.step a = some s') : Steps s a s' := by
  cases a with
  | exchange side remote =>
    cases h
    exact .exchange side remote
  | spawn x =>
    simp only [State.step] at h
    split at h
    · rename_i hx
      split at h
      · rename_i hrun
        cases h
        exact .spawn hx hrun
      · cases h
    · cases h
  | task k i =>
    obtain ⟨t, ht, h⟩ := Option.bind_eq_some_iff.mp h
    obtain ⟨⟨p, v⟩, hp, h⟩ := Option.bind_eq_some_iff.mp h
    cases h
    exact .task ht (Task.step_moves hp)
  | request nonce =>
    simp only [State.step] at h
    split at h
    · rename_i he
      cases h
      exact .found he
    · rename_i he
      cases h
      exact .absent he
  | serve k i =>
    obtain ⟨v, hv, h⟩ := Option.bind_eq_some_iff.mp h
    obtain ⟨p, hp, h⟩ := Option.bind_eq_some_iff.mp h
    cases h
    exact .serve hv hp

end AtomVault.Sync
