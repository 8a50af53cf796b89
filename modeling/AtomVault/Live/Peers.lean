import AtomVault.Lib.Keyed
import AtomVault.Live.Reach

/-!
# The stored peers (`commands/live.rs`)

What is known of the peers is one encrypted file, read and written as a whole.
-/

open Lib

namespace AtomVault.Live

/-- The errors of the commands are texts, or those of the layers below. -/
inductive Failure
  | text (msg : String)
  | live (e : Error)
  deriving DecidableEq

structure LivePeer where
  nickname : String
  ticket : Text
  rendezvousSecret : Option Text
  lastKnown : List Text
  newestSeen : Option UInt64
  deriving DecidableEq

structure RendezvousEndpoint where
  name : String
  link : String
  viaSocks : Option String
  deriving DecidableEq

structure LiveState where
  myEndpoints : List Text
  peers : List LivePeer
  rendezvous : List RendezvousEndpoint
  deriving DecidableEq

def LiveState.peer (s : LiveState) (nickname : String) : Option LivePeer :=
  s.peers.find? fun p => p.nickname = nickname

/-! ## The file -/

/-- A write that was cut short leaves a file that cannot be read. -/
inductive PeersFile
  | missing
  | holds (s : LiveState)
  | broken
  deriving DecidableEq

/-- How a write can go: through, or into an error, with the old file or with none. -/
inductive Write
  | through
  | unopened (e : Failure)
  | cut (e : Failure)

/-- How a read can go: whether the file is read, and the error of one that was cut short. -/
structure Reading where
  reads : Except Failure Unit
  damaged : Failure

def Reading.through : Reading :=
  ⟨.ok (), .text "Config decryption failed — corrupted file or keyring key mismatch"⟩

def loadState (read : Reading) : PeersFile → Except Failure LiveState
  | .missing => .ok ⟨[], [], []⟩
  | .holds s => do
    read.reads
    return s
  | .broken => do
    read.reads
    throw read.damaged

theorem loadState_broken (read : Reading) : ∃ e, loadState read .broken = .error e := by
  unfold loadState
  cases read.reads with
  | error e => exact ⟨e, rfl⟩
  | ok _ => exact ⟨read.damaged, rfl⟩

theorem loadState_eq_ok {read : Reading} {f : PeersFile} {s : LiveState}
    (h : loadState read f = .ok s) : f = .missing ∧ s = ⟨[], [], []⟩ ∨ f = .holds s := by
  cases f with
  | missing =>
    cases h
    exact Or.inl ⟨rfl, rfl⟩
  | holds s' =>
    obtain ⟨-, -, hsame⟩ := of_bind_eq_ok h
    cases hsame
    exact Or.inr rfl
  | broken =>
    obtain ⟨e, he⟩ := loadState_broken read
    rw [he] at h
    cases h

theorem loadState_holds {read : Reading} {s s' : LiveState}
    (h : loadState read (.holds s) = .ok s') : s' = s := by
  rcases loadState_eq_ok h with ⟨hmissing, -⟩ | hholds
  · cases hmissing
  · cases hholds
    rfl

def saveState (s : LiveState) (f : PeersFile) : Write → Except Failure Unit × PeersFile
  | .through => (.ok (), .holds s)
  | .unopened e => (.error e, f)
  | .cut e => (.error e, .broken)

/-! ## Texts -/

def splitOnce (c : Char) (s : Text) : Option (Text × Text) :=
  if c ∈ s then some (s.takeWhile (· ≠ c), (s.dropWhile (· ≠ c)).drop 1) else none

def rsplitOnce (c : Char) (s : Text) : Option (Text × Text) :=
  if c ∈ s then
    some (((s.reverse.dropWhile (· ≠ c)).drop 1).reverse, (s.reverse.takeWhile (· ≠ c)).reverse)
  else none

def parseU16 (s : Text) : Option UInt16 :=
  let digits : Text := match s with
    | '+' :: rest => rest
    | _ => s
  let value := digits.foldl (fun n d => 10 * n + (d.toNat - 48)) 0
  if digits ≠ [] ∧ digits.all Char.isDigit = true ∧ value < 2 ^ 16 then some (UInt16.ofNat value)
  else none

section Textual

variable (u : Unicode) (tx : Texts) (blake3 : Bytes → BundleId)

def encodeSecret (secret : RendezvousSecret) : Text := u.toLowercase (tx.base32 secret.toList)

def decodeSecret (text : Text) : Except Failure RendezvousSecret :=
  match tx.fromBase32 (tx.toUppercase (u.trim text)) with
  | .error e => .error (.text s!"stored rendezvous secret is not valid base32: {e}")
  | .ok raw =>
    if h : raw.length = 32 then .ok ⟨raw, h⟩
    else .error (.text "stored rendezvous secret is not 32 bytes")

def showEndpoint : Endpoint → Text
  | .direct a => tx.showAddr a
  | .onion a => a.host ++ ':' :: (toString a.port.toNat).toList

def parseEndpoint (text : Text) : Except Failure Endpoint :=
  let text := u.trim text
  match tx.readAddr text with
  | some a => .ok (.direct a)
  | none =>
    match rsplitOnce ':' text with
    | none => .error (.text "An address needs a port, e.g. 203.0.113.7:4433")
    | some (host, port) =>
      match parseU16 port with
      | none => .error (.text s!"'{String.ofList port}' is not a port number")
      | some port =>
        if (stripSuffix host ONION_SUFFIX).isSome then
          match OnionAddress.new u host port with
          | .ok a => .ok (.onion a)
          | .error e => .error (.live e)
        else .error (.text (s!"'{String.ofList text}' is neither an ip:port nor an onion " ++
          "address. Enter the address your peer can reach you on."))

/-- What is stored of a peer, as the ladder wants it. -/
def peerState (p : LivePeer) : Except Failure PeerState := do
  let ticket ← (Ticket.fromText u tx blake3 p.ticket).mapError .live
  match p.rendezvousSecret with
  | none => throw (.text (s!"'{p.nickname}' was paired before rendezvous existed, so they " ++
      s!"cannot be found by ID. Re-pair with 'atom live pair --nickname {p.nickname}' to enable it."))
  | some secretText =>
    let known ← p.lastKnown.mapM (parseEndpoint u tx)
    let secret ← decodeSecret u tx secretText
    return ⟨ticket.identity, secret, if known = [] then ticket.hints else known, p.newestSeen⟩

/-- What was learned goes to the first peer of that name. -/
def LiveState.learn (s : LiveState) (nickname : String) (learned : PeerState) : LiveState :=
  { s with peers := s.peers.modify (s.peers.findIdx fun p => p.nickname = nickname) fun p =>
    { p with lastKnown := learned.lastKnown.map (showEndpoint tx), newestSeen := learned.newestSeen } }

def bindAddress (s : LiveState) : Except Failure UInt16 :=
  let port := s.myEndpoints.findSome? fun e =>
    match parseEndpoint u tx e with
    | .ok (.direct (.v4 _ port)) => some port
    | .ok (.direct (.v6 _ port _ _)) => some port
    | _ => none
  match port with
  | some port => .ok port
  | none => .error (.text "No direct address set. Run 'atom live address <ip:port>' first.")

end Textual

/-- The substrates of the configured endpoints. One that cannot be built is an error. -/
def discoveryFrom (build : RendezvousEndpoint → Except Failure Substrate) (s : LiveState) :
    Except Failure (List Substrate) :=
  s.rendezvous.mapM build

end AtomVault.Live
