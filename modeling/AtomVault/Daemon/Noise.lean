import Mathlib.Data.List.Pairwise
import AtomVault.Lib.Machine
import AtomVault.Lib.Talk
import AtomVault.Daemon.Friends

/-!
# The handshake (`p2p-sync/handshake.rs`)

Three Noise messages give both ends one hash. Each end then signs it, and sends its key and its
signature over the new channel.
-/

open Lib

namespace AtomVault.Daemon.Noise

open Live

/-- What `snow` does, on the states of a handshake and of a transport. -/
structure Snow (H T : Type) where
  build : (isInitiator : Bool) → (localPrivate : Bytes) → Except String H
  writeMessage : H → (payload rnd : Bytes) → Except String (H × Bytes)
  readMessage : H → (frame : Bytes) → Except String (H × Bytes)
  getHandshakeHash : H → List.Vector UInt8 32
  intoTransportMode : H → Except String T
  writeTransport : T → (payload : Bytes) → Except String (T × Bytes)
  readTransport : T → (frame : Bytes) → Except String (T × Bytes)

structure SigningKey where
  verifyingKey : VerifyingKey
  sign : (msg : Bytes) → List.Vector UInt8 64

structure VaultSession (T : Type) where
  transport : T
  masterSecret : List.Vector UInt8 32
  remoteStaticKey : VerifyingKey

/-- What `execute_handshake` asks of its surroundings. A frame is its length and its bytes, and
`recvPayload` has the state that is going to open it. -/
inductive Ask (T : Type)
  | generateKeypair
  | random
  | sign (msg : Bytes)
  | send (frame : Bytes)
  | recv
  | recvPayload (transport : T)

abbrev Handshake (T α : Type) := Talk (Ask T) Bytes String α

section Model

variable {H T : Type} (sn : Snow H T) (ed : Ed25519)

def sendMessage (noise : H) : Handshake T H := do
  let rnd ← Talk.ask .random
  match sn.writeMessage noise [] rnd with
  | .error e => .done (.error e)
  | .ok (noise, frame) => do
    let _ ← Talk.ask (.send frame)
    return noise

def recvMessage (noise : H) : Handshake T H := do
  let frame ← Talk.ask .recv
  match sn.readMessage noise frame with
  | .error e => .done (.error e)
  | .ok (noise, _) => return noise

/-- The peer's key and signature, out of the payload. -/
def checkPayload (authorizedPeers : List VerifyingKey) (masterSecret : List.Vector UInt8 32)
    (transport : T) (payload : Bytes) : Except String (VaultSession T) :=
  if h : payload.length = 96 then
    match ed.fromBytes ⟨payload.take 32, by simp [h]⟩ with
    | .error e => .error e
    | .ok remotePubkey =>
      if remotePubkey ∉ authorizedPeers then
        .error ("Peer identity mismatch! They are not in your address book. Mutual friend " ++
          "addition is required.")
      else if ed.verifyStrict remotePubkey masterSecret.toList
          ⟨payload.drop 32, by simp [h]⟩ = false then
        .error "Invalid signature! The peer could not prove their identity."
      else .ok ⟨transport, masterSecret, remotePubkey⟩
  else .error "Invalid authentication payload length"

/-- What comes after the three messages. -/
def authenticate (localIdentityKey : VerifyingKey) (authorizedPeers : List VerifyingKey)
    (noise : H) : Handshake T (VaultSession T) := do
  let masterSecret := sn.getHandshakeHash noise
  let signature ← Talk.ask (.sign masterSecret.toList)
  match sn.intoTransportMode noise with
  | .error e => .done (.error e)
  | .ok transport =>
    match sn.writeTransport transport (localIdentityKey.toList ++ signature) with
    | .error e => .done (.error e)
    | .ok (transport, frame) => do
      let _ ← Talk.ask (.send frame)
      let frame ← Talk.ask (.recvPayload transport)
      match sn.readTransport transport frame with
      | .error e => .done (.error e)
      | .ok (transport, payload) =>
        .done (checkPayload ed authorizedPeers masterSecret transport payload)

def executeHandshake (isInitiator : Bool) (localIdentityKey : VerifyingKey)
    (authorizedPeers : List VerifyingKey) : Handshake T (VaultSession T) := do
  let tempKey ← Talk.ask .generateKeypair
  match sn.build isInitiator tempKey with
  | .error e => .done (.error e)
  | .ok noise => do
    let noise ←
      if isInitiator then do
        let noise ← sendMessage sn noise
        let noise ← recvMessage sn noise
        sendMessage sn noise
      else do
        let noise ← recvMessage sn noise
        let noise ← sendMessage sn noise
        recvMessage sn noise
    authenticate sn ed localIdentityKey authorizedPeers noise

/-! ## Any number of handshakes -/

/-- A frame of a run, one it sent or one it read. -/
structure Frame where
  sent : Bool
  bytes : Bytes
  deriving DecidableEq

/-- One call of `execute_handshake`, with its frames in their order and the hash it signed. -/
structure Run (T : Type) where
  owner : SigningKey
  isInitiator : Bool
  authorizedPeers : List VerifyingKey
  talk : Handshake T (VaultSession T)
  frames : List Frame
  hash : Option Bytes

/-- A signature that was made. -/
structure Signature where
  key : VerifyingKey
  msg : Bytes

structure Net (T : Type) where
  runs : List (Run T)
  signed : List Signature

inductive Act
  | start (party : Nat) (isInitiator : Bool) (authorizedPeers : List VerifyingKey)
  | draw (i : Nat) (rnd : Bytes)
  | sign (i : Nat)
  | send (i : Nat)
  | deliver (i : Nat) (frame : Bytes)
  | fail (i : Nat) (e : String)

def Act.run : Act → Nat
  | start _ _ _ => 0
  | draw i _ | sign i | send i | deliver i _ | fail i _ => i

/-- What the run's call is answered with, if it makes this one. -/
def answer (r : Run T) : Act → Option (Run T × List Signature)
  | .draw _ rnd =>
    match r.talk with
    | .call .generateKeypair next => some ({ r with talk := next rnd }, [])
    | .call .random next => some ({ r with talk := next rnd }, [])
    | _ => none
  | .sign _ =>
    match r.talk with
    | .call (.sign msg) next =>
      some ({ r with talk := next (r.owner.sign msg).toList, hash := some msg },
        [⟨r.owner.verifyingKey, msg⟩])
    | _ => none
  | .send _ =>
    match r.talk with
    | .call (.send frame) next =>
      some ({ r with talk := next [], frames := r.frames ++ [⟨true, frame⟩] }, [])
    | _ => none
  | .deliver _ frame =>
    match r.talk with
    | .call .recv next =>
      some ({ r with talk := next frame, frames := r.frames ++ [⟨false, frame⟩] }, [])
    | .call (.recvPayload _) next =>
      some ({ r with talk := next frame, frames := r.frames ++ [⟨false, frame⟩] }, [])
    | _ => none
  | .fail _ e =>
    match r.talk with
    | .call _ _ => some ({ r with talk := .done (.error e) }, [])
    | .done _ => none
  | .start _ _ _ => none

/-- The parties whose keys the attacker does not have. -/
def step (parties : List SigningKey) (s : Net T) : Act → Option (Net T)
  | .start party isInitiator authorizedPeers => do
    let l ← parties[party]?
    some { s with runs := s.runs ++ [⟨l, isInitiator, authorizedPeers,
      executeHandshake sn ed isInitiator l.verifyingKey authorizedPeers, [], none⟩] }
  | a => do
    let r ← s.runs[a.run]?
    let (r', new) ← answer r a
    some { runs := s.runs.set a.run r', signed := s.signed ++ new }

end Model

/-! ## What is assumed -/

variable {H T : Type} {sn : Snow H T} {ed : Ed25519} {parties : List SigningKey} {s s' : Net T}

/-- The key of a party. -/
def Held (parties : List SigningKey) (key : VerifyingKey) : Prop :=
  ∃ l ∈ parties, l.verifyingKey = key

/-- Nothing that a run opens verifies under the key of a party that the party did not sign. -/
def Unforgeable (sn : Snow H T) (ed : Ed25519) (parties : List SigningKey) (s : Net T) : Act → Prop
  | .deliver i frame => ∀ r t next, s.runs[i]? = some r → r.talk = .call (.recvPayload t) next →
      ∀ t' key sig, sn.readTransport t frame = .ok (t', key.toList ++ sig.toList) →
        Held parties key → ∀ msg, ed.verifyStrict key msg sig = true → ⟨key, msg⟩ ∈ s.signed
  | _ => True

/-- Nobody has itself among its peers. -/
def NotSelf (parties : List SigningKey) : Act → Prop
  | .start party _ authorizedPeers => ∀ l ∈ parties[party]?, l.verifyingKey ∉ authorizedPeers
  | _ => True

instance : DecidablePred (NotSelf parties) := fun a => by
  unfold NotSelf
  split <;> infer_instance

/-- The three messages. -/
def transcript (r : Run T) : List Bytes := (r.frames.take 3).map Frame.bytes

/-- What a run sends first, with its ephemeral key in it. -/
def firstSent (r : Run T) : Option Frame := r.frames.find? Frame.sent

/-- The hash is one of a single transcript, and no two runs first send the same. -/
structure Ideal (s : Net T) : Prop where
  binding : ∀ r ∈ s.runs, ∀ r' ∈ s.runs, ∀ h ∈ r.hash, h ∈ r'.hash → transcript r = transcript r'
  fresh : s.runs.Pairwise fun r r' => ∀ f ∈ firstSent r, f ∉ firstSent r'

instance (s : Net T) : Decidable (Ideal s) :=
  decidable_of_iff
    ((∀ r ∈ s.runs, ∀ r' ∈ s.runs, ∀ h ∈ r.hash, h ∈ r'.hash → transcript r = transcript r') ∧
      s.runs.Pairwise fun r r' => ∀ f ∈ firstSent r, f ∉ firstSent r')
    ⟨fun h => ⟨h.1, h.2⟩, fun h => ⟨h.binding, h.fresh⟩⟩

/-- The session is with a peer of the list that is not the owner, and whoever holds that key has
signed the same hash at the other end. -/
structure Authentic (parties : List SigningKey) (s : Net T) (r : Run T) (session : VaultSession T) :
    Prop where
  authorized : session.remoteStaticKey ∈ r.authorizedPeers
  other : session.remoteStaticKey ≠ r.owner.verifyingKey
  peer : Held parties session.remoteStaticKey → ∃ r' ∈ s.runs,
    r'.owner.verifyingKey = session.remoteStaticKey ∧ r'.isInitiator = !r.isInitiator ∧
      r'.hash = some session.masterSecret.toList ∧ transcript r' = transcript r

/-! ## The calls of a handshake -/

/-- Which of the three messages are sent. -/
def pattern (isInitiator : Bool) : List Bool := [isInitiator, !isInitiator, isInitiator]

def exchange (sn : Snow H T) (noise : H) : List Bool → Handshake T H
  | [] => pure noise
  | true :: left => do exchange sn (← sendMessage sn noise) left
  | false :: left => do exchange sn (← recvMessage sn noise) left

theorem executeHandshake_eq (isInitiator : Bool) (key : VerifyingKey) (peers : List VerifyingKey) :
    executeHandshake sn ed isInitiator key peers = .call .generateKeypair fun tempKey =>
      match sn.build isInitiator tempKey with
      | .error e => .done (.error e)
      | .ok noise => exchange sn noise (pattern isInitiator) >>= authenticate sn ed key peers := by
  unfold executeHandshake
  rw [Talk.ask_bind]
  congr 1
  funext tempKey
  cases sn.build isInitiator tempKey with
  | error e => rfl
  | ok noise => cases isInitiator <;> simp [pattern, exchange, Talk.bind_assoc]

theorem exchange_send (noise : H) (left : List Bool) (g : H → Handshake T (VaultSession T)) :
    exchange sn noise (true :: left) >>= g = .call .random fun rnd =>
      match sn.writeMessage noise [] rnd with
      | .error e => .done (.error e)
      | .ok (noise, frame) => .call (.send frame) fun _ => exchange sn noise left >>= g := by
  have hsplit : exchange sn noise (true :: left) =
      sendMessage sn noise >>= fun noise => exchange sn noise left := rfl
  rw [hsplit, Talk.bind_assoc]
  unfold sendMessage
  rw [Talk.ask_bind, Talk.call_bind]
  congr 1
  funext rnd
  cases sn.writeMessage noise [] rnd <;> rfl

theorem exchange_recv (noise : H) (left : List Bool) (g : H → Handshake T (VaultSession T)) :
    exchange sn noise (false :: left) >>= g = .call .recv fun frame =>
      match sn.readMessage noise frame with
      | .error e => .done (.error e)
      | .ok (noise, _) => exchange sn noise left >>= g := by
  have hsplit : exchange sn noise (false :: left) =
      recvMessage sn noise >>= fun noise => exchange sn noise left := rfl
  rw [hsplit, Talk.bind_assoc]
  unfold recvMessage
  rw [Talk.ask_bind, Talk.call_bind]
  congr 1
  funext frame
  cases sn.readMessage noise frame <;> rfl

/-- What is left of a run, when the next messages are `left`. -/
def remaining (sn : Snow H T) (ed : Ed25519) (r : Run T) (noise : H) (left : List Bool) :
    Handshake T (VaultSession T) :=
  exchange sn noise left >>= authenticate sn ed r.owner.verifyingKey r.authorizedPeers

/-- What is left when the payload is there. -/
def checking (sn : Snow H T) (ed : Ed25519) (r : Run T) (masterSecret : List.Vector UInt8 32)
    (transport : T) (frame : Bytes) : Handshake T (VaultSession T) :=
  match sn.readTransport transport frame with
  | .error e => .done (.error e)
  | .ok (transport, payload) =>
    .done (checkPayload ed r.authorizedPeers masterSecret transport payload)

/-- What is left when the hash is signed. -/
def proving (sn : Snow H T) (ed : Ed25519) (r : Run T) (noise : H) (signature : Bytes) :
    Handshake T (VaultSession T) :=
  match sn.intoTransportMode noise with
  | .error e => .done (.error e)
  | .ok transport =>
    match sn.writeTransport transport (r.owner.verifyingKey.toList ++ signature) with
    | .error e => .done (.error e)
    | .ok (transport, frame) =>
      .call (.send frame) fun _ => .call (.recvPayload transport) fun frame =>
        checking sn ed r (sn.getHandshakeHash noise) transport frame

theorem remaining_nil (r : Run T) (noise : H) : remaining sn ed r noise [] =
    .call (.sign (sn.getHandshakeHash noise).toList) fun signature =>
      proving sn ed r noise signature := rfl

/-! ## What a run can have done -/

theorem checkPayload_eq_ok {peers : List VerifyingKey} {secret : List.Vector UInt8 32} {t : T}
    {payload : Bytes} {session : VaultSession T}
    (h : checkPayload ed peers secret t payload = .ok session) :
    session.masterSecret = secret ∧ session.remoteStaticKey ∈ peers ∧
      ∃ sig : List.Vector UInt8 64, payload = session.remoteStaticKey.toList ++ sig.toList ∧
        ed.verifyStrict session.remoteStaticKey secret.toList sig = true := by
  unfold checkPayload at h
  split at h
  · rename_i hlen
    split at h
    · cases h
    · rename_i key hkey
      split at h
      · cases h
      · rename_i hmem
        split at h
        · cases h
        · rename_i hverify
          cases h
          have hbytes : key.toList = payload.take 32 := by
            unfold Ed25519.fromBytes at hkey
            split at hkey
            · cases hkey
            · cases hkey
              rfl
          refine ⟨rfl, not_not.mp hmem, ⟨payload.drop 32, by simp [hlen]⟩, ?_, ?_⟩
          · show payload = key.toList ++ payload.drop 32
            rw [hbytes, List.take_append_drop]
          · simpa using hverify
  · cases h

inductive Stage (sn : Snow H T) (ed : Ed25519) (parties : List SigningKey) (log : List Signature)
    (r : Run T) : Prop
  | start (hhash : r.hash = none) (hframes : r.frames = [])
    (htalk : r.talk = executeHandshake sn ed r.isInitiator r.owner.verifyingKey r.authorizedPeers)
  | messages {noise : H} {left : List Bool} (hhash : r.hash = none)
    (hframes : r.frames.map Frame.sent ++ left = pattern r.isInitiator)
    (htalk : r.talk = remaining sn ed r noise left)
  | writing {noise : H} {left : List Bool} {frame : Bytes} (hhash : r.hash = none)
    (hframes : r.frames.map Frame.sent ++ true :: left = pattern r.isInitiator)
    (htalk : r.talk = .call (.send frame) fun _ => remaining sn ed r noise left)
  | proving {t : T} {secret : List.Vector UInt8 32} {frame : Bytes}
    (hhash : r.hash = some secret.toList)
    (htalk : r.talk = .call (.send frame) fun _ => .call (.recvPayload t) fun frame =>
      checking sn ed r secret t frame)
  | awaiting {t : T} {secret : List.Vector UInt8 32} (hhash : r.hash = some secret.toList)
    (htalk : r.talk = .call (.recvPayload t) fun frame => checking sn ed r secret t frame)
  | failed {e : String} (htalk : r.talk = .done (.error e))
  | accepted {session : VaultSession T} (hhash : r.hash = some session.masterSecret.toList)
    (htalk : r.talk = .done (.ok session)) (hmem : session.remoteStaticKey ∈ r.authorizedPeers)
    (hsigned : Held parties session.remoteStaticKey →
      ⟨session.remoteStaticKey, session.masterSecret.toList⟩ ∈ log)

theorem Stage.of_ok {log : List Signature} {r : Run T} {session : VaultSession T}
    (h : Stage sn ed parties log r) (hok : r.talk = .done (.ok session)) :
    r.hash = some session.masterSecret.toList ∧ session.remoteStaticKey ∈ r.authorizedPeers ∧
      (Held parties session.remoteStaticKey →
        ⟨session.remoteStaticKey, session.masterSecret.toList⟩ ∈ log) := by
  cases h with
  | accepted hhash htalk hmem hsigned =>
    cases htalk.symm.trans hok
    exact ⟨hhash, hmem, hsigned⟩
  | start _ _ htalk =>
    rw [executeHandshake_eq] at htalk
    cases htalk.symm.trans hok
  | messages hhash hframes htalk =>
    rename_i noise left
    have hcall := htalk.symm.trans hok
    match left with
    | [] => cases hcall
    | true :: left =>
      unfold remaining at hcall
      rw [exchange_send] at hcall
      cases hcall
    | false :: left =>
      unfold remaining at hcall
      rw [exchange_recv] at hcall
      cases hcall
  | writing _ _ htalk => cases htalk.symm.trans hok
  | proving _ htalk => cases htalk.symm.trans hok
  | awaiting _ htalk => cases htalk.symm.trans hok
  | failed htalk => cases htalk.symm.trans hok

/-- A run is at some stage, and if it has signed its first frames are the three messages. -/
structure Fine (sn : Snow H T) (ed : Ed25519) (parties : List SigningKey) (log : List Signature)
    (r : Run T) : Prop where
  stage : Stage sn ed parties log r
  ran : r.hash ≠ none → (r.frames.take 3).map Frame.sent = pattern r.isInitiator
  notSelf : r.owner.verifyingKey ∉ r.authorizedPeers

theorem Stage.mono {log log' : List Signature} {r : Run T} (h : Stage sn ed parties log r)
    (hlog : log ⊆ log') : Stage sn ed parties log' r := by
  cases h with
  | start hhash hframes htalk => exact .start hhash hframes htalk
  | messages hhash hframes htalk => exact .messages hhash hframes htalk
  | writing hhash hframes htalk => exact .writing hhash hframes htalk
  | proving hhash htalk => exact .proving hhash htalk
  | awaiting hhash htalk => exact .awaiting hhash htalk
  | failed htalk => exact .failed htalk
  | accepted hhash htalk hmem hsigned =>
    exact .accepted hhash htalk hmem fun hheld => hlog (hsigned hheld)

/-- What does not change in a run, and a hash that was signed. -/
structure Same (r r' : Run T) : Prop where
  owner : r'.owner = r.owner
  isInitiator : r'.isInitiator = r.isInitiator
  authorizedPeers : r'.authorizedPeers = r.authorizedPeers
  hash : ∀ h, r.hash = some h → r'.hash = some h

/-- What one answered call leaves: the run itself, and what was signed for it. -/
structure Answered (sn : Snow H T) (ed : Ed25519) (parties : List SigningKey)
    (log new : List Signature) (r r' : Run T) : Prop where
  same : Same r r'
  stage : Stage sn ed parties (log ++ new) r'
  ran : r'.hash ≠ none → (r'.frames.take 3).map Frame.sent = pattern r'.isInitiator
  signed : ∀ e ∈ new, e.key = r.owner.verifyingKey ∧ r'.hash = some e.msg

theorem answered_failed {log : List Signature} {r : Run T} (h : Fine sn ed parties log r)
    (e : String) : Answered sn ed parties log [] r { r with talk := .done (.error e) } :=
  ⟨⟨rfl, rfl, rfl, fun _ hh => hh⟩, .failed rfl, h.ran, by simp⟩

theorem answered_unsigned {log : List Signature} {r r' : Run T} (hsame : Same r r')
    (hhash : r'.hash = none) (hstage : Stage sn ed parties log r') :
    Answered sn ed parties log [] r r' :=
  ⟨hsame, by rwa [List.append_nil], fun h => absurd hhash h, by simp⟩

theorem answered_later {log : List Signature} {r : Run T} {talk : Handshake T (VaultSession T)}
    {f : Frame} (h : Fine sn ed parties log r) (hhash : r.hash ≠ none)
    (hstage : Stage sn ed parties log { r with talk := talk, frames := r.frames ++ [f] }) :
    Answered sn ed parties log [] r { r with talk := talk, frames := r.frames ++ [f] } := by
  refine ⟨⟨rfl, rfl, rfl, fun _ hh => hh⟩, by rwa [List.append_nil], fun _ => ?_, by simp⟩
  have hran := h.ran hhash
  have hlen : 3 ≤ r.frames.length := by
    have hlen := congrArg List.length hran
    simp [pattern] at hlen
    omega
  rw [List.take_append_of_le_length hlen]
  exact hran

theorem stage_written {log : List Signature} {r : Run T} {noise : H} {left : List Bool} {rnd : Bytes}
    (hhash : r.hash = none) (hframes : r.frames.map Frame.sent ++ true :: left = pattern r.isInitiator)
    (htalk : r.talk = match sn.writeMessage noise [] rnd with
      | .error e => .done (.error e)
      | .ok (noise, frame) => .call (.send frame) fun _ => remaining sn ed r noise left) :
    Stage sn ed parties log r := by
  split at htalk
  · exact .failed htalk
  · exact .writing hhash hframes htalk

theorem stage_read {log : List Signature} {r : Run T} {noise : H} {left : List Bool} {frame : Bytes}
    (hhash : r.hash = none) (hframes : r.frames.map Frame.sent ++ left = pattern r.isInitiator)
    (htalk : r.talk = match sn.readMessage noise frame with
      | .error e => .done (.error e)
      | .ok (noise, _) => remaining sn ed r noise left) : Stage sn ed parties log r := by
  split at htalk
  · exact .failed htalk
  · exact .messages hhash hframes htalk

theorem stage_proving {log : List Signature} {r : Run T} {noise : H} {signature : Bytes}
    (hhash : r.hash = some (sn.getHandshakeHash noise).toList)
    (htalk : r.talk = proving sn ed r noise signature) : Stage sn ed parties log r := by
  unfold proving at htalk
  split at htalk
  · exact .failed htalk
  · split at htalk
    · exact .failed htalk
    · exact .proving hhash htalk

theorem stage_checked {log : List Signature} {r : Run T} {t : T} {secret : List.Vector UInt8 32}
    {frame : Bytes} (hhash : r.hash = some secret.toList)
    (hunf : ∀ t' key sig, sn.readTransport t frame = .ok (t', key.toList ++ sig.toList) →
      Held parties key → ∀ msg, ed.verifyStrict key msg sig = true → ⟨key, msg⟩ ∈ log)
    (htalk : r.talk = checking sn ed r secret t frame) : Stage sn ed parties log r := by
  unfold checking at htalk
  split at htalk
  · exact .failed htalk
  · rename_i t' payload hread
    cases hcheck : checkPayload ed r.authorizedPeers secret t' payload with
    | error e =>
      rw [hcheck] at htalk
      exact .failed htalk
    | ok session =>
      rw [hcheck] at htalk
      obtain ⟨hsecret, hmem, sig, hpayload, hverify⟩ := checkPayload_eq_ok hcheck
      refine .accepted (by rw [hsecret, hhash]) htalk hmem fun hheld => ?_
      rw [hpayload] at hread
      rw [hsecret]
      exact hunf t' _ sig hread hheld _ hverify

theorem answered {log new : List Signature} {r r' : Run T} {a : Act}
    (h : Fine sn ed parties log r)
    (hunf : ∀ i frame t next, a = .deliver i frame → r.talk = .call (.recvPayload t) next →
      ∀ t' key sig, sn.readTransport t frame = .ok (t', key.toList ++ sig.toList) →
        Held parties key → ∀ msg, ed.verifyStrict key msg sig = true → ⟨key, msg⟩ ∈ log)
    (hans : answer r a = some (r', new)) : Answered sn ed parties log new r r' := by
  have hfail := answered_failed h
  cases h.stage with
  | start hhash hframes htalk =>
    rw [executeHandshake_eq] at htalk
    cases a <;> simp only [answer, htalk, reduceCtorEq, Option.some.injEq, Prod.mk.injEq] at hans
    case draw tempKey =>
      obtain ⟨rfl, rfl⟩ := hans
      refine answered_unsigned ⟨rfl, rfl, rfl, fun _ hh => hh⟩ hhash ?_
      cases hbuild : sn.build r.isInitiator tempKey with
      | error e => exact .failed rfl
      | ok noise => exact .messages hhash (by simp [hframes]) rfl
    case fail e =>
      obtain ⟨rfl, rfl⟩ := hans
      exact hfail e
  | messages hhash hframes htalk =>
    rename_i noise left
    match left with
    | [] =>
      rw [remaining_nil] at htalk
      cases a <;> simp only [answer, htalk, reduceCtorEq, Option.some.injEq, Prod.mk.injEq] at hans
      case sign =>
        obtain ⟨rfl, rfl⟩ := hans
        refine ⟨⟨rfl, rfl, rfl, fun _ hh => absurd (hhash.symm.trans hh) (by simp)⟩,
          stage_proving rfl rfl, fun _ => ?_, by simp⟩
        rw [List.append_nil] at hframes
        rw [List.map_take, hframes]
        rfl
      case fail e =>
        obtain ⟨rfl, rfl⟩ := hans
        exact hfail e
    | true :: left =>
      unfold remaining at htalk
      rw [exchange_send] at htalk
      cases a <;> simp only [answer, htalk, reduceCtorEq, Option.some.injEq, Prod.mk.injEq] at hans
      case draw rnd =>
        obtain ⟨rfl, rfl⟩ := hans
        exact answered_unsigned ⟨rfl, rfl, rfl, fun _ hh => hh⟩ hhash
          (stage_written hhash hframes rfl)
      case fail e =>
        obtain ⟨rfl, rfl⟩ := hans
        exact hfail e
    | false :: left =>
      unfold remaining at htalk
      rw [exchange_recv] at htalk
      cases a <;> simp only [answer, htalk, reduceCtorEq, Option.some.injEq, Prod.mk.injEq] at hans
      case deliver frame =>
        obtain ⟨rfl, rfl⟩ := hans
        exact answered_unsigned ⟨rfl, rfl, rfl, fun _ hh => hh⟩ hhash
          (stage_read hhash (by simpa using hframes) rfl)
      case fail e =>
        obtain ⟨rfl, rfl⟩ := hans
        exact hfail e
  | writing hhash hframes htalk =>
    cases a <;> simp only [answer, htalk, reduceCtorEq, Option.some.injEq, Prod.mk.injEq] at hans
    case send =>
      obtain ⟨rfl, rfl⟩ := hans
      exact answered_unsigned ⟨rfl, rfl, rfl, fun _ hh => hh⟩ hhash
        (.messages hhash (by simpa using hframes) rfl)
    case fail e =>
      obtain ⟨rfl, rfl⟩ := hans
      exact hfail e
  | proving hhash htalk =>
    cases a <;> simp only [answer, htalk, reduceCtorEq, Option.some.injEq, Prod.mk.injEq] at hans
    case send =>
      obtain ⟨rfl, rfl⟩ := hans
      exact answered_later h (by simp [hhash]) (.awaiting hhash rfl)
    case fail e =>
      obtain ⟨rfl, rfl⟩ := hans
      exact hfail e
  | awaiting hhash htalk =>
    cases a <;> simp only [answer, htalk, reduceCtorEq, Option.some.injEq, Prod.mk.injEq] at hans
    case deliver frame =>
      obtain ⟨rfl, rfl⟩ := hans
      exact answered_later h (by simp [hhash]) (stage_checked hhash (hunf _ _ _ _ rfl htalk) rfl)
    case fail e =>
      obtain ⟨rfl, rfl⟩ := hans
      exact hfail e
  | failed htalk => cases a <;> simp [answer, htalk] at hans
  | accepted hhash htalk => cases a <;> simp [answer, htalk] at hans

/-! ## Every run of the network -/

structure Inv (sn : Snow H T) (ed : Ed25519) (parties : List SigningKey) (s : Net T) : Prop where
  fine : ∀ r ∈ s.runs, Fine sn ed parties s.signed r
  signer : ∀ e ∈ s.signed, ∃ r ∈ s.runs, r.owner.verifyingKey = e.key ∧ r.hash = some e.msg

theorem Same.refl (r : Run T) : Same r r := ⟨rfl, rfl, rfl, fun _ h => h⟩

theorem exists_same {runs : List (Run T)} {i : Nat} {r r' q : Run T} (hi : runs[i]? = some r)
    (hsame : Same r r') (hq : q ∈ runs) : ∃ q' ∈ runs.set i r', Same q q' := by
  obtain ⟨j, hj⟩ := List.getElem?_of_mem hq
  by_cases hij : i = j
  · subst hij
    obtain rfl := Option.some.inj (hi.symm.trans hj)
    have hlt := (List.getElem?_eq_some_iff.mp hi).1
    exact ⟨r', List.mem_set hlt r', hsame⟩
  · refine ⟨q, List.mem_of_getElem? (i := j) ?_, Same.refl q⟩
    rw [List.getElem?_set_ne hij, hj]

theorem inv_answered (h : Inv sn ed parties s) {i : Nat} {r r' : Run T} {new : List Signature}
    (hi : s.runs[i]? = some r) (hans : Answered sn ed parties s.signed new r r') :
    Inv sn ed parties ⟨s.runs.set i r', s.signed ++ new⟩ := by
  have hr := h.fine r (List.mem_of_getElem? hi)
  have hlt := (List.getElem?_eq_some_iff.mp hi).1
  constructor
  · intro q hq
    rcases List.mem_or_eq_of_mem_set hq with hq | rfl
    · have hold := h.fine q hq
      exact ⟨hold.stage.mono (List.subset_append_left _ _), hold.ran, hold.notSelf⟩
    · refine ⟨hans.stage, hans.ran, ?_⟩
      rw [hans.same.owner, hans.same.authorizedPeers]
      exact hr.notSelf
  · intro e he
    rcases List.mem_append.mp he with he | he
    · obtain ⟨q, hq, hkey, hhash⟩ := h.signer e he
      obtain ⟨q', hq', hsame⟩ := exists_same hi hans.same hq
      exact ⟨q', hq', by rw [hsame.owner, hkey], hsame.hash _ hhash⟩
    · obtain ⟨hkey, hhash⟩ := hans.signed e he
      exact ⟨r', List.mem_set hlt r', by rw [hans.same.owner, hkey], hhash⟩

theorem inv_step (s : Net T) (a : Act) (s' : Net T) (h : Inv sn ed parties s)
    (hallowed : Unforgeable sn ed parties s a ∧ NotSelf parties a)
    (hstep : step sn ed parties s a = some s') : Inv sn ed parties s' := by
  by_cases hstart : ∃ party isInitiator peers, a = .start party isInitiator peers
  · obtain ⟨party, isInitiator, peers, rfl⟩ := hstart
    simp only [step, Option.bind_eq_bind, Option.bind_eq_some_iff, Option.some.injEq] at hstep
    obtain ⟨l, hl, rfl⟩ := hstep
    constructor
    · intro r hr
      rcases List.mem_append.mp hr with hr | hr
      · exact h.fine r hr
      · rw [List.mem_singleton.mp hr]
        exact ⟨.start rfl rfl rfl, fun hhash => absurd rfl hhash, hallowed.2 l hl⟩
    · intro e he
      obtain ⟨r, hr, hsigned⟩ := h.signer e he
      exact ⟨r, List.mem_append_left _ hr, hsigned⟩
  · have hother : ∃ r r' new, s.runs[a.run]? = some r ∧ answer r a = some (r', new) ∧
        s' = ⟨s.runs.set a.run r', s.signed ++ new⟩ := by
      cases a with
      | start party isInitiator peers => exact absurd ⟨party, isInitiator, peers, rfl⟩ hstart
      | _ =>
        simp only [step, Option.bind_eq_bind, Option.bind_eq_some_iff, Option.some.injEq,
          Prod.exists] at hstep
        obtain ⟨r, hr, r', new, hans, rfl⟩ := hstep
        exact ⟨r, r', new, hr, hans, rfl⟩
    obtain ⟨r, r', new, hr, hans, rfl⟩ := hother
    refine inv_answered h hr (answered (h.fine r (List.mem_of_getElem? hr)) ?_ hans)
    rintro i frame t next rfl htalk t' key sig hread hheld msg hverify
    exact hallowed.1 r t next hr htalk t' key sig hread hheld msg hverify

theorem inv_run {acts : List Act} (hrun : run (step sn ed parties) ⟨[], []⟩ acts = some s)
    (hallowed : Allowed (step sn ed parties)
      (fun s a => Unforgeable sn ed parties s a ∧ NotSelf parties a) ⟨[], []⟩ acts) :
    Inv sn ed parties s := by
  refine run_allowed inv_step hrun hallowed ⟨?_, ?_⟩
  · intro r hr
    simp at hr
  · intro e he
    simp at he

theorem find?_sent {r : Run T} (h : (r.frames.take 3).map Frame.sent = pattern r.isInitiator) :
    ∃ f, (r.frames.take 3).find? Frame.sent = some f ∧ r.frames.find? Frame.sent = some f := by
  cases hfind : (r.frames.take 3).find? Frame.sent with
  | some f =>
    refine ⟨f, rfl, ?_⟩
    conv_lhs => rw [← List.take_append_drop 3 r.frames]
    rw [List.find?_append, hfind]
    rfl
  | none =>
    have hnone : true ∉ (r.frames.take 3).map Frame.sent := by
      intro hmem
      obtain ⟨f, hf, hsent⟩ := List.mem_map.mp hmem
      exact List.find?_eq_none.mp hfind f hf hsent
    rw [h] at hnone
    exact absurd (by cases r.isInitiator <;> simp [pattern]) hnone

theorem zip_frames (l : List Frame) :
    l = List.zipWith Frame.mk (l.map Frame.sent) (l.map Frame.bytes) := by
  induction l with
  | nil => rfl
  | cons f l ih => simp [← ih]

/-- Two runs that signed one hash are on the two ends. -/
theorem Ideal.opposite (h : Ideal s) {r r' : Run T} {hash : Bytes} (hr : r ∈ s.runs)
    (hr' : r' ∈ s.runs) (hran : (r.frames.take 3).map Frame.sent = pattern r.isInitiator)
    (hran' : (r'.frames.take 3).map Frame.sent = pattern r'.isInitiator)
    (hhash : r.hash = some hash) (hhash' : r'.hash = some hash) (hne : r ≠ r') :
    r'.isInitiator = !r.isInitiator := by
  by_contra hside
  have hside : r'.isInitiator = r.isInitiator := by
    revert hside
    cases r.isInitiator <;> cases r'.isInitiator <;> simp
  have hframes : r.frames.take 3 = r'.frames.take 3 := by
    have hbytes := h.binding r hr r' hr' hash hhash hhash'
    have hsent : (r.frames.take 3).map Frame.sent = (r'.frames.take 3).map Frame.sent := by
      rw [hran, hran', hside]
    rw [zip_frames (r.frames.take 3), zip_frames (r'.frames.take 3), hsent]
    exact congrArg _ hbytes
  -- on one side they would both have sent the same first message
  obtain ⟨f, hf, hfirst⟩ := find?_sent hran
  obtain ⟨f', hf', hfirst'⟩ := find?_sent hran'
  rw [hframes, hf'] at hf
  cases hf
  have hsymm : Std.Symm fun r r' : Run T => ∀ f ∈ firstSent r, f ∉ firstSent r' :=
    ⟨fun a b hab f hb ha => hab f ha hb⟩
  exact h.fresh.forall hr hr' hne _ hfirst hfirst'

/-- **The handshake.** While nobody has itself among its peers, every session is authentic. -/
theorem handshake_authentication {acts : List Act}
    (hrun : run (step sn ed parties) ⟨[], []⟩ acts = some s)
    (hallowed : Allowed (step sn ed parties)
      (fun s a => Unforgeable sn ed parties s a ∧ NotSelf parties a) ⟨[], []⟩ acts)
    (hideal : Ideal s) : ∀ r ∈ s.runs, ∀ session, r.talk = .done (.ok session) →
      Authentic parties s r session := by
  have hinv := inv_run hrun hallowed
  intro r hr session hok
  have hfine := hinv.fine r hr
  obtain ⟨hhash, hmem, hsigned⟩ := hfine.stage.of_ok hok
  have hother : session.remoteStaticKey ≠ r.owner.verifyingKey := fun heq =>
    hfine.notSelf (heq ▸ hmem)
  refine ⟨hmem, hother, fun hheld => ?_⟩
  obtain ⟨r', hr', hkey, hhash'⟩ := hinv.signer _ (hsigned hheld)
  have hne : r ≠ r' := by
    rintro rfl
    exact hother hkey.symm
  have hran := hfine.ran (by simp [hhash])
  have hran' := (hinv.fine r' hr').ran (by simp [hhash'])
  exact ⟨r', hr', hkey, hideal.opposite hr hr' hran hran' hhash hhash' hne, hhash',
    (hideal.binding r hr r' hr' _ hhash hhash').symm⟩

/-! ### Two friends, and a friend of oneself -/

def sampleMark (isInitiator : Bool) : UInt8 := if isInitiator then 1 else 0

/-- A message is its random bytes, and a sealed payload says which end sealed it. -/
def sampleSnow : Snow (Bool × List Bytes) Bool where
  build b _ := .ok (b, [])
  writeMessage noise payload rnd := .ok ((noise.1, noise.2 ++ [rnd ++ payload]), rnd ++ payload)
  readMessage noise frame := .ok ((noise.1, noise.2 ++ [frame]), [])
  getHandshakeHash noise := ⟨(noise.2.flatten ++ List.replicate 32 0).take 32, by simp⟩
  intoTransportMode noise := .ok noise.1
  writeTransport t payload := .ok (t, sampleMark t :: payload)
  readTransport t frame :=
    if frame.head? = some (sampleMark (!t)) then .ok (t, frame.tail) else .error "decrypt error"

def sampleKey (b : UInt8) : SigningKey where
  verifyingKey := List.Vector.replicate _ b
  sign msg := ⟨(List.replicate 32 b ++ (msg ++ List.replicate 32 0).take 32), by simp⟩

def sampleParties : List SigningKey := [sampleKey 1, sampleKey 2]

abbrev sampleStep := step sampleSnow sampleEd sampleParties

/-- Whether a payload that is delivered was signed, if it is one of a party. -/
def sampleUnforged (s : Net Bool) : Act → Bool
  | .deliver i frame =>
    match s.runs[i]?.map Run.talk with
    | some (.call (.recvPayload _) _) => sampleParties.all fun l =>
        decide (frame.tail.take 32 ≠ l.verifyingKey.toList) ||
          s.signed.any fun e => decide (e.key = l.verifyingKey ∧ e.msg = frame.tail.drop 64)
    | _ => true
  | _ => true

theorem sampleUnforged_sound {s : Net Bool} {a : Act} (h : sampleUnforged s a = true) :
    Unforgeable sampleSnow sampleEd sampleParties s a := by
  cases a with
  | deliver i frame =>
    rintro r t next hr htalk t' key sig hread ⟨l, hl, rfl⟩ msg hverify
    have hsig : sig.toList = l.verifyingKey.toList ++ msg := of_decide_eq_true hverify
    have hframe : frame.tail = l.verifyingKey.toList ++ sig.toList := by
      unfold sampleSnow at hread
      simp only at hread
      split at hread
      · simp only [Except.ok.injEq, Prod.mk.injEq] at hread
        exact hread.2
      · cases hread
    have htake : frame.tail.take 32 = l.verifyingKey.toList := by
      rw [hframe, List.take_left' l.verifyingKey.toList_length]
    have hdrop : frame.tail.drop 64 = msg := by
      rw [hframe, hsig, ← List.append_assoc, List.drop_left' (by simp)]
    unfold sampleUnforged at h
    simp only [hr, Option.map_some, htalk, List.all_eq_true] at h
    have hl := h l hl
    simp only [htake, ne_eq, not_true, decide_false, Bool.false_or, List.any_eq_true,
      decide_eq_true_eq, hdrop] at hl
    obtain ⟨⟨key, msg'⟩, he, rfl, rfl⟩ := hl
    exact he
  | _ => trivial

theorem sample_allowed {acts : List Act}
    (h : Allowed sampleStep (fun s a => sampleUnforged s a = true) ⟨[], []⟩ acts)
    (hself : ∀ a ∈ acts, NotSelf sampleParties a) : Allowed sampleStep
      (fun s a => Unforgeable sampleSnow sampleEd sampleParties s a ∧ NotSelf sampleParties a)
      ⟨[], []⟩ acts :=
  h.mono fun _ a ha hs => ⟨sampleUnforged_sound hs, hself a ha⟩

/-- The first dials the second, and is accepted by it. -/
def sampleActs : List Act :=
  [.start 0 true [(sampleKey 2).verifyingKey], .start 1 false [(sampleKey 1).verifyingKey],
    .draw 0 [], .draw 1 [], .draw 0 [11], .send 0, .deliver 1 [11], .draw 1 [12], .send 1,
    .deliver 0 [12], .draw 0 [13], .send 0, .deliver 1 [13], .sign 0, .sign 1, .send 0, .send 1,
    .deliver 0 (0 :: ((sampleKey 2).verifyingKey.toList ++
      ((sampleKey 2).sign ([11, 12, 13] ++ List.replicate 29 0)).toList))]

/-- Whether the first run has ended in a session. -/
def inSession (s : Net Bool) : Bool :=
  match s.runs[0]?.map Run.talk with
  | some (.done (.ok _)) => true
  | _ => false

theorem handshake_authentication_two :
    ∃ s, run sampleStep ⟨[], []⟩ sampleActs = some s ∧
      ∃ r ∈ s.runs, ∃ session, r.talk = .done (.ok session) ∧
        Authentic sampleParties s r session := by
  have hrun : (run sampleStep ⟨[], []⟩ sampleActs).any
      (fun s => decide (Ideal s) && inSession s) = true := by
    decide +kernel
  obtain ⟨s, hs, hboth⟩ := (Option.any_eq_true _ _).mp hrun
  simp only [Bool.and_eq_true, decide_eq_true_eq] at hboth
  obtain ⟨hideal, hsession⟩ := hboth
  unfold inSession at hsession
  split at hsession
  · rename_i session htalk
    obtain ⟨r, hr, hok⟩ := Option.map_eq_some_iff.mp htalk
    have hmem := List.mem_of_getElem? hr
    refine ⟨s, hs, r, hmem, session, hok,
      handshake_authentication hs (sample_allowed (by decide +kernel) (by decide)) hideal r hmem
        session hok⟩
  · cases hsession

def sampleOwnLink : Text := sampleLink (sampleKey 1).verifyingKey

/-- The friends after one's own link was added, with `onion.txt` as the daemon has written it. -/
def sampleFriends : List FriendRecord :=
  match addFriendCore sampleUnicode sampleTexts sampleEd
    (some (some (onionData sampleCipher (List.Vector.replicate _ 0) sampleOwnLink)))
    sampleOwnLink "me" (some []) with
  | some (.ok (_, friends)) => friends
  | _ => []

def sampleKeys : List VerifyingKey := (authorizedKeys sampleTexts sampleEd sampleFriends).getD []

theorem sampleKeys_eq : sampleKeys = [(sampleKey 1).verifyingKey] := by decide +kernel

/-- The attacker dials the daemon, opens the payload, and sends it back under its own key. -/
def reflection : List Act :=
  [.start 0 false sampleKeys, .draw 0 [], .deliver 0 [9], .draw 0 [10], .send 0, .deliver 0 [8],
    .sign 0, .send 0, .deliver 0 (1 :: ((sampleKey 1).verifyingKey.toList ++
      ((sampleKey 1).sign ([9, 10, 8] ++ List.replicate 29 0)).toList))]

/-- Whether a run has ended with its owner at both ends. -/
def Run.isReflected {T : Type} (r : Run T) : Bool :=
  match r.talk with
  | .done (.ok session) => decide (session.remoteStaticKey = r.owner.verifyingKey)
  | _ => false

theorem Run.exists_of_isReflected {T : Type} {r : Run T} (h : r.isReflected = true) :
    ∃ session, r.talk = .done (.ok session) ∧ session.remoteStaticKey = r.owner.verifyingKey := by
  unfold Run.isReflected at h
  split at h
  · rename_i session htalk
    exact ⟨session, htalk, of_decide_eq_true h⟩
  · cases h

theorem reflection_accepted :
    ∃ s, run sampleStep ⟨[], []⟩ reflection = some s ∧
      Allowed sampleStep (fun s a => Unforgeable sampleSnow sampleEd sampleParties s a)
        ⟨[], []⟩ reflection ∧
      Ideal s ∧ ∃ r ∈ s.runs, ∃ session, r.talk = .done (.ok session) ∧
        ¬ Authentic sampleParties s r session := by
  have hrun : (run sampleStep ⟨[], []⟩ reflection).any (fun s => decide (Ideal s) &&
      s.runs.any Run.isReflected) = true := by
    rw [reflection, sampleKeys_eq]
    decide +kernel
  obtain ⟨s, hs, hboth⟩ := (Option.any_eq_true _ _).mp hrun
  simp only [Bool.and_eq_true, decide_eq_true_eq, List.any_eq_true] at hboth
  obtain ⟨hideal, r, hr, hreflected⟩ := hboth
  obtain ⟨session, htalk, hself⟩ := r.exists_of_isReflected hreflected
  have hallowed : Allowed sampleStep (fun s a => sampleUnforged s a = true) ⟨[], []⟩ reflection := by
    rw [reflection, sampleKeys_eq]
    decide +kernel
  exact ⟨s, hs, hallowed.mono fun _ _ _ h => sampleUnforged_sound h, hideal, r, hr, session, htalk,
    fun h => h.other hself⟩

end AtomVault.Daemon.Noise
