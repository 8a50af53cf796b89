import AtomVault.Lib.Machine
import AtomVault.Live.Auth
import AtomVault.Live.Peers

/-!
# Pairing (`pairing.rs`, `commands/live.rs`)

Two people who share a code exchange two messages, and then each sends the other its ticket.
Any number of exchanges run at once, and the attacker carries every text.
-/

open Lib

namespace AtomVault.Live.Pairing

def PAKE_IDENTITY : Bytes := ascii "atom-vault-live-pairing-v1"
def SEAL_LABEL : Bytes := ascii "atom-live-pair-seal-v1"
def RENDEZVOUS_SECRET_LABEL : Bytes := ascii "atom-live-rdv-root-v1"
def AAD_DOMAIN : Bytes := ascii "atom-live-pair-transcript-v1"
def MESSAGE_PREFIX : Text := "atom-live-pair-1:".toList

/-- Symmetric SPAKE2, which draws `rnd` when it starts, and HKDF. -/
structure Pake where
  start : (password identity rnd : Bytes) → Bytes
  finish : (password identity rnd peer : Bytes) → Option Bytes
  hkdf : (key label : Bytes) → List.Vector UInt8 32

/-- A code as it is used, in lower case and without its hyphens. -/
structure PairingCode where
  text : Text
  deriving DecidableEq

def PairingCode.asSecret (c : PairingCode) : Bytes := utf8 c.text

structure PairingState where
  code : PairingCode
  rnd : Bytes
  outbound : Bytes
  deriving DecidableEq

structure PairedChannel where
  key : List.Vector UInt8 32
  rendezvous : List.Vector UInt8 32
  aad : Bytes
  deriving DecidableEq

section Exchange

variable (pk : Pake) (pr : Primitives) (u : Unicode) (tx : Texts)

def encodeMessage (msg : Bytes) : Text := MESSAGE_PREFIX ++ u.toLowercase (tx.base32 msg)

def decodeMessage (text : Text) : Except Error Bytes :=
  match stripPrefix (u.toLowercase (u.trim text)) MESSAGE_PREFIX with
  | none => .error (.pairing (s!"a pairing message must start with " ++
      s!"`{String.ofList MESSAGE_PREFIX}` — is this the sealed ticket from round 2 rather than " ++
      "the round-1 message?"))
  | some body =>
    match tx.fromBase32 (tx.toUppercase body) with
    | .error e => .error (.pairing s!"pairing message is not valid base32: {e}")
    | .ok msg => .ok msg

def start (code : PairingCode) (rnd : Bytes) : PairingState × Bytes :=
  let outbound := pk.start code.asSecret PAKE_IDENTITY rnd
  (⟨code, rnd, outbound⟩, outbound)

/-- The keys, and both messages in their order. -/
def channelOf (key outbound peerMessage : Bytes) : PairedChannel where
  key := pk.hkdf key SEAL_LABEL
  rendezvous := pk.hkdf key RENDEZVOUS_SECRET_LABEL
  aad :=
    if peerMessage < outbound then AAD_DOMAIN ++ (peerMessage ++ outbound)
    else AAD_DOMAIN ++ (outbound ++ peerMessage)

def PairingState.finish (s : PairingState) (peerMessage : Bytes) : Except Error PairedChannel :=
  match pk.finish s.code.asSecret PAKE_IDENTITY s.rnd peerMessage with
  | none => .error (.pairing "pairing failed: wrong code, or tampering")
  | some key => .ok (channelOf pk key s.outbound peerMessage)

def PairedChannel.rendezvousSecret (c : PairedChannel) : RendezvousSecret := c.rendezvous

def PairedChannel.sealTicket (c : PairedChannel) (t : Ticket)
    (nonce : Except String (List.Vector UInt8 NONCE_LEN)) : Except Error Text :=
  match nonce with
  | .error e => .error (.pairing s!"OS random number generator unavailable: {e}")
  | .ok nonce =>
    match pr.encrypt c.key.toList nonce.toList c.aad t.toBytes with
    | none => .error (.pairing "sealing the ticket failed")
    | some ciphertext => .ok (u.toLowercase (tx.base32 (nonce.toList ++ ciphertext)))

def PairedChannel.openTicket (c : PairedChannel) (blob : Text) : Except Error Ticket :=
  match tx.fromBase32 (tx.toUppercase (u.trim blob)) with
  | .error e => .error (.pairing s!"sealed ticket is not valid base32: {e}")
  | .ok raw =>
    if raw.length ≤ NONCE_LEN then .error (.pairing "sealed ticket is too short")
    else
      match pr.decrypt c.key.toList (raw.take NONCE_LEN) c.aad (raw.drop NONCE_LEN) with
      | none => .error (.pairing ("could not open the sealed ticket: wrong code, tampering, or " ++
          "a ticket from a different pairing"))
      | some plaintext => Ticket.fromBytes u plaintext

end Exchange

/-! ## The commands -/

/-- What a command meets: whether the identity loads, the version of the peers file that it
reads and how the reading goes, the clock, the random nonce, and how its write goes. -/
structure Around where
  identity : Except Failure Unit
  version : Nat
  read : Reading
  clock : Except Error UInt64
  nonce : Except String (List.Vector UInt8 NONCE_LEN)
  write : Write

/-- What `pair_exchange` hands back, with the message it was given and the ticket it sealed. -/
structure Exchanged where
  given : Bytes
  ticket : Ticket
  channel : PairedChannel
  sealedTicket : Text
  deriving DecidableEq

section Commands

variable (pk : Pake) (pr : Primitives) (u : Unicode) (tx : Texts) (blake3 : Bytes → BundleId)
  (me : IdentityBundle) (x : Around)

def myTicket (f : PeersFile) : Except Failure Ticket := do
  x.identity
  let state ← loadState x.read f
  if state.myEndpoints = [] then
    throw (.text ("No address set. Run 'atom live address <ip:port>' first so peers know where " ++
      "to reach you."))
  else
    let hints ← state.myEndpoints.mapM (parseEndpoint u tx)
    let now ← x.clock.mapError .live
    return Ticket.new me hints now

def pairExchange (s : PairingState) (blob : Text) (f : PeersFile) : Except Failure Exchanged := do
  let peer ← (decodeMessage u tx blob).mapError .live
  let channel ← (s.finish pk peer).mapError .live
  let ticket ← myTicket u tx me x f
  let blob ← (channel.sealTicket pr u tx ticket x.nonce).mapError .live
  return ⟨peer, ticket, channel, blob⟩

def fingerprint (id : BundleId) : String := Transfer.hex (id.toList.take 8)

/-- The peer goes under the nickname. One that is already there must have the same identity. -/
def enroll (state : LiveState) (nickname : String) (ticket : Ticket) (secret : RendezvousSecret) :
    Except Failure LiveState :=
  match state.peer nickname with
  | some existing => do
    let old ← (Ticket.fromText u tx blake3 existing.ticket).mapError .live
    if old.id blake3 ≠ ticket.id blake3 then
      throw (.text (s!"SECURITY ALERT: '{nickname}' is already paired with a DIFFERENT identity " ++
        s!"({fingerprint (old.id blake3)} vs {fingerprint (ticket.id blake3)}). Remove the old " ++
        "peer explicitly if you really mean to replace it."))
    else
      return { state with
        peers := state.peers.modify (state.peers.findIdx fun p => p.nickname = nickname) fun p =>
          { p with
            ticket := ticket.toText u tx blake3
            rendezvousSecret := some (encodeSecret u tx secret) } }
  | none =>
    return { state with
      peers := state.peers ++ [⟨nickname, ticket.toText u tx blake3,
        some (encodeSecret u tx secret), [], none⟩] }

/-- What `pair_complete` is about to save. -/
def accept (channel : PairedChannel) (blob : Text) (nickname : String) (f : PeersFile) :
    Except Failure (Ticket × LiveState) := do
  let ticket ← (channel.openTicket pr u tx blob).mapError .live
  x.identity
  if ticket.id blake3 = me.id blake3 then
    throw (.text "That ticket is your own identity — you cannot pair with yourself.")
  else
    let state ← loadState x.read f
    let state ← enroll u tx blake3 state nickname ticket channel.rendezvousSecret
    return (ticket, state)

/-- `loaded` is what the file was when it was read, `current` what it is when it is written. -/
def pairComplete (channel : PairedChannel) (blob : Text) (nickname : String)
    (loaded current : PeersFile) : Except Failure Ticket × PeersFile :=
  match accept pr u tx blake3 me x channel blob nickname loaded with
  | .error e => (.error e, current)
  | .ok (ticket, state) =>
    let (r, file) := saveState state current x.write
    (r.map fun _ => ticket, file)

end Commands

/-! ## What the commands do -/

section Specs

variable {pk : Pake} {pr : Primitives} {u : Unicode} {tx : Texts} {blake3 : Bytes → BundleId}
  {me : IdentityBundle} {x : Around} {channel : PairedChannel} {blob : Text} {nickname : String}
  {f : PeersFile}

theorem of_mapError_eq_ok {ε ε' α : Type} {g : ε → ε'} {m : Except ε α} {a : α}
    (h : m.mapError g = .ok a) : m = .ok a := by
  cases m with
  | error e => cases h
  | ok b =>
    cases h
    rfl

theorem myTicket_identity {t : Ticket} (h : myTicket u tx me x f = .ok t) : t.identity = me := by
  unfold myTicket at h
  obtain ⟨-, -, h⟩ := of_bind_eq_ok h
  obtain ⟨state, -, h⟩ := of_bind_eq_ok h
  split at h
  · cases h
  · obtain ⟨hints, -, h⟩ := of_bind_eq_ok h
    obtain ⟨now, -, h⟩ := of_bind_eq_ok h
    cases h
    rfl

/-- What an exchange that went through has computed. -/
structure Valid (pk : Pake) (pr : Primitives) (u : Unicode) (tx : Texts) (me : IdentityBundle)
    (s : PairingState) (e : Exchanged) : Prop where
  key : ∃ key, pk.finish s.code.asSecret PAKE_IDENTITY s.rnd e.given = some key ∧
    e.channel = channelOf pk key s.outbound e.given
  identity : e.ticket.identity = me
  sealedBy : ∃ nonce, e.channel.sealTicket pr u tx e.ticket nonce = .ok e.sealedTicket

theorem pairExchange_valid {s : PairingState} {e : Exchanged}
    (h : pairExchange pk pr u tx me x s blob f = .ok e) : Valid pk pr u tx me s e := by
  unfold pairExchange at h
  obtain ⟨peer, -, h⟩ := of_bind_eq_ok h
  obtain ⟨channel, hchannel, h⟩ := of_bind_eq_ok h
  obtain ⟨ticket, hticket, h⟩ := of_bind_eq_ok h
  obtain ⟨blob', hblob, h⟩ := of_bind_eq_ok h
  cases h
  refine ⟨?_, myTicket_identity hticket, x.nonce, of_mapError_eq_ok hblob⟩
  have hfinish := of_mapError_eq_ok hchannel
  unfold PairingState.finish at hfinish
  split at hfinish
  · cases hfinish
  · rename_i key hkey
    cases hfinish
    exact ⟨key, hkey, rfl⟩

theorem openTicket_eq_ok {t : Ticket} (h : channel.openTicket pr u tx blob = .ok t) :
    ∃ raw plaintext, tx.fromBase32 (tx.toUppercase (u.trim blob)) = .ok raw ∧
      pr.decrypt channel.key.toList (raw.take NONCE_LEN) channel.aad (raw.drop NONCE_LEN) =
        some plaintext ∧ Ticket.fromBytes u plaintext = .ok t := by
  unfold PairedChannel.openTicket at h
  split at h
  · cases h
  · rename_i raw hraw
    split at h
    · cases h
    · split at h
      · cases h
      · rename_i plaintext hplain
        exact ⟨raw, plaintext, hraw, hplain, h⟩

theorem accept_eq_ok {t : Ticket} {state : LiveState}
    (h : accept pr u tx blake3 me x channel blob nickname f = .ok (t, state)) :
    channel.openTicket pr u tx blob = .ok t ∧ t.id blake3 ≠ me.id blake3 ∧
      ∃ old, loadState x.read f = .ok old ∧
        enroll u tx blake3 old nickname t channel.rendezvousSecret = .ok state := by
  unfold accept at h
  obtain ⟨t', ht', h⟩ := of_bind_eq_ok h
  obtain ⟨-, -, h⟩ := of_bind_eq_ok h
  split at h
  · cases h
  · rename_i hne
    obtain ⟨old, hold, h⟩ := of_bind_eq_ok h
    obtain ⟨state', hstate, h⟩ := of_bind_eq_ok h
    cases h
    exact ⟨of_mapError_eq_ok ht', hne, old, hold, hstate⟩

variable (pr u tx blake3 me x) in
theorem pairComplete_cases (channel : PairedChannel) (blob : Text) (nickname : String)
    (loaded current : PeersFile) :
    (∃ t state, accept pr u tx blake3 me x channel blob nickname loaded = .ok (t, state) ∧
      pairComplete pr u tx blake3 me x channel blob nickname loaded current =
        (.ok t, .holds state)) ∨
    ∃ e file, pairComplete pr u tx blake3 me x channel blob nickname loaded current =
      (.error e, file) ∧ (file = current ∨ file = .broken) := by
  unfold pairComplete
  cases haccept : accept pr u tx blake3 me x channel blob nickname loaded with
  | error e => exact Or.inr ⟨e, current, rfl, Or.inl rfl⟩
  | ok a =>
    obtain ⟨t, state⟩ := a
    cases hwrite : x.write with
    | through => exact Or.inl ⟨t, state, rfl, rfl⟩
    | unopened e => exact Or.inr ⟨e, current, rfl, Or.inl rfl⟩
    | cut e => exact Or.inr ⟨e, .broken, rfl, Or.inr rfl⟩

theorem pairComplete_eq_ok {t : Ticket} {loaded current file : PeersFile}
    (h : pairComplete pr u tx blake3 me x channel blob nickname loaded current = (.ok t, file)) :
    ∃ state, accept pr u tx blake3 me x channel blob nickname loaded = .ok (t, state) ∧
      file = .holds state := by
  rcases pairComplete_cases pr u tx blake3 me x channel blob nickname loaded current with
    ⟨t', state, haccept, hok⟩ | ⟨e, file', herror, -⟩
  · rw [hok] at h
    cases h
    exact ⟨state, haccept, rfl⟩
  · rw [herror] at h
    cases h

/-- A peer that was paired with again. -/
def renewed (u : Unicode) (tx : Texts) (blake3 : Bytes → BundleId) (t : Ticket)
    (secret : RendezvousSecret) (p : LivePeer) : LivePeer :=
  { p with
    ticket := t.toText u tx blake3
    rendezvousSecret := some (encodeSecret u tx secret) }

theorem enroll_cases {old state : LiveState} {t : Ticket} {secret : RendezvousSecret}
    (h : enroll u tx blake3 old nickname t secret = .ok state) :
    (∃ existing ticket, old.peer nickname = some existing ∧
      Ticket.fromText u tx blake3 existing.ticket = .ok ticket ∧
      ticket.id blake3 = t.id blake3 ∧ state = { old with
        peers := old.peers.modify (old.peers.findIdx fun p => p.nickname = nickname)
          (renewed u tx blake3 t secret) }) ∨
    old.peer nickname = none ∧ state = { old with
      peers := old.peers ++ [renewed u tx blake3 t secret ⟨nickname, [], none, [], none⟩] } := by
  unfold enroll at h
  split at h
  · rename_i existing hexisting
    obtain ⟨ticket, hticket, h⟩ := of_bind_eq_ok h
    split at h
    · cases h
    · rename_i hsame
      cases h
      exact .inl ⟨existing, ticket, hexisting, of_mapError_eq_ok hticket, not_not.mp hsame, rfl⟩
  · rename_i hnone
    cases h
    exact .inr ⟨hnone, rfl⟩

theorem peer_enroll {old state : LiveState} {t : Ticket} {secret : RendezvousSecret}
    (h : enroll u tx blake3 old nickname t secret = .ok state) :
    state.peer nickname = some (renewed u tx blake3 t secret
      ((old.peer nickname).getD ⟨nickname, [], none, [], none⟩)) := by
  rcases enroll_cases h with ⟨existing, -, hold, -, -, rfl⟩ | ⟨hold, rfl⟩
  · have hfind := find?_modify (q := fun p : LivePeer => decide (p.nickname = nickname))
      (g := renewed u tx blake3 t secret) (fun p hp => hp) old.peers
    rw [hold]
    unfold LiveState.peer at hold ⊢
    rw [hfind, hold]
    rfl
  · rw [hold]
    unfold LiveState.peer at hold ⊢
    rw [List.find?_append, hold]
    simp [renewed]

theorem enroll_eq_ok {old state : LiveState} {t : Ticket} {secret : RendezvousSecret}
    (h : enroll u tx blake3 old nickname t secret = .ok state) :
    (∃ p, state.peer nickname = some p ∧ p.ticket = t.toText u tx blake3 ∧
      p.rendezvousSecret = some (encodeSecret u tx secret)) ∧
    ∀ p ∈ state.peers, p.ticket = t.toText u tx blake3 ∨ p ∈ old.peers := by
  refine ⟨⟨_, peer_enroll h, rfl, rfl⟩, fun p hp => ?_⟩
  rcases enroll_cases h with ⟨existing, -, -, -, -, rfl⟩ | ⟨-, rfl⟩
  · obtain ⟨k, hk⟩ := List.getElem?_of_mem hp
    rw [List.getElem?_modify] at hk
    obtain ⟨q, hq, hp'⟩ := Option.map_eq_some_iff.mp hk
    split at hp'
    · rw [← hp']
      exact Or.inl rfl
    · rw [← hp']
      exact Or.inr (List.mem_of_getElem? hq)
  · rcases List.mem_append.mp hp with hp | hp
    · exact Or.inr hp
    · rw [List.mem_singleton.mp hp]
      exact Or.inl rfl

end Specs


/-! ## Any number of exchanges -/

/-- The parties, by number, and what they compute with. -/
structure World where
  pk : Pake
  pr : Primitives
  u : Unicode
  tx : Texts
  blake3 : Bytes → BundleId
  party : Nat → IdentityBundle

/-- A state is used up by `pair_exchange`, whatever comes of it. -/
inductive Stage
  | begun
  | spent
  | paired (x : Exchanged)
  deriving DecidableEq

structure Session where
  owner : Nat
  state : PairingState
  stage : Stage
  deriving DecidableEq

/-- A `pair_complete` that returned a ticket, and the file it wrote. -/
structure Completion where
  session : Nat
  nickname : String
  ticket : Ticket
  saved : PeersFile

/-- Of each party's file every version that it had, the latest last. -/
structure Net where
  sessions : List Session
  files : Nat → List PeersFile
  completed : List Completion

inductive Act
  | begin (party : Nat) (code : PairingCode) (rnd : Bytes)
  | exchange (k : Nat) (blob : Text) (x : Around)
  | complete (k : Nat) (blob : Text) (nickname : String) (x : Around)

section Machine

variable (w : World)

def step (s : Net) : Act → Option Net
  | .begin party code rnd =>
    some { s with sessions := s.sessions ++ [⟨party, (start w.pk code rnd).1, .begun⟩] }
  | .exchange k blob x => do
    let r ← s.sessions[k]?
    match r.stage with
    | .begun => do
      let f ← (s.files r.owner)[x.version]?
      let stage := match pairExchange w.pk w.pr w.u w.tx (w.party r.owner) x r.state blob f with
        | .ok e => Stage.paired e
        | .error _ => .spent
      some { s with sessions := s.sessions.set k { r with stage := stage } }
    | _ => none
  | .complete k blob nickname x => do
    let r ← s.sessions[k]?
    match r.stage with
    | .paired e => do
      let loaded ← (s.files r.owner)[x.version]?
      let current ← (s.files r.owner).getLast?
      let (res, file) := pairComplete w.pr w.u w.tx w.blake3 (w.party r.owner) x e.channel blob
        nickname loaded current
      some { s with
        files := Function.update s.files r.owner (s.files r.owner ++ [file])
        completed := match res with
          | .ok ticket => s.completed ++ [⟨k, nickname, ticket, file⟩]
          | .error _ => s.completed }
    | _ => none

end Machine

/-! ## What is assumed -/

variable {w : World} {s s' : Net}

/-- Ed25519 keys have one length, and texts are read back. -/
structure World.Sound (w : World) : Prop where
  plain : w.u.Plain
  texts : w.tx.Correct
  keys : ∀ n, (w.party n).classical.der.length = IdentityBundle.ED25519_SPKI_LEN

def Paired (s : Net) (k : Nat) (r : Session) (e : Exchanged) : Prop :=
  s.sessions[k]? = some r ∧ r.stage = .paired e

/-- Nothing opens under a channel that was not sealed under its key and its transcript. -/
def Unforged (w : World) (s : Net) : Act → Prop
  | .complete k blob _ _ => ∀ r e, Paired s k r e → ∀ raw plaintext,
      w.tx.fromBase32 (w.tx.toUppercase (w.u.trim blob)) = .ok raw →
      w.pr.decrypt e.channel.key.toList (raw.take NONCE_LEN) e.channel.aad (raw.drop NONCE_LEN) =
        some plaintext →
      ∃ j r' e', Paired s j r' e' ∧ e'.channel.key = e.channel.key ∧
        e'.channel.aad = e.channel.aad ∧ e'.ticket.toBytes = plaintext
  | _ => True

/-- The key that a state derives from the message it was given. -/
def spakeKey (w : World) (r : Session) (e : Exchanged) : Option Bytes :=
  w.pk.finish r.state.code.asSecret PAKE_IDENTITY r.state.rnd e.given

/-- No two states send one message. Two states derive one key only with one code, and only if
each was given the other's message. And no two of the keys derive one sealing key. -/
structure Ideal (w : World) (s : Net) : Prop where
  fresh : ∀ (i j : Nat) (r r' : Session), s.sessions[i]? = some r → s.sessions[j]? = some r' →
    r.state.outbound = r'.state.outbound → i = j
  agree : ∀ (i j : Nat) (r r' : Session) (e e' : Exchanged), Paired s i r e → Paired s j r' e' →
    i ≠ j → spakeKey w r e = spakeKey w r' e' →
    r.state.code = r'.state.code ∧ e.given = r'.state.outbound ∧ e'.given = r.state.outbound
  derived : ∀ (i j : Nat) (r r' : Session) (e e' : Exchanged) (key key' : Bytes),
    Paired s i r e → Paired s j r' e' →
    spakeKey w r e = some key → spakeKey w r' e' = some key' →
    w.pk.hkdf key SEAL_LABEL = w.pk.hkdf key' SEAL_LABEL → key = key'

/-! ## What is stored -/

/-- No entry of the file is the party's own identity. -/
def NoSelf (w : World) (n : Nat) (f : PeersFile) : Prop :=
  ∀ state, f = .holds state → ∀ p ∈ state.peers, ∀ t,
    Ticket.fromText w.u w.tx w.blake3 p.ticket = .ok t → t.id w.blake3 ≠ (w.party n).id w.blake3

/-- The file has the peer under the nickname, with this ticket and this secret. -/
def Stored (w : World) (c : Completion) (t : Ticket) (secret : RendezvousSecret) : Prop :=
  ∃ state p, c.saved = .holds state ∧ state.peer c.nickname = some p ∧
    p.ticket = t.toText w.u w.tx w.blake3 ∧
    p.rendezvousSecret = some (encodeSecret w.u w.tx secret)

/-- The ticket of a completion was sealed by a session with the same key, of another identity. -/
def Took (w : World) (s : Net) (c : Completion) : Prop :=
  ∃ r e j r' e', Paired s c.session r e ∧ Paired s j r' e' ∧ e'.channel.key = e.channel.key ∧
    c.ticket = e'.ticket.carried ∧ c.ticket.id w.blake3 ≠ (w.party r.owner).id w.blake3 ∧
    Stored w c e'.ticket e.channel.rendezvous

structure Inv (w : World) (s : Net) : Prop where
  valid : ∀ k r e, Paired s k r e → Valid w.pk w.pr w.u w.tx (w.party r.owner) r.state e
  took : ∀ c ∈ s.completed, Took w s c
  noSelf : ∀ n, ∀ f ∈ s.files n, NoSelf w n f

theorem Took.mono (hpaired : ∀ k r e, Paired s k r e → Paired s' k r e) {c : Completion}
    (h : Took w s c) : Took w s' c := by
  obtain ⟨r, e, j, r', e', hr, hr', hrest⟩ := h
  exact ⟨r, e, j, r', e', hpaired _ _ _ hr, hpaired _ _ _ hr', hrest⟩

theorem toText_carried (t : Ticket) :
    t.carried.toText w.u w.tx w.blake3 = t.toText w.u w.tx w.blake3 := by
  unfold Ticket.toText
  rw [Ticket.toBytes_carried]

theorem noSelf_accept (hw : w.Sound) {n : Nat} {x : Around} {channel : PairedChannel} {blob : Text}
    {nickname : String} {loaded : PeersFile} {t : Ticket} {state : LiveState}
    (hloaded : NoSelf w n loaded)
    (h : accept w.pr w.u w.tx w.blake3 (w.party n) x channel blob nickname loaded =
      .ok (t, state))
    (hkey : t.identity.classical.der.length = IdentityBundle.ED25519_SPKI_LEN) :
    NoSelf w n (.holds state) := by
  obtain ⟨-, hne, old, hold, henroll⟩ := accept_eq_ok h
  obtain ⟨-, hentries⟩ := enroll_eq_ok henroll
  intro state' hstate p hp t' ht'
  cases hstate
  rcases hentries p hp with hnew | hmem
  · rw [hnew, Ticket.fromText_toText hw.plain hw.texts] at ht'
    have hcarried := Ticket.fromBytes_toBytes hw.plain (IdentityBundle.fits_of_ed25519 hkey) ht'
    rw [hcarried]
    exact hne
  · cases loaded with
    | missing =>
      cases hold
      cases hmem
    | broken =>
      obtain ⟨e, he⟩ := loadState_broken x.read
      rw [he] at hold
      cases hold
    | holds s₀ =>
      obtain ⟨-, -, hsame⟩ := of_bind_eq_ok hold
      cases hsame
      exact hloaded _ rfl p hmem t' ht'

theorem noSelf_broken (n : Nat) : NoSelf w n .broken := fun _ h => by cases h

theorem took_accept (hw : w.Sound) (hinv : Inv w s) {k : Nat} {r : Session} {e : Exchanged}
    (hr : Paired s k r e) {blob : Text} {nickname : String} {x : Around}
    (hunforged : Unforged w s (.complete k blob nickname x)) {loaded : PeersFile} {t : Ticket}
    {state : LiveState}
    (h : accept w.pr w.u w.tx w.blake3 (w.party r.owner) x e.channel blob nickname loaded =
      .ok (t, state)) :
    t.identity.classical.der.length = IdentityBundle.ED25519_SPKI_LEN ∧
      Took w s ⟨k, nickname, t, .holds state⟩ := by
  obtain ⟨hopen, hne, old, hold, henroll⟩ := accept_eq_ok h
  obtain ⟨⟨p, hp, htext, hsecret⟩, -⟩ := enroll_eq_ok henroll
  obtain ⟨raw, plaintext, hraw, hplain, hread⟩ := openTicket_eq_ok hopen
  obtain ⟨j, r', e', hr', hkey, -, hbytes⟩ := hunforged r e hr raw plaintext hraw hplain
  have hvalid := hinv.valid j r' e' hr'
  have hlen : e'.ticket.identity.classical.der.length = IdentityBundle.ED25519_SPKI_LEN := by
    rw [hvalid.identity]
    exact hw.keys r'.owner
  rw [← hbytes] at hread
  have hcarried := Ticket.fromBytes_toBytes hw.plain (IdentityBundle.fits_of_ed25519 hlen) hread
  refine ⟨by rw [hcarried]; exact hlen, r, e, j, r', e', hr, hr', hkey, hcarried, hne, ?_⟩
  refine ⟨state, p, rfl, hp, ?_, hsecret⟩
  rw [htext, hcarried, toText_carried]

/-! ## Every run -/

theorem paired_set {k : Nat} {r : Session} {stage : Stage} (hk : s.sessions[k]? = some r)
    (hbegun : r.stage = .begun) {k' : Nat} {r' : Session} {e : Exchanged}
    (h : Paired s k' r' e) : Paired { s with sessions := s.sessions.set k { r with stage := stage } }
      k' r' e := by
  refine ⟨?_, h.2⟩
  have hne : k ≠ k' := by
    rintro rfl
    have hsame := hk.symm.trans h.1
    cases hsame
    have hstage := h.2
    rw [hbegun] at hstage
    cases hstage
  rw [List.getElem?_set_ne hne]
  exact h.1

theorem inv_step (hw : w.Sound) (a : Act) (hinv : Inv w s) (hunforged : Unforged w s a)
    (h : step w s a = some s') : Inv w s' := by
  cases a with
  | begin party code rnd =>
    cases h
    have hmono : ∀ k r e, Paired s k r e → Paired { s with sessions := s.sessions ++
        [⟨party, (start w.pk code rnd).1, .begun⟩] } k r e := by
      intro k r e hr
      refine ⟨?_, hr.2⟩
      exact getElem?_concat_eq_some.mpr (Or.inl hr.1)
    refine ⟨?_, fun c hc => (hinv.took c hc).mono hmono, hinv.noSelf⟩
    intro k r e hr
    rcases getElem?_concat_eq_some.mp hr.1 with hk | ⟨-, rfl⟩
    · exact hinv.valid k r e ⟨hk, hr.2⟩
    · cases hr.2
  | exchange k blob x =>
    unfold step at h
    obtain ⟨r, hk, h⟩ := Option.bind_eq_some_iff.mp h
    split at h
    · rename_i hbegun
      obtain ⟨f, -, h⟩ := Option.bind_eq_some_iff.mp h
      cases h
      refine ⟨?_, fun c hc => (hinv.took c hc).mono fun _ _ _ => paired_set hk hbegun, hinv.noSelf⟩
      intro k' r' e hr'
      rcases getElem?_set_eq_some hr'.1 with ⟨rfl, rfl⟩ | ⟨-, hold⟩
      · have hstage := hr'.2
        simp only at hstage
        split at hstage
        · rename_i e' hexchange
          cases hstage
          exact pairExchange_valid hexchange
        · cases hstage
      · exact hinv.valid k' r' e ⟨hold, hr'.2⟩
    · cases h
  | complete k blob nickname x =>
    unfold step at h
    obtain ⟨r, hk, h⟩ := Option.bind_eq_some_iff.mp h
    split at h
    · rename_i e hstage
      obtain ⟨loaded, hloaded, h⟩ := Option.bind_eq_some_iff.mp h
      obtain ⟨current, hcurrent, h⟩ := Option.bind_eq_some_iff.mp h
      have hnoLoaded := hinv.noSelf _ loaded (List.mem_of_getElem? hloaded)
      have hnoCurrent := hinv.noSelf _ current (List.mem_of_getLast? hcurrent)
      have hfiles : ∀ file, NoSelf w r.owner file → ∀ n,
          ∀ f ∈ Function.update s.files r.owner (s.files r.owner ++ [file]) n, NoSelf w n f := by
        intro file hfile n f hf
        by_cases hn : n = r.owner
        · subst hn
          rw [Function.update_self] at hf
          rcases List.mem_append.mp hf with hf | hf
          · exact hinv.noSelf _ f hf
          · rw [List.mem_singleton.mp hf]
            exact hfile
        · rw [Function.update_of_ne hn] at hf
          exact hinv.noSelf n f hf
      rcases pairComplete_cases w.pr w.u w.tx w.blake3 (w.party r.owner) x e.channel blob nickname
        loaded current with
        ⟨t, state, haccept, hres⟩ | ⟨err, file, hres, hfile⟩
      · rw [hres] at h
        cases h
        obtain ⟨hkey, htook⟩ := took_accept hw hinv ⟨hk, hstage⟩ hunforged haccept
        refine ⟨hinv.valid, ?_, hfiles _ (noSelf_accept hw hnoLoaded haccept hkey)⟩
        intro c hc
        rcases List.mem_append.mp hc with hc | hc
        · exact hinv.took c hc
        · rw [List.mem_singleton.mp hc]
          exact htook
      · rw [hres] at h
        cases h
        refine ⟨hinv.valid, hinv.took, hfiles _ ?_⟩
        rcases hfile with rfl | rfl
        · exact hnoCurrent
        · exact noSelf_broken _
    · cases h

/-- The completion `c`, by the session `r`, took and stored the ticket of the session `r'`. -/
structure Binds (w : World) (c : Completion) (r : Session) (e : Exchanged) (r' : Session)
    (e' : Exchanged) : Prop where
  identity : (w.party r'.owner).id w.blake3 ≠ (w.party r.owner).id w.blake3
  code : r.state.code = r'.state.code
  messages : e.given = r'.state.outbound ∧ e'.given = r.state.outbound
  secret : e'.channel.rendezvousSecret = e.channel.rendezvousSecret
  sealedBy : ∃ nonce, e'.channel.sealTicket w.pr w.u w.tx e'.ticket nonce = .ok e'.sealedTicket
  ticket : c.ticket = e'.ticket.carried
  stored : Stored w c e'.ticket e.channel.rendezvousSecret

theorem Paired.unique {k : Nat} {r r' : Session} {e e' : Exchanged} (h : Paired s k r e)
    (h' : Paired s k r' e') : r = r' ∧ e = e' := by
  have hsame := h.1.symm.trans h'.1
  cases hsame
  have hstage := h.2.symm.trans h'.2
  cases hstage
  exact ⟨rfl, rfl⟩

/-- The session whose ticket was taken was in the same exchange, and is of another identity. -/
theorem Took.binds (hinv : Inv w s) (hideal : Ideal w s) {c : Completion} (h : Took w s c) :
    ∃ r e j r' e', Paired s c.session r e ∧ Paired s j r' e' ∧ Binds w c r e r' e' := by
  obtain ⟨r, e, j, r', e', hr, hr', hkey, hcarried, hother, hstored⟩ := h
  have hvalid := hinv.valid _ _ _ hr
  have hvalid' := hinv.valid _ _ _ hr'
  have hid : (w.party r'.owner).id w.blake3 ≠ (w.party r.owner).id w.blake3 := by
    rw [hcarried] at hother
    rw [← hvalid'.identity]
    exact hother
  have hne : c.session ≠ j := by
    rintro rfl
    obtain ⟨rfl, -⟩ := hr.unique hr'
    exact hid rfl
  obtain ⟨key, hfinish, hchannel⟩ := hvalid.key
  obtain ⟨key', hfinish', hchannel'⟩ := hvalid'.key
  have hsame : key = key' := by
    refine hideal.derived _ _ _ _ _ _ _ _ hr hr' hfinish hfinish' ?_
    rw [hchannel, hchannel'] at hkey
    exact hkey.symm
  subst hsame
  obtain ⟨hcode, hgiven, hgiven'⟩ := hideal.agree _ _ _ _ _ _ hr hr' hne (hfinish.trans hfinish'.symm)
  refine ⟨r, e, j, r', e', hr, hr', hid, hcode, ⟨hgiven, hgiven'⟩, ?_, hvalid'.sealedBy, hcarried,
    hstored⟩
  rw [hchannel, hchannel']
  rfl

/-- **Pairing.** A ticket that is taken was sealed in the same exchange by another identity,
nobody stores itself, and two that both complete have each other's tickets. -/
theorem pairing_binds (hw : w.Sound) {files : Nat → List PeersFile} {acts : List Act}
    (hfiles : ∀ n, ∀ f ∈ files n, NoSelf w n f)
    (hrun : run (step w) ⟨[], files, []⟩ acts = some s)
    (hunforged : Allowed (step w) (Unforged w) ⟨[], files, []⟩ acts) (hideal : Ideal w s) :
    (∀ c ∈ s.completed, ∃ r e j r' e', Paired s c.session r e ∧ Paired s j r' e' ∧
      Binds w c r e r' e' ∧ ∀ c' ∈ s.completed, c'.session = j → Binds w c' r' e' r e) ∧
    ∀ n, ∀ f ∈ s.files n, NoSelf w n f := by
  have hinv : Inv w s := by
    refine run_allowed (I := Inv w) (fun s a s' hs ha h => inv_step hw a hs ha h) hrun hunforged ?_
    refine ⟨?_, ?_, hfiles⟩
    · intro k r e h
      simp [Paired] at h
    · intro c hc
      cases hc
  refine ⟨?_, hinv.noSelf⟩
  intro c hc
  obtain ⟨r, e, j, r', e', hr, hr', hbinds⟩ := (hinv.took c hc).binds hinv hideal
  refine ⟨r, e, j, r', e', hr, hr', hbinds, ?_⟩
  rintro c' hc' rfl
  obtain ⟨r₁, e₁, k, r₂, e₂, hr₁, hr₂, hbinds'⟩ := (hinv.took c' hc').binds hinv hideal
  obtain ⟨rfl, rfl⟩ := hr'.unique hr₁
  -- each was given what the other sent, so the partner of the partner is the session itself
  have hback : k = c.session :=
    hideal.fresh _ _ _ _ hr₂.1 hr.1 (hbinds'.messages.1.symm.trans hbinds.messages.2)
  subst hback
  obtain ⟨rfl, rfl⟩ := hr₂.unique hr
  exact hbinds'

/-! ### Two that both complete -/

/-- The key is the password with both messages in their order. -/
def samplePake : Pake where
  start _ _ rnd := rnd
  finish password _ rnd peer :=
    some (password ++ if peer < rnd then peer ++ rnd else rnd ++ peer)
  hkdf key label := ⟨(key ++ label ++ List.replicate 32 0).take 32, by simp; omega⟩

def sample : World where
  pk := samplePake
  pr := samplePrimitives
  u := sampleUnicode
  tx := sampleTexts
  blake3 := sampleBlake3
  party n := ⟨⟨List.replicate 44 (UInt8.ofNat n)⟩, none⟩

theorem sample_sound : sample.Sound where
  plain := sampleUnicode_plain
  texts := sampleTexts_correct
  keys _ := List.length_replicate

def sampleAround : Around where
  identity := .ok ()
  version := 0
  read := .through
  clock := .ok Discovery.sampleNow
  nonce := .ok (List.Vector.replicate _ 0)
  write := .through

def sampleFiles (_ : Nat) : List PeersFile := [.holds ⟨["203.0.113.7:4433".toList], [], []⟩]

def sampleCode : PairingCode := ⟨"abcd".toList⟩

/-- The sessions are 0 and 1, of the parties 0 and 1, and send the messages `[0]` and `[1]`. -/
def sampleMessage (n : Nat) : Text := encodeMessage sampleUnicode sampleTexts [UInt8.ofNat n]

def sampleSession (n : Nat) : Session where
  owner := n
  state := (start samplePake sampleCode [UInt8.ofNat n]).1
  stage :=
    match pairExchange samplePake samplePrimitives sampleUnicode sampleTexts (sample.party n)
      sampleAround (start samplePake sampleCode [UInt8.ofNat n]).1 (sampleMessage (1 - n))
      (.holds ⟨["203.0.113.7:4433".toList], [], []⟩) with
    | .ok e => .paired e
    | .error _ => .spent

def sampleBlob (n : Nat) : Text :=
  match (sampleSession n).stage with
  | .paired e => e.sealedTicket
  | _ => []

def sampleOpening : List Act :=
  [.begin 0 sampleCode [0], .begin 1 sampleCode [1], .exchange 0 (sampleMessage 1) sampleAround,
    .exchange 1 (sampleMessage 0) sampleAround]

def sampleCompleting : List Act :=
  [.complete 0 (sampleBlob 1) "bob" sampleAround, .complete 1 (sampleBlob 0) "ann" sampleAround]

/-- One key, one transcript, and each has the other's message and can open its ticket. -/
def sampleMatch (k : Nat) : Bool :=
  match (sampleSession k).stage, (sampleSession (1 - k)).stage with
  | .paired e, .paired e' =>
    decide (spakeKey sample (sampleSession k) e = some (sampleCode.asSecret ++ [0, 1]) ∧
      e.given = (sampleSession (1 - k)).state.outbound ∧ e'.channel.key = e.channel.key ∧
      e'.channel.aad = e.channel.aad) &&
    match sampleTexts.fromBase32 (sampleTexts.toUppercase (sampleUnicode.trim (sampleBlob (1 - k)))) with
    | .ok raw =>
      decide (samplePrimitives.decrypt e.channel.key.toList (raw.take NONCE_LEN) e.channel.aad
        (raw.drop NONCE_LEN) = some e'.ticket.toBytes)
    | .error _ => false
  | _, _ => false

theorem sample_match {k : Nat} (hk : k = 0 ∨ k = 1) : sampleMatch k = true := by
  rcases hk with rfl | rfl <;> decide +kernel

theorem sample_paired {s : Net} (hs : s.sessions = [sampleSession 0, sampleSession 1]) {k : Nat}
    {r : Session} {e : Exchanged} (h : Paired s k r e) :
    (k = 0 ∨ k = 1) ∧ r = sampleSession k ∧ (sampleSession k).stage = .paired e := by
  obtain ⟨hk, hstage⟩ := h
  rw [hs] at hk
  match k, hk with
  | 0, hk =>
    cases hk
    exact ⟨Or.inl rfl, rfl, hstage⟩
  | 1, hk =>
    cases hk
    exact ⟨Or.inr rfl, rfl, hstage⟩

theorem sample_outbound : (sampleSession 0).state.outbound ≠ (sampleSession 1).state.outbound := by
  decide +kernel

theorem sample_ideal {s : Net} (hs : s.sessions = [sampleSession 0, sampleSession 1]) :
    Ideal sample s := by
  have hkey : ∀ k r e, Paired s k r e →
      spakeKey sample r e = some (sampleCode.asSecret ++ [0, 1]) ∧
        e.given = (sampleSession (1 - k)).state.outbound := by
    intro k r e h
    obtain ⟨hk, rfl, hstage⟩ := sample_paired hs h
    have hmatch := sample_match hk
    unfold sampleMatch at hmatch
    rw [hstage] at hmatch
    split at hmatch
    · rename_i heq _
      cases heq
      simp only [Bool.and_eq_true, decide_eq_true_eq] at hmatch
      exact ⟨hmatch.1.1, hmatch.1.2.1⟩
    · cases hmatch
  refine ⟨?_, ?_, ?_⟩
  · intro i j r r' hi hj hout
    rw [hs] at hi hj
    match i, hi, j, hj with
    | 0, _, 0, _ => rfl
    | 1, _, 1, _ => rfl
    | 0, hi, 1, hj =>
      cases hi
      cases hj
      exact absurd hout sample_outbound
    | 1, hi, 0, hj =>
      cases hi
      cases hj
      exact absurd hout.symm sample_outbound
  · intro i j r r' e e' hi hj hne _
    obtain ⟨-, hgiven⟩ := hkey i r e hi
    obtain ⟨-, hgiven'⟩ := hkey j r' e' hj
    obtain ⟨hi, rfl, -⟩ := sample_paired hs hi
    obtain ⟨hj, rfl, -⟩ := sample_paired hs hj
    have hij : 1 - i = j ∧ 1 - j = i := by omega
    rw [hij.1] at hgiven
    rw [hij.2] at hgiven'
    exact ⟨rfl, hgiven, hgiven'⟩
  · intro i j r r' e e' key key' hi hj hfinish hfinish' _
    rw [(hkey i r e hi).1] at hfinish
    rw [(hkey j r' e' hj).1] at hfinish'
    exact Option.some.inj (hfinish.symm.trans hfinish')

theorem sample_unforged {s : Net} (hs : s.sessions = [sampleSession 0, sampleSession 1]) {k : Nat}
    (hk : k = 0 ∨ k = 1) (nickname : String) :
    Unforged sample s (.complete k (sampleBlob (1 - k)) nickname sampleAround) := by
  intro r e hr raw plaintext hraw hplain
  obtain ⟨-, rfl, hstage⟩ := sample_paired hs hr
  have hmatch := sample_match hk
  unfold sampleMatch at hmatch
  rw [hstage] at hmatch
  split at hmatch
  · rename_i e₁ e' heq hother
    cases heq
    have hread : sampleTexts.fromBase32 (sampleTexts.toUppercase
      (sampleUnicode.trim (sampleBlob (1 - k)))) = .ok raw := hraw
    rw [hread] at hmatch
    simp only [Bool.and_eq_true, decide_eq_true_eq] at hmatch
    obtain ⟨⟨-, -, hkey, haad⟩, hopen⟩ := hmatch
    refine ⟨1 - k, sampleSession (1 - k), e', ⟨?_, hother⟩, hkey, haad, ?_⟩
    · rw [hs]
      rcases hk with rfl | rfl <;> rfl
    · exact Option.some.inj (hopen.symm.trans hplain)
  · cases hmatch

theorem pairing_binds_both :
    ∃ s, run (step sample) ⟨[], sampleFiles, []⟩ (sampleOpening ++ sampleCompleting) = some s ∧
      s.completed.length = 2 ∧
      ∀ c ∈ s.completed, ∃ r e j r' e', Paired s c.session r e ∧ Paired s j r' e' ∧
        Binds sample c r e r' e' ∧ ∀ c' ∈ s.completed, c'.session = j → Binds sample c' r' e' r e := by
  have hrun : (run (step sample) ⟨[], sampleFiles, []⟩ (sampleOpening ++ sampleCompleting)).any
      (fun s => decide (s.sessions = [sampleSession 0, sampleSession 1]) &&
        decide (s.completed.length = 2)) = true := by
    decide +kernel
  have hopened : (run (step sample) ⟨[], sampleFiles, []⟩ sampleOpening).all
      (fun s => decide (s.sessions = [sampleSession 0, sampleSession 1])) = true := by
    decide +kernel
  have hone : (run (step sample) ⟨[], sampleFiles, []⟩ (sampleOpening ++
      [.complete 0 (sampleBlob 1) "bob" sampleAround])).all
      (fun s => decide (s.sessions = [sampleSession 0, sampleSession 1])) = true := by
    decide +kernel
  obtain ⟨s, hs, hboth⟩ := (Option.any_eq_true _ _).mp hrun
  simp only [Bool.and_eq_true, decide_eq_true_eq] at hboth
  refine ⟨s, hs, hboth.2, (pairing_binds sample_sound ?_ hs ?_ (sample_ideal hboth.1)).1⟩
  · intro n f hf
    rw [List.mem_singleton.mp hf]
    intro state hstate p hp
    cases hstate
    cases hp
  · refine allowed_append (allowed_of_forall ?_) ?_
    · intro a ha s
      simp only [sampleOpening, List.mem_cons, List.not_mem_nil, or_false] at ha
      rcases ha with rfl | rfl | rfl | rfl <;> trivial
    · intro m hm
      have hm' := hm
      rw [hm, Option.all_some, decide_eq_true_eq] at hopened
      refine ⟨sample_unforged hopened (Or.inl rfl) "bob", fun m' hstep => ?_⟩
      have hrun' : run (step sample) ⟨[], sampleFiles, []⟩ (sampleOpening ++
          [.complete 0 (sampleBlob 1) "bob" sampleAround]) = some m' :=
        run_concat_eq_some.mpr ⟨m, hm', hstep⟩
      rw [hrun', Option.all_some, decide_eq_true_eq] at hone
      exact ⟨sample_unforged hone (Or.inr rfl) "ann", fun _ _ => trivial⟩

end AtomVault.Live.Pairing
