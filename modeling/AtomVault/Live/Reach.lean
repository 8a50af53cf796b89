import AtomVault.Lib.Floor
import AtomVault.Live.Lookup

/-!
# Reaching a peer (`reach.rs`)

First the addresses that are remembered, then those that the peer has published, then Tor.
What the clock reads, what the substrates answer and what comes of an attempt is left open.
-/

open Lib

namespace AtomVault.Live

/-! ## What is remembered of a peer -/

structure PeerState where
  identity : IdentityBundle
  rendezvous : RendezvousSecret
  lastKnown : List Endpoint
  newestSeen : Option UInt64
  deriving DecidableEq

namespace PeerState

def absorb (p : PeerState) (r : AddressRecord) : PeerState :=
  { p with lastKnown := r.hints, newestSeen := some r.seq }

/-- `now` is what `now_secs` reads. -/
def ticket (p : PeerState) (hints : List Endpoint) (now : Except Error UInt64) :
    Except Error Ticket := do
  return Ticket.new p.identity hints (← now)

end PeerState

inductive Path
  | cached
  | discovered
  | onion
  deriving DecidableEq

/-- Times are in nanoseconds. -/
structure Options where
  timeout : Nat
  socks : Option SocketAddr
  useDiscovery : Bool

namespace Reach

def CACHED_ATTEMPT_MAX : Nat := 20 * 10 ^ 9

def remaining (opts : Options) (elapsed : Nat) : Nat := opts.timeout - elapsed

def budgetForCache (left : Nat) : Nat := min (left / 2) CACHED_ATTEMPT_MAX

def directOnly (hints : List Endpoint) : List Endpoint :=
  hints.filter fun h => (directOf h).isSome

def onionOnly (hints : List Endpoint) : List Endpoint :=
  hints.filter fun h => (onionOf h).isSome

/-! ## The two transports -/

section Transports

variable {S : Type}

/-- What is checked before a packet is sent. `meet` is what comes of the meeting. -/
def rendezvousOn (blake3 : Bytes → BundleId) (t : Ticket) (loc : BundleId)
    (now : Except Error UInt64) (meet : Except Error S) : Except Error S := do
  t.checkValid (← now)
  if loc = t.id blake3 then
    throw (.connect "this ticket is our own identity — a peer cannot rendezvous with itself")
  else if t.directHints = [] then
    if t.onionHints ≠ [] then
      throw (.connect ("this ticket offers only onion addresses: the peer asked to be reached " ++
        "over Tor, so use the Tor transport rather than a direct rendezvous"))
    else
      throw (.connect ("ticket carries no address hints; enter the peer's address manually or " ++
        "ask them for a ticket that includes one"))
  else meet

def dial (t : Ticket) (now : Except Error UInt64) (meet : Except Error S) : Except Error S := do
  t.checkValid (← now)
  if t.onionHints = [] then
    throw (.connect ("this ticket carries no onion address, so it cannot be reached over Tor; " ++
      "ask the peer for a ticket that offers one"))
  else meet

end Transports

/-! ## The ladder -/

/-- What is seen of a call from outside: what a substrate is asked for, which record is
taken, and which ticket a transport is given. -/
inductive Act
  | asked (name tag : String)
  | accepted (r : AddressRecord)
  | quic (t : Ticket) (budget : Nat)
  | tor (socks : SocketAddr) (t : Ticket)
  deriving DecidableEq

structure Climb where
  peer : PeerState
  acts : List Act

def Climb.did (s : Climb) (acts : List Act) : Climb := { s with acts := s.acts ++ acts }

def Climb.absorb (s : Climb) (r : AddressRecord) : Climb :=
  ⟨s.peer.absorb r, s.acts ++ [.accepted r]⟩

/-- What an attempt meets: the clock when its ticket is made and when it is checked, the time
gone by, and how the attempt ends. -/
structure Attempt (S : Type) where
  made : Except Error UInt64
  checked : Except Error UInt64
  elapsed : Nat
  outcome : Except Error S

/-- A call of `connect`, and all it meets. -/
structure Call (S : Type) where
  loc : BundleId
  opts : Options
  substrates : List Substrate
  bound : Except Error Unit
  cached : Attempt S
  elapsed : Nat
  clock : Except Error UInt64
  noise : Except String (Nat → UInt64)
  resolved : Nat
  discovered : Attempt S
  onion : Attempt S

section Ladder

variable {S : Type} (pr : Primitives) (u : Unicode) (blake3 : Bytes → BundleId)

def noted (label : String) (attempts : List String) : Except Error S → Option S × List String
  | .ok session => (some session, attempts)
  | .error e => (none, attempts ++ [s!"{label}: {Error.display e}"])

def quic (c : Call S) (a : Attempt S) (hints : List Endpoint) (budget : Nat) :
    EStateM Error Climb (Except Error S) := do
  let s ← get
  let t ← ofExcept (fun e => e) (s.peer.ticket hints a.made)
  modify fun s => s.did [.quic t budget]
  return rendezvousOn blake3 t c.loc a.checked a.outcome

def tryCached (c : Call S) : EStateM Error Climb (Option S × List String) := do
  let s ← get
  let cachedDirect := directOnly s.peer.lastKnown
  if cachedDirect = [] then return (none, [])
  else
    let r ← quic blake3 c c.cached cachedDirect
      (budgetForCache (remaining c.opts c.cached.elapsed))
    return noted "remembered address" [] r

def lookup (c : Call S) (p : PeerState) : Except Error AddressRecord × List (String × String) :=
  Discovery.resolve pr u c.substrates p.rendezvous c.loc (p.identity.id blake3) p.newestSeen
    c.clock c.noise

def tryDiscovered (c : Call S) (attempts : List String) :
    EStateM Error Climb (Option S × List String) := do
  let s ← get
  if c.opts.useDiscovery = true ∧ c.substrates ≠ [] ∧ remaining c.opts c.elapsed ≠ 0 then
    let found := lookup pr u blake3 c s.peer
    modify fun s => s.did (found.2.map fun (name, tag) => .asked name tag)
    match found.1 with
    | .error e => return noted "rendezvous lookup" attempts (.error e)
    | .ok record =>
      -- absorbed before the attempt
      modify fun s => s.absorb record
      let direct := record.directHints
      if direct ≠ [] ∧ remaining c.opts c.resolved ≠ 0 then
        let r ← quic blake3 c c.discovered (direct.map .direct)
          (remaining c.opts c.discovered.elapsed)
        return noted "discovered address" attempts r
      else return (none, attempts)
  else return (none, attempts)

def tryOnion (c : Call S) (attempts : List String) :
    EStateM Error Climb (Option S × List String) := do
  let s ← get
  let onions := onionOnly s.peer.lastKnown
  match c.opts.socks with
  | none => return (none, attempts)
  | some socks =>
    if onions = [] then return (none, attempts)
    else
      let t ← ofExcept (fun e => e) (s.peer.ticket onions c.onion.made)
      modify fun s => s.did [.tor socks t]
      return noted "onion" attempts (dial t c.onion.checked c.onion.outcome)

def connect (c : Call S) : EStateM Error Climb (S × Path) := do
  let s ← get
  if c.loc = s.peer.identity.id blake3 then
    throw (.connect "this peer record is our own identity — a peer cannot connect to itself")
  else
    ofExcept (fun e => e) c.bound
    let (session, attempts) ← tryCached blake3 c
    match session with
    | some session => return (session, .cached)
    | none =>
      let (session, attempts) ← tryDiscovered pr u blake3 c attempts
      match session with
      | some session => return (session, .discovered)
      | none =>
        let (session, attempts) ← tryOnion c attempts
        match session with
        | some session => return (session, .onion)
        | none =>
          throw (.connect ("could not reach this peer. Tried:\n  - " ++
            "\n  - ".intercalate attempts ++
            "\nIf they are online, either they have not published an address since moving, " ++
            "or both sides are behind NATs that direct hole punching cannot cross."))

/-- What a call leaves, whether it connects or not. -/
def climb (p : PeerState) (c : Call S) : Climb :=
  match connect pr u blake3 c ⟨p, []⟩ with
  | .ok _ s => s
  | .error _ s => s

/-! ## One call after the other -/

/-- A call, what was remembered before it and after it, and what it did. -/
structure Event (S : Type) where
  call : Call S
  before : PeerState
  after : PeerState
  acts : List Act

def history : PeerState → List (Call S) → List (Event S)
  | _, [] => []
  | p, c :: calls =>
    let s := climb pr u blake3 p c
    ⟨c, p, s.peer, s.acts⟩ :: history s.peer calls

end Ladder

/-! ## What one call does -/

def accepted (acts : List Act) : List AddressRecord :=
  acts.filterMap fun
    | .accepted r => some r
    | _ => none

def asked (acts : List Act) : List (String × String) :=
  acts.filterMap fun
    | .asked name tag => some (name, tag)
    | _ => none

/-- A ticket names the identity that is pinned, and only places its transport can go to. -/
def Pinned (identity : IdentityBundle) : Act → Prop
  | .quic t _ => t.identity = identity ∧ ∀ h ∈ t.hints, (directOf h).isSome
  | .tor _ t => t.identity = identity ∧ ∀ h ∈ t.hints, (onionOf h).isSome
  | _ => True

@[simp]
theorem accepted_append (as bs : List Act) : accepted (as ++ bs) = accepted as ++ accepted bs :=
  List.filterMap_append

@[simp]
theorem asked_append (as bs : List Act) : asked (as ++ bs) = asked as ++ asked bs :=
  List.filterMap_append

@[simp]
theorem accepted_asked (l : List (String × String)) :
    accepted (l.map fun (name, tag) => .asked name tag) = [] := by
  simp [accepted]

@[simp]
theorem asked_asked (l : List (String × String)) :
    asked (l.map fun (name, tag) => .asked name tag) = l := by
  simp [asked]

section Steps

variable {S : Type} {pr : Primitives} {u : Unicode} {blake3 : Bytes → BundleId} {c : Call S}
  {p : PeerState} {s : Climb}

/-- Nothing was looked up yet. -/
structure Quiet (p : PeerState) (s : Climb) : Prop where
  peer : s.peer = p
  pinned : ∀ a ∈ s.acts, Pinned p.identity a
  accepted : accepted s.acts = []
  asked : asked s.acts = []

/-- At most one lookup was made, and what it found was taken. -/
structure Climbed (pr : Primitives) (u : Unicode) (blake3 : Bytes → BundleId) (c : Call S)
    (p : PeerState) (s : Climb) : Prop where
  identity : s.peer.identity = p.identity
  rendezvous : s.peer.rendezvous = p.rendezvous
  pinned : ∀ a ∈ s.acts, Pinned p.identity a
  looked : (accepted s.acts = [] ∧ asked s.acts = [] ∧ s.peer.newestSeen = p.newestSeen) ∨
    c.opts.useDiscovery = true ∧ c.loc ≠ p.identity.id blake3 ∧
      asked s.acts = (lookup pr u blake3 c p).2 ∧
      match (lookup pr u blake3 c p).1 with
      | .ok r => accepted s.acts = [r] ∧ s.peer.newestSeen = some r.seq
      | .error _ => accepted s.acts = [] ∧ s.peer.newestSeen = p.newestSeen

theorem Quiet.climbed (h : Quiet p s) : Climbed pr u blake3 c p s where
  identity := by rw [h.peer]
  rendezvous := by rw [h.peer]
  pinned := h.pinned
  looked := Or.inl ⟨h.accepted, h.asked, by rw [h.peer]⟩

theorem ticket_eq_ok {hints : List Endpoint} {now : Except Error UInt64} {t : Ticket}
    (h : p.ticket hints now = .ok t) :
    ∃ clock, now = .ok clock ∧ t = Ticket.new p.identity hints clock := by
  unfold PeerState.ticket at h
  cases now with
  | error e => cases h
  | ok now =>
    cases h
    exact ⟨now, rfl, rfl⟩

theorem quic_spec {a : Attempt S} {hints : List Endpoint} {budget : Nat}
    {Q : Except Error S → Climb → Prop} {E : Error → Climb → Prop}
    (herr : (∀ now, a.made ≠ .ok now) → ∀ e, E e s)
    (hok : ∀ now, a.made = .ok now →
      Q (rendezvousOn blake3 (Ticket.new s.peer.identity hints now) c.loc a.checked a.outcome)
        (s.did [.quic (Ticket.new s.peer.identity hints now) budget])) :
    wp (quic blake3 c a hints budget) Q E s := by
  unfold quic
  simp only [wp_bind, wp_get]
  refine wp_ofExcept (fun t ht => ?_) fun e he => herr ?_ e
  · obtain ⟨now, hnow, rfl⟩ := ticket_eq_ok ht
    simp only [wp_bind, wp_modify, wp_pure]
    exact hok now hnow
  · intro now hnow
    unfold PeerState.ticket at he
    rw [hnow] at he
    cases he

theorem Quiet.did_quic (h : Quiet p s) {t : Ticket} {budget : Nat}
    (ht : Pinned p.identity (.quic t budget)) : Quiet p (s.did [.quic t budget]) where
  peer := h.peer
  pinned a ha := by
    rcases List.mem_append.mp ha with ha | ha
    · exact h.pinned a ha
    · rw [List.mem_singleton.mp ha]
      exact ht
  accepted := by
    rw [Climb.did, accepted_append, h.accepted]
    rfl
  asked := by
    rw [Climb.did, asked_append, h.asked]
    rfl

theorem Climbed.did (h : Climbed pr u blake3 c p s) {a : Act} (ha : Pinned p.identity a)
    (hacc : accepted [a] = []) (hask : asked [a] = []) : Climbed pr u blake3 c p (s.did [a]) where
  identity := h.identity
  rendezvous := h.rendezvous
  pinned b hb := by
    rcases List.mem_append.mp hb with hb | hb
    · exact h.pinned b hb
    · rw [List.mem_singleton.mp hb]
      exact ha
  looked := by
    have hlooked := h.looked
    simp only [Climb.did, accepted_append, asked_append, hacc, hask, List.append_nil]
    exact hlooked

theorem tryCached_spec (h : Quiet p s) :
    wp (tryCached blake3 c) (fun _ => Quiet p) (fun _ => Quiet p) s := by
  unfold tryCached
  simp only [wp_bind, wp_get]
  split
  · exact h
  · simp only [wp_bind]
    refine quic_spec (fun _ _ => h) fun now _ => ?_
    refine h.did_quic ⟨by rw [h.peer]; rfl, ?_⟩
    intro hint hmem
    exact (List.mem_filter.mp hmem).2

theorem tryDiscovered_spec (h : Quiet p s) (hne : c.loc ≠ p.identity.id blake3)
    (attempts : List String) :
    wp (tryDiscovered pr u blake3 c attempts) (fun _ => Climbed pr u blake3 c p)
      (fun _ => Climbed pr u blake3 c p) s := by
  unfold tryDiscovered
  simp only [wp_bind, wp_get, h.peer]
  split
  · rename_i hlook
    simp only [wp_bind, wp_modify]
    have hpinned : ∀ a ∈ (s.did ((lookup pr u blake3 c p).2.map fun (name, tag) =>
        .asked name tag)).acts, Pinned p.identity a := by
      intro a ha
      rcases List.mem_append.mp ha with ha | ha
      · exact h.pinned a ha
      · obtain ⟨x, -, rfl⟩ := List.mem_map.mp ha
        trivial
    split
    · rename_i e he
      refine ⟨by simp [Climb.did, h.peer], by simp [Climb.did, h.peer], hpinned, Or.inr ?_⟩
      refine ⟨hlook.1, hne, ?_, ?_⟩
      · simp [Climb.did, h.asked]
      · rw [he]
        exact ⟨by simp [Climb.did, h.accepted], by simp [Climb.did, h.peer]⟩
    · rename_i r hr
      simp only [wp_bind, wp_modify]
      have hclimbed : Climbed pr u blake3 c p ((s.did ((lookup pr u blake3 c p).2.map
          fun (name, tag) => .asked name tag)).absorb r) := by
        refine ⟨?_, ?_, ?_, Or.inr ⟨hlook.1, hne, ?_, ?_⟩⟩
        · simp [Climb.absorb, Climb.did, PeerState.absorb, h.peer]
        · simp [Climb.absorb, Climb.did, PeerState.absorb, h.peer]
        · intro a ha
          rcases List.mem_append.mp ha with ha | ha
          · exact hpinned a ha
          · rw [List.mem_singleton.mp ha]
            trivial
        · simp [Climb.absorb, Climb.did, h.asked]
          rfl
        · rw [hr]
          refine ⟨?_, rfl⟩
          simp [Climb.absorb, Climb.did, h.accepted]
          rfl
      split
      · simp only [wp_bind]
        refine quic_spec (fun _ _ => hclimbed) fun now _ => ?_
        refine hclimbed.did ⟨hclimbed.identity, ?_⟩ rfl rfl
        intro hint hmem
        obtain ⟨a, -, rfl⟩ := List.mem_map.mp hmem
        rfl
      · exact hclimbed
  · exact h.climbed

theorem tryOnion_spec (h : Climbed pr u blake3 c p s) (attempts : List String) :
    wp (tryOnion c attempts) (fun _ => Climbed pr u blake3 c p)
      (fun _ => Climbed pr u blake3 c p) s := by
  unfold tryOnion
  simp only [wp_bind, wp_get]
  split
  · exact h
  · split
    · exact h
    · simp only [wp_bind]
      refine wp_ofExcept (fun t ht => ?_) fun e _ => h
      obtain ⟨now, -, rfl⟩ := ticket_eq_ok ht
      simp only [wp_bind, wp_modify, wp_pure]
      refine h.did ⟨h.identity, ?_⟩ rfl rfl
      intro hint hmem
      exact (List.mem_filter.mp hmem).2

theorem connect_spec (c : Call S) (p : PeerState) :
    wp (connect pr u blake3 c) (fun _ => Climbed pr u blake3 c p)
      (fun _ => Climbed pr u blake3 c p) ⟨p, []⟩ := by
  have hquiet : Quiet p ⟨p, []⟩ := ⟨rfl, by simp, rfl, rfl⟩
  unfold connect
  simp only [wp_bind, wp_get]
  split
  · exact hquiet.climbed
  · rename_i hne
    simp only [wp_bind]
    refine wp_ofExcept (fun _ _ => ?_) fun _ _ => hquiet.climbed
    rw [wp_bind]
    refine wp_mono (tryCached_spec hquiet) ?_ fun _ _ h => h.climbed
    rintro ⟨session, attempts⟩ s hs
    cases session with
    | some session => exact hs.climbed
    | none =>
      simp only [wp_bind]
      refine wp_mono (tryDiscovered_spec hs hne attempts) ?_ fun _ _ h => h
      rintro ⟨session, attempts⟩ s hs
      cases session with
      | some session => exact hs
      | none =>
        simp only [wp_bind]
        refine wp_mono (tryOnion_spec hs attempts) ?_ fun _ _ h => h
        rintro ⟨session, attempts⟩ s hs
        cases session with
        | some session => exact hs
        | none => exact hs

theorem climb_spec (c : Call S) (p : PeerState) :
    Climbed pr u blake3 c p (climb pr u blake3 p c) := by
  have h : wp (connect pr u blake3 c) (fun _ => Climbed pr u blake3 c p)
    (fun _ => Climbed pr u blake3 c p) ⟨p, []⟩ := connect_spec c p
  unfold climb
  cases hrun : connect pr u blake3 c ⟨p, []⟩ with
  | ok r s =>
    have hs := wp_of_ok h hrun
    exact hs
  | error e s =>
    have hs := wp_of_error h hrun
    exact hs

end Steps

/-! ## Every call -/

/-- What a holder of a secret sealed for a slot of it. -/
structure Sealing where
  id : Discovery.SlotId
  nonce : Bytes
  plaintext : Bytes

/-- What a substrate serves and opens with the data of one of these slots was sealed with that
data, by someone of `log`. -/
def Unforged (pr : Primitives) (log : List Sealing) (ids : List Discovery.SlotId)
    (subs : List Substrate) : Prop :=
  ∀ i ∈ ids, ∀ sub ∈ subs, ∀ n tag bytes plaintext, sub.get n tag = .ok (some bytes) →
    pr.decrypt (i.slot pr).key.toList (bytes.take NONCE_LEN) (aadFor (i.slot pr))
      (bytes.drop NONCE_LEN) = some plaintext →
    ∃ s ∈ log, aadFor (s.id.slot pr) = aadFor (i.slot pr) ∧ s.nonce = bytes.take NONCE_LEN ∧
      s.plaintext = plaintext

section Safety

variable {S : Type}

/-- The slots of the peer that a call looks into. -/
def lookedInto (blake3 : Bytes → BundleId) (p : PeerState) (c : Call S) : List Discovery.SlotId :=
  match c.clock with
  | .error _ => []
  | .ok now =>
    Discovery.lookupIds p.rendezvous (Direction.publishing (p.identity.id blake3) c.loc) now

/-- What a substrate has to offer that is newer than what was seen before the call. -/
def Event.offers (pr : Primitives) (u : Unicode) (blake3 : Bytes → BundleId) (e : Event S)
    (now : UInt64) (sub : Substrate) : List (Option AddressRecord) :=
  Discovery.offers pr u now e.before.newestSeen sub 0 (lookupSlots pr e.before.rendezvous
    (Direction.publishing (e.before.identity.id blake3) e.call.loc) now)

/-- The record `r` was taken in the call `e`, at the time `now`. -/
structure Taken (pr : Primitives) (u : Unicode) (blake3 : Bytes → BundleId) (log : List Sealing)
    (e : Event S) (r : AddressRecord) (now : UInt64) : Prop where
  newer : r.supersedes e.before.newestSeen = true
  remembered : e.after.newestSeen = some r.seq
  live : now < r.notAfter
  lifetime : r.notAfter ≤ saturatingAdd now MAX_TTL_SECS
  sealedByPair : ∃ s ∈ log, s.id ∈ Discovery.lookupIds e.before.rendezvous
    (Direction.publishing (e.before.identity.id blake3) e.call.loc) now ∧
    AddressRecord.fromPlaintext u s.plaintext = .ok r
  newest : ∃ before sub after,
    Discovery.shuffled e.call.substrates e.call.noise = .ok (before ++ sub :: after) ∧
    (∀ s ∈ before, ∀ o ∈ e.offers pr u blake3 now s, o = none) ∧
    some r ∈ e.offers pr u blake3 now sub ∧
    ∀ b, some b ∈ e.offers pr u blake3 now sub → b.seq ≤ r.seq

structure Safe (pr : Primitives) (u : Unicode) (blake3 : Bytes → BundleId) (log : List Sealing)
    (p : PeerState) (e : Event S) : Prop where
  identity : e.before.identity = p.identity ∧ e.after.identity = p.identity
  rendezvous : e.before.rendezvous = p.rendezvous ∧ e.after.rendezvous = p.rendezvous
  rises : ∀ seen, e.before.newestSeen = some seen →
    ∃ seen', e.after.newestSeen = some seen' ∧ seen ≤ seen'
  taken : ∀ r ∈ accepted e.acts, ∃ now, e.call.clock = .ok now ∧
    Taken pr u blake3 log e r now
  missed : asked e.acts ≠ [] → accepted e.acts = [] → ∃ now, e.call.clock = .ok now ∧
    ∀ sub ∈ e.call.substrates, ∀ o ∈ e.offers pr u blake3 now sub, o = none
  pinned : ∀ a ∈ e.acts, Pinned p.identity a
  refused : e.call.opts.useDiscovery = false → asked e.acts = []

variable {pr : Primitives} {u : Unicode} {blake3 : Bytes → BundleId} {log : List Sealing}
  {p : PeerState} {c : Call S}

theorem offer_eq_some_of_mem {e : Event S} {now : UInt64} {sub : Substrate} {r : AddressRecord}
    (h : some r ∈ e.offers pr u blake3 now sub) : ∃ i ∈ Discovery.lookupIds e.before.rendezvous
      (Direction.publishing (e.before.identity.id blake3) e.call.loc) now, ∃ n bytes,
      sub.get n (i.slot pr).tagHex = .ok (some bytes) ∧
      AddressRecord.openAt pr u bytes (i.slot pr) now = .ok r ∧
      r.supersedes e.before.newestSeen = true := by
  obtain ⟨k, slot, hk, hoffer⟩ := Discovery.mem_offers.mp h
  obtain ⟨bytes, hanswer, hopen, hsup⟩ := Discovery.offer_eq_some hoffer.symm
  obtain ⟨i, hi, rfl⟩ := List.mem_map.mp
    (List.mem_of_getElem? hk : slot ∈ (Discovery.lookupIds e.before.rendezvous
      (Direction.publishing (e.before.identity.id blake3) e.call.loc) now).map
        (Discovery.SlotId.slot pr))
  exact ⟨i, hi, _, bytes, hanswer, hopen, hsup⟩

theorem aadFor_injective {s s' : Slot} (h : aadFor s = aadFor s') : s.tag = s'.tag :=
  List.Vector.eq _ _ (List.append_cancel_left h)

/-- The event of a call. -/
def event (pr : Primitives) (u : Unicode) (blake3 : Bytes → BundleId) (p : PeerState) (c : Call S) :
    Event S :=
  ⟨c, p, (climb pr u blake3 p c).peer, (climb pr u blake3 p c).acts⟩

theorem event_taken {ids : List Discovery.SlotId}
    (htags : Discovery.DistinctTags pr (log.map Sealing.id ++ ids))
    (hids : ∀ i ∈ lookedInto blake3 p c, i ∈ ids)
    (hseal : Unforged pr log (lookedInto blake3 p c) c.substrates) {r : AddressRecord}
    (hr : r ∈ accepted (event pr u blake3 p c).acts) :
    ∃ now, c.clock = .ok now ∧ Taken pr u blake3 log (event pr u blake3 p c) r now := by
  have hclimbed : Climbed pr u blake3 c p (climb pr u blake3 p c) := climb_spec c p
  change r ∈ accepted (climb pr u blake3 p c).acts at hr
  rcases hclimbed.looked with ⟨hnone, -, -⟩ | ⟨-, hne, -, hfound⟩
  · rw [hnone] at hr
    cases hr
  · split at hfound
    · rename_i r' hr'
      obtain ⟨hacc, hfloor⟩ := hfound
      rw [hacc, List.mem_singleton] at hr
      subst hr
      obtain ⟨now, order, hnow, horder, hlook⟩ := Discovery.resolve_ok hr'
      rw [← Direction.publishing_swap hne] at hlook
      obtain ⟨before, sub, after, rfl, hbefore, hoffer, hmax⟩ := Discovery.lookThrough_ok hlook
      have hoffered : some r ∈ (event pr u blake3 p c).offers pr u blake3 now sub := hoffer
      obtain ⟨i, hi, n, bytes, hget, hopen, hsup⟩ := offer_eq_some_of_mem hoffered
      obtain ⟨plaintext, hplain, hread, hlive, hshort⟩ := AddressRecord.openAt_eq_ok hopen
      have hsub : sub ∈ c.substrates :=
        (Discovery.shuffled_perm horder).mem_iff.mp (List.mem_append_right _ List.mem_cons_self)
      have hi' : i ∈ lookedInto blake3 p c := by
        unfold lookedInto
        rw [hnow]
        exact hi
      obtain ⟨s, hs, haad, -, htext⟩ := hseal i hi' sub hsub _ _ _ _ hget hplain
      have hid : s.id = i := htags _ (List.mem_append_left _ (List.mem_map_of_mem hs)) _
        (List.mem_append_right _ (hids i hi')) (aadFor_injective haad)
      refine ⟨now, hnow, hsup, hfloor, hlive, hshort, ?_, ?_⟩
      · exact ⟨s, hs, hid ▸ hi, by rw [htext, hread]⟩
      · exact ⟨before, sub, after, horder, hbefore, hoffer, hmax⟩
    · rw [hfound.1] at hr
      cases hr

theorem event_missed (hasked : asked (event pr u blake3 p c).acts ≠ [])
    (hnone : accepted (event pr u blake3 p c).acts = []) : ∃ now, c.clock = .ok now ∧
      ∀ sub ∈ c.substrates, ∀ o ∈ (event pr u blake3 p c).offers pr u blake3 now sub, o = none := by
  have hclimbed : Climbed pr u blake3 c p (climb pr u blake3 p c) := climb_spec c p
  change asked (climb pr u blake3 p c).acts ≠ [] at hasked
  change accepted (climb pr u blake3 p c).acts = [] at hnone
  rcases hclimbed.looked with ⟨-, hquiet, -⟩ | ⟨-, hne, heq, hfound⟩
  · exact absurd hquiet hasked
  · split at hfound
    · rw [hfound.1] at hnone
      cases hnone
    · rename_i e he
      rw [heq] at hasked
      obtain ⟨now, hnow, hall⟩ := Discovery.resolve_error he hasked
      rw [← Direction.publishing_swap hne] at hall
      exact ⟨now, hnow, hall⟩

theorem event_rises (pr : Primitives) (u : Unicode) (blake3 : Bytes → BundleId) (p : PeerState)
    (c : Call S) : Rises (p.newestSeen.map UInt64.toNat)
    ((accepted (climb pr u blake3 p c).acts).map fun r => r.seq.toNat)
    ((climb pr u blake3 p c).peer.newestSeen.map UInt64.toNat) := by
  have hclimbed : Climbed pr u blake3 c p (climb pr u blake3 p c) := climb_spec c p
  rcases hclimbed.looked with ⟨hnone, -, hfloor⟩ | ⟨-, -, -, hfound⟩
  · rw [hnone, hfloor]
    exact Rises.stay _
  · split at hfound
    · rename_i r hr
      rw [hfound.1, hfound.2]
      obtain ⟨now, order, -, -, hlook⟩ := Discovery.resolve_ok hr
      obtain ⟨-, sub, -, -, -, hoffer, -⟩ := Discovery.lookThrough_ok hlook
      obtain ⟨k, slot, -, hoffer⟩ := Discovery.mem_offers.mp hoffer
      obtain ⟨-, -, -, hsup⟩ := Discovery.offer_eq_some hoffer.symm
      refine Rises.one ?_
      intro b hb
      obtain ⟨seen, hseen, rfl⟩ := Option.map_eq_some_iff.mp hb
      rw [hseen] at hsup
      exact UInt64.lt_iff_toNat_lt.mp (of_decide_eq_true hsup)
    · rw [hfound.1, hfound.2]
      exact Rises.stay _

theorem event_safe {q : PeerState} (hid : q.identity = p.identity)
    (hsecret : q.rendezvous = p.rendezvous) {ids : List Discovery.SlotId}
    (htags : Discovery.DistinctTags pr (log.map Sealing.id ++ ids))
    (hids : ∀ i ∈ lookedInto blake3 p c, i ∈ ids)
    (hseal : Unforged pr log (lookedInto blake3 p c) c.substrates) :
    Safe pr u blake3 log p (event pr u blake3 q c) := by
  have hclimbed : Climbed pr u blake3 c q (climb pr u blake3 q c) := climb_spec c q
  have hlooked : lookedInto blake3 q c = lookedInto blake3 p c := by
    unfold lookedInto
    rw [hid, hsecret]
  rw [← hlooked] at hids hseal
  refine ⟨⟨hid, hclimbed.identity.trans hid⟩, ⟨hsecret, hclimbed.rendezvous.trans hsecret⟩, ?_, ?_,
    event_missed, ?_, ?_⟩
  · intro seen hseen
    change q.newestSeen = some seen at hseen
    obtain ⟨b, hb, hle⟩ := (event_rises pr u blake3 q c).le seen.toNat (by rw [hseen]; rfl)
    obtain ⟨seen', hseen', rfl⟩ := Option.map_eq_some_iff.mp hb
    exact ⟨seen', hseen', UInt64.le_iff_toNat_le.mpr hle⟩
  · exact fun r hr => event_taken htags hids hseal hr
  · rw [← hid]
    exact hclimbed.pinned
  · intro hoff
    change c.opts.useDiscovery = false at hoff
    rcases hclimbed.looked with ⟨-, hquiet, -⟩ | ⟨hon, -, -, -⟩
    · exact hquiet
    · rw [hoff] at hon
      cases hon

theorem history_rises (pr : Primitives) (u : Unicode) (blake3 : Bytes → BundleId)
    (calls : List (Call S)) (p : PeerState) :
    ∃ g, Rises (p.newestSeen.map UInt64.toNat)
      (((history pr u blake3 p calls).flatMap fun e => accepted e.acts).map fun r => r.seq.toNat)
      g := by
  induction calls generalizing p with
  | nil => exact ⟨_, Rises.stay _⟩
  | cons c calls ih =>
    obtain ⟨g, hg⟩ := ih (climb pr u blake3 p c).peer
    refine ⟨g, ?_⟩
    unfold history
    rw [List.flatMap_cons, List.map_append]
    exact (event_rises pr u blake3 p c).trans hg

/-- **Reach safety.** In any sequence of calls for one peer, whatever the substrates answer and
whatever comes of the attempts. -/
theorem reach_safe (calls : List (Call S)) (p : PeerState)
    (htags : Discovery.DistinctTags pr (log.map Sealing.id ++ calls.flatMap (lookedInto blake3 p)))
    (hseal : ∀ c ∈ calls, Unforged pr log (lookedInto blake3 p c) c.substrates) :
    (((history pr u blake3 p calls).flatMap fun e => accepted e.acts).Pairwise
      fun a b => a.seq < b.seq) ∧
    ∀ e ∈ history pr u blake3 p calls, Safe pr u blake3 log p e := by
  constructor
  · obtain ⟨g, hg⟩ := history_rises pr u blake3 calls p
    exact (List.pairwise_map.mp hg.pairwise).imp UInt64.lt_iff_toNat_lt.mpr
  · have hsafe : ∀ (calls' : List (Call S)) (q : PeerState), (∀ c ∈ calls', c ∈ calls) →
        q.identity = p.identity → q.rendezvous = p.rendezvous →
        ∀ e ∈ history pr u blake3 q calls', Safe pr u blake3 log p e := by
      intro calls'
      induction calls' with
      | nil =>
        intro q _ _ _ e he
        cases he
      | cons c calls' ih =>
        intro q hcalls hid hsecret e he
        have hc := hcalls c List.mem_cons_self
        have hclimbed : Climbed pr u blake3 c q (climb pr u blake3 q c) := climb_spec c q
        rcases List.mem_cons.mp he with rfl | he
        · exact event_safe hid hsecret htags
            (fun i hi => List.mem_flatMap.mpr ⟨c, hc, hi⟩) (hseal c hc)
        · exact ih _ (fun c hc => hcalls c (List.mem_cons_of_mem _ hc))
            (hclimbed.identity.trans hid) (hclimbed.rendezvous.trans hsecret) e he
    exact hsafe calls p (fun c hc => hc) rfl rfl

/-! ### A record, and its replay -/

def sampleSlot : Discovery.SlotId :=
  ⟨Discovery.sampleSecret, Direction.publishing Discovery.samplePeer Discovery.sampleReader,
    epochAt Discovery.sampleNow⟩

def sampleSealed : Bytes :=
  match Discovery.sampleRecord.sealFor samplePrimitives (sampleSlot.slot samplePrimitives)
    ⟨.ok (List.Vector.replicate _ 0), .ok (List.Vector.replicate _ 0)⟩ with
  | .ok bytes => bytes
  | .error _ => []

def sampleLog : List Sealing :=
  [⟨sampleSlot, List.replicate NONCE_LEN 0,
    Discovery.sampleRecord.padded (List.Vector.replicate _ 0)⟩]

/-- The same record under every label. -/
def sampleSubstrate : Substrate := ⟨"rdv", fun _ => none, fun _ _ => .ok (some sampleSealed)⟩

def sampleAttempt : Attempt Unit := ⟨.ok Discovery.sampleNow, .ok Discovery.sampleNow, 0,
  .error (.connect "no attempt completed")⟩

def sampleCall : Call Unit :=
  ⟨Discovery.sampleReader, ⟨120 * 10 ^ 9, none, true⟩, [sampleSubstrate], .ok (), sampleAttempt, 0,
    .ok Discovery.sampleNow, .ok fun _ => 0, 0, sampleAttempt, sampleAttempt⟩

def sampleState : PeerState := ⟨⟨⟨List.replicate 32 1⟩, none⟩, Discovery.sampleSecret, [], none⟩

def sampleHistory : List (Event Unit) :=
  history samplePrimitives sampleUnicode (fun _ => Discovery.samplePeer) sampleState
    [sampleCall, sampleCall]

theorem sampleUnforged : Unforged samplePrimitives sampleLog
    (lookedInto (fun _ => Discovery.samplePeer) sampleState sampleCall) [sampleSubstrate] := by
  have hall : ∀ i ∈ lookedInto (fun _ => Discovery.samplePeer) sampleState sampleCall,
      ∀ plaintext ∈ samplePrimitives.decrypt (i.slot samplePrimitives).key.toList
        (sampleSealed.take NONCE_LEN) (aadFor (i.slot samplePrimitives))
        (sampleSealed.drop NONCE_LEN),
      ∃ s ∈ sampleLog, aadFor (s.id.slot samplePrimitives) = aadFor (i.slot samplePrimitives) ∧
        s.nonce = sampleSealed.take NONCE_LEN ∧ s.plaintext = plaintext := by
    decide +kernel
  intro i hi sub hsub n tag bytes plaintext hget hplain
  rw [List.mem_singleton.mp hsub] at hget
  cases hget
  exact hall i hi plaintext hplain

theorem reach_safe_replay :
    (sampleHistory.map fun e => accepted e.acts) = [[Discovery.sampleRecord], []] ∧
    ∀ e ∈ sampleHistory, Safe samplePrimitives sampleUnicode (fun _ => Discovery.samplePeer)
      sampleLog sampleState e :=
  ⟨by decide +kernel, (reach_safe [sampleCall, sampleCall] sampleState (by decide +kernel)
    fun c hc => by
      have heq : c = sampleCall := by simpa using hc
      exact heq ▸ sampleUnforged).2⟩

end Safety

end Reach

end AtomVault.Live
