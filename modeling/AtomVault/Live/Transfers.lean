import AtomVault.Lib.Machine
import AtomVault.Live.Auth
import AtomVault.Live.Peers

/-!
# One transfer after the other (`run_transfer`)

A run reads what is stored of the peer, reaches them, transfers, and writes back what it
learned. Any step of it can fail.
-/

open Lib

namespace AtomVault.Live.Transfers

open Reach Discovery

/-! ## A run -/

structure World where
  file : PeersFile
  acts : List Act

/-- All that a run meets. `reads n` is how the `n`th reading of the file goes, and `call` is
what the reaching meets. -/
structure Execution (S T : Type) where
  reads : Nat → Reading
  me : Except Failure BundleId
  build : RendezvousEndpoint → Except Failure Substrate
  call : Call S
  transfer : Except Error T
  write : Write

def RENDEZVOUS_TIMEOUT : Nat := 120 * 10 ^ 9

section Run

variable {S T : Type} (pr : Primitives) (u : Unicode) (tx : Texts) (blake3 : Bytes → BundleId)
  (nick : String)

def storedPeer (s : LiveState) : Except Failure LivePeer :=
  match s.peer nick with
  | some p => .ok p
  | none => .error (.text s!"No peer named '{nick}'. Run 'atom live pair' first.")

/-- The call that the stored state leads to. -/
def prepare (x : Execution S T) (f : PeersFile) : Except Failure (Call S × PeerState) := do
  let state ← loadState (x.reads 0) f
  let peer ← storedPeer nick (← loadState (x.reads 1) f)
  let me ← x.me
  let _bind ← bindAddress u tx (← loadState (x.reads 2) f)
  let discovery ← discoveryFrom x.build state
  let ps ← peerState u tx blake3 peer
  let opts : Options := ⟨RENDEZVOUS_TIMEOUT, none, !discovery.isEmpty⟩
  return ({ x.call with loc := me, opts := opts, substrates := discovery }, ps)

def reach (c : Call S) (ps : PeerState) : EStateM Failure World ((S × Path) × PeerState) :=
  match connect pr u blake3 c ⟨ps, []⟩ with
  | .ok r s => do
    modify fun w => { w with acts := w.acts ++ s.acts }
    return (r, s.peer)
  | .error e s => do
    modify fun w => { w with acts := w.acts ++ s.acts }
    throw (.live e)

def remember (x : Execution S T) (learned : PeerState) : EStateM Failure World Unit := do
  let w ← get
  let state ← ofExcept (fun e => e) (loadState (x.reads 3) w.file)
  match state.peer nick with
  | none => return ()
  | some _ =>
    let (r, file) := saveState (state.learn tx nick learned) w.file x.write
    modify fun w => { w with file := file }
    ofExcept (fun e => e) r

def runTransfer (x : Execution S T) : EStateM Failure World T := do
  let w ← get
  let (c, ps) ← ofExcept (fun e => e) (prepare u tx blake3 nick x w.file)
  let (_, learned) ← reach pr u blake3 c ps
  let summary ← ofExcept .live x.transfer
  -- only a transfer that went through gets here
  remember tx nick x learned
  return summary

/-- What a run leaves, however it ends. -/
def after (x : Execution S T) (f : PeersFile) : World :=
  match runTransfer pr u tx blake3 nick x ⟨f, []⟩ with
  | .ok _ w => w
  | .error _ w => w

/-- The records that a sequence of runs takes. -/
def taken : PeersFile → List (Execution S T) → List AddressRecord
  | _, [] => []
  | f, x :: xs =>
    let w := after pr u tx blake3 nick x f
    accepted w.acts ++ taken w.file xs

end Run

/-! ## When a session follows a lookup -/

section Sessions

variable {S : Type} {pr : Primitives} {u : Unicode} {blake3 : Bytes → BundleId} {c : Call S}
  {p : PeerState} {s : Climb}

/-- What is remembered leads nowhere, and something is asked. -/
structure Consulted (blake3 : Bytes → BundleId) (c : Call S) (p : PeerState) : Prop where
  other : c.loc ≠ p.identity.id blake3
  bound : c.bound = .ok ()
  missed : directOnly p.lastKnown = [] ∨ ∃ now e, c.cached.made = .ok now ∧
    rendezvousOn blake3 (Ticket.new p.identity (directOnly p.lastKnown) now) c.loc
      c.cached.checked c.cached.outcome = .error e
  asked : c.opts.useDiscovery = true ∧ c.substrates ≠ [] ∧ remaining c.opts c.elapsed ≠ 0

/-- The attempt at the addresses of `r` is made, and leads to a session. -/
def Met (blake3 : Bytes → BundleId) (c : Call S) (p : PeerState) (r : AddressRecord) : Prop :=
  (r.directHints ≠ [] ∧ remaining c.opts c.resolved ≠ 0) ∧
    (p.ticket (r.directHints.map .direct) c.discovered.made >>= fun t =>
      rendezvousOn blake3 t c.loc c.discovered.checked c.discovered.outcome).isOk = true

instance (r : AddressRecord) : Decidable (Met blake3 c p r) := inferInstanceAs (Decidable (_ ∧ _))

theorem tryCached_missed (h : Quiet p s) : wp (tryCached blake3 c)
    (fun r s' => Quiet p s' ∧ (r.1 = none → directOnly p.lastKnown = [] ∨ ∃ now e,
      c.cached.made = .ok now ∧ rendezvousOn blake3 (Ticket.new p.identity
        (directOnly p.lastKnown) now) c.loc c.cached.checked c.cached.outcome = .error e))
    (fun _ => Quiet p) s := by
  unfold tryCached
  simp only [wp_bind, wp_get, h.peer]
  split
  · rename_i hnil
    exact ⟨h, fun _ => Or.inl hnil⟩
  · simp only [wp_bind]
    refine quic_spec (fun _ _ => h) fun now hnow => ?_
    rw [h.peer, wp_pure]
    refine ⟨h.did_quic ⟨rfl, fun hint hmem => (List.mem_filter.mp hmem).2⟩, fun hnone => ?_⟩
    right
    cases hr : rendezvousOn blake3 (Ticket.new p.identity (directOnly p.lastKnown) now) c.loc
      c.cached.checked c.cached.outcome with
    | ok session =>
      rw [hr] at hnone
      cases hnone
    | error e => exact ⟨now, e, hnow, hr⟩

theorem tryDiscovered_taken (h : Quiet p s) (hother : c.loc ≠ p.identity.id blake3)
    (hbound : c.bound = .ok ()) (hmissed : directOnly p.lastKnown = [] ∨ ∃ now e,
      c.cached.made = .ok now ∧ rendezvousOn blake3 (Ticket.new p.identity
        (directOnly p.lastKnown) now) c.loc c.cached.checked c.cached.outcome = .error e)
    (attempts : List String) : wp (tryDiscovered pr u blake3 c attempts)
    (fun r s' => accepted s'.acts = [] ∨ ∃ record, Consulted blake3 c p ∧
      (lookup pr u blake3 c p).1 = .ok record ∧ (r.1 = none → ¬ Met blake3 c p record))
    (fun _ s' => accepted s'.acts = [] ∨ ∃ record, Consulted blake3 c p ∧
      (lookup pr u blake3 c p).1 = .ok record ∧ ¬ Met blake3 c p record) s := by
  unfold tryDiscovered
  simp only [wp_bind, wp_get, h.peer]
  split
  · rename_i hasked
    have hconsulted : Consulted blake3 c p := ⟨hother, hbound, hmissed, hasked⟩
    simp only [wp_bind, wp_modify]
    split
    · left
      simp [Climb.did, h.accepted]
    · rename_i record hrecord
      simp only [wp_bind, wp_modify]
      split
      · simp only [wp_bind]
        refine quic_spec (fun hmade _ => ?_) fun now hnow => ?_
        · refine Or.inr ⟨record, hconsulted, hrecord, ?_⟩
          rintro ⟨-, hmet⟩
          unfold PeerState.ticket at hmet
          cases hclock : c.discovered.made with
          | ok now => exact hmade now hclock
          | error e =>
            rw [hclock] at hmet
            cases hmet
        · rw [wp_pure]
          refine Or.inr ⟨record, hconsulted, hrecord, fun hnone => ?_⟩
          rintro ⟨-, hmet⟩
          have hpinned : ∀ asked, ((s.did asked).absorb record).peer.identity = p.identity := by
            simp [Climb.absorb, Climb.did, PeerState.absorb, h.peer]
          unfold PeerState.ticket at hmet
          rw [hnow] at hmet
          rw [hpinned] at hnone
          change (rendezvousOn blake3 _ c.loc c.discovered.checked
            c.discovered.outcome).isOk = true at hmet
          cases hr : rendezvousOn blake3 (Ticket.new p.identity (record.directHints.map .direct) now)
              c.loc c.discovered.checked c.discovered.outcome with
          | ok session =>
            rw [hr] at hnone
            cases hnone
          | error e =>
            rw [hr] at hmet
            cases hmet
      · rename_i hnot
        refine Or.inr ⟨record, hconsulted, hrecord, fun _ hmet => ?_⟩
        exact hnot hmet.1
  · exact Or.inl h.accepted

variable (pr u blake3) in
/-- Without a proxy, a call that takes a record and ends in an error has not met the peer. -/
theorem connect_taken (hsocks : c.opts.socks = none) (p : PeerState) :
    wp (connect pr u blake3 c)
      (fun _ s => accepted s.acts = [] ∨ ∃ record, Consulted blake3 c p ∧
        (lookup pr u blake3 c p).1 = .ok record)
      (fun _ s => accepted s.acts = [] ∨ ∃ record, Consulted blake3 c p ∧
        (lookup pr u blake3 c p).1 = .ok record ∧ ¬ Met blake3 c p record) ⟨p, []⟩ := by
  have hquiet : Quiet p ⟨p, []⟩ := ⟨rfl, by simp, rfl, rfl⟩
  unfold connect
  simp only [wp_bind, wp_get]
  split
  · exact Or.inl rfl
  · rename_i hother
    simp only [wp_bind]
    refine wp_ofExcept (fun _ hbound => ?_) fun _ _ => Or.inl rfl
    rw [wp_bind]
    refine wp_mono (tryCached_missed hquiet) ?_ fun _ _ h => Or.inl h.accepted
    rintro ⟨session, attempts⟩ s ⟨hs, hmissed⟩
    cases session with
    | some session => exact Or.inl hs.accepted
    | none =>
      simp only [wp_bind]
      refine wp_mono (tryDiscovered_taken hs hother hbound (hmissed rfl) attempts) ?_ fun _ _ h => h
      rintro ⟨session, attempts⟩ s hs
      cases session with
      | some session =>
        refine hs.imp_right ?_
        rintro ⟨record, hconsulted, hrecord, -⟩
        exact ⟨record, hconsulted, hrecord⟩
      | none =>
        have hfailed : accepted s.acts = [] ∨ ∃ record, Consulted blake3 c p ∧
            (lookup pr u blake3 c p).1 = .ok record ∧ ¬ Met blake3 c p record := by
          refine hs.imp_right ?_
          rintro ⟨record, hconsulted, hrecord, hnot⟩
          exact ⟨record, hconsulted, hrecord, hnot rfl⟩
        unfold tryOnion
        simp only [wp_bind, wp_get, hsocks]
        exact hfailed

end Sessions

/-! ## The stored floor -/

section Floor

variable {S T : Type} {pr : Primitives} {u : Unicode} {tx : Texts} {blake3 : Bytes → BundleId}
  {nick : String} {x : Execution S T} {f : PeersFile}

/-- The newest record of the peer that the file knows of. -/
def floorOf (nick : String) : PeersFile → Option Nat
  | .holds s => (s.peer nick).bind fun p => p.newestSeen.map UInt64.toNat
  | _ => none

def seqs (acts : List Act) : List Nat := (accepted acts).map fun r => r.seq.toNat

/-- If the lookup of a run is made and finds a record, then the peer is met where it says, the
transfer goes through, and the file is read once more and not left as it is. -/
def Lossless (pr : Primitives) (u : Unicode) (tx : Texts) (blake3 : Bytes → BundleId)
    (nick : String) (f : PeersFile) (x : Execution S T) : Prop :=
  ∀ c ps, prepare u tx blake3 nick x f = .ok (c, ps) → Consulted blake3 c ps →
    ∀ r, (lookup pr u blake3 c ps).1 = .ok r → Met blake3 c ps r ∧
      x.transfer.isOk = true ∧ (x.reads 3).reads = .ok () ∧ ∀ e, x.write ≠ .unopened e

theorem peer_learn (s : LiveState) (nick : String) (learned : PeerState) :
    (s.learn tx nick learned).peer nick = (s.peer nick).map fun p =>
      { p with lastKnown := learned.lastKnown.map (showEndpoint tx)
               newestSeen := learned.newestSeen } := by
  unfold LiveState.learn LiveState.peer
  refine find?_modify (g := fun p => { p with
    lastKnown := learned.lastKnown.map (showEndpoint tx), newestSeen := learned.newestSeen }) ?_ s.peers
  intro p hp
  exact hp

theorem peerState_newestSeen {p : LivePeer} {ps : PeerState}
    (h : peerState u tx blake3 p = .ok ps) : ps.newestSeen = p.newestSeen := by
  unfold peerState at h
  obtain ⟨ticket, -, h⟩ := of_bind_eq_ok h
  split at h
  · cases h
  · obtain ⟨known, -, h⟩ := of_bind_eq_ok h
    obtain ⟨secret, -, h⟩ := of_bind_eq_ok h
    cases h
    rfl

theorem prepare_eq_ok {c : Call S} {ps : PeerState} (h : prepare u tx blake3 nick x f = .ok (c, ps)) :
    c.opts.socks = none ∧ floorOf nick f = ps.newestSeen.map UInt64.toNat ∧
      ∃ s p, f = .holds s ∧ s.peer nick = some p := by
  unfold prepare at h
  obtain ⟨state, -, h⟩ := of_bind_eq_ok h
  obtain ⟨state', hstate', h⟩ := of_bind_eq_ok h
  obtain ⟨peer, hpeer, h⟩ := of_bind_eq_ok h
  obtain ⟨me, -, h⟩ := of_bind_eq_ok h
  obtain ⟨state'', -, h⟩ := of_bind_eq_ok h
  obtain ⟨port, -, h⟩ := of_bind_eq_ok h
  obtain ⟨discovery, -, h⟩ := of_bind_eq_ok h
  obtain ⟨ps', hps, h⟩ := of_bind_eq_ok h
  cases h
  have hpeer' : state'.peer nick = some peer := by
    unfold storedPeer at hpeer
    split at hpeer
    · rename_i p hp
      cases hpeer
      exact hp
    · cases hpeer
  rcases loadState_eq_ok hstate' with ⟨-, rfl⟩ | rfl
  · cases hpeer'
  · refine ⟨rfl, ?_, state', peer, rfl, hpeer'⟩
    simp [floorOf, hpeer', peerState_newestSeen hps]

/-- The floor has risen through what was taken, or nothing can be read any more. -/
def Kept (nick : String) (f : PeersFile) (w : World) : Prop :=
  ∃ g, Rises (floorOf nick f) (seqs w.acts) g ∧ (floorOf nick w.file = g ∨ w.file = .broken)

theorem kept_of_nothing {w : World} (hfile : w.file = f) (hacts : accepted w.acts = []) :
    Kept nick f w := by
  refine ⟨floorOf nick f, ?_, Or.inl (by rw [hfile])⟩
  unfold seqs
  rw [hacts]
  exact Rises.stay _

theorem remember_kept {w : World} {ps learned : PeerState} (hfile : w.file = f)
    (hfloor : floorOf nick f = ps.newestSeen.map UInt64.toNat)
    (hpeer : ∃ s p, f = .holds s ∧ s.peer nick = some p)
    (hrises : Rises (ps.newestSeen.map UInt64.toNat) (seqs w.acts)
      (learned.newestSeen.map UInt64.toNat))
    (hdone : accepted w.acts = [] ∨ (x.reads 3).reads = .ok () ∧ ∀ e, x.write ≠ .unopened e) :
    wp (remember tx nick x learned) (fun _ => Kept nick f) (fun _ => Kept nick f) w := by
  obtain ⟨s, p, rfl, hp⟩ := hpeer
  have hnothing : accepted w.acts = [] → Kept nick (.holds s) w := kept_of_nothing hfile
  unfold remember
  simp only [wp_bind, wp_get, hfile]
  refine wp_ofExcept (fun state hstate => ?_) fun e he => ?_
  · obtain rfl := loadState_holds hstate
    simp only [hp, wp_bind, wp_modify]
    cases hwrite : x.write with
    | through =>
      refine ⟨_, hfloor ▸ hrises, Or.inl ?_⟩
      simp [saveState, floorOf, peer_learn, hp]
    | unopened e =>
      have hacts : accepted w.acts = [] := hdone.resolve_right fun h => h.2 e hwrite
      exact kept_of_nothing rfl hacts
    | cut e => exact ⟨_, hfloor ▸ hrises, Or.inr rfl⟩
  · refine hnothing (hdone.resolve_right fun h => ?_)
    unfold loadState at he
    rw [h.1] at he
    cases he

theorem runTransfer_kept (h : Lossless pr u tx blake3 nick f x) :
    wp (runTransfer pr u tx blake3 nick x) (fun _ => Kept nick f) (fun _ => Kept nick f)
      ⟨f, []⟩ := by
  unfold runTransfer
  simp only [wp_bind, wp_get]
  refine wp_ofExcept ?_ fun _ _ => kept_of_nothing rfl rfl
  rintro ⟨c, ps⟩ hprepare
  obtain ⟨hsocks, hfloor, hpeer⟩ := prepare_eq_ok hprepare
  have htaken := connect_taken pr u blake3 hsocks ps
  simp only [wp_bind]
  unfold reach
  cases hrun : connect pr u blake3 c ⟨ps, []⟩ with
  | error e s =>
    have hs := wp_of_error htaken hrun
    have hnothing : accepted s.acts = [] := by
      refine hs.resolve_right ?_
      rintro ⟨r, hconsulted, hr, hnot⟩
      exact hnot (h c ps hprepare hconsulted r hr).1
    exact kept_of_nothing rfl hnothing
  | ok r s =>
    have hs := wp_of_ok htaken hrun
    have hrises := event_rises pr u blake3 ps c
    have hclimb : climb pr u blake3 ps c = s := by
      unfold climb
      rw [hrun]
    rw [hclimb] at hrises
    have hcarried : accepted s.acts = [] ∨ x.transfer.isOk = true ∧
        (x.reads 3).reads = .ok () ∧ ∀ e, x.write ≠ .unopened e := by
      refine hs.imp_right ?_
      rintro ⟨r, hconsulted, hr⟩
      exact (h c ps hprepare hconsulted r hr).2
    simp only [wp_bind, wp_modify, wp_pure]
    refine wp_ofExcept (fun summary _ => ?_) fun e he => ?_
    · rw [wp_bind]
      exact remember_kept rfl hfloor hpeer hrises (hcarried.imp_right And.right)
    · refine kept_of_nothing rfl (hcarried.resolve_right ?_)
      rintro ⟨hok, -⟩
      rw [he] at hok
      cases hok

theorem after_kept (h : Lossless pr u tx blake3 nick f x) :
    Kept nick f (after pr u tx blake3 nick x f) := by
  have hkept := runTransfer_kept h
  unfold after
  cases hrun : runTransfer pr u tx blake3 nick x ⟨f, []⟩ with
  | ok _ w =>
    have hw := wp_of_ok hkept hrun
    exact hw
  | error _ w =>
    have hw := wp_of_error hkept hrun
    exact hw

theorem taken_broken (xs : List (Execution S T)) :
    taken pr u tx blake3 nick .broken xs = [] := by
  induction xs with
  | nil => rfl
  | cons x xs ih =>
    have hafter : after pr u tx blake3 nick x .broken = ⟨.broken, []⟩ := by
      obtain ⟨e, he⟩ := loadState_broken (x.reads 0)
      have hprepare : prepare u tx blake3 nick x .broken = .error e := by
        unfold prepare
        rw [he]
        rfl
      have hrun : runTransfer pr u tx blake3 nick x ⟨.broken, []⟩ = .error e ⟨.broken, []⟩ := by
        show (ofExcept (fun e => e) (prepare u tx blake3 nick x .broken) >>= _) _ = _
        rw [hprepare]
        rfl
      unfold after
      rw [hrun]
    unfold taken
    rw [hafter]
    exact ih

/-- **The floor of a peer.** In every sequence of runs that carry through what they look up, no
record is taken after one that is not older. -/
theorem floor_kept (xs : List (Execution S T)) (f : PeersFile)
    (h : Allowed (fun f x => some (after pr u tx blake3 nick x f).file)
      (Lossless pr u tx blake3 nick) f xs) :
    (taken pr u tx blake3 nick f xs).Pairwise fun a b => a.seq < b.seq := by
  have hrises : ∃ g, Rises (floorOf nick f)
      ((taken pr u tx blake3 nick f xs).map fun r => r.seq.toNat) g := by
    induction xs generalizing f with
    | nil => exact ⟨_, Rises.stay _⟩
    | cons x xs ih =>
      obtain ⟨g, hg, hfile⟩ := after_kept h.1
      unfold taken
      rw [List.map_append]
      rcases hfile with hfile | hfile
      · obtain ⟨k, hk⟩ := ih _ (h.2 _ rfl)
        rw [hfile] at hk
        exact ⟨k, hg.trans hk⟩
      · rw [hfile, taken_broken, List.map_nil, List.append_nil]
        exact ⟨g, hg⟩
  obtain ⟨g, hg⟩ := hrises
  exact (List.pairwise_map.mp hg.pairwise).imp UInt64.lt_iff_toNat_lt.mpr

/-! ### A peer that is not met where it says -/

def sampleTicket : Ticket :=
  ⟨⟨⟨List.replicate 32 1⟩, none⟩, [.direct (.v4 ⟨[203, 0, 113, 7], length_sampleOctets⟩ 4433)], .livePq1,
    sampleNow + 86400⟩

def sampleFile : PeersFile :=
  .holds ⟨["203.0.113.7:4433".toList],
    [⟨"bob", sampleTicket.toText sampleUnicode sampleTexts sampleBlake3,
      some (encodeSecret sampleUnicode sampleTexts sampleSecret), [], none⟩],
    [⟨"rdv", "atom-rdv-1:", none⟩]⟩

/-- The endpoint serves one record, and `outcome` is what comes of the attempts at its address. -/
def sampleExecution (outcome : Except Error Unit) : Execution Unit Unit where
  reads _ := .through
  me := .ok sampleReader
  build _ := .ok sampleSubstrate
  call := { sampleCall with discovered := ⟨.ok sampleNow, .ok sampleNow, 0, outcome⟩ }
  transfer := .ok ()
  write := .through

def sampleTaken (outcome : Except Error Unit) : List AddressRecord :=
  taken samplePrimitives sampleUnicode sampleTexts sampleBlake3 "bob" sampleFile
    [sampleExecution outcome, sampleExecution outcome]

/-- Whether the record of the lookup, if there is one, leads to a session. -/
def leadsOn (f : PeersFile) (x : Execution Unit Unit) : Bool :=
  match prepare sampleUnicode sampleTexts sampleBlake3 "bob" x f with
  | .error _ => true
  | .ok (c, ps) =>
    match (lookup samplePrimitives sampleUnicode sampleBlake3 c ps).1 with
    | .error _ => true
    | .ok r => decide (Met sampleBlake3 c ps r)

theorem lossless_of_leadsOn {f : PeersFile} (h : leadsOn f (sampleExecution (.ok ())) = true) :
    Lossless samplePrimitives sampleUnicode sampleTexts sampleBlake3 "bob" f
      (sampleExecution (.ok ())) := by
  intro c ps hprepare _ r hr
  unfold leadsOn at h
  simp only [hprepare, hr, decide_eq_true_eq] at h
  exact ⟨h, rfl, rfl, by simp [sampleExecution]⟩

theorem floor_kept_replay :
    (sampleTaken (.ok ())).Pairwise (fun a b => a.seq < b.seq) ∧
      sampleTaken (.ok ()) = [sampleRecord] := by
  refine ⟨floor_kept _ sampleFile ⟨?_, fun f hf => ⟨?_, fun _ _ => trivial⟩⟩, by decide +kernel⟩
  · exact lossless_of_leadsOn (by decide +kernel)
  · rw [← Option.mem_some.mp hf]
    exact lossless_of_leadsOn (by decide +kernel)

/-- A record that was looked up and led nowhere is taken again. -/
theorem record_taken_twice :
    ¬ (sampleTaken (.error (.connect "timed out"))).Pairwise fun a b => a.seq < b.seq := by
  have htaken : sampleTaken (.error (.connect "timed out")) = [sampleRecord, sampleRecord] := by
    decide +kernel
  rw [htaken]
  decide

end Floor

end AtomVault.Live.Transfers
