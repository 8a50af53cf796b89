import AtomVault.Live.Endpoints
import AtomVault.Live.Transfers

/-!
# Pairing again, and what is remembered (`commands/live.rs`)

The addresses of a peer stand in its ticket and in what is last known of it, and the second are
tried first.
-/

open Lib

namespace AtomVault.Live.Repairing

open Pairing Transfers

/-! ## Addresses as texts -/

/-- An IPv6 address is shown without its flow information. -/
def NoFlow : SocketAddr → Prop
  | .v4 _ _ => True
  | .v6 _ _ flowinfo _ => flowinfo = 0

/-- All that is shown of an address is read, and nothing else. -/
structure Texts.Sockets (tx : Texts) : Prop extends tx.Addresses where
  noFlow_readAddr : ∀ {s a}, tx.readAddr s = some a → NoFlow a
  readAddr_of_noFlow : ∀ {a}, NoFlow a → tx.readAddr (tx.showAddr a) = some a

section Texts

variable {u : Unicode} {tx : Texts}

/-- The endpoints that are parsed as they were shown. -/
def Shown : Endpoint → Prop
  | .direct a => NoFlow a
  | .onion _ => True

theorem parseEndpoint_iff (hu : u.Plain) (hsx : Texts.Sockets tx) (e : Endpoint) :
    parseEndpoint u tx (showEndpoint tx e) = .ok e ↔ Shown e := by
  cases e with
  | onion a => exact iff_of_true (parseEndpoint_onion hu hsx.toAddresses a) trivial
  | direct a =>
    constructor
    · exact fun h => hsx.noFlow_readAddr (readAddr_of_parse h)
    · intro h
      have hread := hsx.readAddr_of_noFlow h
      have hvisible := fun c hc => address_visible c (hsx.readAddr_chars hread c hc)
      unfold parseEndpoint showEndpoint
      simp only [hu.trim_visible hvisible, hread]

end Texts

/-! ## What is read of a stored peer -/

section Reading

variable {u : Unicode} {tx : Texts} {blake3 : Bytes → BundleId} {p : LivePeer} {ps : PeerState}

theorem peerState_eq_ok_iff : peerState u tx blake3 p = .ok ps ↔ ∃ t text secret known,
    Ticket.fromText u tx blake3 p.ticket = .ok t ∧ p.rendezvousSecret = some text ∧
      p.lastKnown.mapM (parseEndpoint u tx) = .ok known ∧ decodeSecret u tx text = .ok secret ∧
      ps = ⟨t.identity, secret, if known = [] then t.hints else known, p.newestSeen⟩ := by
  constructor
  · intro h
    unfold peerState at h
    obtain ⟨t, ht, h⟩ := of_bind_eq_ok h
    split at h
    · cases h
    · rename_i text htext
      obtain ⟨known, hknown, h⟩ := of_bind_eq_ok h
      obtain ⟨secret, hsecret, h⟩ := of_bind_eq_ok h
      cases h
      exact ⟨t, text, secret, known, of_mapError_eq_ok ht, htext, hknown, hsecret, rfl⟩
  · rintro ⟨t, text, secret, known, ht, htext, hknown, hsecret, rfl⟩
    unfold peerState
    simp only [ht, htext, hknown, hsecret]
    rfl

theorem decodeSecret_encodeSecret (hu : u.Plain) (htx : tx.Correct) (secret : RendezvousSecret) :
    decodeSecret u tx (encodeSecret u tx secret) = .ok secret := by
  have hvisible : ∀ c ∈ encodeSecret u tx secret, 33 ≤ c.toNat ∧ c.toNat < 128 := fun c hc =>
    ⟨(hostChar_base32 hu htx _ c hc).1, (hostChar_base32 hu htx _ c hc).2.1⟩
  have hread : tx.fromBase32 (tx.toUppercase (encodeSecret u tx secret)) = .ok secret.toList :=
    fromBase32_lower hu htx secret.toList
  unfold decodeSecret
  rw [hu.trim_visible hvisible, hread]
  exact dif_pos secret.toList_length

end Reading

/-! ## Pairing again -/

section Paired

variable (u : Unicode) (tx : Texts) (blake3 : Bytes → BundleId)

/-- The next connection starts from the ticket and from the new secret. -/
def TakesEffect (s : LiveState) (nickname : String) (t : Ticket) (channel : PairedChannel) : Prop :=
  ∃ p ps, s.peer nickname = some p ∧ peerState u tx blake3 p = .ok ps ∧
    ps.identity = t.identity ∧ ps.rendezvous = channel.rendezvousSecret ∧ ps.lastKnown = t.hints

/-- Nothing else is stored that would be tried before the hints of the ticket. -/
def NothingBefore (old : LiveState) (nickname : String) (t : Ticket) : Prop :=
  ∀ p, old.peer nickname = some p → ∃ known,
    p.lastKnown.mapM (parseEndpoint u tx) = .ok known ∧ (known = [] ∨ known = t.hints)

variable {u tx blake3} {pr : Primitives} {me : IdentityBundle} {x : Around}
  {channel : PairedChannel} {blob : Text} {nickname : String} {t : Ticket}

theorem fromText_opened (hu : u.Plain) (htx : tx.Correct)
    (h : channel.openTicket pr u tx blob = .ok t) :
    Ticket.fromText u tx blake3 (t.toText u tx blake3) = .ok t := by
  obtain ⟨raw, plaintext, -, -, hbytes⟩ := openTicket_eq_ok h
  have hread : t.ReadBack u tx blake3 :=
    (t.readBack_iff hu htx).mpr (Ticket.fits_of_fromBytes hbytes)
  exact hread.text _ (Mangles.refl u _)

theorem peerState_renewed_iff (hu : u.Plain) (htx : tx.Correct)
    (hopen : channel.openTicket pr u tx blob = .ok t) {q : LivePeer} {ps : PeerState} :
    peerState u tx blake3 (renewed u tx blake3 t channel.rendezvousSecret q) = .ok ps ↔
      ∃ known, q.lastKnown.mapM (parseEndpoint u tx) = .ok known ∧
        ps = ⟨t.identity, channel.rendezvousSecret, if known = [] then t.hints else known,
          q.newestSeen⟩ := by
  have hticket : Ticket.fromText u tx blake3 (t.toText u tx blake3) = .ok t :=
    fromText_opened hu htx hopen
  have hsecret := decodeSecret_encodeSecret hu htx channel.rendezvousSecret
  rw [peerState_eq_ok_iff]
  constructor
  · rintro ⟨t', text, secret, known, ht, htext, hknown, hsec, rfl⟩
    cases htext
    cases hticket.symm.trans ht
    cases hsecret.symm.trans hsec
    exact ⟨known, hknown, rfl⟩
  · rintro ⟨known, hknown, rfl⟩
    exact ⟨t, _, _, known, hticket, rfl, hknown, hsecret, rfl⟩

theorem takesEffect_iff (hu : u.Plain) (htx : tx.Correct) {loaded current file : PeersFile}
    (h : pairComplete pr u tx blake3 me x channel blob nickname loaded current = (.ok t, file)) :
    ∃ old s, loadState x.read loaded = .ok old ∧ file = .holds s ∧
      (TakesEffect u tx blake3 s nickname t channel ↔ NothingBefore u tx old nickname t) := by
  obtain ⟨s, haccept, rfl⟩ := pairComplete_eq_ok h
  obtain ⟨hopen, -, old, hold, henroll⟩ := accept_eq_ok haccept
  refine ⟨old, s, hold, rfl, ?_⟩
  have hpeer := peer_enroll henroll
  have hfirst : ∀ known : List Endpoint,
      (if known = [] then t.hints else known) = t.hints ↔ known = [] ∨ known = t.hints := by
    intro known
    split
    · rename_i hnil
      exact iff_of_true rfl (.inl hnil)
    · rename_i hne
      exact (or_iff_right hne).symm
  have heffect : TakesEffect u tx blake3 s nickname t channel ↔ ∃ known,
      ((old.peer nickname).getD ⟨nickname, [], none, [], none⟩).lastKnown.mapM
        (parseEndpoint u tx) = .ok known ∧ (known = [] ∨ known = t.hints) := by
    constructor
    · rintro ⟨p, ps, hp, hps, -, -, hhints⟩
      rw [hpeer] at hp
      cases hp
      obtain ⟨known, hknown, rfl⟩ := (peerState_renewed_iff hu htx hopen).mp hps
      exact ⟨known, hknown, (hfirst known).mp hhints⟩
    · rintro ⟨known, hknown, hor⟩
      exact ⟨_, _, hpeer, (peerState_renewed_iff hu htx hopen).mpr ⟨known, hknown, rfl⟩, rfl, rfl,
        (hfirst known).mpr hor⟩
  rw [heffect]
  unfold NothingBefore
  cases old.peer nickname with
  | none => exact iff_of_true ⟨[], rfl, .inl rfl⟩ (by simp)
  | some p => simp

end Paired

/-! ## What is remembered -/

section Remembered

variable (u : Unicode) (tx : Texts) (blake3 : Bytes → BundleId)

/-- What was learned is what is read. -/
def ReadsBack (p : LivePeer) (learned : PeerState) : Prop :=
  ∃ ps, peerState u tx blake3 p = .ok ps ∧ ps.lastKnown = learned.lastKnown ∧
    ps.newestSeen = learned.newestSeen

/-- The ticket and the secret of `p` are read, every address is shown whole, and where there is
none the ticket has none. -/
def Rereadable (p : LivePeer) (learned : PeerState) : Prop :=
  ∃ t text secret, Ticket.fromText u tx blake3 p.ticket = .ok t ∧
    p.rendezvousSecret = some text ∧ decodeSecret u tx text = .ok secret ∧
    (∀ e ∈ learned.lastKnown, Shown e) ∧ (learned.lastKnown = [] → t.hints = [])

variable {u tx blake3} {S T : Type} {x : Execution S T} {nick : String} {learned : PeerState}
  {s : LiveState} {p : LivePeer}

theorem mapM_shown_iff (hu : u.Plain) (hsx : Texts.Sockets tx) (hints : List Endpoint) :
    (hints.map (showEndpoint tx)).mapM (parseEndpoint u tx) = .ok hints ↔
      ∀ e ∈ hints, Shown e := by
  rw [mapM_eq_ok_iff, List.forall₂_map_left_iff, List.forall₂_same]
  exact forall₂_congr fun e _ => parseEndpoint_iff hu hsx e

theorem readsBack_iff (hu : u.Plain) (hsx : Texts.Sockets tx) :
    ReadsBack u tx blake3 { p with
      lastKnown := learned.lastKnown.map (showEndpoint tx), newestSeen := learned.newestSeen }
        learned ↔ Rereadable u tx blake3 p learned := by
  have hshown := mapM_shown_iff hu hsx learned.lastKnown
  constructor
  · rintro ⟨ps, hps, hlast, -⟩
    obtain ⟨t, text, secret, known, ht, htext, hknown, hsecret, rfl⟩ := peerState_eq_ok_iff.mp hps
    refine ⟨t, text, secret, ht, htext, hsecret, ?_⟩
    replace hlast : (if known = [] then t.hints else known) = learned.lastKnown := hlast
    split at hlast
    · rename_i hnil
      rw [hnil] at hknown
      have hlen := (mapM_eq_ok_iff.mp hknown).length_eq
      have hempty : learned.lastKnown = [] := List.length_eq_zero_iff.mp (by simpa using hlen)
      rw [hempty] at hlast ⊢
      exact ⟨by simp, fun _ => hlast⟩
    · rename_i hne
      rw [hlast] at hknown hne
      exact ⟨hshown.mp hknown, fun hnil => absurd hnil hne⟩
  · rintro ⟨t, text, secret, ht, htext, hsecret, hall, hnone⟩
    refine ⟨_, peerState_eq_ok_iff.mpr ⟨t, text, secret, learned.lastKnown, ht, htext,
      hshown.mpr hall, hsecret, rfl⟩, ?_, rfl⟩
    show (if learned.lastKnown = [] then t.hints else learned.lastKnown) = learned.lastKnown
    split
    · rename_i hnil
      rw [hnone hnil, hnil]
    · rfl

/-- How `remember` ends, and the file it leaves. -/
def remembered (tx : Texts) (nick : String) (x : Execution S T) (learned : PeerState)
    (f : PeersFile) : Except Failure Unit × PeersFile :=
  match loadState (x.reads 3) f with
  | .error e => (.error e, f)
  | .ok state =>
    match state.peer nick with
    | none => (.ok (), f)
    | some _ => saveState (state.learn tx nick learned) f x.write

theorem remember_eq (w : Transfers.World) : remember tx nick x learned w =
    match remembered tx nick x learned w.file with
    | (.ok (), file) => .ok () { w with file := file }
    | (.error e, file) => .error e { w with file := file } := by
  unfold remembered
  have hget : (get : EStateM Failure Transfers.World Transfers.World) w = .ok w w := rfl
  simp only [remember, bind, EStateM.bind, hget]
  cases loadState (x.reads 3) w.file with
  | error e => rfl
  | ok state =>
    simp only [Lib.ofExcept, EStateM.pure, pure]
    cases hpeer : state.peer nick with
    | none => rfl
    | some p => cases x.write <;> rfl

theorem remember_eq_ok {w w' : Transfers.World} (hfile : w.file = .holds s)
    (hpeer : s.peer nick = some p) (h : remember tx nick x learned w = .ok () w') :
    w'.file = .holds (s.learn tx nick learned) := by
  rw [remember_eq] at h
  unfold remembered at h
  cases hload : loadState (x.reads 3) w.file with
  | error e =>
    rw [hload] at h
    cases h
  | ok state =>
    rw [hfile] at hload
    obtain rfl := loadState_holds hload
    rw [hfile, hload] at h
    simp only [hpeer] at h
    cases hwrite : x.write with
    | through =>
      rw [hwrite] at h
      cases h
      rfl
    | unopened e =>
      rw [hwrite] at h
      cases h
    | cut e =>
      rw [hwrite] at h
      cases h

variable (u tx) in
/-- **Pairing again.** It takes effect exactly where nothing was known before that is not in the
ticket, and what is remembered is read back exactly where every address is shown whole, and
something is, if the ticket has hints. -/
theorem repairing_iff (hu : u.Plain) (htx : tx.Correct) (hsx : Texts.Sockets tx)
    (pr : Primitives) (blake3 : Bytes → BundleId) (me : IdentityBundle) :
    (∀ x channel blob nickname loaded current t file,
      pairComplete pr u tx blake3 me x channel blob nickname loaded current = (.ok t, file) →
        ∃ old s, loadState x.read loaded = .ok old ∧ file = .holds s ∧
          (TakesEffect u tx blake3 s nickname t channel ↔ NothingBefore u tx old nickname t)) ∧
    ∀ (S T : Type) (x : Execution S T) nick learned w w' s p, w.file = .holds s →
      s.peer nick = some p → remember tx nick x learned w = .ok () w' →
        ∃ s' p', w'.file = .holds s' ∧ s'.peer nick = some p' ∧
          (ReadsBack u tx blake3 p' learned ↔ Rereadable u tx blake3 p learned) := by
  constructor
  · intro x channel blob nickname loaded current t file h
    exact takesEffect_iff hu htx h
  · intro S T x nick learned w w' s p hfile hpeer h
    refine ⟨_, _, remember_eq_ok hfile hpeer h, ?_, readsBack_iff hu hsx⟩
    rw [peer_learn, hpeer]
    rfl

end Remembered

/-! ### Texts of all addresses -/

/-- All of an address but its flow information. -/
def addrBytes : SocketAddr → Bytes
  | .v4 octets port => octets.toList ++ leBytes 2 port.toNat
  | .v6 octets port _ scopeId =>
    octets.toList ++ (leBytes 2 port.toNat ++ leBytes 4 scopeId.toNat)

def addrOf (b : Bytes) : Option SocketAddr :=
  if h : b.length = 6 then
    some (.v4 ⟨b.take 4, by simp [h]⟩ (UInt16.ofNat (ofLe (b.drop 4))))
  else if h : b.length = 22 then
    some (.v6 ⟨b.take 16, by simp [h]⟩ (UInt16.ofNat (ofLe ((b.drop 16).take 2))) 0
      (UInt32.ofNat (ofLe (b.drop 18))))
  else none

theorem addrOf_addrBytes {a : SocketAddr} (h : NoFlow a) : addrOf (addrBytes a) = some a := by
  have hport : ∀ port : UInt16, UInt16.ofNat (ofLe (leBytes 2 port.toNat)) = port := by
    intro port
    rw [ofLe_leBytes 2 _ port.toNat_lt, UInt16.ofNat_toNat]
  have hscope : ∀ scope : UInt32, UInt32.ofNat (ofLe (leBytes 4 scope.toNat)) = scope := by
    intro scope
    rw [ofLe_leBytes 4 _ scope.toNat_lt, UInt32.ofNat_toNat]
  cases a with
  | v4 octets port =>
    have hlen : (octets.toList ++ leBytes 2 port.toNat).length = 6 := by simp [length_leBytes]
    unfold addrOf addrBytes
    rw [dif_pos hlen]
    simp only [List.take_left' octets.toList_length, List.drop_left' octets.toList_length, hport]
    rfl
  | v6 octets port flowinfo scopeId =>
    cases h
    have hlen : (octets.toList ++ (leBytes 2 port.toNat ++ leBytes 4 scopeId.toNat)).length = 22 := by
      simp [length_leBytes]
    have hscopeAt : (octets.toList ++ (leBytes 2 port.toNat ++ leBytes 4 scopeId.toNat)).drop 18 =
        leBytes 4 scopeId.toNat := by
      rw [← List.append_assoc]
      exact List.drop_left' (by simp [length_leBytes])
    unfold addrOf addrBytes
    rw [dif_neg (by rw [hlen]; decide), dif_pos hlen]
    simp only [List.take_left' octets.toList_length, List.drop_left' octets.toList_length,
      List.take_left' (length_leBytes 2 port.toNat), hscopeAt, hport, hscope]
    rfl

theorem noFlow_addrOf {b : Bytes} {a : SocketAddr} (h : addrOf b = some a) : NoFlow a := by
  unfold addrOf at h
  split at h
  · cases h
    trivial
  · split at h
    · cases h
      rfl
    · cases h

def hexText (b : Bytes) : Text :=
  b.flatMap fun x => [Nat.digitChar (x.toNat / 16), Nat.digitChar (x.toNat % 16)]

def unhex : Text → Bytes
  | c :: d :: s =>
    UInt8.ofNat (16 * "0123456789abcdef".toList.idxOf c + "0123456789abcdef".toList.idxOf d) ::
      unhex s
  | _ => []

theorem unhex_hexText (b : Bytes) : unhex (hexText b) = b := by
  have hbyte : ∀ x : UInt8, UInt8.ofNat
      (16 * "0123456789abcdef".toList.idxOf (Nat.digitChar (x.toNat / 16)) +
        "0123456789abcdef".toList.idxOf (Nat.digitChar (x.toNat % 16))) = x := by
    have hall : ∀ n < 256, UInt8.ofNat
        (16 * "0123456789abcdef".toList.idxOf (Nat.digitChar (n / 16)) +
          "0123456789abcdef".toList.idxOf (Nat.digitChar (n % 16))) = UInt8.ofNat n := by
      decide +kernel
    intro x
    rw [hall x.toNat x.toNat_lt, UInt8.ofNat_toNat]
  induction b with
  | nil => rfl
  | cons x b ih =>
    unfold hexText at ih ⊢
    rw [List.flatMap_cons]
    simp only [List.cons_append, List.nil_append, unhex, hbyte, ih]

def sampleAddr : SocketAddr := .v4 ⟨[203, 0, 113, 7], length_sampleOctets⟩ 4433

/-- One address has its usual text, and the others have their bytes. -/
def showSocket (a : SocketAddr) : Text :=
  if a = sampleAddr then "203.0.113.7:4433".toList else '[' :: hexText (addrBytes a)

def readSocket (s : Text) : Option SocketAddr :=
  if s = "203.0.113.7:4433".toList then some sampleAddr
  else (addrOf (unhex (s.drop 1))).filter fun a => showSocket a = s

def socketTexts : Texts := { sampleTexts with showAddr := showSocket, readAddr := readSocket }

theorem showSocket_chars (a : SocketAddr) : ∀ c ∈ showSocket a, c ∈ ADDRESS_CHARS := by
  have hdigit : ∀ n < 16, Nat.digitChar n ∈ ADDRESS_CHARS := by decide
  intro c hc
  unfold showSocket at hc
  split at hc
  · exact sample_chars c hc
  · rcases List.mem_cons.mp hc with rfl | hc
    · decide
    · obtain ⟨x, -, hx⟩ := List.mem_flatMap.mp hc
      have hlt := x.toNat_lt
      rcases List.mem_cons.mp hx with rfl | hx
      · exact hdigit _ (by omega)
      · rw [List.mem_singleton.mp hx]
        exact hdigit _ (by omega)

theorem readSocket_eq_some {s : Text} {a : SocketAddr} (h : readSocket s = some a) :
    showSocket a = s ∧ NoFlow a := by
  unfold readSocket at h
  split at h
  · rename_i hs
    cases h
    exact ⟨hs.symm, trivial⟩
  · obtain ⟨ha, hshow⟩ := Option.filter_eq_some_iff.mp h
    exact ⟨of_decide_eq_true hshow, noFlow_addrOf ha⟩

theorem readSocket_showSocket {a : SocketAddr} (h : NoFlow a) :
    readSocket (showSocket a) = some a := by
  by_cases ha : a = sampleAddr
  · subst ha
    rfl
  · have hshow : showSocket a = '[' :: hexText (addrBytes a) := if_neg ha
    have hother : '[' :: hexText (addrBytes a) ≠ "203.0.113.7:4433".toList := by
      intro heq
      have hhead := congrArg List.head? heq
      simp at hhead
    unfold readSocket
    rw [hshow, if_neg hother, List.drop_one, List.tail_cons, unhex_hexText,
      addrOf_addrBytes h]
    exact Option.filter_eq_some_iff.mpr ⟨rfl, by rw [hshow]; simp⟩

theorem socketTexts_correct : socketTexts.Correct where
  base32_alphabet := sampleTexts_correct.base32_alphabet
  fromBase32_base32 := sampleTexts_correct.fromBase32_base32
  toUppercase_ascii := sampleTexts_correct.toUppercase_ascii

theorem socketTexts_sockets : Texts.Sockets socketTexts where
  readAddr_chars h c hc := by
    obtain ⟨hs, -⟩ := readSocket_eq_some h
    exact showSocket_chars _ c (hs ▸ hc)
  readAddr_showAddr h := by
    obtain ⟨-, hflow⟩ := readSocket_eq_some h
    exact readSocket_showSocket hflow
  noFlow_readAddr h := (readSocket_eq_some h).2
  readAddr_of_noFlow h := readSocket_showSocket h

/-! ### A peer who moves and pairs again -/

/-- The first party's end of a channel with the second. -/
def sampleChannel : PairedChannel :=
  match (sampleSession 0).stage with
  | .paired e => e.channel
  | _ => channelOf samplePake [] [] []

/-- The first party takes the ticket of the second, which is reached at `sampleAddr`. -/
def sampleComplete (f : PeersFile) : Except Failure Ticket × PeersFile :=
  pairComplete samplePrimitives sampleUnicode socketTexts sampleBlake3 (sample.party 0) sampleAround
    sampleChannel (sampleBlob 1) "bob" f f

def bobOnion : Text := List.replicate 56 'a' ++ ".onion:80".toList

/-- Bob was reached over Tor before. -/
def reachedBefore : LiveState :=
  ⟨[], [⟨"bob", (Ticket.new (sample.party 1) [] Discovery.sampleNow).toText sampleUnicode socketTexts
    sampleBlake3, none, [bobOnion], some 3⟩], []⟩

def learnedSample : PeerState :=
  ⟨sampleTicket.identity, Discovery.sampleSecret,
    [.direct (.v6 (List.Vector.replicate 16 1) 443 0 5), .direct sampleAddr], some 9⟩

/-- What was learned of Bob is stored next to his ticket. -/
def bobStored : LiveState :=
  ⟨[], [⟨"bob", sampleTicket.toText sampleUnicode socketTexts sampleBlake3,
    some (encodeSecret sampleUnicode socketTexts Discovery.sampleSecret), [], none⟩], []⟩

theorem exists_of_isOk {α : Type} {r : Except Failure α × PeersFile} (h : r.1.isOk = true) :
    ∃ a file, r = (.ok a, file) := by
  obtain ⟨result, file⟩ := r
  cases result with
  | error e => cases h
  | ok a => exact ⟨a, file, rfl⟩

theorem repairing_iff_again :
    (∃ t s, sampleComplete (.holds bobStored) = (.ok t, .holds s) ∧
      TakesEffect sampleUnicode socketTexts sampleBlake3 s "bob" t sampleChannel) ∧
    ∃ w' s' p', remember socketTexts "bob" (sampleExecution (.ok ())) learnedSample
        ⟨.holds bobStored, []⟩ = .ok () w' ∧ w'.file = .holds s' ∧ s'.peer "bob" = some p' ∧
      ReadsBack sampleUnicode socketTexts sampleBlake3 p' learnedSample := by
  obtain ⟨hpair, hlearn⟩ := repairing_iff sampleUnicode socketTexts sampleUnicode_plain
    socketTexts_correct socketTexts_sockets samplePrimitives sampleBlake3 (sample.party 0)
  constructor
  · obtain ⟨t, file, hcomplete⟩ := exists_of_isOk
      (show (sampleComplete (.holds bobStored)).1.isOk = true by decide +kernel)
    obtain ⟨old, s, hold, rfl, heffect⟩ := hpair sampleAround sampleChannel (sampleBlob 1) "bob"
      (.holds bobStored) (.holds bobStored) t file hcomplete
    obtain rfl := loadState_holds hold
    refine ⟨t, s, hcomplete, heffect.mpr fun p hp => ?_⟩
    cases hp
    exact ⟨[], rfl, .inl rfl⟩
  · have hpeer : bobStored.peer "bob" = bobStored.peers.head? := rfl
    have hgoes : ∃ w', remember socketTexts "bob" (sampleExecution (.ok ())) learnedSample
        ⟨.holds bobStored, []⟩ = .ok () w' := by
      rw [remember_eq]
      exact ⟨_, rfl⟩
    obtain ⟨w', hw'⟩ := hgoes
    obtain ⟨s', p', hs', hp', hback⟩ := hlearn Unit Unit (sampleExecution (.ok ())) "bob"
      learnedSample ⟨.holds bobStored, []⟩ w' bobStored _ rfl hpeer hw'
    refine ⟨w', s', p', hw', hs', hp', hback.mpr ?_⟩
    have hticket : Ticket.fromText sampleUnicode socketTexts sampleBlake3
        (sampleTicket.toText sampleUnicode socketTexts sampleBlake3) = .ok sampleTicket := by
      decide +kernel
    refine ⟨sampleTicket, _, Discovery.sampleSecret, hticket, rfl,
      decodeSecret_encodeSecret sampleUnicode_plain socketTexts_correct _, fun e he => ?_, nofun⟩
    simp only [learnedSample, List.mem_cons, List.not_mem_nil, or_false] at he
    rcases he with rfl | rfl
    · rfl
    · trivial

/-- Whether a ticket with one address is taken, and Bob is looked for elsewhere. -/
def looksElsewhere : Except Failure Ticket × PeersFile → Bool
  | (.ok t, .holds s) => decide (t.hints = [.direct sampleAddr]) &&
    ((s.peer "bob").map (peerState sampleUnicode socketTexts sampleBlake3)).any fun r =>
      r.toOption.any fun ps => decide (ps.lastKnown ≠ t.hints)
  | _ => false

/-- Bob's new ticket is taken, and he is looked for where he was. -/
theorem old_address_first : ∃ t s, sampleComplete (.holds reachedBefore) = (.ok t, .holds s) ∧
    t.hints = [.direct sampleAddr] ∧
    ¬TakesEffect sampleUnicode socketTexts sampleBlake3 s "bob" t sampleChannel := by
  have hrun : looksElsewhere (sampleComplete (.holds reachedBefore)) = true := by decide +kernel
  unfold looksElsewhere at hrun
  split at hrun
  · rename_i t s hcomplete
    obtain ⟨hhints, hread⟩ := Bool.and_eq_true_iff.mp hrun
    refine ⟨t, s, hcomplete, of_decide_eq_true hhints, ?_⟩
    rintro ⟨p, ps, hp, hps, -, -, hlast⟩
    rw [hp, Option.map_some, hps] at hread
    exact of_decide_eq_true hread hlast
  · cases hrun

end AtomVault.Live.Repairing
