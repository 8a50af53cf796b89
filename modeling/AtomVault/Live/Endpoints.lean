import AtomVault.Live.Canonical
import AtomVault.Live.Pairing

/-!
# Which tickets are read back (`ticket.rs`, `commands/live.rs`)

The addresses that we advertise become the hints of our tickets. Nothing on the way there asks
what the decoder will take.
-/

open Lib Cursor

namespace AtomVault.Live

/-- Stores the addresses that we advertise. -/
def setEndpoints (u : Unicode) (tx : Texts) (addresses : List Text) (read : Reading)
    (write : Write) (f : PeersFile) : Except Failure Unit × PeersFile :=
  match addresses.mapM (parseEndpoint u tx) with
  | .error e => (.error e, f)
  | .ok parsed =>
    match loadState read f with
    | .error e => (.error e, f)
    | .ok state => saveState { state with myEndpoints := parsed.map (showEndpoint tx) } f write

/-! ## Tickets -/

theorem exists_of_forall₂ {α β : Type} {R : α → β → Prop} {l : List α} {r : List β}
    (h : List.Forall₂ R l r) {b : β} (hb : b ∈ r) : ∃ a ∈ l, R a b := by
  induction h with
  | nil => cases hb
  | cons hfirst _ ih =>
    rcases List.mem_cons.mp hb with rfl | hb
    · exact ⟨_, List.mem_cons_self, hfirst⟩
    · obtain ⟨a, ha, hr⟩ := ih hb
      exact ⟨a, List.mem_cons_of_mem _ ha, hr⟩

namespace Ticket

variable {u : Unicode} {tx : Texts} {blake3 : Bytes → BundleId}

/-- The tickets that the decoder takes. -/
structure Fits (t : Ticket) : Prop where
  identity : t.identity.Fits
  hints : t.hints.length ≤ MAX_HINTS
  carried : ∀ h ∈ t.hints, h.Carried

/-- The bytes and the text of a ticket are read as the ticket, also after the text was mangled. -/
structure ReadBack (u : Unicode) (tx : Texts) (blake3 : Bytes → BundleId) (t : Ticket) : Prop where
  bytes : fromBytes u t.toBytes = .ok t
  text : ∀ s, Mangles u (t.toText u tx blake3) s → fromText u tx blake3 s = .ok t

theorem fromBytes_toBytes_of_fits (hu : u.Plain) {t : Ticket} (h : t.Fits) :
    fromBytes u t.toBytes = .ok t := by
  have hhints : Leads (decodeHints u "ticket" >>= fun hints => pure { t with hints := hints })
      (encodeHints t.hints) (pure t) :=
    (reads_decodeHints hu h.hints h.carried).leads_last (Leads.refl _)
  have hread := ((leads_read h.identity).trans hhints).start []
  rw [← toBytes_eq, List.append_nil] at hread
  unfold fromBytes
  rw [hread]
  show (if Cursor.atEnd ⟨t.toBytes, t.toBytes.length⟩ then _ else _) = _
  simp only [Cursor.atEnd, decide_true, if_true]

theorem carried_of_spells {part : Bytes} {hint : Endpoint} (h : Spells u part hint) :
    hint.Carried := by
  cases h with
  | v4 => trivial
  | v6 => exact ⟨rfl, rfl⟩
  | onion => trivial

theorem fits_of_fromBytes {b : Bytes} {t : Ticket} (h : fromBytes u b = .ok t) : t.Fits := by
  obtain ⟨hid, hcount, -, -, parts, -, hall⟩ := (fromBytes_spelt h).1
  refine ⟨hid, hcount, fun hint hmem => ?_⟩
  obtain ⟨part, -, hspells⟩ := exists_of_forall₂ hall hmem
  exact carried_of_spells hspells

theorem readBack_iff (hu : u.Plain) (htx : tx.Correct) (t : Ticket) :
    t.ReadBack u tx blake3 ↔ t.Fits := by
  constructor
  · exact fun h => fits_of_fromBytes h.bytes
  · intro h
    have hbytes := fromBytes_toBytes_of_fits hu h
    refine ⟨hbytes, fun s hs => ?_⟩
    rw [t.fromText_mangled hu htx blake3 hs, hbytes]

end Ticket

/-! ## Addresses -/

/-- The characters of an address with a port. -/
def ADDRESS_CHARS : List Char := "0123456789abcdefABCDEF.:[]%".toList

/-- The standard library reads nothing else, and reads again what it writes of what it has read. -/
structure Texts.Addresses (tx : Texts) : Prop where
  readAddr_chars : ∀ {s a}, tx.readAddr s = some a → ∀ c ∈ s, c ∈ ADDRESS_CHARS
  readAddr_showAddr : ∀ {s a}, tx.readAddr s = some a → tx.readAddr (tx.showAddr a) = some a

theorem address_visible : ∀ c ∈ ADDRESS_CHARS, 33 ≤ c.toNat ∧ c.toNat < 128 := by
  have hall : ADDRESS_CHARS.all (fun c => decide (33 ≤ c.toNat ∧ c.toNat < 128)) = true := by
    decide +kernel
  intro c hc
  exact of_decide_eq_true (List.all_eq_true.mp hall c hc)

theorem digit_visible {c : Char} (h : c.isDigit = true) : 48 ≤ c.toNat ∧ c.toNat ≤ 57 :=
  Char.isDigit_iff_toNat.mp h

theorem toList_toString (n : Nat) : (toString n).toList = Nat.toDigits 10 n := by
  rw [Nat.toString_eq_ofList_toDigits, String.toList_ofList]

theorem isDigit_of_mem_toString {n : Nat} {c : Char} (h : c ∈ (toString n).toList) :
    c.isDigit = true := by
  rw [toList_toString] at h
  exact Nat.isDigit_of_mem_toDigits (by decide) (by decide) h

theorem parseU16_digits {s : Text} (hne : s ≠ []) (hdigits : ∀ c ∈ s, c.isDigit = true)
    (hlt : Nat.ofDigitChars 10 s 0 < 2 ^ 16) :
    parseU16 s = some (UInt16.ofNat (Nat.ofDigitChars 10 s 0)) := by
  unfold parseU16
  split
  · have hplus : '+'.isDigit = true := hdigits '+' List.mem_cons_self
    cases hplus
  · exact if_pos ⟨hne, List.all_eq_true.mpr hdigits, hlt⟩

theorem parseU16_toString (port : UInt16) : parseU16 (toString port.toNat).toList = some port := by
  have hvalue : Nat.ofDigitChars 10 (toString port.toNat).toList 0 = port.toNat := by
    rw [toList_toString]
    exact Nat.ofDigitChars_ten_toDigits
  have hne : (toString port.toNat).toList ≠ [] := by
    rw [toList_toString]
    exact Nat.toDigits_ne_nil
  rw [parseU16_digits hne (fun c hc => isDigit_of_mem_toString hc) (by rw [hvalue]; exact
    port.toNat_lt), hvalue, UInt16.ofNat_toNat]

theorem rsplitOnce_append {c : Char} {host port : Text} (h : c ∉ port) :
    rsplitOnce c (host ++ c :: port) = some (host, port) := by
  have hrev : (host ++ c :: port).reverse = port.reverse ++ c :: host.reverse := by simp
  have hkeep : ∀ d ∈ port.reverse, decide (d ≠ c) = true := by
    intro d hd
    rw [decide_eq_true_eq]
    rintro rfl
    exact h (List.mem_reverse.mp hd)
  unfold rsplitOnce
  rw [if_pos (by simp), hrev, List.dropWhile_append_of_pos hkeep, List.takeWhile_append_of_pos hkeep]
  simp

section Parsing

variable {u : Unicode} {tx : Texts}

theorem parseEndpoint_onion (hu : u.Plain) (hax : tx.Addresses) (a : OnionAddress) :
    parseEndpoint u tx (showEndpoint tx (.onion a)) = .ok (.onion a) := by
  have hport : ∀ c ∈ (toString a.port.toNat).toList, 48 ≤ c.toNat ∧ c.toNat ≤ 57 :=
    fun c hc => digit_visible (isDigit_of_mem_toString hc)
  have hvisible : ∀ c ∈ showEndpoint tx (.onion a), 33 ≤ c.toNat ∧ c.toNat < 128 := by
    intro c hc
    rcases List.mem_append.mp hc with hc | hc
    · exact ⟨(a.hostChar hc).1, (a.hostChar hc).2.1⟩
    · rcases List.mem_cons.mp hc with rfl | hc
      · decide
      · have := hport c hc
        omega
  obtain ⟨label, hhost, -, -⟩ := a.host_valid
  have hunread : tx.readAddr (showEndpoint tx (.onion a)) = none := by
    cases hread : tx.readAddr (showEndpoint tx (.onion a)) with
    | none => rfl
    | some addr =>
      have hmem : 'n' ∈ showEndpoint tx (.onion a) := by
        simp [showEndpoint, hhost, ONION_SUFFIX]
      exact absurd (hax.readAddr_chars hread 'n' hmem) (by decide)
  have hcolon : ':' ∉ (toString a.port.toNat).toList := by
    intro hc
    have := hport ':' hc
    revert this
    decide
  have hsuffix : (stripSuffix a.host ONION_SUFFIX).isSome = true := by
    rw [hhost, stripSuffix_append]
    rfl
  unfold parseEndpoint
  simp only [hu.trim_visible hvisible, hunread]
  simp only [showEndpoint, rsplitOnce_append hcolon, parseU16_toString, hsuffix, if_true,
    OnionAddress.new_self hu]

theorem readAddr_of_parse {s : Text} {a : SocketAddr}
    (h : parseEndpoint u tx s = .ok (.direct a)) : tx.readAddr (u.trim s) = some a := by
  unfold parseEndpoint at h
  simp only at h
  split at h
  · rename_i a' hread
    cases h
    exact hread
  · split at h
    · cases h
    · split at h
      · cases h
      · split at h
        · split at h
          · cases h
          · cases h
        · cases h

theorem parseEndpoint_showEndpoint (hu : u.Plain) (hax : tx.Addresses) {s : Text} {e : Endpoint}
    (h : parseEndpoint u tx s = .ok e) : parseEndpoint u tx (showEndpoint tx e) = .ok e := by
  cases e with
  | onion a => exact parseEndpoint_onion hu hax a
  | direct a =>
    have hagain := hax.readAddr_showAddr (readAddr_of_parse h)
    unfold parseEndpoint showEndpoint
    simp only [hu.trim_visible fun c hc => address_visible c (hax.readAddr_chars hagain c hc), hagain]

end Parsing

/-! ## From the addresses to the ticket -/

section Commands

variable {u : Unicode} {tx : Texts} {addresses : List Text} {read : Reading}
  {write : Write} {f f' : PeersFile}

theorem setEndpoints_eq_ok (h : setEndpoints u tx addresses read write f = (.ok (), f')) :
    ∃ (parsed : List Endpoint) (state : LiveState), addresses.mapM (parseEndpoint u tx) = .ok parsed ∧
      f' = .holds { state with myEndpoints := parsed.map (showEndpoint tx) } := by
  unfold setEndpoints at h
  split at h
  · cases h
  rename_i parsed hparsed
  split at h
  · cases h
  rename_i state hstate
  refine ⟨parsed, state, hparsed, ?_⟩
  cases write with
  | through =>
    cases h
    rfl
  | unopened e => cases h
  | cut e => cases h

theorem myTicket_holds {me : IdentityBundle} {x : Pairing.Around} {state : LiveState} {t : Ticket}
    (h : Pairing.myTicket u tx me x (.holds state) = .ok t) :
    t.identity = me ∧ state.myEndpoints.mapM (parseEndpoint u tx) = .ok t.hints := by
  unfold Pairing.myTicket at h
  obtain ⟨-, -, h⟩ := of_bind_eq_ok h
  obtain ⟨state', hload, h⟩ := of_bind_eq_ok h
  obtain ⟨-, -, hsame⟩ := of_bind_eq_ok hload
  cases hsame
  split at h
  · cases h
  · obtain ⟨hints, hhints, h⟩ := of_bind_eq_ok h
    obtain ⟨now, -, h⟩ := of_bind_eq_ok h
    cases h
    exact ⟨rfl, hhints⟩

/-- The hints of our ticket are the addresses that were stored. -/
theorem myTicket_setEndpoints (hu : u.Plain) (hax : tx.Addresses) {me : IdentityBundle}
    {x : Pairing.Around} {t : Ticket}
    (hset : setEndpoints u tx addresses read write f = (.ok (), f'))
    (h : Pairing.myTicket u tx me x f' = .ok t) :
    t.identity = me ∧ List.Forall₂ (fun a e => parseEndpoint u tx a = .ok e) addresses t.hints := by
  obtain ⟨parsed, state, hparsed, rfl⟩ := setEndpoints_eq_ok hset
  obtain ⟨hid, hhints⟩ := myTicket_holds h
  have hall := mapM_eq_ok_iff.mp hparsed
  have hagain : List.Forall₂ (fun a e => parseEndpoint u tx a = .ok e)
      (parsed.map (showEndpoint tx)) parsed := by
    rw [List.forall₂_map_left_iff, List.forall₂_same]
    intro e he
    obtain ⟨a, -, ha⟩ := exists_of_forall₂ hall he
    exact parseEndpoint_showEndpoint hu hax ha
  rw [mapM_eq_ok_iff.mpr hagain] at hhints
  cases hhints
  exact ⟨hid, hall⟩

/-- **A ticket is read back if it fits.** Its bytes and its text are read as the same ticket
exactly where two bytes hold the lengths of the identity, there are at most eight hints, and no
IPv6 hint has a scope or flow information. For the ticket made from the addresses that were
stored, this is a condition on those addresses. -/
theorem tickets_read_back_iff (hu : u.Plain) (htx : tx.Correct) (hax : tx.Addresses)
    (blake3 : Bytes → BundleId) :
    (∀ t : Ticket, t.ReadBack u tx blake3 ↔ t.identity.Fits ∧ t.hints.length ≤ MAX_HINTS ∧
      ∀ h ∈ t.hints, h.Carried) ∧
    ∀ addresses read write f f', setEndpoints u tx addresses read write f = (.ok (), f') →
      ∀ me x t, Pairing.myTicket u tx me x f' = .ok t →
        (t.ReadBack u tx blake3 ↔ me.Fits ∧ addresses.length ≤ MAX_HINTS ∧
          ∀ a ∈ addresses, ∀ h, parseEndpoint u tx a = .ok h → h.Carried) := by
  have hticket : ∀ t : Ticket, t.ReadBack u tx blake3 ↔ t.identity.Fits ∧
      t.hints.length ≤ MAX_HINTS ∧ ∀ h ∈ t.hints, h.Carried := by
    intro t
    rw [t.readBack_iff hu htx]
    exact ⟨fun h => ⟨h.identity, h.hints, h.carried⟩, fun h => ⟨h.1, h.2.1, h.2.2⟩⟩
  refine ⟨hticket, ?_⟩
  intro addresses read write f f' hset me x t hmine
  obtain ⟨rfl, hall⟩ := myTicket_setEndpoints hu hax hset hmine
  rw [hticket, hall.length_eq]
  refine and_congr_right fun _ => and_congr_right fun _ => ?_
  constructor
  · intro hcarried a ha h hparse
    obtain ⟨h', hmem, hparse'⟩ := exists_of_forall₂ hall.flip ha
    have hsame : h = h' := Except.ok.inj (hparse.symm.trans hparse')
    exact hsame ▸ hcarried h' hmem
  · intro hcarried h hmem
    obtain ⟨a, ha, hparse⟩ := exists_of_forall₂ hall hmem
    exact hcarried a ha h hparse

end Commands

theorem readAddr_sample {s : Text} {a : SocketAddr} (h : sampleTexts.readAddr s = some a) :
    s = "203.0.113.7:4433".toList := by
  by_contra hs
  change (if s = "203.0.113.7:4433".toList then _ else none) = some a at h
  rw [if_neg hs] at h
  cases h

theorem sample_chars : ∀ c ∈ "203.0.113.7:4433".toList, c ∈ ADDRESS_CHARS := by
  have hall : "203.0.113.7:4433".toList.all (fun c => decide (c ∈ ADDRESS_CHARS)) = true := by
    decide +kernel
  exact fun c hc => of_decide_eq_true (List.all_eq_true.mp hall c hc)

theorem sampleTexts_addresses : sampleTexts.Addresses where
  readAddr_chars := by
    intro s a h c hc
    rw [readAddr_sample h] at hc
    exact sample_chars c hc
  readAddr_showAddr := by
    intro s a h
    have hs := readAddr_sample h
    rw [hs] at h
    exact h

/-- What we advertise after we were given `n` times one address. -/
def advertised (n : Nat) : PeersFile :=
  .holds ⟨List.replicate n "203.0.113.7:4433".toList, [], []⟩

def advertisedTicket (n : Nat) : Ticket :=
  Ticket.new (Pairing.sample.party 0)
    (List.replicate n (.direct (.v4 ⟨[203, 0, 113, 7], length_sampleOctets⟩ 4433))) Discovery.sampleNow

set_option maxRecDepth 100000 in
theorem advertised_ticket : ∀ n ∈ [1, 9],
    setEndpoints sampleUnicode sampleTexts (List.replicate n "203.0.113.7:4433".toList) .through
      .through .missing = (.ok (), advertised n) ∧
    Pairing.myTicket sampleUnicode sampleTexts (Pairing.sample.party 0) Pairing.sampleAround
      (advertised n) = .ok (advertisedTicket n) := by
  decide +kernel

theorem tickets_read_back_iff_one :
    (advertisedTicket 1).ReadBack sampleUnicode sampleTexts sampleBlake3 := by
  obtain ⟨hset, hmine⟩ := advertised_ticket 1 (by decide)
  obtain ⟨-, hread⟩ :=
    tickets_read_back_iff sampleUnicode_plain sampleTexts_correct sampleTexts_addresses sampleBlake3
  refine (hread _ _ _ _ _ hset _ _ _ hmine).mpr ⟨?_, by decide, ?_⟩
  · exact IdentityBundle.fits_of_ed25519 rfl
  · intro a ha h hparse
    have hv4 : parseEndpoint sampleUnicode sampleTexts "203.0.113.7:4433".toList =
        .ok (.direct (.v4 ⟨[203, 0, 113, 7], length_sampleOctets⟩ 4433)) := by decide +kernel
    rw [List.eq_of_mem_replicate ha, hv4] at hparse
    cases hparse
    trivial

set_option maxRecDepth 100000 in
/-- Nine addresses are stored and put into a ticket that nobody can read. -/
theorem nine_addresses_unreadable :
    setEndpoints sampleUnicode sampleTexts (List.replicate 9 "203.0.113.7:4433".toList) .through
      .through .missing = (.ok (), advertised 9) ∧
    Pairing.myTicket sampleUnicode sampleTexts (Pairing.sample.party 0) Pairing.sampleAround
      (advertised 9) = .ok (advertisedTicket 9) ∧
    (Ticket.fromBytes sampleUnicode (advertisedTicket 9).toBytes).isOk = false ∧
    (Ticket.fromText sampleUnicode sampleTexts sampleBlake3
      ((advertisedTicket 9).toText sampleUnicode sampleTexts sampleBlake3)).isOk = false := by
  obtain ⟨hset, hmine⟩ := advertised_ticket 9 (by decide)
  exact ⟨hset, hmine, by decide +kernel, by decide +kernel⟩

end AtomVault.Live
