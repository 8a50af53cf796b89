import AtomVault.Lib.Reader
import AtomVault.Live.Identity
import Mathlib.Data.List.TakeWhile

/-!
# Addresses and tickets (`ticket.rs`, `tor.rs`)

A ticket names an identity and the places to try. The address records of the discovery use
the same encoding of the places.
-/

open Lib Cursor

namespace AtomVault.Live

/-! ## Text -/

/-- What Unicode says of white space and of lower case. -/
structure Unicode where
  isWhitespace : Char → Bool
  toLowercase : List Char → List Char

/-- On ASCII the two are the plain ones. -/
structure Unicode.Plain (u : Unicode) : Prop where
  isWhitespace_ascii : ∀ c : Char, c.toNat < 128 →
    (u.isWhitespace c = true ↔ c.toNat = 32 ∨ 9 ≤ c.toNat ∧ c.toNat ≤ 13)
  toLowercase_ascii : ∀ s : List Char, (∀ c ∈ s, c.toNat < 128) →
    u.toLowercase s = s.map Char.toLower

def Unicode.trim (u : Unicode) (s : List Char) : List Char :=
  ((s.dropWhile u.isWhitespace).reverse.dropWhile u.isWhitespace).reverse

def utf8 (s : List Char) : Bytes := s.flatMap String.utf8EncodeChar

def fromUtf8 (b : Bytes) : Option (List Char) := b.toByteArray.utf8Decode?.map Array.toList

theorem fromUtf8_utf8 (s : List Char) : fromUtf8 (utf8 s) = some s := by
  unfold fromUtf8 utf8
  rw [← List.utf8Encode, List.utf8Decode?_utf8Encode]
  simp

/-! ## Addresses -/

inductive SocketAddr
  | v4 (octets : List.Vector UInt8 4) (port : UInt16)
  | v6 (octets : List.Vector UInt8 16) (port : UInt16) (flowinfo scopeId : UInt32)
  deriving DecidableEq

def V3_ONION_LABEL_LEN : Nat := 56

def isBase32 (b : UInt8) : Bool := (97 ≤ b && b ≤ 122) || (50 ≤ b && b ≤ 55)

def ONION_SUFFIX : List Char := ['.', 'o', 'n', 'i', 'o', 'n']

/-- A v3 onion host is its label, in lower case, and the suffix. -/
structure OnionAddress where
  host : List Char
  port : UInt16
  host_valid : ∃ label, host = label ++ ONION_SUFFIX ∧
    (utf8 label).length = V3_ONION_LABEL_LEN ∧ (utf8 label).all isBase32 = true
  port_valid : port ≠ 0
  deriving DecidableEq

def stripSuffix (s suffix : List Char) : Option (List Char) :=
  if s.drop (s.length - suffix.length) = suffix then some (s.take (s.length - suffix.length))
  else none

theorem stripSuffix_eq_some {s suffix label : List Char} (h : stripSuffix s suffix = some label) :
    s = label ++ suffix := by
  unfold stripSuffix at h
  split at h
  · rename_i heq
    cases h
    rw [← heq, List.length_drop]
    have : s.length - (s.length - (s.length - suffix.length)) = s.length - suffix.length := by omega
    rw [this, List.take_append_drop]
  · cases h

theorem stripSuffix_append (label suffix : List Char) :
    stripSuffix (label ++ suffix) suffix = some label := by
  unfold stripSuffix
  simp

def OnionAddress.new (u : Unicode) (host : List Char) (port : UInt16) :
    Except Error OnionAddress :=
  let host := u.toLowercase (u.trim host)
  match h : stripSuffix host ONION_SUFFIX with
  | none => .error (.connect s!"{String.ofList host} is not a .onion address")
  | some label =>
    if hlen : (utf8 label).length ≠ V3_ONION_LABEL_LEN then
      .error (.connect (s!"{String.ofList host} is not a v3 onion address " ++
        s!"({(utf8 label).length} characters, expected {V3_ONION_LABEL_LEN})"))
    else if hall : (utf8 label).all isBase32 ≠ true then
      .error (.connect s!"{String.ofList host} contains characters that are not valid base32")
    else if hport : port = 0 then .error (.connect "onion port must not be zero")
    else .ok ⟨host, port, ⟨label, stripSuffix_eq_some h, not_not.mp hlen, not_not.mp hall⟩, hport⟩

inductive Endpoint
  | direct (addr : SocketAddr)
  | onion (addr : OnionAddress)
  deriving DecidableEq

def directOf : Endpoint → Option SocketAddr
  | .direct a => some a
  | .onion _ => none

def onionOf : Endpoint → Option OnionAddress
  | .direct _ => none
  | .onion a => some a

/-! ## Reading -/

namespace Reader

variable (noun : String)

-- `checked_add` cannot overflow here: what is wanted is at most `u16::MAX` bytes.
def take (n : Nat) : EStateM Error Cursor Bytes :=
  Cursor.take (fun c => .ticket (s!"{noun} truncated: wanted {n} bytes at offset {c.pos}, " ++
    s!"only {c.buf.length - c.pos} remain")) n

def u8 : EStateM Error Cursor UInt8 := do
  return (← take noun 1).headD 0

def u16 : EStateM Error Cursor UInt16 := do
  return UInt16.ofNat (ofBe (← take noun 2))

def u64 : EStateM Error Cursor UInt64 := do
  return UInt64.ofNat (ofBe (← take noun 8))

variable {noun}

theorem reads_take {n : Nat} {b : Bytes} (h : b.length = n) : Reads (take noun n) b b := by
  subst h
  exact Cursor.reads_take _ b

theorem reads_u8 (x : UInt8) : Reads (u8 noun) [x] x := by
  have h : Reads (take noun 1) [x] [x] := reads_take rfl
  exact h.bind_pure (reads_pure x)

theorem reads_u16 (x : UInt16) : Reads (u16 noun) (beBytes 2 x.toNat) x := by
  have h : UInt16.ofNat (ofBe (beBytes 2 x.toNat)) = x := by
    rw [ofBe_beBytes 2 _ x.toNat_lt, UInt16.ofNat_toNat]
  exact (reads_take (length_beBytes 2 _)).bind_pure (by rw [h]; exact reads_pure x)

theorem reads_u64 (x : UInt64) : Reads (u64 noun) (beBytes 8 x.toNat) x := by
  have h : UInt64.ofNat (ofBe (beBytes 8 x.toNat)) = x := by
    rw [ofBe_beBytes 8 _ (by simpa using x.toNat_lt), UInt64.ofNat_toNat]
  exact (reads_take (length_beBytes 8 _)).bind_pure (by rw [h]; exact reads_pure x)

end Reader

/-! ## The hint list -/

def ONION_LABEL_BYTES : Nat := 62
def MAX_HINTS : Nat := 8
def TAG_V4 : UInt8 := 4
def TAG_V6 : UInt8 := 6
def TAG_ONION : UInt8 := 9

def encodeHint : Endpoint → Bytes
  | .direct (.v4 octets port) => [TAG_V4] ++ (octets.toList ++ beBytes 2 port.toNat)
  -- The flow information and the scope are not written.
  | .direct (.v6 octets port _ _) => [TAG_V6] ++ (octets.toList ++ beBytes 2 port.toNat)
  | .onion a => [TAG_ONION] ++ (utf8 a.host ++ beBytes 2 a.port.toNat)

-- `len() as u8` wraps, and so does `UInt8.ofNat`.
def encodeHints (hints : List Endpoint) : Bytes :=
  [UInt8.ofNat hints.length] ++ hints.flatMap encodeHint

section Decode

variable (u : Unicode) (noun : String)

def octets (n : Nat) : EStateM Error Cursor (List.Vector UInt8 n) := fun c =>
  match Reader.take noun n c with
  | .ok b c' => .ok ⟨(b ++ List.replicate n 0).take n, by simp⟩ c'
  | .error e c' => .error e c'

def decodeHint : EStateM Error Cursor Endpoint := do
  let tag ← Reader.u8 noun
  if tag = TAG_V4 then
    let o ← octets noun 4
    let port ← Reader.u16 noun
    return .direct (.v4 o port)
  else if tag = TAG_V6 then
    let o ← octets noun 16
    let port ← Reader.u16 noun
    return .direct (.v6 o port 0 0)
  else if tag = TAG_ONION then
    let label ← Reader.take noun ONION_LABEL_BYTES
    let host ← ofOption (.ticket "onion hint is not valid UTF-8") (fromUtf8 label)
    let port ← Reader.u16 noun
    let addr ← ofExcept (fun e => .ticket s!"bad onion hint: {Error.display e}")
      (OnionAddress.new u host port)
    return .onion addr
  else throw (.ticket s!"unknown address family tag {tag}")

def decodeMany : Nat → EStateM Error Cursor (List Endpoint)
  | 0 => pure []
  | n + 1 => do
    let hint ← decodeHint u noun
    let hints ← decodeMany n
    return hint :: hints

def decodeHints : EStateM Error Cursor (List Endpoint) := do
  let hintCount ← Reader.u8 noun
  if hintCount.toNat > MAX_HINTS then
    throw (.ticket s!"lists {hintCount} address hints, more than the {MAX_HINTS} allowed")
  else decodeMany u noun hintCount.toNat

end Decode

/-! ## Every hint that can be carried is read back -/

theorem utf8_append (s t : List Char) : utf8 (s ++ t) = utf8 s ++ utf8 t := List.flatMap_append

theorem toNat_lt_of_utf8 {c : Char} (h : ∀ b ∈ String.utf8EncodeChar c, b.toNat < 128) :
    c.toNat < 128 := by
  by_contra hc
  have hval : ¬ c.val.toNat ≤ 127 := by
    have : c.val.toNat = c.toNat := rfl
    omega
  have hlast : UInt8.ofNat (c.val.toNat % 64 + 128) ∈ String.utf8EncodeChar c := by
    unfold String.utf8EncodeChar
    simp only [hval, if_false]
    split
    · simp
    · split <;> simp
  have := h _ hlast
  rw [UInt8.toNat_ofNat'] at this
  omega

theorem utf8EncodeChar_ascii {c : Char} (h : c.toNat < 128) :
    String.utf8EncodeChar c = [UInt8.ofNat c.toNat] := by
  have hval : c.val.toNat ≤ 127 := by
    have : c.val.toNat = c.toNat := rfl
    omega
  unfold String.utf8EncodeChar
  simp only [hval, if_true]
  rfl

/-- A base-32 character is a small letter or a digit. -/
def IsLabelChar (c : Char) : Prop := 97 ≤ c.toNat ∧ c.toNat ≤ 122 ∨ 50 ≤ c.toNat ∧ c.toNat ≤ 55

theorem isBase32_iff (b : UInt8) :
    isBase32 b = true ↔ 97 ≤ b.toNat ∧ b.toNat ≤ 122 ∨ 50 ≤ b.toNat ∧ b.toNat ≤ 55 := by
  unfold isBase32
  simp [UInt8.le_iff_toNat_le]

theorem isLabelChar_of_utf8 {label : List Char} (h : (utf8 label).all isBase32 = true) {c : Char}
    (hc : c ∈ label) : IsLabelChar c := by
  have hbytes : ∀ b ∈ String.utf8EncodeChar c, isBase32 b = true := by
    intro b hb
    exact List.all_eq_true.mp h b (List.mem_flatMap.mpr ⟨c, hc, hb⟩)
  have hascii : c.toNat < 128 := by
    refine toNat_lt_of_utf8 fun b hb => ?_
    have := (isBase32_iff b).mp (hbytes b hb)
    omega
  have := hbytes (UInt8.ofNat c.toNat) (by rw [utf8EncodeChar_ascii hascii]; simp)
  rw [isBase32_iff, UInt8.toNat_ofNat', Nat.mod_eq_of_lt (by omega)] at this
  exact this

/-- The characters of an onion host: ASCII, in lower case, no white space. -/
def IsHostChar (c : Char) : Prop := 33 ≤ c.toNat ∧ c.toNat < 128 ∧ c.toLower = c

instance : DecidablePred IsHostChar := fun c =>
  inferInstanceAs (Decidable (33 ≤ c.toNat ∧ c.toNat < 128 ∧ c.toLower = c))

theorem IsLabelChar.host {c : Char} (h : IsLabelChar c) : IsHostChar c := by
  unfold IsLabelChar at h
  have hlower : c.toLower = c := by
    unfold Char.toLower
    rw [dif_neg]
    rintro ⟨h1, h2⟩
    have h1 : 65 ≤ c.toNat := h1
    have h2 : c.toNat ≤ 90 := h2
    omega
  exact ⟨by omega, by omega, hlower⟩

theorem OnionAddress.hostChar (a : OnionAddress) {c : Char} (hc : c ∈ a.host) : IsHostChar c := by
  obtain ⟨label, hhost, -, hall⟩ := a.host_valid
  rw [hhost] at hc
  rcases List.mem_append.mp hc with h | h
  · exact (isLabelChar_of_utf8 hall h).host
  · simp only [ONION_SUFFIX, List.mem_cons, List.not_mem_nil, or_false] at h
    rcases h with rfl | rfl | rfl | rfl | rfl | rfl <;> exact ⟨by decide, by decide, by decide⟩

theorem OnionAddress.length_host (a : OnionAddress) : (utf8 a.host).length = ONION_LABEL_BYTES := by
  obtain ⟨label, hhost, hlen, -⟩ := a.host_valid
  rw [hhost, utf8_append, List.length_append, hlen]
  rfl

variable {u : Unicode} {noun : String}

theorem Unicode.Plain.trim_visible (hu : u.Plain) {s : List Char}
    (h : ∀ c ∈ s, 33 ≤ c.toNat ∧ c.toNat < 128) : u.trim s = s := by
  have hkeep : ∀ t : List Char, (∀ c ∈ t, 33 ≤ c.toNat ∧ c.toNat < 128) →
      t.dropWhile u.isWhitespace = t := by
    intro t ht
    cases t with
    | nil => rfl
    | cons c t =>
      obtain ⟨hlow, hascii⟩ := ht c List.mem_cons_self
      refine List.dropWhile_cons_of_neg fun hw => ?_
      have := (hu.isWhitespace_ascii c hascii).mp hw
      omega
  unfold trim
  rw [hkeep s h, hkeep s.reverse (by simpa using h), List.reverse_reverse]

theorem OnionAddress.new_self (hu : u.Plain) (a : OnionAddress) :
    OnionAddress.new u a.host a.port = .ok a := by
  have hchars : ∀ c ∈ a.host, IsHostChar c := fun c hc => a.hostChar hc
  have hlower : u.toLowercase (u.trim a.host) = a.host := by
    rw [hu.trim_visible fun c hc => ⟨(hchars c hc).1, (hchars c hc).2.1⟩,
      hu.toLowercase_ascii _ fun c hc => (hchars c hc).2.1]
    conv_rhs => rw [← List.map_id a.host]
    exact List.map_congr_left fun c hc => (hchars c hc).2.2
  obtain ⟨label, hhost, hlen, hall⟩ := a.host_valid
  have hport := a.port_valid
  unfold OnionAddress.new
  simp only [hlower]
  split
  · rename_i h
    rw [hlower, hhost, stripSuffix_append] at h
    cases h
  · rename_i label' h
    rw [hlower, hhost, stripSuffix_append] at h
    cases h
    simp only [hlen, ne_eq, not_true_eq_false, dite_false, hall, hport]

/-- The hints the encoding can carry: it has no room for the flow information and the scope
of an IPv6 address. -/
def Endpoint.Carried : Endpoint → Prop
  | .direct (.v6 _ _ flowinfo scopeId) => flowinfo = 0 ∧ scopeId = 0
  | _ => True

theorem reads_octets {n : Nat} (v : List.Vector UInt8 n) : Reads (octets noun n) v.toList v := by
  intro before after
  have h : Reads (Reader.take noun n) v.toList v.toList := Reader.reads_take v.toList_length
  unfold octets
  rw [h before after]
  have hv : (v.toList ++ List.replicate n 0).take n = v.toList := List.take_left' v.toList_length
  simp only [hv]
  rfl

theorem reads_decodeHint (hu : u.Plain) {hint : Endpoint} (h : hint.Carried) :
    Reads (decodeHint u noun) (encodeHint hint) hint := by
  rcases hint with (⟨o, port⟩ | ⟨o, port, flowinfo, scopeId⟩) | a
  · refine (Reader.reads_u8 TAG_V4).bind ?_
    exact (reads_octets o).bind ((Reader.reads_u16 port).bind_pure (reads_pure _))
  · obtain ⟨rfl, rfl⟩ := h
    refine (Reader.reads_u8 TAG_V6).bind ?_
    exact (reads_octets o).bind ((Reader.reads_u16 port).bind_pure (reads_pure _))
  · refine (Reader.reads_u8 TAG_ONION).bind ?_
    refine (Reader.reads_take a.length_host).bind ?_
    have hnew : Reads (ofExcept (fun e => .ticket s!"bad onion hint: {Error.display e}")
        (OnionAddress.new u a.host a.port) : EStateM Error Cursor OnionAddress) [] a := by
      rw [OnionAddress.new_self hu]
      exact reads_pure a
    rw [fromUtf8_utf8]
    exact (Reader.reads_u16 a.port).bind_pure (hnew.bind_pure (reads_pure (Endpoint.onion a)))

theorem reads_decodeMany (hu : u.Plain) {hints : List Endpoint} (h : ∀ x ∈ hints, x.Carried) :
    Reads (decodeMany u noun hints.length) (hints.flatMap encodeHint) hints := by
  induction hints with
  | nil => exact reads_pure []
  | cons hint hints ih =>
    rw [List.flatMap_cons]
    refine (reads_decodeHint hu (h hint List.mem_cons_self)).bind ?_
    exact (ih fun x hx => h x (List.mem_cons_of_mem _ hx)).bind_pure (reads_pure _)

theorem leads_decodeHints (n : UInt8) : Leads (decodeHints u noun) [n]
    (if n.toNat > MAX_HINTS then
      throw (.ticket s!"lists {n} address hints, more than the {MAX_HINTS} allowed")
    else decodeMany u noun n.toNat) := (Reader.reads_u8 n).leads_last (Leads.refl _)

theorem reads_decodeHints (hu : u.Plain) {hints : List Endpoint} (hlen : hints.length ≤ MAX_HINTS)
    (h : ∀ x ∈ hints, x.Carried) : Reads (decodeHints u noun) (encodeHints hints) hints := by
  have hcount : (UInt8.ofNat hints.length).toNat = hints.length := by
    unfold MAX_HINTS at hlen
    rw [UInt8.toNat_ofNat', Nat.mod_eq_of_lt (by omega)]
  refine (Reader.reads_u8 (UInt8.ofNat hints.length)).bind ?_
  rw [hcount, if_neg (by omega)]
  exact reads_decodeMany hu h

/-! ## Tickets -/

def FORMAT_VERSION : UInt8 := 1

/-- Unix seconds added to a clock, without going past the last one. -/
def saturatingAdd (a b : UInt64) : UInt64 :=
  if a.toNat + b.toNat < 2 ^ 64 then a + b else UInt64.ofNat (2 ^ 64 - 1)

theorem toNat_saturatingAdd (a b : UInt64) :
    (saturatingAdd a b).toNat = min (a.toNat + b.toNat) (2 ^ 64 - 1) := by
  unfold saturatingAdd
  split
  · rename_i h
    rw [UInt64.toNat_add, Nat.mod_eq_of_lt h]
    omega
  · rename_i h
    rw [UInt64.toNat_ofNat', Nat.mod_eq_of_lt (by omega)]
    omega

inductive Suite
  | livePq1
  deriving DecidableEq

def Suite.toByte : Suite → UInt8
  | livePq1 => 1

def Suite.fromByte (b : UInt8) : Except Error Suite :=
  if b = 1 then .ok .livePq1
  else .error (.ticket (s!"unknown suite {b}: this ticket is for a protocol this build " ++
    "does not implement, and its security properties are unknown"))

structure Ticket where
  identity : IdentityBundle
  hints : List Endpoint
  suite : Suite
  notAfter : UInt64
  deriving DecidableEq

namespace Ticket

def DEFAULT_TTL_SECS : UInt64 := 24 * 60 * 60

/-- `now` is what `now_secs` reads. -/
def new (identity : IdentityBundle) (hints : List Endpoint) (now : UInt64) : Ticket :=
  ⟨identity, hints, .livePq1, saturatingAdd now DEFAULT_TTL_SECS⟩

def isExpiredAt (t : Ticket) (now : UInt64) : Bool := now ≥ t.notAfter

def checkValid (t : Ticket) (now : UInt64) : Except Error Unit :=
  if t.isExpiredAt now then
    .error (.ticket ("ticket has expired — ask the peer for a fresh one rather than " ++
      "dialling an address that may have been reassigned"))
  else .ok ()

def id (blake3 : Bytes → BundleId) (t : Ticket) : BundleId := t.identity.id blake3

def directHints (t : Ticket) : List SocketAddr := t.hints.filterMap directOf

def onionHints (t : Ticket) : List OnionAddress := t.hints.filterMap onionOf

def toBytes (t : Ticket) : Bytes :=
  [FORMAT_VERSION] ++ ([t.suite.toByte] ++ (beBytes 8 t.notAfter.toNat ++
    (beBytes 2 t.identity.toBytes.length ++ (t.identity.toBytes ++ encodeHints t.hints))))

def read (u : Unicode) : EStateM Error Cursor Ticket := do
  let version ← Reader.u8 "ticket"
  if version ≠ FORMAT_VERSION then
    throw (.ticket (s!"ticket format version {version}, " ++
      s!"this build understands {FORMAT_VERSION}"))
  else
    let suite ← Reader.u8 "ticket"
    let suite ← ofExcept (fun e => e) (Suite.fromByte suite)
    let notAfter ← Reader.u64 "ticket"
    let idLen ← Reader.u16 "ticket"
    if idLen = 0 then throw (.ticket "ticket carries no identity")
    else
      let identity ← Reader.take "ticket" idLen.toNat
      let identity ← ofExcept
        (fun e => .ticket s!"ticket carries a bad identity: {Error.display e}")
        (IdentityBundle.fromBytes identity)
      let hints ← decodeHints u "ticket"
      return ⟨identity, hints, suite, notAfter⟩

def fromBytes (u : Unicode) (bytes : Bytes) : Except Error Ticket :=
  match read u ⟨bytes, 0⟩ with
  | .error e _ => .error e
  | .ok t c =>
    if c.atEnd then .ok t
    else .error (.ticket "trailing bytes after ticket — refusing an ambiguous encoding")

end Ticket

/-! ## Tickets as text -/

abbrev Text := List Char

/-- Base32 without padding, and what the standard library writes and reads of an address. -/
structure Texts where
  base32 : Bytes → Text
  fromBase32 : Text → Except String Bytes
  toUppercase : Text → Text
  showAddr : SocketAddr → Text
  readAddr : Text → Option SocketAddr

def stripPrefix (s start : Text) : Option Text :=
  if s.take start.length = start then some (s.drop start.length) else none

namespace Ticket

def TICKET_PREFIX : Text := "atom-live-1:".toList
def CHECKSUM_LEN : Nat := 4
def CHECKSUM_DOMAIN : Bytes := ascii "atom-live-ticket-checksum-v1"

section Textual

variable (u : Unicode) (tx : Texts) (blake3 : Bytes → BundleId)

def checksum (payload : Bytes) : Bytes :=
  (blake3 (CHECKSUM_DOMAIN ++ payload)).toList.take CHECKSUM_LEN

def toText (t : Ticket) : Text :=
  TICKET_PREFIX ++ u.toLowercase (tx.base32 (t.toBytes ++ checksum blake3 t.toBytes))

def fromText (text : Text) : Except Error Ticket :=
  match stripPrefix (u.toLowercase (u.trim text)) TICKET_PREFIX with
  | none => .error (.ticket s!"ticket must start with `{String.ofList TICKET_PREFIX}`")
  | some body =>
    match tx.fromBase32 (tx.toUppercase body) with
    | .error e => .error (.ticket s!"not valid base32: {e}")
    | .ok decoded =>
      if decoded.length ≤ CHECKSUM_LEN then .error (.ticket "ticket is too short to be valid")
      else
        let payload := decoded.take (decoded.length - CHECKSUM_LEN)
        if decoded.drop (decoded.length - CHECKSUM_LEN) ≠ checksum blake3 payload then
          .error (.ticket ("ticket checksum does not match — it was probably copied " ++
            "incompletely; ask for it again rather than editing it"))
        else fromBytes u payload

end Textual

end Ticket

/-! ### What is written is read back -/

namespace IdentityBundle

/-- An Ed25519 key as it is written down, with its algorithm. -/
def ED25519_SPKI_LEN : Nat := 44

theorem length_pqBytes (b : IdentityBundle) :
    b.pqBytes.length = if b.isHybrid then ML_DSA_65_PUBLIC_KEY_LEN else 0 := by
  unfold pqBytes isHybrid
  cases b.pq with
  | none => rfl
  | some k => exact k.toList_length

/-- The identities that are read back: the key is there, and two bytes hold every length. -/
structure Fits (b : IdentityBundle) : Prop where
  key : b.classical.der ≠ []
  width : b.toBytes.length < 2 ^ 16

theorem length_toBytes (b : IdentityBundle) :
    b.toBytes.length = 5 + b.classical.der.length + b.pqBytes.length := by
  unfold toBytes
  simp only [List.length_append, length_beBytes, List.length_singleton]
  omega

theorem fits_of_ed25519 {b : IdentityBundle} (h : b.classical.der.length = ED25519_SPKI_LEN) :
    b.Fits := by
  have hpq := b.length_pqBytes
  unfold ED25519_SPKI_LEN at h
  unfold ML_DSA_65_PUBLIC_KEY_LEN at hpq
  refine ⟨List.ne_nil_of_length_pos (by omega), ?_⟩
  rw [length_toBytes]
  split at hpq <;> omega

/-- The identities whose key the encoding can carry: one to 65535 bytes. -/
structure Keyed (b : IdentityBundle) : Prop where
  key : b.classical.der ≠ []
  width : b.classical.der.length < 2 ^ 16

theorem Fits.keyed {b : IdentityBundle} (h : b.Fits) : b.Keyed := by
  have hwidth := h.width
  rw [length_toBytes] at hwidth
  exact ⟨h.key, by omega⟩

theorem fromBytes_append {b : IdentityBundle} (h : b.Keyed) (ext : Bytes) :
    fromBytes (b.toBytes ++ ext) = if ext = [] then .ok b else
      .error (.identity "trailing bytes after identity bundle — refusing an ambiguous encoding") := by
  have hpqlen := b.length_pqBytes
  have hclassical : ofBe (beBytes 2 b.classical.der.length) = b.classical.der.length :=
    ofBe_beBytes 2 _ h.width
  have hpq : ofBe (beBytes 2 b.pqBytes.length) = b.pqBytes.length := by
    refine ofBe_beBytes 2 _ ?_
    unfold ML_DSA_65_PUBLIC_KEY_LEN at hpqlen
    split at hpqlen <;> omega
  have hne : b.classical.der.length ≠ 0 := (List.length_pos_iff.mpr h.key).ne'
  have htake {n : Nat} {a rest : Bytes} (ha : a.length = n) :
      take n (a ++ rest) = .ok (a, rest) := takeOr_append ha
  unfold fromBytes toBytes
  simp only [List.append_assoc]
  rw [htake (n := 1) (a := [BUNDLE_VERSION]) rfl]
  simp only [bind, Except.bind, ne_eq, not_true_eq_false, if_false]
  rw [htake (length_beBytes 2 _)]
  simp only [hclassical, hne, if_false]
  rw [htake rfl]
  simp only
  rw [htake (length_beBytes 2 _)]
  simp only [hpq]
  obtain ⟨classical, pq⟩ := b
  cases pq with
  | none =>
    by_cases hext : ext = []
    · subst hext
      rfl
    · show (if ¬ext = [] then _ else _) = _
      rw [if_pos hext, if_neg hext]
  | some k =>
    have hk : (pqBytes ⟨classical, some k⟩).length ≠ 0 := by
      have hlen : (pqBytes ⟨classical, some k⟩).length = ML_DSA_65_PUBLIC_KEY_LEN := k.toList_length
      rw [hlen]
      decide
    have hend : take (pqBytes ⟨classical, some k⟩).length (pqBytes ⟨classical, some k⟩ ++ ext) =
        .ok (pqBytes ⟨classical, some k⟩, ext) := htake rfl
    have hkey : PqPublicKey.fromBytes (pqBytes ⟨classical, some k⟩) = .ok k :=
      dif_pos k.toList_length
    simp only [hk, if_false, hend, hkey]
    by_cases hext : ext = []
    · subst hext
      rfl
    · show (if ¬ext = [] then _ else _) = _
      rw [if_pos hext, if_neg hext]
      rfl

theorem fromBytes_toBytes {b : IdentityBundle} (h : b.Keyed) : fromBytes b.toBytes = .ok b := by
  have := fromBytes_append h []
  rwa [List.append_nil, if_pos rfl] at this

end IdentityBundle

/-- What the encoding carries of a hint. -/
def Endpoint.carry : Endpoint → Endpoint
  | .direct (.v6 octets port _ _) => .direct (.v6 octets port 0 0)
  | e => e

theorem Endpoint.carried_carry (e : Endpoint) : e.carry.Carried := by
  rcases e with (⟨o, port⟩ | ⟨o, port, flowinfo, scopeId⟩) | a
  · trivial
  · exact ⟨rfl, rfl⟩
  · trivial

theorem encodeHint_carry (e : Endpoint) : encodeHint e.carry = encodeHint e := by
  rcases e with (⟨o, port⟩ | ⟨o, port, flowinfo, scopeId⟩) | a <;> rfl

theorem flatMap_encodeHint_carry (hints : List Endpoint) :
    (hints.map Endpoint.carry).flatMap encodeHint = hints.flatMap encodeHint := by
  rw [List.flatMap_map]
  exact congrArg hints.flatMap (funext encodeHint_carry)

namespace Ticket

variable {u : Unicode} {t t' : Ticket}

def carried (t : Ticket) : Ticket := { t with hints := t.hints.map Endpoint.carry }

theorem toBytes_carried (t : Ticket) : t.carried.toBytes = t.toBytes := by
  unfold toBytes carried encodeHints
  simp only [List.length_map, flatMap_encodeHint_carry]

def header (t : Ticket) : Bytes :=
  [FORMAT_VERSION] ++ ([t.suite.toByte] ++ (beBytes 8 t.notAfter.toNat ++
    (beBytes 2 t.identity.toBytes.length ++ t.identity.toBytes)))

theorem toBytes_eq (t : Ticket) : t.toBytes = t.header ++ encodeHints t.hints := by
  unfold toBytes header
  simp only [List.append_assoc]

theorem leads_read (hid : t.identity.Fits) : Leads (read u) t.header
    (decodeHints u "ticket" >>= fun hints => pure { t with hints := hints }) := by
  have hlow := t.identity.length_toBytes
  have hlen : (UInt16.ofNat t.identity.toBytes.length).toNat = t.identity.toBytes.length := by
    rw [UInt16.toNat_ofNat', Nat.mod_eq_of_lt hid.width]
  have hne : UInt16.ofNat t.identity.toBytes.length ≠ 0 := by
    intro h
    rw [h] at hlen
    have : (0 : UInt16).toNat = 0 := rfl
    omega
  have hsuite : Suite.fromByte t.suite.toByte = .ok t.suite := by
    cases t.suite
    rfl
  have hu16 : Reads (Reader.u16 "ticket") (beBytes 2 t.identity.toBytes.length)
      (UInt16.ofNat t.identity.toBytes.length) := by
    have hread : Reads (Reader.u16 "ticket") _ _ :=
      Reader.reads_u16 (UInt16.ofNat t.identity.toBytes.length)
    rwa [hlen] at hread
  refine (Reader.reads_u8 FORMAT_VERSION).leads ?_
  rw [if_neg (not_not.mpr rfl)]
  refine (Reader.reads_u8 t.suite.toByte).leads ?_
  rw [hsuite]
  refine (reads_pure t.suite).leads ((Reader.reads_u64 t.notAfter).leads ?_)
  refine hu16.leads ?_
  rw [if_neg hne, hlen]
  have hbytes : Reads (Reader.take "ticket" t.identity.toBytes.length) t.identity.toBytes
      t.identity.toBytes := Reader.reads_take rfl
  refine hbytes.leads_last ?_
  rw [IdentityBundle.fromBytes_toBytes hid.keyed]
  exact Leads.refl _

theorem length_encodeHint_pos (e : Endpoint) : 0 < (encodeHint e).length := by
  rcases e with (⟨o, port⟩ | ⟨o, port, flowinfo, scopeId⟩) | a <;> simp [encodeHint]

theorem eq_nil_of_flatMap_encodeHint {hints : List Endpoint}
    (h : (hints.flatMap encodeHint).length = 0) : hints = [] := by
  cases hints with
  | nil => rfl
  | cons e hints =>
    have := length_encodeHint_pos e
    rw [List.flatMap_cons, List.length_append] at h
    omega

/-- A ticket that was written is read as what the encoding carries of it, or not at all. The
count of its hints is one byte, so a longer list leaves hints over at the end. -/
theorem fromBytes_toBytes (hu : u.Plain) (hid : t.identity.Fits)
    (h : fromBytes u t.toBytes = .ok t') : t' = t.carried := by
  let n := (UInt8.ofNat t.hints.length).toNat
  have hn : n = t.hints.length % 256 := UInt8.toNat_ofNat'
  have hcount : Leads (decodeHints u "ticket") _ _ :=
    leads_decodeHints (UInt8.ofNat t.hints.length)
  have hread := (leads_read (u := u) hid).trans (hcount.bind fun hints =>
    pure { t with hints := hints })
  unfold fromBytes at h
  rw [toBytes_eq, encodeHints, ← List.append_assoc, hread.start] at h
  by_cases hmany : n > MAX_HINTS
  · rw [if_pos hmany] at h
    cases h
  · rw [if_neg hmany] at h
    have hlen : (t.hints.take n).length = n := by
      rw [List.length_take]
      omega
    have hhints : Reads (decodeMany u "ticket" n) ((t.hints.take n).flatMap encodeHint)
        ((t.hints.take n).map Endpoint.carry) := by
      have hcarried : ∀ x ∈ (t.hints.take n).map Endpoint.carry, x.Carried := by
        intro x hx
        obtain ⟨e, -, rfl⟩ := List.mem_map.mp hx
        exact e.carried_carry
      have hmany : Reads (decodeMany u "ticket" ((t.hints.take n).map Endpoint.carry).length) _ _ :=
        reads_decodeMany hu hcarried
      rwa [List.length_map, hlen, flatMap_encodeHint_carry] at hmany
    have hrest : t.hints.flatMap encodeHint =
        (t.hints.take n).flatMap encodeHint ++ (t.hints.drop n).flatMap encodeHint := by
      rw [← List.flatMap_append, List.take_append_drop]
    have hrun := (hhints.bind_pure (f := fun hints => pure { t with hints := hints })
      (reads_pure _)) (t.header ++ [UInt8.ofNat t.hints.length]) ((t.hints.drop n).flatMap encodeHint)
    rw [← hrest] at hrun
    rw [hrun] at h
    simp only at h
    split at h
    · rename_i hend
      cases h
      have hdrop : t.hints.drop n = [] := by
        refine eq_nil_of_flatMap_encodeHint ?_
        simp only [Cursor.atEnd, decide_eq_true_eq] at hend
        rw [hrest] at hend
        simp only [List.length_append] at hend ⊢
        omega
      have htake : t.hints.take n = t.hints := by
        have := List.take_append_drop n t.hints
        rwa [hdrop, List.append_nil] at this
      rw [htake]
      rfl
    · cases h

end Ticket

/-! ### Base32 without padding -/

def ALPHABET : List Char := "ABCDEFGHIJKLMNOPQRSTUVWXYZ234567".toList

/-- The low `width` bits, the highest first. -/
def toBits (width n : Nat) : List Bool := (List.range width).reverse.map n.testBit

def ofBits (bits : List Bool) : Nat := bits.foldl (fun n b => 2 * n + b.toNat) 0

def fives : List Bool → Text
  | a :: b :: c :: d :: e :: bits => ALPHABET.getD (ofBits [a, b, c, d, e]) 'A' :: fives bits
  | [] => []
  | bits => [ALPHABET.getD (ofBits ((bits ++ List.replicate 5 false).take 5)) 'A']

/-- What is left over must be less than a character, and zero. -/
def eights : List Bool → Except String Bytes
  | a :: b :: c :: d :: e :: f :: g :: h :: bits => do
    return UInt8.ofNat (ofBits [a, b, c, d, e, f, g, h]) :: (← eights bits)
  | bits =>
    if bits.length < 5 ∧ bits.all (!·) = true then .ok [] else .error "non-zero trailing bits"

def base32Encode (b : Bytes) : Text := fives (b.flatMap fun x => toBits 8 x.toNat)

def base32Decode (s : Text) : Except String Bytes := do
  let digits ← s.mapM fun c =>
    if c ∈ ALPHABET then .ok (toBits 5 (ALPHABET.idxOf c)) else .error "invalid symbol"
  eights digits.flatten

theorem length_sampleOctets : ([203, 0, 113, 7] : Bytes).length = 4 := rfl

/-- One address is written and read. -/
def sampleTexts : Texts where
  base32 := base32Encode
  fromBase32 := base32Decode
  toUppercase s := s.map Char.toUpper
  showAddr _ := "203.0.113.7:4433".toList
  readAddr s :=
    if s = "203.0.113.7:4433".toList then some (.v4 ⟨[203, 0, 113, 7], length_sampleOctets⟩ 4433) else none

/-! ### Texts that are read back -/

/-- Base32 has its alphabet and is read back, and capitals are the plain ones on ASCII. -/
structure Texts.Correct (tx : Texts) : Prop where
  base32_alphabet : ∀ b, ∀ c ∈ tx.base32 b, c ∈ ALPHABET
  fromBase32_base32 : ∀ b, tx.fromBase32 (tx.base32 b) = .ok b
  toUppercase_ascii : ∀ s : Text, (∀ c ∈ s, c.toNat < 128) → tx.toUppercase s = s.map Char.toUpper

theorem alphabet_lower : ∀ c ∈ ALPHABET, c.toNat < 128 ∧ IsHostChar c.toLower ∧
    c.toLower.toUpper = c := by
  have hall : ALPHABET.all (fun c => decide (c.toNat < 128 ∧ IsHostChar c.toLower ∧
      c.toLower.toUpper = c)) = true := by decide +kernel
  intro c hc
  exact of_decide_eq_true (List.all_eq_true.mp hall c hc)

section Written

variable {u : Unicode} {tx : Texts}

theorem toLowercase_base32 (hu : u.Plain) (htx : tx.Correct) (b : Bytes) :
    u.toLowercase (tx.base32 b) = (tx.base32 b).map Char.toLower :=
  hu.toLowercase_ascii _ fun c hc => (alphabet_lower c (htx.base32_alphabet b c hc)).1

theorem hostChar_base32 (hu : u.Plain) (htx : tx.Correct) (b : Bytes) :
    ∀ c ∈ u.toLowercase (tx.base32 b), IsHostChar c := by
  rw [toLowercase_base32 hu htx]
  intro c hc
  obtain ⟨d, hd, rfl⟩ := List.mem_map.mp hc
  exact (alphabet_lower d (htx.base32_alphabet b d hd)).2.1

theorem toUpper_base32 (hu : u.Plain) (htx : tx.Correct) (b : Bytes) :
    (u.toLowercase (tx.base32 b)).map Char.toUpper = tx.base32 b := by
  rw [toLowercase_base32 hu htx, List.map_map]
  conv_rhs => rw [← List.map_id (tx.base32 b)]
  exact List.map_congr_left fun c hc => (alphabet_lower c (htx.base32_alphabet b c hc)).2.2

theorem fromBase32_lower (hu : u.Plain) (htx : tx.Correct) (b : Bytes) :
    tx.fromBase32 (tx.toUppercase (u.toLowercase (tx.base32 b))) = .ok b := by
  rw [htx.toUppercase_ascii _ fun c hc => (hostChar_base32 hu htx b c hc).2.1,
    toUpper_base32 hu htx, htx.fromBase32_base32]

/-- Another letter case, and white space around. -/
def Mangles (u : Unicode) (s s' : Text) : Prop :=
  ∃ front body back, s' = front ++ (body ++ back) ∧ (∀ c ∈ front, u.isWhitespace c = true) ∧
    (∀ c ∈ back, u.isWhitespace c = true) ∧ body.map Char.toLower = s.map Char.toLower

theorem Mangles.refl (u : Unicode) (s : Text) : Mangles u s s :=
  ⟨[], s, [], by simp, by simp, by simp, rfl⟩

theorem Unicode.trim_around {front body back : Text} (hfront : ∀ c ∈ front, u.isWhitespace c = true)
    (hback : ∀ c ∈ back, u.isWhitespace c = true) : u.trim (front ++ (body ++ back)) = u.trim body := by
  have hstart : ∀ s : Text, (front ++ s).dropWhile u.isWhitespace = s.dropWhile u.isWhitespace :=
    fun s => List.dropWhile_append_of_pos hfront
  have hend : ∀ s : Text, (s ++ back).reverse.dropWhile u.isWhitespace =
      s.reverse.dropWhile u.isWhitespace := by
    intro s
    rw [List.reverse_append]
    exact List.dropWhile_append_of_pos fun c hc => hback c (List.mem_reverse.mp hc)
  unfold trim
  rw [hstart]
  by_cases hbody : ∀ c ∈ body, u.isWhitespace c = true
  · rw [List.dropWhile_append_of_pos hbody, List.dropWhile_eq_nil_iff.mpr hbody,
      List.dropWhile_eq_nil_iff.mpr hback]
  · have hne : body.dropWhile u.isWhitespace ≠ [] := mt List.dropWhile_eq_nil_iff.mp hbody
    rw [List.dropWhile_append, if_neg (by simpa using hne), hend]

theorem Unicode.Plain.lower_trim (hu : u.Plain) {s s' : Text} (h : ∀ c ∈ s, IsHostChar c)
    (hm : Mangles u s s') : u.toLowercase (u.trim s') = s := by
  obtain ⟨front, body, back, rfl, hfront, hback, hbody⟩ := hm
  have hlower : body.map Char.toLower = s := by
    rw [hbody]
    conv_rhs => rw [← List.map_id s]
    exact List.map_congr_left fun c hc => (h c hc).2.2
  have hchars : ∀ c ∈ body, 33 ≤ c.toNat ∧ c.toNat < 128 := by
    intro c hc
    obtain ⟨hlow, hascii, -⟩ : IsHostChar c.toLower :=
      h _ (hlower ▸ List.mem_map.mpr ⟨c, hc, rfl⟩)
    unfold Char.toLower at hlow hascii
    split at hlow
    · rename_i hcapital
      have hstart : 65 ≤ c.toNat := hcapital.1
      have hend : c.toNat ≤ 90 := hcapital.2
      omega
    · rename_i hcapital
      rw [dif_neg hcapital] at hascii
      exact ⟨hlow, hascii⟩
  rw [u.trim_around hfront hback, hu.trim_visible hchars,
    hu.toLowercase_ascii _ fun c hc => (hchars c hc).2, hlower]

theorem stripPrefix_append (start s : Text) : stripPrefix (start ++ s) start = some s := by
  unfold stripPrefix
  rw [if_pos List.take_left, List.drop_left]

theorem hostChars_of_all {start : Text}
    (h : start.all (fun c => decide (IsHostChar c)) = true) : ∀ c ∈ start, IsHostChar c :=
  fun c hc => of_decide_eq_true (List.all_eq_true.mp h c hc)

theorem fromBase32_mangled (hu : u.Plain) (htx : tx.Correct) {start : Text}
    (hstart : ∀ c ∈ start, IsHostChar c) {b : Bytes} {s : Text}
    (hm : Mangles u (start ++ u.toLowercase (tx.base32 b)) s) :
    ∃ body, stripPrefix (u.toLowercase (u.trim s)) start = some body ∧
      tx.fromBase32 (tx.toUppercase body) = .ok b := by
  have hchars : ∀ c ∈ start ++ u.toLowercase (tx.base32 b), IsHostChar c := by
    intro c hc
    rcases List.mem_append.mp hc with hc | hc
    · exact hstart c hc
    · exact hostChar_base32 hu htx _ c hc
  refine ⟨u.toLowercase (tx.base32 b), ?_, fromBase32_lower hu htx b⟩
  rw [hu.lower_trim hchars hm, stripPrefix_append]

theorem Ticket.fromText_mangled (hu : u.Plain) (htx : tx.Correct) (blake3 : Bytes → BundleId)
    (t : Ticket) {s : Text} (hm : Mangles u (t.toText u tx blake3) s) :
    fromText u tx blake3 s = fromBytes u t.toBytes := by
  have hlen : (checksum blake3 t.toBytes).length = CHECKSUM_LEN := by
    unfold checksum
    rw [List.length_take, (blake3 _).toList_length]
    rfl
  have hpos : 0 < t.toBytes.length := by
    unfold toBytes
    simp only [List.length_append, List.length_singleton]
    omega
  obtain ⟨body, hbody, hdecoded⟩ :=
    fromBase32_mangled hu htx (hostChars_of_all (by decide +kernel)) hm
  unfold fromText
  rw [hbody]
  simp only [hdecoded, List.length_append, hlen]
  rw [if_neg (by omega), Nat.add_sub_cancel, List.take_left, List.drop_left,
    if_neg (not_not.mpr rfl)]

theorem Ticket.fromText_toText (hu : u.Plain) (htx : tx.Correct) (blake3 : Bytes → BundleId)
    (t : Ticket) : fromText u tx blake3 (t.toText u tx blake3) = fromBytes u t.toBytes :=
  t.fromText_mangled hu htx blake3 (Mangles.refl u _)

end Written

/-! ### The sample is correct -/

def digitOf (c : Char) : Except String (List Bool) :=
  if c ∈ ALPHABET then .ok (toBits 5 (ALPHABET.idxOf c)) else .error "invalid symbol"

theorem digitOf_char {bits : List Bool} (h : bits.length = 5) :
    ALPHABET.getD (ofBits bits) 'A' ∈ ALPHABET ∧
      digitOf (ALPHABET.getD (ofBits bits) 'A') = .ok bits := by
  have hall : ∀ a b c d e : Bool, ALPHABET.getD (ofBits [a, b, c, d, e]) 'A' ∈ ALPHABET ∧
      digitOf (ALPHABET.getD (ofBits [a, b, c, d, e]) 'A') = .ok [a, b, c, d, e] := by
    decide +kernel
  match bits, h with
  | [a, b, c, d, e], _ => exact hall a b c d e

theorem length_lt_five {bits : List Bool}
    (hlong : ∀ a b c d e rest, bits = a :: b :: c :: d :: e :: rest → False) : bits.length < 5 := by
  rcases bits with _ | ⟨a, _ | ⟨b, _ | ⟨c, _ | ⟨d, _ | ⟨e, bits⟩⟩⟩⟩⟩
  all_goals first
    | exact absurd rfl (hlong _ _ _ _ _ _)
    | simp

theorem digits_fives (bits : List Bool) : (∀ c ∈ fives bits, c ∈ ALPHABET) ∧
    ∃ digits pad, (fives bits).mapM digitOf = .ok digits ∧ digits.flatten = bits ++ pad ∧
      pad.length < 5 ∧ pad.all (!·) = true := by
  induction bits using fives.induct with
  | case1 a b c d e bits ih =>
    obtain ⟨hmem, digits, pad, hdigits, hflat, hlen, hzero⟩ := ih
    obtain ⟨hchar, hdigit⟩ := digitOf_char (rfl : [a, b, c, d, e].length = 5)
    unfold fives
    refine ⟨?_, [a, b, c, d, e] :: digits, pad, ?_, ?_, hlen, hzero⟩
    · intro x hx
      rcases List.mem_cons.mp hx with rfl | hx
      · exact hchar
      · exact hmem x hx
    · rw [List.mapM_cons, hdigit, hdigits]
      rfl
    · rw [List.flatten_cons, hflat]
      rfl
  | case2 => exact ⟨by simp [fives], [], [], rfl, rfl, by decide, rfl⟩
  | case3 bits hlong hne =>
    have hpos := List.length_pos_of_ne_nil hne
    have hshort := length_lt_five hlong
    have htake : (bits ++ List.replicate 5 false).take 5 =
        bits ++ List.replicate (5 - bits.length) false := by
      rw [List.take_append, List.take_of_length_le (by omega), List.take_replicate,
        Nat.min_eq_left (by omega)]
    have hfives : fives bits = [ALPHABET.getD (ofBits (bits ++
        List.replicate (5 - bits.length) false)) 'A'] := by
      rw [← htake]
      exact fives.eq_3 bits hlong hne
    obtain ⟨hchar, hdigit⟩ := digitOf_char
      (by simp; omega : (bits ++ List.replicate (5 - bits.length) false).length = 5)
    rw [hfives]
    refine ⟨by simpa using hchar, [bits ++ List.replicate (5 - bits.length) false],
      List.replicate (5 - bits.length) false, ?_, by simp, by simp; omega, by simp⟩
    rw [List.mapM_cons, hdigit]
    rfl

theorem toBits_8 (n : Nat) : toBits 8 n = [n.testBit 7, n.testBit 6, n.testBit 5, n.testBit 4,
    n.testBit 3, n.testBit 2, n.testBit 1, n.testBit 0] := rfl

theorem eights_flatMap (b : Bytes) {pad : List Bool} (hlen : pad.length < 5)
    (hzero : pad.all (!·) = true) : eights ((b.flatMap fun x => toBits 8 x.toNat) ++ pad) = .ok b := by
  induction b with
  | nil =>
    rw [List.flatMap_nil, List.nil_append]
    unfold eights
    split
    · simp only [List.length_cons] at hlen
      omega
    · rw [if_pos ⟨hlen, hzero⟩]
  | cons x b ih =>
    have hx : ∀ n < 256, ofBits (toBits 8 n) = n := by decide +kernel
    have hx := hx x.toNat x.toNat_lt
    rw [toBits_8] at hx
    rw [List.flatMap_cons, toBits_8, List.append_assoc]
    simp only [List.cons_append, List.nil_append]
    unfold eights
    rw [ih, hx]
    simp [bind, Except.bind, pure, Except.pure]

theorem base32Decode_base32Encode (b : Bytes) : base32Decode (base32Encode b) = .ok b := by
  obtain ⟨-, digits, pad, hdigits, hflat, hlen, hzero⟩ := digits_fives (b.flatMap fun x =>
    toBits 8 x.toNat)
  have heights := eights_flatMap b hlen hzero
  rw [← hflat] at heights
  unfold base32Decode base32Encode
  change ((fives (b.flatMap fun x => toBits 8 x.toNat)).mapM digitOf >>= fun digits =>
    eights digits.flatten) = .ok b
  rw [hdigits]
  exact heights

example : base32Encode [102, 111, 111, 98, 97] = "MZXW6YTB".toList := by decide

theorem sampleTexts_correct : sampleTexts.Correct where
  base32_alphabet _ := (digits_fives _).1
  fromBase32_base32 := base32Decode_base32Encode
  toUppercase_ascii _ _ := rfl

end AtomVault.Live
