import AtomVault.Live.Canonical
import Mathlib.Data.List.DropRight

/-!
# Server links (`link.rs`)

One string names a rendezvous endpoint and pins it. A link that was built is read back from its
text. A link that was pasted may be one that nobody can build, and may have a second text.
-/

open Lib Cursor

namespace AtomVault.Live

/-- SHA-256 of a certificate. -/
abbrev CertPin := List.Vector UInt8 32

inductive ServerKind
  | rendezvous
  | relay
  deriving DecidableEq

def ServerKind.toByte : ServerKind → UInt8
  | rendezvous => 1
  | relay => 2

def ServerKind.fromByte (b : UInt8) : Except Error ServerKind :=
  if b = 1 then .ok .rendezvous
  else if b = 2 then .ok .relay
  else .error (.discovery (s!"unknown server kind {b}: this link is for something this build " ++
    "does not implement, and its security properties are unknown"))

structure ServerLink where
  kind : ServerKind
  /-- Empty when the link is onion-only. -/
  host : Text
  port : UInt16
  pathPrefix : Text
  pins : List CertPin
  onion : Option OnionAddress
  deriving DecidableEq

/-- What `ServerName` accepts is written in letters, digits, hyphens, underscores and dots, and in
the colons of an address. -/
def HOST_CHARS : Text :=
  "ABCDEFGHIJKLMNOPQRSTUVWXYZabcdefghijklmnopqrstuvwxyz0123456789-_.:".toList

def HostNames (usable : Text → Bool) : Prop :=
  ∀ host, usable host = true → ∀ c ∈ host, c ∈ HOST_CHARS

def trimSlashes (s : Text) : Text :=
  ((s.dropWhile (· = '/')).reverse.dropWhile (· = '/')).reverse

namespace ServerLink

def LINK_PREFIX : Text := "atom-rdv-1:".toList
def FORMAT_VERSION : UInt8 := 1
def CHECKSUM_LEN : Nat := 4
def CHECKSUM_DOMAIN : Bytes := ascii "atom-live-rdv-link-checksum-v1"
def MAX_HOST_LEN : Nat := 255
def MAX_PREFIX_LEN : Nat := 128
def MAX_PINS : Nat := 8

/-! ## Building a link -/

section Build

-- What `ServerName::try_from` accepts.
variable (usable : Text → Bool)

def validate (l : ServerLink) : Except Error Unit :=
  if l.host = [] ∧ l.onion = none then
    .error (.discovery "a server link needs somewhere to connect: give it a host or an onion")
  else if (utf8 l.host).length > MAX_HOST_LEN then .error (.discovery "server host is too long")
  else if l.host ≠ [] ∧ usable l.host = false then
    .error (.discovery s!"`{String.ofList l.host}` is not a usable host")
  else if (utf8 l.pathPrefix).length > MAX_PREFIX_LEN then
    .error (.discovery "server path prefix is too long")
  else if l.pins = [] then
    .error (.discovery ("a server link must pin at least one certificate: without a pin there " ++
      "is nothing distinguishing the real server from whoever answers, and " ++
      "this design has no CA to fall back on"))
  else if l.pins.length > MAX_PINS then
    .error (.discovery s!"a server link may pin at most {MAX_PINS} certificates")
  else .ok ()

def new (kind : ServerKind) (host : Text) (port : UInt16) (pathPrefix : Text)
    (pins : List CertPin) (onion : Option OnionAddress) : Except Error ServerLink := do
  let link : ServerLink := ⟨kind, host, port, trimSlashes pathPrefix, pins, onion⟩
  link.validate usable
  return link

end Build

/-! ## Bytes -/

def onionBytes : Option OnionAddress → Bytes
  | none => []
  | some o => utf8 o.host ++ beBytes 2 o.port.toNat

-- The lengths and the count are written `as u8`, which wraps, and so does `UInt8.ofNat`.
def short (text : Text) : Bytes := [UInt8.ofNat (utf8 text).length] ++ utf8 text

/-- A link up to its onion, which is `rest`. -/
def bytesTo (l : ServerLink) (rest : Bytes) : Bytes :=
  [FORMAT_VERSION] ++ ([l.kind.toByte] ++ ([if l.onion.isSome then 1 else 0] ++
    (short l.host ++ (beBytes 2 l.port.toNat ++ (short l.pathPrefix ++
      ([UInt8.ofNat l.pins.length] ++ (l.pins.flatMap List.Vector.toList ++ rest)))))))

def toBytes (l : ServerLink) : Bytes := l.bytesTo (onionBytes l.onion)

def readPins : Nat → EStateM Error Cursor (List CertPin)
  | 0 => pure []
  | n + 1 => do
    let pin ← octets "server link" 32
    let pins ← readPins n
    return pin :: pins

def readOnion (u : Unicode) (hasOnion : Bool) : EStateM Error Cursor (Option OnionAddress) := do
  if hasOnion = true then
    let label ← Reader.take "server link" ONION_LABEL_BYTES
    let label ← ofOption (.discovery "onion host is not valid UTF-8") (fromUtf8 label)
    let onionPort ← Reader.u16 "server link"
    let onion ← ofExcept (fun e => .discovery s!"server link has a bad onion: {Error.display e}")
      (OnionAddress.new u label onionPort)
    return some onion
  else return none

def readFlag : EStateM Error Cursor Bool := do
  let flag ← Reader.u8 "server link"
  if flag = 0 then return false
  else if flag = 1 then return true
  else throw (.discovery s!"server link flag byte {flag} is not a boolean")

def readShort (e : Error) : EStateM Error Cursor Text := do
  let len ← Reader.u8 "server link"
  let text ← Reader.take "server link" len.toNat
  ofOption e (fromUtf8 text)

def read (u : Unicode) : EStateM Error Cursor ServerLink := do
  let version ← Reader.u8 "server link"
  if version ≠ FORMAT_VERSION then
    throw (.discovery (s!"server link format version {version}, this build understands " ++
      s!"{FORMAT_VERSION}"))
  else
    let kind ← Reader.u8 "server link"
    let kind ← ofExcept (fun e => e) (ServerKind.fromByte kind)
    let hasOnion ← readFlag
    let host ← readShort (.discovery "server host is not valid UTF-8")
    let port ← Reader.u16 "server link"
    let pathPrefix ← readShort (.discovery "server path prefix is not valid UTF-8")
    let pinCount ← Reader.u8 "server link"
    if pinCount.toNat > MAX_PINS then
      throw (.discovery (s!"server link pins {pinCount} certificates, " ++
        s!"more than the {MAX_PINS} allowed"))
    else
      let pins ← readPins pinCount.toNat
      let onion ← readOnion u hasOnion
      return ⟨kind, host, port, pathPrefix, pins, onion⟩

section Texts

variable (usable : Text → Bool) (u : Unicode)

def fromBytes (bytes : Bytes) : Except Error ServerLink :=
  match read u ⟨bytes, 0⟩ with
  | .error e _ => .error e
  | .ok link c =>
    if c.atEnd then do
      -- The path prefix is not trimmed here, as it is in `new`.
      link.validate usable
      return link
    else .error (.discovery ("trailing bytes after the server link — " ++
      "refusing an ambiguous encoding"))

/-! ## Text -/

variable (tx : Texts) (blake3 : Bytes → BundleId)

def checksum (payload : Bytes) : Bytes :=
  (blake3 (CHECKSUM_DOMAIN ++ payload)).toList.take CHECKSUM_LEN

def toText (l : ServerLink) : Text :=
  LINK_PREFIX ++ u.toLowercase (tx.base32 (l.toBytes ++ checksum blake3 l.toBytes))

def fromText (text : Text) : Except Error ServerLink :=
  match stripPrefix (u.toLowercase (u.trim text)) LINK_PREFIX with
  | none => .error (.discovery s!"a server link must start with `{String.ofList LINK_PREFIX}`")
  | some body =>
    match tx.fromBase32 (tx.toUppercase body) with
    | .error e => .error (.discovery s!"server link is not valid base32: {e}")
    | .ok decoded =>
      if decoded.length ≤ CHECKSUM_LEN then
        .error (.discovery "server link is too short to be valid")
      else
        let payload := decoded.take (decoded.length - CHECKSUM_LEN)
        if decoded.drop (decoded.length - CHECKSUM_LEN) ≠ checksum blake3 payload then
          .error (.discovery ("server link checksum does not match — it was probably copied " ++
            "incompletely; ask for it again rather than editing it"))
        else fromBytes usable u payload

end Texts

/-! ## What is permitted -/

section Validate

variable {usable : Text → Bool} {l : ServerLink}

/-- What both `new` and `from_bytes` check. -/
structure Valid (usable : Text → Bool) (l : ServerLink) : Prop where
  target : ¬(l.host = [] ∧ l.onion = none)
  hostLen : (utf8 l.host).length ≤ MAX_HOST_LEN
  hostUsable : l.host ≠ [] → usable l.host = true
  prefixLen : (utf8 l.pathPrefix).length ≤ MAX_PREFIX_LEN
  pinned : l.pins ≠ []
  pinCount : l.pins.length ≤ MAX_PINS

theorem validate_eq_ok : l.validate usable = .ok () ↔ l.Valid usable := by
  unfold validate
  constructor
  · intro h
    split at h
    · cases h
    rename_i htarget
    split at h
    · cases h
    rename_i hhost
    split at h
    · cases h
    rename_i husable
    split at h
    · cases h
    rename_i hpath
    split at h
    · cases h
    rename_i hpinned
    split at h
    · cases h
    rename_i hpins
    exact ⟨htarget, not_lt.mp hhost, fun hne => by simpa using not_and.mp husable hne,
      not_lt.mp hpath, hpinned, not_lt.mp hpins⟩
  · rintro ⟨htarget, hhost, husable, hpath, hpinned, hpins⟩
    have husable : ¬(l.host ≠ [] ∧ usable l.host = false) := by
      rintro ⟨hne, hfalse⟩
      rw [husable hne] at hfalse
      cases hfalse
    rw [if_neg htarget, if_neg (not_lt.mpr hhost), if_neg husable, if_neg (not_lt.mpr hpath),
      if_neg hpinned, if_neg (not_lt.mpr hpins)]

theorem new_eq_ok {kind : ServerKind} {host pathPrefix : Text} {port : UInt16}
    {pins : List CertPin} {onion : Option OnionAddress} :
    new usable kind host port pathPrefix pins onion = .ok l ↔
      l = ⟨kind, host, port, trimSlashes pathPrefix, pins, onion⟩ ∧ l.Valid usable := by
  unfold new
  constructor
  · intro h
    obtain ⟨_, hvalid, hpure⟩ := of_bind_eq_ok h
    cases hpure
    exact ⟨rfl, validate_eq_ok.mp hvalid⟩
  · rintro ⟨rfl, hvalid⟩
    simp only [validate_eq_ok.mpr hvalid]
    rfl

end Validate

/-! ## What is built is read back -/

section Built

variable {u : Unicode} {e : Error}

theorem reads_readShort {text : Text} (h : (utf8 text).length < 256) :
    Reads (readShort e) (short text) text := by
  have hlen : (UInt8.ofNat (utf8 text).length).toNat = (utf8 text).length := by
    rw [UInt8.toNat_ofNat', Nat.mod_eq_of_lt (by omega)]
  refine (Reader.reads_u8 _).bind ?_
  rw [hlen]
  refine (Reader.reads_take rfl).bind_pure ?_
  rw [fromUtf8_utf8]
  exact reads_pure text

theorem reads_readFlag (flag : Bool) : Reads readFlag [if flag then 1 else 0] flag := by
  refine (Reader.reads_u8 _).bind_pure ?_
  cases flag with
  | false => exact reads_pure false
  | true => exact reads_pure true

theorem reads_readPins (pins : List CertPin) :
    Reads (readPins pins.length) (pins.flatMap List.Vector.toList) pins := by
  induction pins with
  | nil => exact reads_pure []
  | cons pin pins ih =>
    rw [List.flatMap_cons]
    exact (reads_octets pin).bind (ih.bind_pure (reads_pure _))

theorem reads_readOnion (hu : u.Plain) (onion : Option OnionAddress) :
    Reads (readOnion u onion.isSome) (onionBytes onion) onion := by
  cases onion with
  | none => exact reads_pure none
  | some a =>
    have hnew : Reads (ofExcept (fun e => .discovery
        s!"server link has a bad onion: {Error.display e}") (OnionAddress.new u a.host a.port) :
        EStateM Error Cursor OnionAddress) [] a := by
      rw [OnionAddress.new_self hu]
      exact reads_pure a
    show Reads (do
      let label ← Reader.take "server link" ONION_LABEL_BYTES
      let label ← ofOption (.discovery "onion host is not valid UTF-8") (fromUtf8 label)
      let onionPort ← Reader.u16 "server link"
      let onion ← ofExcept (fun e => .discovery s!"server link has a bad onion: {Error.display e}")
        (OnionAddress.new u label onionPort)
      return some onion) (utf8 a.host ++ beBytes 2 a.port.toNat) (some a)
    refine (Reader.reads_take a.length_host).bind ?_
    rw [fromUtf8_utf8]
    exact (Reader.reads_u16 a.port).bind_pure (hnew.bind_pure (reads_pure _))

theorem fromByte_toByte (kind : ServerKind) : ServerKind.fromByte kind.toByte = .ok kind := by
  cases kind <;> rfl

theorem reads_read (hu : u.Plain) {l : ServerLink} (hhost : (utf8 l.host).length < 256)
    (hpath : (utf8 l.pathPrefix).length < 256) (hpins : l.pins.length ≤ MAX_PINS) :
    Reads (read u) l.toBytes l := by
  have hcount : (UInt8.ofNat l.pins.length).toNat = l.pins.length := by
    unfold MAX_PINS at hpins
    rw [UInt8.toNat_ofNat', Nat.mod_eq_of_lt (by omega)]
  refine (Reader.reads_u8 FORMAT_VERSION).bind ?_
  rw [if_neg (not_not.mpr rfl)]
  refine (Reader.reads_u8 l.kind.toByte).bind ?_
  rw [fromByte_toByte]
  refine Reads.bind (b := []) (reads_pure l.kind) ?_
  refine (reads_readFlag l.onion.isSome).bind ((reads_readShort hhost).bind ?_)
  refine (Reader.reads_u16 l.port).bind ((reads_readShort hpath).bind ?_)
  refine (Reader.reads_u8 (UInt8.ofNat l.pins.length)).bind ?_
  rw [hcount, if_neg (not_lt.mpr hpins)]
  refine (reads_readPins l.pins).bind ?_
  exact (reads_readOnion hu l.onion).bind_pure (reads_pure l)

variable {usable : Text → Bool} {l : ServerLink}

theorem fromBytes_toBytes (hu : u.Plain) (h : l.Valid usable) :
    fromBytes usable u l.toBytes = .ok l := by
  have hhost := h.hostLen
  have hpath := h.prefixLen
  unfold MAX_HOST_LEN at hhost
  unfold MAX_PREFIX_LEN at hpath
  have hread := (reads_read hu (by omega) (by omega) h.pinCount).whole
  have hend : (⟨l.toBytes, l.toBytes.length⟩ : Cursor).atEnd = true := by simp [Cursor.atEnd]
  unfold fromBytes
  rw [hread]
  simp only [hend, if_true, validate_eq_ok.mpr h]
  rfl

theorem length_toBytes_pos (l : ServerLink) : 0 < l.toBytes.length := by
  unfold toBytes bytesTo
  simp only [List.length_append, List.length_singleton]
  omega

theorem length_checksum (blake3 : Bytes → BundleId) (payload : Bytes) :
    (checksum blake3 payload).length = CHECKSUM_LEN := by
  unfold checksum
  rw [List.length_take, (blake3 _).toList_length]
  rfl

/-- The payload that a text carries under its checksum. -/
def payloadOf (u : Unicode) (tx : Texts) (blake3 : Bytes → BundleId) (text : Text) : Option Bytes :=
  match stripPrefix (u.toLowercase (u.trim text)) LINK_PREFIX with
  | none => none
  | some body =>
    match tx.fromBase32 (tx.toUppercase body) with
    | .error _ => none
    | .ok decoded =>
      if decoded.length ≤ CHECKSUM_LEN then none
      else
        let payload := decoded.take (decoded.length - CHECKSUM_LEN)
        if decoded.drop (decoded.length - CHECKSUM_LEN) ≠ checksum blake3 payload then none
        else some payload

variable {tx : Texts} {blake3 : Bytes → BundleId} {text : Text}

theorem fromText_eq_ok : fromText usable u tx blake3 text = .ok l ↔
    ∃ payload, payloadOf u tx blake3 text = some payload ∧ fromBytes usable u payload = .ok l := by
  unfold fromText payloadOf
  constructor
  · intro h
    split at h
    · cases h
    rename_i body hbody
    split at h
    · cases h
    rename_i decoded hdecoded
    split at h
    · cases h
    rename_i hlen
    simp only at h
    split at h
    · cases h
    rename_i hsum
    simp only [if_neg hlen, if_neg hsum]
    exact ⟨_, rfl, h⟩
  · rintro ⟨payload, hpayload, h⟩
    split at hpayload
    · cases hpayload
    rename_i body hbody
    split at hpayload
    · cases hpayload
    rename_i decoded hdecoded
    split at hpayload
    · cases hpayload
    rename_i hlen
    simp only at hpayload
    split at hpayload
    · cases hpayload
    rename_i hsum
    cases hpayload
    simp only [if_neg hlen, if_neg hsum]
    exact h

/-- The text of a payload, under its checksum. -/
def textOf (u : Unicode) (tx : Texts) (blake3 : Bytes → BundleId) (payload : Bytes) : Text :=
  LINK_PREFIX ++ u.toLowercase (tx.base32 (payload ++ checksum blake3 payload))

theorem payloadOf_mangled (hu : u.Plain) (htx : tx.Correct) {payload : Bytes}
    (hpos : 0 < payload.length) (hm : Mangles u (textOf u tx blake3 payload) text) :
    payloadOf u tx blake3 text = some payload := by
  obtain ⟨body, hbody, hdecoded⟩ :=
    fromBase32_mangled hu htx (hostChars_of_all (by decide +kernel)) hm
  unfold payloadOf
  rw [hbody]
  simp only [hdecoded, List.length_append, length_checksum]
  rw [if_neg (by omega), Nat.add_sub_cancel, List.take_left, List.drop_left,
    if_neg (not_not.mpr rfl)]

theorem fromText_mangled (hu : u.Plain) (htx : tx.Correct) (h : l.Valid usable)
    (hm : Mangles u (l.toText u tx blake3) text) : fromText usable u tx blake3 text = .ok l :=
  fromText_eq_ok.mpr ⟨l.toBytes, payloadOf_mangled hu htx l.length_toBytes_pos hm,
    fromBytes_toBytes hu h⟩

end Built

/-! ## What was read -/

section Grammar

variable {u : Unicode} {e : Error}

/-- The strings of an onion. -/
inductive SpellsOnion (u : Unicode) : Bytes → Option OnionAddress → Prop
  | none : SpellsOnion u [] none
  | some {label : Bytes} {host : Text} {port : UInt16} {a : OnionAddress} :
      label.length = ONION_LABEL_BYTES → fromUtf8 label = some host →
      OnionAddress.new u host port = .ok a → SpellsOnion u (label ++ beBytes 2 port.toNat) (some a)

theorem scans_readShort : Scans (readShort e) fun b text =>
    b = short text ∧ (utf8 text).length < 256 := by
  refine (Reader.scans_u8.bind fun len => (Reader.scans_take len.toNat).bind fun text =>
    scans_ofOption _ _).mono ?_
  rintro b text ⟨b₁, len, b₂, rfl, rfl, b₃, bytes, b₄, rfl, ⟨rfl, hlen⟩, rfl, htext⟩
  have hbytes := utf8_of_fromUtf8 htext
  have hlt := len.toNat_lt
  unfold short
  rw [hbytes, hlen, UInt8.ofNat_toNat, List.append_nil]
  exact ⟨rfl, by omega⟩

theorem scans_readFlag : Scans readFlag fun b flag => b = [if flag then 1 else 0] := by
  refine (Reader.scans_u8.bind (H := fun x b flag => b = [] ∧ x = if flag then 1 else 0)
    fun x => ?_).mono ?_
  · refine scans_ite (fun hx => ?_) fun _ => scans_ite (fun hx => ?_) fun _ => scans_throw _ _
    · refine (scans_pure false).mono ?_
      rintro b flag ⟨rfl, rfl⟩
      exact ⟨rfl, hx⟩
    · refine (scans_pure true).mono ?_
      rintro b flag ⟨rfl, rfl⟩
      exact ⟨rfl, hx⟩
  · rintro b flag ⟨b₁, x, b₂, rfl, rfl, rfl, rfl⟩
    rfl

theorem scans_readPins (n : Nat) : Scans (readPins n) fun b pins =>
    pins.length = n ∧ b = pins.flatMap List.Vector.toList := by
  induction n with
  | zero =>
    refine (scans_pure []).mono ?_
    rintro b pins ⟨rfl, rfl⟩
    exact ⟨rfl, rfl⟩
  | succ n ih =>
    refine ((scans_octets 32).bind fun pin => ih.bind fun pins => scans_pure _).mono ?_
    rintro b _ ⟨b₁, pin, b₂, rfl, rfl, b₃, pins, b₄, rfl, ⟨rfl, rfl⟩, rfl, rfl⟩
    refine ⟨rfl, ?_⟩
    rw [List.append_nil, List.flatMap_cons]

theorem scans_readOnion (hasOnion : Bool) : Scans (readOnion u hasOnion) fun b onion =>
    onion.isSome = hasOnion ∧ SpellsOnion u b onion := by
  refine scans_ite (fun h => ?_) fun h => ?_
  · refine ((Reader.scans_take _).bind fun label => (scans_ofOption _ _).bind fun host =>
      Reader.scans_u16.bind fun port => (scans_ofExcept _ _).bind fun a => scans_pure _).mono ?_
    rintro b onion ⟨label, _, b₁, rfl, ⟨rfl, hlen⟩, b₂, host, b₃, rfl, ⟨rfl, hhost⟩, b₄, port, b₅,
      rfl, rfl, b₆, a, b₇, rfl, ⟨rfl, ha⟩, rfl, rfl⟩
    simp only [List.nil_append, List.append_nil]
    exact ⟨h.symm, .some hlen hhost ha⟩
  · refine (scans_pure none).mono ?_
    rintro b onion ⟨rfl, rfl⟩
    exact ⟨(Bool.not_eq_true _ ▸ h).symm, .none⟩

/-- The strings of a link. They differ in the spelling of its onion. -/
structure Spelt (u : Unicode) (b : Bytes) (l : ServerLink) : Prop where
  hostLen : (utf8 l.host).length < 256
  prefixLen : (utf8 l.pathPrefix).length < 256
  pinCount : l.pins.length ≤ MAX_PINS
  bytes : ∃ rest, b = l.bytesTo rest ∧ SpellsOnion u rest l.onion

theorem scans_readRest (kind : ServerKind) (hasOnion : Bool) (host : Text) (port : UInt16)
    (pathPrefix : Text) (n : Nat) :
    Scans (do
      let pins ← readPins n
      let onion ← readOnion u hasOnion
      return (⟨kind, host, port, pathPrefix, pins, onion⟩ : ServerLink)) fun b l =>
    ∃ pins onion rest, l = ⟨kind, host, port, pathPrefix, pins, onion⟩ ∧ pins.length = n ∧
      b = pins.flatMap List.Vector.toList ++ rest ∧ onion.isSome = hasOnion ∧
      SpellsOnion u rest onion := by
  refine ((scans_readPins n).bind fun pins => (scans_readOnion hasOnion).bind fun onion =>
    scans_pure _).mono ?_
  rintro b l ⟨b₁, pins, b₂, rfl, ⟨hlen, rfl⟩, rest, onion, b₄, rfl, ⟨hsome, hspells⟩, rfl, rfl⟩
  refine ⟨pins, onion, rest, rfl, hlen, ?_, hsome, hspells⟩
  rw [List.append_nil]

theorem eq_toByte_of_fromByte {b : UInt8} {kind : ServerKind}
    (h : ServerKind.fromByte b = .ok kind) : b = kind.toByte := by
  unfold ServerKind.fromByte at h
  split at h
  · rename_i hb
    cases h
    exact hb
  · split at h
    · rename_i hb
      cases h
      exact hb
    · cases h

theorem scans_read : Scans (read u) (Spelt u) := by
  have hversion : ∀ v : UInt8, ¬v ≠ FORMAT_VERSION → v = FORMAT_VERSION := fun v => not_not.mp
  refine (Reader.scans_u8.bind (H := fun v b l => Spelt u ([v] ++ b) l) fun v =>
    scans_ite (fun _ => scans_throw _ _) fun hv => ?_).mono ?_
  · rw [hversion v hv]
    refine (Reader.scans_u8.bind fun kindByte => (scans_ofExcept _ _).bind fun kind =>
      scans_readFlag.bind fun hasOnion => scans_readShort.bind fun host =>
      Reader.scans_u16.bind fun port => scans_readShort.bind fun pathPrefix =>
      Reader.scans_u8.bind (H := fun n b l => n.toNat ≤ MAX_PINS ∧ ∃ pins onion rest,
        l = (⟨kind, host, port, pathPrefix, pins, onion⟩ : ServerLink) ∧
          pins.length = n.toNat ∧ b = pins.flatMap List.Vector.toList ++ rest ∧
          onion.isSome = hasOnion ∧ SpellsOnion u rest onion) fun n =>
      scans_ite (fun _ => scans_throw _ _) fun hn => ?_).mono ?_
    · refine (scans_readRest kind hasOnion host port pathPrefix n.toNat).mono ?_
      exact fun b l h => ⟨not_lt.mp hn, h⟩
    · rintro b _ ⟨b₁, x, b₂, rfl, rfl, b₃, kind, b₄, rfl, ⟨rfl, hkind⟩, b₅, hasOnion, b₆, rfl, rfl,
        b₇, host, b₈, rfl, ⟨rfl, hhost⟩, b₉, port, b₁₀, rfl, rfl, b₁₁, pathPrefix, b₁₂, rfl,
        ⟨rfl, hpath⟩, b₁₃, n, b₁₄, rfl, rfl, hn, pins, onion, rest, rfl, hlen, rfl, rfl, hspells⟩
      have hcount : n = UInt8.ofNat pins.length := by rw [hlen, UInt8.ofNat_toNat]
      refine ⟨hhost, hpath, hlen ▸ hn, rest, ?_, hspells⟩
      rw [eq_toByte_of_fromByte hkind, hcount]
      rfl
  · rintro b l ⟨b₁, v, b₂, rfl, rfl, h⟩
    exact h

theorem fromBytes_spelt {usable : Text → Bool} {b : Bytes} {l : ServerLink}
    (h : fromBytes usable u b = .ok l) : l.Spelt u b ∧ l.Valid usable := by
  unfold fromBytes at h
  split at h
  · cases h
  rename_i l' c hrun
  split at h
  · rename_i hend
    obtain ⟨_, hvalid, hpure⟩ := of_bind_eq_ok h
    cases hpure
    exact ⟨(scans_read.whole hrun hend).1, validate_eq_ok.mp hvalid⟩
  · cases h

end Grammar

end ServerLink

/-! ## Slashes -/

theorem trimSlashes_eq (s : Text) :
    trimSlashes s = (s.dropWhile (· = '/')).rdropWhile (· = '/') := rfl

theorem trimSlashes_eq_self_iff (s : Text) :
    trimSlashes s = s ↔ s.head? ≠ some '/' ∧ s.getLast? ≠ some '/' := by
  have hleft : s.dropWhile (· = '/') = s ↔ s.head? ≠ some '/' := by
    cases s with
    | nil => simp
    | cons c s => simp [List.dropWhile_eq_self_iff]
  have hright : s.rdropWhile (· = '/') = s ↔ s.getLast? ≠ some '/' := by
    rw [List.rdropWhile_eq_self_iff]
    constructor
    · intro h hlast
      have hne : s ≠ [] := by
        rintro rfl
        cases hlast
      rw [List.getLast?_eq_some_getLast hne] at hlast
      exact h hne (by simpa using hlast)
    · intro h hne hslash
      rw [List.getLast?_eq_some_getLast hne] at h
      exact h (by simpa using hslash)
  rw [trimSlashes_eq, ← hleft, ← hright]
  constructor
  · intro h
    have hsuffix := List.dropWhile_suffix (· = '/') (l := s)
    have hlong := (List.rdropWhile_prefix (· = '/') (s.dropWhile (· = '/'))).length_le
    rw [h] at hlong
    have hsame : s.dropWhile (· = '/') = s :=
      hsuffix.eq_of_length (le_antisymm hsuffix.length_le hlong)
    rw [hsame] at h
    exact ⟨hsame, h⟩
  · rintro ⟨hl, hr⟩
    rw [hl, hr]

theorem trimSlashes_infix (s : Text) : ∃ pre post, s = pre ++ (trimSlashes s ++ post) ∧
    (∀ c ∈ pre, c = '/') ∧ ∀ c ∈ post, c = '/' := by
  let rest := s.dropWhile (· = '/')
  refine ⟨s.takeWhile (· = '/'), rest.rtakeWhile (· = '/'), ?_, ?_, ?_⟩
  · rw [trimSlashes_eq, List.rdropWhile_append_rtakeWhile, List.takeWhile_append_dropWhile]
  · intro c hc
    simpa using List.mem_takeWhile_imp hc
  · intro c hc
    simpa using List.mem_rtakeWhile_imp hc

def SLASH : UInt8 := 47

theorem utf8EncodeChar_ne_nil (c : Char) : String.utf8EncodeChar c ≠ [] := by
  have := c.utf8Size_pos
  rw [← String.length_utf8EncodeChar] at this
  exact List.ne_nil_of_length_pos this

theorem slash_mem_utf8EncodeChar {c : Char} : SLASH ∈ String.utf8EncodeChar c ↔ c = '/' := by
  constructor
  · intro h
    have := toNat_of_mem_utf8EncodeChar (by decide) h
    rw [← Char.ofNat_toNat c, this]
    rfl
  · rintro rfl
    decide

theorem head_utf8_iff (s : Text) : (utf8 s).head? = some SLASH ↔ s.head? = some '/' := by
  cases s with
  | nil => simp [utf8]
  | cons c s =>
    rw [utf8, List.flatMap_cons, List.head?_append_of_ne_nil _ (utf8EncodeChar_ne_nil c)]
    constructor
    · intro h
      rw [slash_mem_utf8EncodeChar.mp (List.mem_of_mem_head? h)]
      rfl
    · intro h
      cases h
      rfl

theorem last_utf8_iff (s : Text) : (utf8 s).getLast? = some SLASH ↔ s.getLast? = some '/' := by
  rcases List.eq_nil_or_concat s with rfl | ⟨s, c, rfl⟩
  · simp [utf8]
  · rw [List.concat_eq_append, utf8_append, List.getLast?_concat]
    have hc : utf8 [c] = String.utf8EncodeChar c := by simp [utf8]
    rw [hc, List.getLast?_append_of_ne_nil _ (utf8EncodeChar_ne_nil c)]
    constructor
    · intro h
      rw [slash_mem_utf8EncodeChar.mp (List.mem_of_mem_getLast? h)]
    · intro h
      cases h
      rfl

/-! ## Which bytes are canonical -/

namespace ServerLink

section Canonical

variable {u : Unicode} {usable : Text → Bool} {b : Bytes} {l : ServerLink}

/-- Where the path stands in the bytes of a link: behind the host and the port. -/
def pathBytes (b : Bytes) : Bytes :=
  let rest := b.drop (6 + (b.getD 3 0).toNat)
  (rest.drop 1).take (rest.headD 0).toNat

/-- Where the onion stands: it is the end, up to its port. -/
def labelBytes (b : Bytes) : Bytes :=
  if b.getD 2 0 = 1 then slice b (b.length - (ONION_LABEL_BYTES + 2)) ONION_LABEL_BYTES else []

/-- The bytes of a link that can be built: no slash at an end of the path, no capital letter in
the onion. -/
structure Normal (b : Bytes) : Prop where
  left : (pathBytes b).head? ≠ some SLASH
  right : (pathBytes b).getLast? ≠ some SLASH
  small : ∀ x ∈ labelBytes b, isCapital x = false

theorem pathBytes_bytesTo (hhost : (utf8 l.host).length < 256)
    (hpath : (utf8 l.pathPrefix).length < 256) (rest : Bytes) :
    pathBytes (l.bytesTo rest) = utf8 l.pathPrefix := by
  let front := [FORMAT_VERSION] ++ [l.kind.toByte] ++ [if l.onion.isSome then (1 : UInt8) else 0] ++
    short l.host ++ beBytes 2 l.port.toNat
  let back := [UInt8.ofNat l.pins.length] ++ (l.pins.flatMap List.Vector.toList ++ rest)
  have hbytes : l.bytesTo rest =
      front ++ ([UInt8.ofNat (utf8 l.pathPrefix).length] ++ (utf8 l.pathPrefix ++ back)) := by
    simp only [bytesTo, short, front, back, List.append_assoc]
  have hhostLen : ((l.bytesTo rest).getD 3 0).toNat = (utf8 l.host).length := by
    show (UInt8.ofNat (utf8 l.host).length).toNat = _
    rw [UInt8.toNat_ofNat', Nat.mod_eq_of_lt (by omega)]
  have hfront : front.length = 6 + (utf8 l.host).length := by
    simp only [front, short, List.length_append, List.length_singleton, length_beBytes]
    omega
  have hdrop : (l.bytesTo rest).drop (6 + (utf8 l.host).length) =
      [UInt8.ofNat (utf8 l.pathPrefix).length] ++ (utf8 l.pathPrefix ++ back) := by
    rw [hbytes, List.drop_left' hfront]
  unfold pathBytes
  simp only [hhostLen, hdrop]
  show (utf8 l.pathPrefix ++ back).take (UInt8.ofNat (utf8 l.pathPrefix).length).toNat = _
  rw [UInt8.toNat_ofNat', Nat.mod_eq_of_lt (by omega), List.take_left]

theorem labelBytes_some {label : Bytes} (hlen : label.length = ONION_LABEL_BYTES) (port : UInt16)
    (h : l.onion.isSome = true) : labelBytes (l.bytesTo (label ++ beBytes 2 port.toNat)) = label := by
  have hflag : (l.bytesTo (label ++ beBytes 2 port.toNat)).getD 2 0 = 1 := by
    show (if l.onion.isSome then (1 : UInt8) else 0) = 1
    rw [if_pos h]
  have hsplit : ∃ front, l.bytesTo (label ++ beBytes 2 port.toNat) =
      front ++ (label ++ beBytes 2 port.toNat) :=
    ⟨l.bytesTo [], by simp only [bytesTo, List.append_assoc, List.append_nil]⟩
  obtain ⟨front, hfront⟩ := hsplit
  unfold labelBytes
  rw [if_pos hflag, hfront]
  refine slice_field front label (beBytes 2 port.toNat) ?_ hlen
  simp only [List.length_append, hlen, length_beBytes]
  omega

theorem labelBytes_none (rest : Bytes) (h : l.onion.isSome = false) :
    labelBytes (l.bytesTo rest) = [] := by
  have hflag : (l.bytesTo rest).getD 2 0 = 0 := by
    show (if l.onion.isSome then (1 : UInt8) else 0) = 0
    rw [h]
    rfl
  unfold labelBytes
  rw [hflag, if_neg (by decide)]

theorem toBytes_eq_iff (hu : u.Plain) (hn : u.Narrows) (h : l.Spelt u b) :
    l.toBytes = b ↔ ∀ x ∈ labelBytes b, isCapital x = false := by
  obtain ⟨-, -, -, rest, rfl, hspells⟩ := h
  have hrest : l.toBytes = l.bytesTo rest ↔ onionBytes l.onion = rest := by
    simp only [toBytes, bytesTo, List.append_cancel_left_eq]
  rw [hrest]
  generalize ho : l.onion = o at hspells
  cases hspells with
  | none =>
    rw [labelBytes_none [] (by rw [ho]; rfl)]
    simp [onionBytes]
  | @some label host port a hlen hhost ha =>
    obtain ⟨-, hport⟩ := OnionAddress.new_eq_ok ha
    rw [labelBytes_some hlen port (by rw [ho]; rfl), ← OnionAddress.label_iff hu hn hlen hhost ha]
    simp only [onionBytes, hport, List.append_cancel_right_eq]

theorem new_self_iff (h : l.Spelt u b) (hvalid : l.Valid usable) :
    new usable l.kind l.host l.port l.pathPrefix l.pins l.onion = .ok l ↔
      (pathBytes b).head? ≠ some SLASH ∧ (pathBytes b).getLast? ≠ some SLASH := by
  obtain ⟨hhost, hpath, -, rest, rfl, -⟩ := h
  rw [pathBytes_bytesTo hhost hpath, Ne, Ne, head_utf8_iff, last_utf8_iff,
    ← trimSlashes_eq_self_iff, new_eq_ok]
  constructor
  · rintro ⟨hsame, -⟩
    exact (congrArg ServerLink.pathPrefix hsame).symm
  · intro htrim
    refine ⟨?_, hvalid⟩
    rw [htrim]

end Canonical

/-! ## No panics -/

def readPinsOrPanic : Nat → EStateM (Option Error) Cursor (List CertPin)
  | 0 => pure []
  | n + 1 => do
    let pin ← octetsOrPanic "server link" 32
    let pins ← readPinsOrPanic n
    return pin :: pins

def readOnionOrPanic (u : Unicode) (hasOnion : Bool) :
    EStateM (Option Error) Cursor (Option OnionAddress) := do
  if hasOnion = true then
    let label ← Reader.takeOrPanic "server link" ONION_LABEL_BYTES
    let label ← ofOption (some (.discovery "onion host is not valid UTF-8")) (fromUtf8 label)
    let onionPort ← Reader.u16OrPanic "server link"
    let onion ← ofExcept
      (fun e => some (.discovery s!"server link has a bad onion: {Error.display e}"))
      (OnionAddress.new u label onionPort)
    return some onion
  else return none

def readFlagOrPanic : EStateM (Option Error) Cursor Bool := do
  let flag ← Reader.u8OrPanic "server link"
  if flag = 0 then return false
  else if flag = 1 then return true
  else throw (some (.discovery s!"server link flag byte {flag} is not a boolean"))

def readShortOrPanic (e : Error) : EStateM (Option Error) Cursor Text := do
  let len ← Reader.u8OrPanic "server link"
  let text ← Reader.takeOrPanic "server link" len.toNat
  ofOption (some e) (fromUtf8 text)

def readOrPanic (u : Unicode) : EStateM (Option Error) Cursor ServerLink := do
  let version ← Reader.u8OrPanic "server link"
  if version ≠ FORMAT_VERSION then
    throw (some (.discovery (s!"server link format version {version}, this build understands " ++
      s!"{FORMAT_VERSION}")))
  else
    let kind ← Reader.u8OrPanic "server link"
    let kind ← ofExcept some (ServerKind.fromByte kind)
    let hasOnion ← readFlagOrPanic
    let host ← readShortOrPanic (.discovery "server host is not valid UTF-8")
    let port ← Reader.u16OrPanic "server link"
    let pathPrefix ← readShortOrPanic (.discovery "server path prefix is not valid UTF-8")
    let pinCount ← Reader.u8OrPanic "server link"
    if pinCount.toNat > MAX_PINS then
      throw (some (.discovery (s!"server link pins {pinCount} certificates, " ++
        s!"more than the {MAX_PINS} allowed")))
    else
      let pins ← readPinsOrPanic pinCount.toNat
      let onion ← readOnionOrPanic u hasOnion
      return ⟨kind, host, port, pathPrefix, pins, onion⟩

section Panics

variable (usable : Text → Bool) (u : Unicode) (tx : Texts) (blake3 : Bytes → BundleId)

def fromBytesOrPanic (bytes : Bytes) : Option (Except Error ServerLink) :=
  match readOrPanic u ⟨bytes, 0⟩ with
  | .error none _ => none
  | .error (some e) _ => some (.error e)
  | .ok link c =>
    if c.atEnd then some do
      link.validate usable
      return link
    else some (.error (.discovery ("trailing bytes after the server link — " ++
      "refusing an ambiguous encoding")))

def checksumOrPanic (payload : Bytes) : Option (List.Vector UInt8 CHECKSUM_LEN) := do
  expectArray CHECKSUM_LEN (← range (blake3 (CHECKSUM_DOMAIN ++ payload)).toList 0 CHECKSUM_LEN)

/-- `from_text` with its panics, which are `none`. `split_at` is the two ranges. -/
def fromTextOrPanic (text : Text) : Option (Except Error ServerLink) :=
  match stripPrefix (u.toLowercase (u.trim text)) LINK_PREFIX with
  | none =>
    some (.error (.discovery s!"a server link must start with `{String.ofList LINK_PREFIX}`"))
  | some body =>
    match tx.fromBase32 (tx.toUppercase body) with
    | .error e => some (.error (.discovery s!"server link is not valid base32: {e}"))
    | .ok decoded =>
      if decoded.length ≤ CHECKSUM_LEN then
        some (.error (.discovery "server link is too short to be valid"))
      else do
        let mid := decoded.length - CHECKSUM_LEN
        let payload ← range decoded 0 mid
        let tail ← range decoded mid decoded.length
        let sum ← checksumOrPanic blake3 payload
        if tail ≠ sum.toList then
          some (.error (.discovery ("server link checksum does not match — it was probably copied " ++
            "incompletely; ask for it again rather than editing it")))
        else fromBytesOrPanic usable u payload

end Panics

section NoPanics

variable {usable : Text → Bool} {u : Unicode} {tx : Texts} {blake3 : Bytes → BundleId} {e : Error}

theorem noPanic_readPins (n : Nat) : NoPanic (readPinsOrPanic n) (readPins n) := by
  induction n with
  | zero => exact noPanic_pure []
  | succ n ih => exact (noPanic_octets 32).bind fun pin => ih.bind fun pins => noPanic_pure _

theorem noPanic_readOnion (hasOnion : Bool) :
    NoPanic (readOnionOrPanic u hasOnion) (readOnion u hasOnion) := by
  refine noPanic_ite (fun _ => ?_) fun _ => noPanic_pure none
  exact (Reader.noPanic_take _).bind fun label => (noPanic_ofOption _ _).bind fun host =>
    Reader.noPanic_u16.bind fun port => (noPanic_ofExcept _ _).bind fun a => noPanic_pure _

theorem noPanic_readFlag : NoPanic readFlagOrPanic readFlag :=
  Reader.noPanic_u8.bind fun _ => noPanic_ite (fun _ => noPanic_pure false) fun _ =>
    noPanic_ite (fun _ => noPanic_pure true) fun _ => noPanic_throw _

theorem noPanic_readShort : NoPanic (readShortOrPanic e) (readShort e) :=
  Reader.noPanic_u8.bind fun _ => (Reader.noPanic_take _).bind fun _ => noPanic_ofOption _ _

theorem noPanic_read : NoPanic (readOrPanic u) (read u) := by
  refine Reader.noPanic_u8.bind fun version => noPanic_ite (fun _ => noPanic_throw _) fun _ => ?_
  refine Reader.noPanic_u8.bind fun kind => (noPanic_ofExcept _ _).bind fun kind => ?_
  refine noPanic_readFlag.bind fun hasOnion => noPanic_readShort.bind fun host => ?_
  refine Reader.noPanic_u16.bind fun port => noPanic_readShort.bind fun pathPrefix => ?_
  refine Reader.noPanic_u8.bind fun n => noPanic_ite (fun _ => noPanic_throw _) fun _ => ?_
  exact (noPanic_readPins _).bind fun pins => (noPanic_readOnion _).bind fun onion =>
    noPanic_pure _

theorem fromBytesOrPanic_eq (b : Bytes) :
    fromBytesOrPanic usable u b = some (fromBytes usable u b) := by
  unfold fromBytesOrPanic fromBytes
  rcases (noPanic_read (u := u)).start b with ⟨e, c, hread, hpanics⟩ | ⟨l, c, hread, hpanics⟩
  · simp only [hread, hpanics]
  · simp only [hread, hpanics]
    split <;> rfl

theorem checksumOrPanic_eq (blake3 : Bytes → BundleId) (payload : Bytes) :
    ∃ sum, checksumOrPanic blake3 payload = some sum ∧ sum.toList = checksum blake3 payload := by
  have hhash := (blake3 (CHECKSUM_DOMAIN ++ payload)).toList_length
  have hrange : range (blake3 (CHECKSUM_DOMAIN ++ payload)).toList 0 CHECKSUM_LEN =
      some (checksum blake3 payload) := by
    unfold range checksum
    rw [if_pos ⟨Nat.zero_le _, by rw [hhash]; decide⟩, Nat.sub_zero, slice_from_zero]
  refine ⟨⟨checksum blake3 payload, length_checksum blake3 payload⟩, ?_, rfl⟩
  unfold checksumOrPanic
  rw [hrange]
  exact expectArray_of_length (length_checksum blake3 payload)

theorem fromTextOrPanic_eq (text : Text) :
    fromTextOrPanic usable u tx blake3 text = some (fromText usable u tx blake3 text) := by
  unfold fromTextOrPanic fromText
  split
  · rfl
  split
  · rfl
  rename_i decoded _
  split
  · rfl
  have hpayload : range decoded 0 (decoded.length - CHECKSUM_LEN) =
      some (decoded.take (decoded.length - CHECKSUM_LEN)) := by
    unfold range
    rw [if_pos ⟨Nat.zero_le _, Nat.sub_le _ _⟩, Nat.sub_zero, slice_from_zero]
  have htail : range decoded (decoded.length - CHECKSUM_LEN) decoded.length =
      some (decoded.drop (decoded.length - CHECKSUM_LEN)) := by
    unfold range slice
    rw [if_pos ⟨Nat.sub_le _ _, le_rfl⟩, List.take_of_length_le (by rw [List.length_drop])]
  obtain ⟨sum, hsum, hbytes⟩ :=
    checksumOrPanic_eq blake3 (decoded.take (decoded.length - CHECKSUM_LEN))
  simp only [hpayload, htail, hsum, hbytes, fromBytesOrPanic_eq, Option.bind_eq_bind,
    Option.bind_some]
  split <;> rfl

end NoPanics

/-! ## One set of links, one string each -/

section Same

variable {u : Unicode} {tx : Texts} (usable : Text → Bool) (blake3 : Bytes → BundleId)

/-- **Built and pasted links agree but for slashes and capitals.** A link that was built is read
back from its text in any letter case and with white space around. No text makes the reader
panic. A link that was pasted is one that `new` returns for its own fields, and its payload is the
one string of it, exactly where the payload's path has no slash at an end and its onion has no
capital letter. -/
theorem built_and_pasted_iff (hu : u.Plain) (hn : u.Narrows) (htx : tx.Correct) :
    (∀ kind host port pathPrefix pins onion l,
      new usable kind host port pathPrefix pins onion = .ok l →
        ∀ text, Mangles u (l.toText u tx blake3) text → fromText usable u tx blake3 text = .ok l) ∧
    ∀ text, fromTextOrPanic usable u tx blake3 text = some (fromText usable u tx blake3 text) ∧
      ∀ l, fromText usable u tx blake3 text = .ok l →
        ∃ payload, payloadOf u tx blake3 text = some payload ∧
          (new usable l.kind l.host l.port l.pathPrefix l.pins l.onion = .ok l ∧
            l.toBytes = payload ↔ Normal payload) := by
  refine ⟨?_, fun text => ⟨fromTextOrPanic_eq text, ?_⟩⟩
  · intro kind host port pathPrefix pins onion l h text hm
    exact fromText_mangled hu htx (new_eq_ok.mp h).2 hm
  · intro l h
    obtain ⟨payload, hpayload, hread⟩ := fromText_eq_ok.mp h
    obtain ⟨hspelt, hvalid⟩ := fromBytes_spelt hread
    refine ⟨payload, hpayload, ?_⟩
    rw [new_self_iff hspelt hvalid, toBytes_eq_iff hu hn hspelt]
    constructor
    · rintro ⟨⟨hleft, hright⟩, hsmall⟩
      exact ⟨hleft, hright, hsmall⟩
    · rintro ⟨hleft, hright, hsmall⟩
      exact ⟨⟨hleft, hright⟩, hsmall⟩

end Same

/-! ## Pasted links that nobody built -/

def sampleUsable (host : Text) : Bool := host.all fun c => c ∈ HOST_CHARS

def sampleHash : Bytes → BundleId := fun b => ⟨(b.reverse ++ List.replicate 32 0).take 32, by simp⟩

theorem length_samplePin : (List.replicate 32 (1 : UInt8)).length = 32 := rfl

/-- A link to a host, with this path. -/
def hostLink (pathPrefix : Text) : ServerLink where
  kind := .rendezvous
  host := "rdv.example.org".toList
  port := 8443
  pathPrefix := pathPrefix
  pins := [⟨List.replicate 32 1, length_samplePin⟩]
  onion := none

/-- A link to an onion alone. -/
def onionLink : ServerLink :=
  ⟨.rendezvous, [], 443, [], [⟨List.replicate 32 1, length_samplePin⟩], some onionHost⟩

/-- The payload of the onion link, with a label that starts with a capital letter. -/
def capitalPayload : Bytes :=
  onionLink.bytesTo ([65] ++ (List.replicate 55 97 ++ (utf8 ONION_SUFFIX ++ [1, 187])))

theorem hostLink_valid {pathPrefix : Text} (h : (utf8 pathPrefix).length ≤ MAX_PREFIX_LEN) :
    (hostLink pathPrefix).Valid sampleUsable where
  target := by rintro ⟨h, -⟩; cases h
  hostLen := by
    show (utf8 "rdv.example.org".toList).length ≤ MAX_HOST_LEN
    decide +kernel
  hostUsable _ := by
    show sampleUsable "rdv.example.org".toList = true
    decide +kernel
  prefixLen := h
  pinned := by simp [hostLink]
  pinCount := by
    show 1 ≤ MAX_PINS
    decide

theorem built_and_pasted_iff_records :
    fromText sampleUsable sampleUnicode sampleTexts sampleHash
      ((hostLink "records".toList).toText sampleUnicode sampleTexts sampleHash) =
      .ok (hostLink "records".toList) := by
  have hnew : new sampleUsable .rendezvous "rdv.example.org".toList 8443 "/records/".toList
      [⟨List.replicate 32 1, rfl⟩] none = .ok (hostLink "records".toList) :=
    new_eq_ok.mpr ⟨by decide +kernel, hostLink_valid (by decide +kernel)⟩
  obtain ⟨hbuilt, -⟩ := built_and_pasted_iff sampleUsable sampleHash sampleUnicode_plain
    sampleUnicode_narrows sampleTexts_correct
  exact hbuilt _ _ _ _ _ _ _ hnew _ (Mangles.refl _ _)

set_option maxRecDepth 100000 in
theorem fromBytes_capitalPayload :
    fromBytes sampleUsable sampleUnicode capitalPayload = .ok onionLink := by
  decide +kernel

/-- A pasted link whose path starts with a slash is none that can be built, and one whose onion
has a capital letter has a second string. -/
theorem pasted_link_differs :
    (∃ text l, fromText sampleUsable sampleUnicode sampleTexts sampleHash text = .ok l ∧
      new sampleUsable l.kind l.host l.port l.pathPrefix l.pins l.onion ≠ .ok l) ∧
    ∃ text payload l, fromText sampleUsable sampleUnicode sampleTexts sampleHash text = .ok l ∧
      payloadOf sampleUnicode sampleTexts sampleHash text = some payload ∧ l.toBytes ≠ payload := by
  constructor
  · refine ⟨(hostLink "/records".toList).toText sampleUnicode sampleTexts sampleHash,
      hostLink "/records".toList, ?_, ?_⟩
    · exact fromText_mangled sampleUnicode_plain sampleTexts_correct
        (hostLink_valid (by decide +kernel)) (Mangles.refl _ _)
    · intro h
      have hsame := congrArg ServerLink.pathPrefix (new_eq_ok.mp h).1
      exact absurd hsame (by decide +kernel)
  · have hpayload : payloadOf sampleUnicode sampleTexts sampleHash
        (textOf sampleUnicode sampleTexts sampleHash capitalPayload) = some capitalPayload :=
      payloadOf_mangled sampleUnicode_plain sampleTexts_correct (by decide +kernel)
        (Mangles.refl _ _)
    refine ⟨_, capitalPayload, onionLink, ?_, hpayload, by decide +kernel⟩
    exact fromText_eq_ok.mpr ⟨capitalPayload, hpayload, fromBytes_capitalPayload⟩

end ServerLink

end AtomVault.Live
