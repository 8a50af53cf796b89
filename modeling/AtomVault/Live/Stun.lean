import AtomVault.Live.Ticket

/-!
# The response of a STUN server (`stun.rs`)

`none` is a panic: an index or a slice out of range, a sum that no `usize` holds, an `expect` that
fails. A loop that does not end is `none` as well.
-/

namespace AtomVault.Live.Stun

open Lib Cursor

def BINDING_SUCCESS : UInt16 := 0x0101
def MAGIC_COOKIE : UInt32 := 0x2112A442
def ATTR_XOR_MAPPED_ADDRESS : UInt16 := 0x0020
def ATTR_MAPPED_ADDRESS : UInt16 := 0x0001

def HEADER_LEN : Nat := 20
def TXID_LEN : Nat := 12

abbrev Txid := List.Vector UInt8 TXID_LEN

/-! ## Operations that panic -/

def usize (n : Nat) : Option Nat := if n < 2 ^ 64 then some n else none

/-- `u16::from_be_bytes([b[i], b[i + 1]])` -/
def u16At (b : Bytes) (i : Nat) : Option UInt16 := do
  return .ofNat (ofBe [← b[i]?, ← b[← usize (i + 1)]?])

/-- `usize::next_multiple_of` -/
def nextMultipleOf (n m : Nat) : Option Nat :=
  if n % m = 0 then some n else usize (n + (m - n % m))

/-- `{n:#0w$x}`, with `digits` digits at least. -/
def hexText (digits n : Nat) : String :=
  String.ofList ('0' :: 'x' :: (Nat.toDigits 16 n).leftpad digits '0')

/-! ## The address in an attribute -/

def xorKey (txid : Txid) : Bytes := beBytes 4 MAGIC_COOKIE.toNat ++ txid.toList

/-- `out` is as long as the address, so the key is cut to it. -/
def unmask (xored : Bool) (key out : Bytes) : Bytes :=
  if xored then List.zipWith (· ^^^ ·) out key else out

/-- The octets of an address, which both families have behind the port. -/
def octetsAt (n : Nat) (truncated : String) (value key : Bytes) (xored : Bool) :
    Option (Except Error (List.Vector UInt8 n)) :=
  match range value 4 (4 + n) with
  | none => some (.error (.connect truncated))
  | some bytes => do
    let bytes ← expectArray n bytes
    return .ok (← expectArray n (unmask xored key bytes.toList))

def decodeAddress (value : Bytes) (txid : Txid) (xored : Bool) :
    Option (Except Error SocketAddr) := do
  if value.length < 4 then
    return .error (.connect "STUN address attribute is too short")
  let family ← value[1]?
  let rawPort ← u16At value 2
  let port := if xored then rawPort ^^^ (MAGIC_COOKIE >>> 16).toUInt16 else rawPort
  let key := xorKey txid
  if family = 0x01 then
    return (← octetsAt 4 "truncated IPv4 STUN address" value key xored).map (.v4 · port)
  else if family = 0x02 then
    return (← octetsAt 16 "truncated IPv6 STUN address" value key xored).map (.v6 · port 0 0)
  else
    return .error (.connect s!"STUN response has unknown address family {hexText 2 family.toNat}")

/-! ## The message -/

def noAddress : Except Error SocketAddr :=
  .error (.connect "STUN response carried no mapped address")

/-- A bare address is a fallback only, and the first one is kept. -/
def keepFallback (attrType : UInt16) (value : Bytes) (txid : Txid)
    (fallback : Option (Except Error SocketAddr)) : Option (Option (Except Error SocketAddr)) :=
  if attrType = ATTR_MAPPED_ADDRESS ∧ fallback = none then
    (decodeAddress value txid false).map some
  else some fallback

/-- The loop over the attributes, of which there are at most `fuel`. -/
def parseLoop (body : Bytes) (txid : Txid) (fuel pos : Nat)
    (fallback : Option (Except Error SocketAddr)) : Option (Except Error SocketAddr) :=
  match fuel with
  | 0 => none
  | fuel + 1 => do
    if ¬ (← usize (pos + 4)) ≤ body.length then
      return fallback.getD noAddress
    let attrType ← u16At body pos
    let attrLen := (← u16At body (← usize (pos + 2))).toNat
    let start ← usize (pos + 4)
    match (usize (start + attrLen)).filter (· ≤ body.length) with
    | none => return .error (.connect "STUN attribute runs past the message")
    | some stop =>
      let value ← range body start stop
      if attrType = ATTR_XOR_MAPPED_ADDRESS then decodeAddress value txid true
      else
        let fallback ← keepFallback attrType value txid fallback
        parseLoop body txid fuel (← usize (start + (← nextMultipleOf attrLen 4))) fallback

def parseResponse (msg : Bytes) (txid : Txid) : Option (Except Error SocketAddr) := do
  if msg.length < HEADER_LEN then
    return .error (.connect "STUN response is too short")
  let msgType ← u16At msg 0
  if msgType ≠ BINDING_SUCCESS then
    return .error (.connect
      s!"STUN server returned message type {hexText 4 msgType.toNat}, not a binding success")
  if UInt32.ofNat (ofBe [← msg[4]?, ← msg[5]?, ← msg[6]?, ← msg[7]?]) ≠ MAGIC_COOKIE then
    return .error (.connect "STUN response has a bad magic cookie")
  if (← range msg 8 20) ≠ txid.toList then
    return .error (.connect ("STUN response transaction ID does not match our request — " ++
      "discarding a possibly forged reply"))
  let declared := (← u16At msg 2).toNat
  match range msg HEADER_LEN (← usize (HEADER_LEN + declared)) with
  | none => return .error (.connect "STUN response is shorter than it claims")
  | some body => parseLoop body txid (body.length + 1) 0 none

section Reads

variable {b : Bytes} {i n m : Nat}

theorem usize_of_lt (h : n < 2 ^ 64) : usize n = some n := if_pos h

theorem slice_succ (h : i < b.length) (n : Nat) :
    slice b i (n + 1) = b[i] :: slice b (i + 1) n := by
  rw [slice, slice, ← List.getElem_cons_drop h, List.take_succ_cons]

theorem u16At_eq (h : i + 2 ≤ b.length) (hi : i < 2 ^ 32) :
    u16At b i = some (.ofNat (ofBe (slice b i 2))) := by
  have hfirst : i < b.length := by omega
  have hsecond : i + 1 < b.length := by omega
  rw [slice_succ hfirst, slice_succ hsecond, slice_zero]
  unfold u16At
  rw [usize_of_lt (by omega)]
  simp [List.getElem?_eq_getElem hfirst, List.getElem?_eq_getElem hsecond]

theorem range_eq (h : i + n ≤ b.length) : range b i (i + n) = some (slice b i n) := by
  unfold range
  rw [if_pos ⟨by omega, h⟩, Nat.add_sub_cancel_left]

theorem ofBe_slice_lt (h : i + 2 ≤ b.length) : ofBe (slice b i 2) < 2 ^ 16 := by
  simpa using ofBe_lt_of_length (length_slice b i 2 h)

/-- The length with its padding. -/
def padded (n : Nat) : Nat := n + (4 - n % 4) % 4

theorem nextMultipleOf_four (h : n < 2 ^ 32) : nextMultipleOf n 4 = some (padded n) := by
  unfold nextMultipleOf padded
  split
  · congr 1
    omega
  · rw [usize_of_lt (by omega)]
    congr 1
    omega

theorem toNat_u16 {s : Bytes} (h : s.length = 2) : (UInt16.ofNat (ofBe s)).toNat = ofBe s :=
  UInt16.toNat_ofNat_of_lt' (by simpa using ofBe_lt_of_length h)

end Reads

/-! ## Addresses -/

section Addresses

variable {value : Bytes} (txid : Txid) (xored : Bool)

theorem length_xorKey : (xorKey txid).length = 16 := by
  have htxid : txid.toList.length = TXID_LEN := txid.toList_length
  rw [xorKey, List.length_append, length_beBytes, htxid]
  rfl

theorem length_unmask {key out : Bytes} (h : out.length ≤ key.length) :
    (unmask xored key out).length = out.length := by
  unfold unmask
  split
  · rw [List.length_zipWith, min_eq_left h]
  · rfl

theorem unmask_unmask {key out : Bytes} (h : out.length ≤ key.length) :
    unmask xored key (unmask xored key out) = out := by
  unfold unmask
  split
  · induction out generalizing key with
    | nil => rfl
    | cons x out ih =>
      cases key with
      | nil => simp at h
      | cons k key =>
        have hx : x ^^^ k ^^^ k = x := by rw [UInt8.xor_assoc, UInt8.xor_self, UInt8.xor_zero]
        rw [List.zipWith_cons_cons, List.zipWith_cons_cons, hx, ih (by simpa using h)]
  · rfl

theorem unmask_append {key out : Bytes} (h : out.length = key.length) (more : Bytes) :
    unmask xored (key ++ more) out = unmask xored key out := by
  unfold unmask
  rw [← List.append_nil out, List.zipWith_append h]
  simp

theorem length_of_range {b v : Bytes} {start stop : Nat} (h : range b start stop = some v) :
    v.length = stop - start := by
  unfold range at h
  split at h
  · rename_i hrange
    cases h
    exact length_slice _ _ _ (by omega)
  · cases h

theorem expectArray_some {n : Nat} {b : Bytes} (h : b.length = n) :
    ∃ v, expectArray n b = some v ∧ v.toList = b :=
  ⟨_, expectArray_of_length h, rfl⟩

section Octets

variable {n : Nat} (hn : n ≤ 16) (truncated : String)

include hn

theorem octetsAt_total (value : Bytes) :
    ∃ r, octetsAt n truncated value (xorKey txid) xored = some r := by
  unfold octetsAt
  cases hv : range value 4 (4 + n) with
  | none => exact ⟨_, rfl⟩
  | some v =>
    have hlen : v.length = n := by
      rw [length_of_range hv]
      omega
    have hmasked := length_unmask xored (show v.length ≤ (xorKey txid).length by
      rw [length_xorKey]
      omega)
    obtain ⟨w, hw, hwlist⟩ := expectArray_some hlen
    obtain ⟨out, hout, -⟩ := expectArray_some (hmasked.trans hlen)
    simp only [hw, hwlist, hout, Option.bind_eq_bind, Option.bind_some]
    exact ⟨_, rfl⟩

theorem octetsAt_unmask {value : Bytes} (octets : List.Vector UInt8 n)
    (h : range value 4 (4 + n) = some (unmask xored (xorKey txid) octets.toList)) :
    octetsAt n truncated value (xorKey txid) xored = some (.ok octets) := by
  have hkey : octets.toList.length ≤ (xorKey txid).length := by
    rw [length_xorKey, octets.toList_length]
    exact hn
  have hmasked := (length_unmask xored hkey).trans octets.toList_length
  have hback := unmask_unmask xored hkey
  obtain ⟨w, hw, hwlist⟩ := expectArray_some hmasked
  obtain ⟨out, hout, houtlist⟩ := expectArray_some (hback ▸ octets.toList_length)
  have heq : out = octets := Subtype.ext (houtlist.trans hback)
  unfold octetsAt
  rw [h]
  simp only [hw, hwlist, hout, Option.bind_eq_bind, Option.bind_some, heq]
  rfl

end Octets

theorem decodeAddress_total (value : Bytes) : ∃ r, decodeAddress value txid xored = some r := by
  unfold decodeAddress
  by_cases hshort : value.length < 4
  · rw [if_pos hshort]
    exact ⟨_, rfl⟩
  have hfour : 2 + 2 ≤ value.length := by omega
  have hfamily : value[1]? = some value[1] := List.getElem?_eq_getElem _
  rw [if_neg hshort, hfamily, u16At_eq hfour (by decide)]
  simp only [Option.bind_eq_bind, Option.bind_some]
  split
  · obtain ⟨r, hr⟩ := octetsAt_total txid xored (n := 4) (by decide)
      "truncated IPv4 STUN address" value
    rw [hr]
    exact ⟨_, rfl⟩
  · split
    · obtain ⟨r, hr⟩ := octetsAt_total txid xored (n := 16) (by decide)
        "truncated IPv6 STUN address" value
      rw [hr]
      exact ⟨_, rfl⟩
    · exact ⟨_, rfl⟩

/-- The bytes of an address as a server writes them. The first byte means nothing. -/
def encodeAddress (reserved : UInt8) (xored : Bool) (txid : Txid) : SocketAddr → Bytes
  | .v4 octets port =>
    reserved :: 0x01 :: (beBytes 2 (if xored then port ^^^ 0x2112 else port).toNat ++
      unmask xored [0x21, 0x12, 0xA4, 0x42] octets.toList)
  | .v6 octets port _ _ =>
    reserved :: 0x02 :: (beBytes 2 (if xored then port ^^^ 0x2112 else port).toNat ++
      unmask xored ([0x21, 0x12, 0xA4, 0x42] ++ txid.toList) octets.toList)

theorem xorKey_eq : xorKey txid = [0x21, 0x12, 0xA4, 0x42] ++ txid.toList := rfl

theorem port_of_bytes (port : UInt16) : UInt16.ofNat (ofBe (beBytes 2 port.toNat)) = port := by
  rw [ofBe_beBytes 2 _ port.toNat_lt, UInt16.ofNat_toNat]

theorem port_port (port : UInt16) :
    (if xored then (if xored then port ^^^ 0x2112 else port) ^^^ (MAGIC_COOKIE >>> 16).toUInt16
      else if xored then port ^^^ 0x2112 else port) = port := by
  have hcookie : (MAGIC_COOKIE >>> 16).toUInt16 = 0x2112 := by decide
  cases xored
  · rfl
  · rw [if_pos rfl, if_pos rfl, hcookie, UInt16.xor_assoc, UInt16.xor_self, UInt16.xor_zero]

theorem decodeAddress_fields {n : Nat} (hn : n ≤ 16) (reserved family : UInt8) (port : UInt16)
    (octets : List.Vector UInt8 n) (truncated : String) :
    let value := reserved :: family ::
      (beBytes 2 (if xored then port ^^^ 0x2112 else port).toNat ++
        unmask xored (xorKey txid) octets.toList)
    octetsAt n truncated value (xorKey txid) xored = some (.ok octets) ∧
      decodeAddress value txid xored =
        if family = 0x01 then
          (octetsAt 4 "truncated IPv4 STUN address" value (xorKey txid) xored).map
            (·.map (.v4 · port))
        else if family = 0x02 then
          (octetsAt 16 "truncated IPv6 STUN address" value (xorKey txid) xored).map
            (·.map (.v6 · port 0 0))
        else
          some (.error (.connect
            s!"STUN response has unknown address family {hexText 2 family.toNat}")) := by
  intro value
  have hkey : octets.toList.length ≤ (xorKey txid).length := by
    rw [length_xorKey, octets.toList_length]
    exact hn
  have hmasked := (length_unmask xored hkey).trans octets.toList_length
  have hport := length_beBytes 2 (if xored then port ^^^ 0x2112 else port).toNat
  have hlen : value.length = 4 + n := by
    simp only [value, List.length_cons, List.length_append, hport, hmasked]
    omega
  have hoctets : slice value 4 n = unmask xored (xorKey txid) octets.toList := by
    have hprefix : (reserved :: family ::
        beBytes 2 (if xored then port ^^^ 0x2112 else port).toNat).length = 4 := by
      simp [hport]
    have h := slice_field _ _ [] hprefix hmasked
    rwa [List.append_nil] at h
  have hslice := slice_field (p := 2) [reserved, family] _
    (unmask xored (xorKey txid) octets.toList) rfl hport
  constructor
  · apply octetsAt_unmask txid xored hn
    rw [range_eq (by omega), hoctets]
  · rw [decodeAddress, if_neg (by omega), u16At_eq (by omega) (by decide),
      show slice value 2 2 = _ from hslice, port_of_bytes]
    simp only [value, List.getElem?_cons_succ, List.getElem?_cons_zero, Option.bind_eq_bind,
      Option.bind_some, port_port, Option.map_eq_bind]
    rfl

theorem decodeAddress_v4 (reserved : UInt8) (octets : List.Vector UInt8 4) (port : UInt16) :
    decodeAddress (encodeAddress reserved xored txid (.v4 octets port)) txid xored =
      some (.ok (.v4 octets port)) := by
  have hcut : unmask xored (xorKey txid) octets.toList =
      unmask xored [0x21, 0x12, 0xA4, 0x42] octets.toList := by
    rw [xorKey_eq, unmask_append xored octets.toList_length]
  have h := decodeAddress_fields txid xored (by decide) reserved 0x01 port octets
    "truncated IPv4 STUN address"
  rw [hcut] at h
  rw [encodeAddress, h.2, if_pos rfl, h.1]
  rfl

theorem decodeAddress_v6 (reserved : UInt8) (octets : List.Vector UInt8 16) (port : UInt16) :
    decodeAddress (encodeAddress reserved xored txid (.v6 octets port 0 0)) txid xored =
      some (.ok (.v6 octets port 0 0)) := by
  have h := decodeAddress_fields txid xored (by decide) reserved 0x02 port octets
    "truncated IPv6 STUN address"
  rw [encodeAddress, ← xorKey_eq, h.2, if_neg (by decide), if_pos rfl, h.1]
  rfl

end Addresses

/-! ## Attributes -/

/-- An attribute of a response. Its padding is any bytes up to the next multiple of four. -/
structure Attribute where
  type : UInt16
  value : Bytes
  padding : Bytes
  fits : value.length < 2 ^ 16
  padded : (value ++ padding).length = padded value.length

def Attribute.bytes (a : Attribute) : Bytes :=
  beBytes 2 a.type.toNat ++ (beBytes 2 a.value.length ++ (a.value ++ a.padding))

def bodyOf (attrs : List Attribute) : Bytes := attrs.flatMap Attribute.bytes

section Loop

variable {body : Bytes} {txid : Txid} {fuel pos : Nat} {fallback : Option (Except Error SocketAddr)}

theorem parseLoop_round (hpos : pos + 4 ≤ body.length) (hbody : body.length < 2 ^ 16) :
    parseLoop body txid (fuel + 1) pos fallback =
      let attrType := UInt16.ofNat (ofBe (slice body pos 2))
      let attrLen := ofBe (slice body (pos + 2) 2)
      let value := slice body (pos + 4) attrLen
      if pos + 4 + attrLen ≤ body.length then
        if attrType = ATTR_XOR_MAPPED_ADDRESS then decodeAddress value txid true
        else (keepFallback attrType value txid fallback).bind
          (parseLoop body txid fuel (pos + 4 + padded attrLen))
      else some (.error (.connect "STUN attribute runs past the message")) := by
  have hlen : (slice body (pos + 2) 2).length = 2 := length_slice _ _ _ (by omega)
  have hfits : ofBe (slice body (pos + 2) 2) < 2 ^ 16 := ofBe_slice_lt (by omega)
  have htype := u16At_eq (show pos + 2 ≤ body.length by omega) (by omega)
  have hlength := u16At_eq (show pos + 2 + 2 ≤ body.length by omega) (by omega)
  have hstart := usize_of_lt (show pos + 4 < 2 ^ 64 by omega)
  have hsecond := usize_of_lt (show pos + 2 < 2 ^ 64 by omega)
  have hstop := usize_of_lt (show pos + 4 + ofBe (slice body (pos + 2) 2) < 2 ^ 64 by omega)
  have hmultiple := nextMultipleOf_four (show ofBe (slice body (pos + 2) 2) < 2 ^ 32 by omega)
  have hnext := usize_of_lt (show pos + 4 + padded (ofBe (slice body (pos + 2) 2)) < 2 ^ 64 by
    unfold padded
    omega)
  rw [parseLoop]
  simp only [Option.bind_eq_bind, Option.bind_some, hstart, hpos, not_true_eq_false, if_false,
    htype, hsecond, hlength, toNat_u16 hlen, hstop, hmultiple, hnext]
  by_cases hpast : pos + 4 + ofBe (slice body (pos + 2) 2) ≤ body.length
  · have hfilter : (some (pos + 4 + ofBe (slice body (pos + 2) 2))).filter (· ≤ body.length) =
        some (pos + 4 + ofBe (slice body (pos + 2) 2)) :=
      Option.filter_eq_some_iff.mpr ⟨rfl, by simpa using hpast⟩
    rw [if_pos hpast, hfilter]
    simp only [range_eq hpast, Option.bind_some]
  · have hfilter : (some (pos + 4 + ofBe (slice body (pos + 2) 2))).filter (· ≤ body.length) =
        none := by
      simp [Option.filter, hpast]
    rw [if_neg hpast, hfilter]
    rfl

theorem parseLoop_end (hend : body.length < pos + 4) (hpos : pos < 2 ^ 32) :
    parseLoop body txid (fuel + 1) pos fallback = some (fallback.getD noAddress) := by
  rw [parseLoop, usize_of_lt (by omega)]
  simp only [Option.bind_eq_bind, Option.bind_some]
  rw [if_pos (by omega)]
  rfl

theorem keepFallback_total (attrType : UInt16) (value : Bytes) (txid : Txid)
    (fallback : Option (Except Error SocketAddr)) :
    ∃ f, keepFallback attrType value txid fallback = some f := by
  unfold keepFallback
  split
  · obtain ⟨r, hr⟩ := decodeAddress_total txid false value
    exact ⟨_, by rw [hr]; rfl⟩
  · exact ⟨_, rfl⟩

theorem parseLoop_total (hbody : body.length < 2 ^ 16) (hpos : pos ≤ body.length + 3)
    (hfuel : body.length < pos + fuel + 3) (hsome : 0 < fuel) :
    ∃ r, parseLoop body txid fuel pos fallback = some r := by
  induction fuel generalizing pos fallback with
  | zero => omega
  | succ fuel ih =>
    rcases Nat.lt_or_ge body.length (pos + 4) with hend | hround
    · exact ⟨_, parseLoop_end hend (by omega)⟩
    · rw [parseLoop_round hround hbody]
      dsimp only
      split
      · rename_i hpast
        split
        · exact decodeAddress_total _ _ _
        · obtain ⟨f, hf⟩ := keepFallback_total (.ofNat (ofBe (slice body pos 2)))
            (slice body (pos + 4) (ofBe (slice body (pos + 2) 2))) txid fallback
          rw [hf, Option.bind_some]
          apply ih
          · unfold padded
            omega
          · unfold padded
            omega
          · omega
      · exact ⟨_, rfl⟩

theorem length_attribute (a : Attribute) : a.bytes.length = 4 + padded a.value.length := by
  have h := a.padded
  simp only [List.length_append] at h
  simp only [Attribute.bytes, List.length_append, length_beBytes]
  omega

theorem parseLoop_attribute {before : Bytes} (a : Attribute) (after : Bytes)
    (hbody : body = before ++ (a.bytes ++ after)) (hfits : body.length < 2 ^ 16) :
    parseLoop body txid (fuel + 1) before.length fallback =
      if a.type = ATTR_XOR_MAPPED_ADDRESS then decodeAddress a.value txid true
      else (keepFallback a.type a.value txid fallback).bind
        (parseLoop body txid fuel (before ++ a.bytes).length) := by
  have hlen := length_attribute a
  have hpadded : a.value.length ≤ padded a.value.length := Nat.le_add_right _ _
  have htotal : body.length = before.length + a.bytes.length + after.length := by
    rw [hbody, List.length_append, List.length_append]
    omega
  have htype : slice body before.length 2 = beBytes 2 a.type.toNat := by
    rw [hbody, Attribute.bytes, List.append_assoc]
    exact slice_field _ _ _ rfl (length_beBytes _ _)
  have hlength : slice body (before.length + 2) 2 = beBytes 2 a.value.length := by
    have h := slice_field (before ++ beBytes 2 a.type.toNat) (beBytes 2 a.value.length)
      (a.value ++ (a.padding ++ after)) (p := before.length + 2) (by simp) (length_beBytes _ _)
    rw [hbody, Attribute.bytes]
    simpa only [List.append_assoc] using h
  have hvalue : slice body (before.length + 4) a.value.length = a.value := by
    have h := slice_field (before ++ (beBytes 2 a.type.toNat ++ beBytes 2 a.value.length)) a.value
      (a.padding ++ after) (p := before.length + 4) (by simp) rfl
    rw [hbody, Attribute.bytes]
    simpa only [List.append_assoc] using h
  rw [parseLoop_round (by omega) hfits]
  dsimp only
  rw [htype, hlength, ofBe_beBytes 2 _ a.type.toNat_lt, ofBe_beBytes 2 _ a.fits, hvalue,
    UInt16.ofNat_toNat, if_pos (by omega), List.length_append, hlen, Nat.add_assoc]

/-- The address that a list of attributes gives behind `fallback`. -/
def addressOf (txid : Txid) (fallback : Option (Except Error SocketAddr))
    (attrs : List Attribute) : Option (Except Error SocketAddr) :=
  match attrs.find? (·.type = 0x0020) with
  | some a => decodeAddress a.value txid true
  | none =>
    match fallback with
    | some r => some r
    | none =>
      match attrs.find? (·.type = 0x0001) with
      | some a => decodeAddress a.value txid false
      | none => some noAddress

theorem parseLoop_attributes {attrs : List Attribute} (before : Bytes)
    (hbody : body = before ++ bodyOf attrs) (hfits : body.length < 2 ^ 16)
    (hfuel : attrs.length < fuel) :
    parseLoop body txid fuel before.length fallback = addressOf txid fallback attrs := by
  induction attrs generalizing before fuel fallback with
  | nil =>
    obtain ⟨fuel, rfl⟩ := Nat.exists_eq_succ_of_ne_zero hfuel.ne'
    have hend : before.length = body.length := by simp [hbody, bodyOf]
    rw [parseLoop_end (by omega) (by omega)]
    cases fallback <;> rfl
  | cons a attrs ih =>
    obtain ⟨fuel, rfl⟩ := Nat.exists_eq_succ_of_ne_zero (Nat.ne_zero_of_lt hfuel)
    have hrest : body = (before ++ a.bytes) ++ bodyOf attrs := by
      rw [hbody, List.append_assoc]
      rfl
    have hnext : parseLoop body txid fuel (before ++ a.bytes).length = (addressOf txid · attrs) :=
      funext fun _ => ih _ hrest (Nat.lt_of_succ_lt_succ hfuel)
    rw [parseLoop_attribute a (bodyOf attrs) hbody hfits, hnext]
    by_cases hxor : a.type = ATTR_XOR_MAPPED_ADDRESS
    · have hfind : (a :: attrs).find? (·.type = 0x0020) = some a :=
        List.find?_cons_of_pos (by simpa [ATTR_XOR_MAPPED_ADDRESS] using hxor)
      unfold addressOf
      rw [if_pos hxor, hfind]
    · have hfind : (a :: attrs).find? (·.type = 0x0020) = attrs.find? (·.type = 0x0020) :=
        List.find?_cons_of_neg (by simpa [ATTR_XOR_MAPPED_ADDRESS] using hxor)
      rw [if_neg hxor, keepFallback]
      unfold addressOf
      rw [hfind]
      by_cases hmapped : a.type = ATTR_MAPPED_ADDRESS
      · have hfirst : (a :: attrs).find? (·.type = 0x0001) = some a :=
          List.find?_cons_of_pos (by simpa [ATTR_MAPPED_ADDRESS] using hmapped)
        obtain ⟨r, hr⟩ := decodeAddress_total txid false a.value
        rw [hfirst]
        cases fallback with
        | none =>
          rw [if_pos ⟨hmapped, rfl⟩, hr]
          cases attrs.find? (·.type = 0x0020) with
          | none => exact hr.symm
          | some x => rfl
        | some f =>
          rw [if_neg (fun h => nomatch h.2)]
          cases attrs.find? (·.type = 0x0020) <;> rfl
      · have hlater : (a :: attrs).find? (·.type = 0x0001) = attrs.find? (·.type = 0x0001) :=
          List.find?_cons_of_neg (by simpa [ATTR_MAPPED_ADDRESS] using hmapped)
        rw [hlater, if_neg (fun h => hmapped h.1)]
        rfl

end Loop

/-! ## Messages -/

/-- A success response: its header, which has our transaction ID, and its attributes. -/
def responseOf (txid : Txid) (attrs : List Attribute) : Bytes :=
  beBytes 2 0x0101 ++ (beBytes 2 (bodyOf attrs).length ++
    (beBytes 4 0x2112A442 ++ (txid.toList ++ bodyOf attrs)))

/-- Another type, another cookie or another transaction ID. -/
def Foreign (txid : Txid) (msg : Bytes) : Prop :=
  slice msg 0 2 ≠ beBytes 2 0x0101 ∨ slice msg 4 4 ≠ beBytes 4 0x2112A442 ∨
    slice msg 8 12 ≠ txid.toList

section Messages

variable {msg : Bytes} {txid : Txid}

theorem parseResponse_eq (h : HEADER_LEN ≤ msg.length) :
    parseResponse msg txid =
      let declared := ofBe (slice msg 2 2)
      let msgType := UInt16.ofNat (ofBe (slice msg 0 2))
      if msgType ≠ BINDING_SUCCESS then
        some (.error (.connect
          s!"STUN server returned message type {hexText 4 msgType.toNat}, not a binding success"))
      else if UInt32.ofNat (ofBe (slice msg 4 4)) ≠ MAGIC_COOKIE then
        some (.error (.connect "STUN response has a bad magic cookie"))
      else if slice msg 8 12 ≠ txid.toList then
        some (.error (.connect ("STUN response transaction ID does not match our request — " ++
          "discarding a possibly forged reply")))
      else if HEADER_LEN + declared ≤ msg.length then
        parseLoop (slice msg HEADER_LEN declared) txid (declared + 1) 0 none
      else some (.error (.connect "STUN response is shorter than it claims")) := by
  have hlong : 20 ≤ msg.length := h
  have hcookie : slice msg 4 4 = [msg[4], msg[5], msg[6], msg[7]] := by
    rw [slice_succ (by omega), slice_succ (by omega), slice_succ (by omega), slice_succ (by omega),
      slice_zero]
  have hlen : (slice msg 2 2).length = 2 := length_slice _ _ _ (by omega)
  have hfits : ofBe (slice msg 2 2) < 2 ^ 16 := ofBe_slice_lt (by omega)
  have htxid : range msg 8 20 = some (slice msg 8 12) := range_eq (i := 8) (n := 12) hlong
  have hdeclared := usize_of_lt (show HEADER_LEN + ofBe (slice msg 2 2) < 2 ^ 64 by
    unfold HEADER_LEN
    omega)
  rw [parseResponse, if_neg (Nat.not_lt.mpr h), u16At_eq (by omega) (by decide),
    u16At_eq (by omega) (by decide)]
  have hat : ∀ i, (hi : i < msg.length) → msg[i]? = some msg[i] := fun i hi =>
    List.getElem?_eq_getElem hi
  simp only [Option.bind_eq_bind, Option.bind_some, hat 4 (by omega), hat 5 (by omega),
    hat 6 (by omega), hat 7 (by omega), htxid, toNat_u16 hlen, hdeclared, ← hcookie]
  split
  · rfl
  split
  · rfl
  split
  · rfl
  by_cases hpast : HEADER_LEN + ofBe (slice msg 2 2) ≤ msg.length
  · rw [if_pos hpast, range_eq hpast]
    dsimp only
    rw [length_slice _ _ _ hpast]
  · have hshort : range msg HEADER_LEN (HEADER_LEN + ofBe (slice msg 2 2)) = none :=
      if_neg fun h => hpast h.2
    rw [if_neg hpast, hshort]
    rfl

theorem parseResponse_short (h : msg.length < HEADER_LEN) :
    parseResponse msg txid = some (.error (.connect "STUN response is too short")) := by
  rw [parseResponse, if_pos h]
  rfl

theorem parseResponse_total (msg : Bytes) (txid : Txid) : ∃ r, parseResponse msg txid = some r := by
  rcases Nat.lt_or_ge msg.length HEADER_LEN with hshort | hlong
  · exact ⟨_, parseResponse_short hshort⟩
  · have hfits : ofBe (slice msg 2 2) < 2 ^ 16 := ofBe_slice_lt (by
      unfold HEADER_LEN at hlong
      omega)
    rw [parseResponse_eq hlong]
    dsimp only
    split
    · exact ⟨_, rfl⟩
    split
    · exact ⟨_, rfl⟩
    split
    · exact ⟨_, rfl⟩
    split
    · rename_i hpast
      have hbody := length_slice msg HEADER_LEN _ hpast
      exact parseLoop_total (by omega) (by omega) (by omega) (by omega)
    · exact ⟨_, rfl⟩

theorem parseResponse_foreign (h : Foreign txid msg) :
    ∃ e, parseResponse msg txid = some (.error e) := by
  rcases Nat.lt_or_ge msg.length HEADER_LEN with hshort | hlong
  · exact ⟨_, parseResponse_short hshort⟩
  have hlen : 20 ≤ msg.length := hlong
  rw [parseResponse_eq hlong]
  dsimp only
  split
  · exact ⟨_, rfl⟩
  rename_i htype
  split
  · exact ⟨_, rfl⟩
  rename_i hcookie
  split
  · exact ⟨_, rfl⟩
  rename_i htxid
  -- All three fields are as they should be, so the message is not foreign.
  exfalso
  have htwo : (slice msg 0 2).length = 2 := length_slice _ _ _ (by omega)
  have hfour : (slice msg 4 4).length = 4 := length_slice _ _ _ (by omega)
  rcases h with h | h | h
  · apply h
    have hvalue := congrArg UInt16.toNat (not_not.mp htype)
    rw [toNat_u16 htwo] at hvalue
    rw [← beBytes_of_length htwo, hvalue]
    rfl
  · apply h
    have hvalue := congrArg UInt32.toNat (not_not.mp hcookie)
    rw [UInt32.toNat_ofNat_of_lt' (by simpa using ofBe_lt_of_length hfour)] at hvalue
    rw [← beBytes_of_length hfour, hvalue]
    rfl
  · exact htxid h

theorem length_bodyOf (attrs : List Attribute) : attrs.length ≤ (bodyOf attrs).length := by
  induction attrs with
  | nil => exact Nat.zero_le _
  | cons a attrs ih =>
    have hlen := length_attribute a
    rw [bodyOf, List.flatMap_cons, List.length_append]
    unfold bodyOf at ih
    simp only [List.length_cons]
    omega

theorem parseResponse_responseOf {attrs : List Attribute} (h : (bodyOf attrs).length < 2 ^ 16) :
    parseResponse (responseOf txid attrs) txid = addressOf txid none attrs := by
  have htxid : txid.toList.length = 12 := txid.toList_length
  have hlen : (responseOf txid attrs).length = 20 + (bodyOf attrs).length := by
    simp only [responseOf, List.length_append, length_beBytes, htxid]
    omega
  have htype : slice (responseOf txid attrs) 0 2 = beBytes 2 0x0101 := by
    exact slice_field [] _ _ rfl (length_beBytes _ _)
  have hdeclared : slice (responseOf txid attrs) 2 2 = beBytes 2 (bodyOf attrs).length :=
    slice_field _ _ _ (length_beBytes _ _) (length_beBytes _ _)
  have hcookie : slice (responseOf txid attrs) 4 4 = beBytes 4 0x2112A442 := by
    have hfield := slice_field (beBytes 2 0x0101 ++ beBytes 2 (bodyOf attrs).length)
      (beBytes 4 0x2112A442) (txid.toList ++ bodyOf attrs) (p := 4) (by simp) (length_beBytes _ _)
    rwa [List.append_assoc] at hfield
  have hid : slice (responseOf txid attrs) 8 12 = txid.toList := by
    have hfield := slice_field (beBytes 2 0x0101 ++ (beBytes 2 (bodyOf attrs).length ++
      beBytes 4 0x2112A442)) txid.toList (bodyOf attrs) (p := 8) (by simp) htxid
    rwa [List.append_assoc, List.append_assoc] at hfield
  have hbody : slice (responseOf txid attrs) HEADER_LEN (bodyOf attrs).length = bodyOf attrs := by
    have hfield := slice_field (beBytes 2 0x0101 ++ (beBytes 2 (bodyOf attrs).length ++
      (beBytes 4 0x2112A442 ++ txid.toList))) (bodyOf attrs) [] (p := 20) (by simp [htxid]) rfl
    rwa [List.append_nil, List.append_assoc, List.append_assoc, List.append_assoc] at hfield
  rw [parseResponse_eq (by rw [hlen]; exact Nat.le_add_right _ _)]
  dsimp only
  rw [htype, hdeclared, hcookie, hid, ofBe_beBytes 2 _ h, hbody, if_neg (by decide),
    if_neg (by decide), if_neg (fun h => h rfl), if_pos (by rw [hlen]; exact le_refl _)]
  exact parseLoop_attributes [] rfl h (Nat.lt_succ_of_le (length_bodyOf attrs))

/-- `parse_response` for one transaction ID. An IPv6 address has no flow label and no scope here. -/
structure Exact (txid : Txid) : Prop where
  attributes : ∀ attrs, (bodyOf attrs).length < 2 ^ 16 →
    parseResponse (responseOf txid attrs) txid = addressOf txid none attrs
  inverts_v4 : ∀ reserved xored octets port,
    decodeAddress (encodeAddress reserved xored txid (.v4 octets port)) txid xored =
      some (.ok (.v4 octets port))
  inverts_v6 : ∀ reserved xored octets port,
    decodeAddress (encodeAddress reserved xored txid (.v6 octets port 0 0)) txid xored =
      some (.ok (.v6 octets port 0 0))
  refuses : ∀ msg, Foreign txid msg → ∃ e, parseResponse msg txid = some (.error e)
  total : ∀ msg, ∃ r, parseResponse msg txid = some r

theorem parse_response_exact (txid : Txid) : Exact txid where
  attributes _ h := parseResponse_responseOf h
  inverts_v4 reserved xored octets port := decodeAddress_v4 txid xored reserved octets port
  inverts_v6 reserved xored octets port := decodeAddress_v6 txid xored reserved octets port
  refuses _ h := parseResponse_foreign h
  total msg := parseResponse_total msg txid

theorem parse_response_exact_second :
    let txid : Txid := ⟨List.replicate 12 7, rfl⟩
    parseResponse (responseOf txid [⟨0x8022, [1, 2, 3], [0], by decide, by decide⟩,
        ⟨0x0020, encodeAddress 0 true txid (.v4 ⟨[203, 0, 113, 42], rfl⟩ 51820), [], by decide,
          by decide⟩]) txid =
      some (.ok (.v4 ⟨[203, 0, 113, 42], rfl⟩ 51820)) :=
  ((parse_response_exact _).attributes _ (by decide)).trans
    ((parse_response_exact _).inverts_v4 0 true _ _)

end Messages

end AtomVault.Live.Stun
