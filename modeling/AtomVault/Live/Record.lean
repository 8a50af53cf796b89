import AtomVault.Live.Ticket
import AtomVault.Transfer.Wire

/-!
# Slots and address records (`discovery/secret.rs`, `discovery/record.rs`)

A peer files its addresses under labels that only the pair can derive, sealed with a key
derived along with the label. Both change with every epoch.
-/

open Lib Cursor

namespace AtomVault.Live

def SLOT_DOMAIN : Bytes := ascii "atom-live-rdv-slot-v1"
def EPOCH_SECS : UInt64 := 3600
def TAG_LEN : Nat := 32
def SLOT_KEY_LEN : Nat := 32
def AAD_DOMAIN : Bytes := ascii "atom-live-rdv-record-v1"
def NONCE_LEN : Nat := 24
def AEAD_TAG_LEN : Nat := 16
def PLAINTEXT_LEN : Nat := 640
def SEALED_LEN : Nat := NONCE_LEN + PLAINTEXT_LEN + AEAD_TAG_LEN
def MAX_TTL_SECS : UInt64 := 6 * 3600

/-- Keyed BLAKE3, read out for 64 bytes, and XChaCha20-Poly1305. -/
structure Primitives where
  keyedXof : (key : List.Vector UInt8 32) → (input : Bytes) → List.Vector UInt8 64
  encrypt : (key nonce aad msg : Bytes) → Option Bytes
  decrypt : (key nonce aad ciphertext : Bytes) → Option Bytes

/-- Short messages can be sealed, and what was sealed is opened. -/
structure Primitives.Correct (pr : Primitives) : Prop where
  encrypt_ok : ∀ key nonce aad msg, msg.length ≤ PLAINTEXT_LEN →
    (pr.encrypt key nonce aad msg).isSome
  length_encrypt : ∀ {key nonce aad msg c}, pr.encrypt key nonce aad msg = some c →
    c.length = msg.length + AEAD_TAG_LEN
  decrypt_encrypt : ∀ {key nonce aad msg c}, pr.encrypt key nonce aad msg = some c →
    pr.decrypt key nonce aad c = some msg

/-! ## Slots -/

inductive Direction
  | lowToHigh
  | highToLow
  deriving DecidableEq

def Direction.publishing (loc peer : BundleId) : Direction :=
  if loc.toList < peer.toList then lowToHigh else highToLow

def Direction.flip : Direction → Direction
  | lowToHigh => highToLow
  | highToLow => lowToHigh

def Direction.toByte : Direction → UInt8
  | lowToHigh => 0
  | highToLow => 1

theorem Direction.publishing_swap {a b : BundleId} (h : a ≠ b) :
    Direction.publishing b a = (Direction.publishing a b).flip := by
  unfold Direction.publishing
  by_cases hab : a.toList < b.toList
  · rw [if_pos hab, if_neg (List.lt_asymm hab)]
    rfl
  · have hba : b.toList < a.toList := by
      by_contra hba
      exact h (List.Vector.eq _ _ (List.le_antisymm hba hab))
    rw [if_neg hab, if_pos hba]
    rfl

theorem Direction.flip_flip (d : Direction) : d.flip.flip = d := by
  cases d <;> rfl

theorem Direction.flip_ne (d : Direction) : d.flip ≠ d := by
  cases d <;> decide

abbrev RendezvousSecret := List.Vector UInt8 32

structure Slot where
  tag : List.Vector UInt8 TAG_LEN
  key : List.Vector UInt8 SLOT_KEY_LEN
  deriving DecidableEq

def Slot.tagHex (s : Slot) : String := Transfer.hex s.tag.toList

def epochAt (now : UInt64) : UInt64 := now / EPOCH_SECS

def slotInput (direction : Direction) (epoch : UInt64) : Bytes :=
  SLOT_DOMAIN ++ ([direction.toByte] ++ beBytes 8 epoch.toNat)

section Slots

variable (pr : Primitives) (secret : RendezvousSecret) (direction : Direction)

def slot (epoch : UInt64) : Slot :=
  let out := pr.keyedXof secret (slotInput direction epoch)
  ⟨⟨out.toList.take TAG_LEN, by rw [List.length_take, out.toList_length]; rfl⟩,
    ⟨out.toList.drop TAG_LEN, by rw [List.length_drop, out.toList_length]; rfl⟩⟩

def publishSlots (now : UInt64) : List Slot :=
  let epoch := epochAt now
  [slot pr secret direction epoch, slot pr secret direction (epoch + 1)]

def saturatingPred (n : UInt64) : UInt64 := if n = 0 then 0 else n - 1

def lookupSlots (now : UInt64) : List Slot :=
  let epoch := epochAt now
  [slot pr secret direction (saturatingPred epoch), slot pr secret direction epoch,
    slot pr secret direction (epoch + 1)]

end Slots

/-! ### The text of a tag determines it -/

theorem digitChar_injective {a b : Nat} (ha : a < 16) (hb : b < 16)
    (h : Nat.digitChar a = Nat.digitChar b) : a = b := by
  have hall : ∀ a < 16, ∀ b < 16, Nat.digitChar a = Nat.digitChar b → a = b := by decide
  exact hall a ha b hb h

theorem toList_hex (b : Bytes) : (Transfer.hex b).toList =
    b.flatMap fun x => [Nat.digitChar (x.toNat / 16), Nat.digitChar (x.toNat % 16)] := by
  have h : ∀ (b : Bytes) (acc : String), (b.foldl (fun acc x => acc ++ Transfer.hexByte x) acc).toList =
      acc.toList ++ b.flatMap fun x => [Nat.digitChar (x.toNat / 16), Nat.digitChar (x.toNat % 16)] := by
    intro b
    induction b with
    | nil => simp
    | cons x b ih =>
      intro acc
      rw [List.foldl_cons, ih]
      simp [Transfer.hexByte]
  unfold Transfer.hex
  rw [h]
  simp

theorem hex_injective {a b : Bytes} (h : Transfer.hex a = Transfer.hex b) : a = b := by
  replace h := congrArg String.toList h
  rw [toList_hex, toList_hex] at h
  induction a generalizing b with
  | nil =>
    cases b with
    | nil => rfl
    | cons y b => simp at h
  | cons x a ih =>
    cases b with
    | nil => simp at h
    | cons y b =>
      simp only [List.flatMap_cons, List.cons_append, List.nil_append, List.cons.injEq] at h
      obtain ⟨hhigh, hlow, hrest⟩ := h
      have hx := x.toNat_lt
      have hy := y.toNat_lt
      have hhigh := digitChar_injective (by omega) (by omega) hhigh
      have hlow := digitChar_injective (by omega) (by omega) hlow
      have hxy : x = y := UInt8.toNat_inj.mp (by omega)
      rw [hxy, ih hrest]

theorem tagHex_injective {s s' : Slot} (h : s.tagHex = s'.tagHex) : s.tag = s'.tag :=
  List.Vector.eq _ _ (hex_injective h)

/-! ## Records -/

structure AddressRecord where
  hints : List Endpoint
  seq : UInt64
  notAfter : UInt64
  deriving DecidableEq

/-- What `getrandom` fills the padding and the nonce with. -/
structure SealDraws where
  padding : Except String (List.Vector UInt8 PLAINTEXT_LEN)
  nonce : Except String (List.Vector UInt8 NONCE_LEN)

def noRandomness (e : String) : Error :=
  .discovery s!"OS random number generator unavailable: {e}"

def aadFor (slot : Slot) : Bytes := AAD_DOMAIN ++ slot.tag.toList

namespace AddressRecord

def FORMAT_VERSION : UInt8 := 1
def DEFAULT_TTL_SECS : UInt64 := 2 * 3600

/-- `millis` is what `now_millis` reads. -/
def new (hints : List Endpoint) (now : UInt64) (millis : Except Error UInt64) :
    Except Error AddressRecord := do
  if hints = [] then
    throw (.discovery ("refusing to publish a record with no addresses: it would tell the " ++
      "substrate that this peer is online while giving the peer nothing to connect to"))
  return ⟨hints, ← millis, saturatingAdd now DEFAULT_TTL_SECS⟩

def supersedes (r : AddressRecord) : Option UInt64 → Bool
  | none => true
  | some seen => r.seq > seen

def isExpiredAt (r : AddressRecord) (now : UInt64) : Bool := now ≥ r.notAfter

def toPlaintext (r : AddressRecord) : Bytes :=
  [FORMAT_VERSION] ++ (beBytes 8 r.seq.toNat ++ (beBytes 8 r.notAfter.toNat ++
    encodeHints r.hints))

/-- The body, its length before it and random bytes after it. -/
def padded (r : AddressRecord) (padding : List.Vector UInt8 PLAINTEXT_LEN) : Bytes :=
  beBytes 2 r.toPlaintext.length ++ (r.toPlaintext ++ padding.toList.drop (2 + r.toPlaintext.length))

-- A key has 32 bytes by its type, so `new_from_slice` takes it.
def sealFor (pr : Primitives) (r : AddressRecord) (slot : Slot) (draws : SealDraws) :
    Except Error Bytes :=
  if r.toPlaintext.length + 2 > PLAINTEXT_LEN then
    .error (.discovery (s!"address record is {r.toPlaintext.length + 2} bytes, " ++
      s!"past the {PLAINTEXT_LEN}-byte fixed width"))
  else do
    let padding ← draws.padding.mapError noRandomness
    let nonce ← draws.nonce.mapError noRandomness
    match pr.encrypt slot.key.toList nonce.toList (aadFor slot) (r.padded padding) with
    | none => throw (.discovery "sealing the address record failed")
    | some ciphertext => return nonce.toList ++ ciphertext

def read (u : Unicode) : EStateM Error Cursor AddressRecord := do
  let version ← Reader.u8 "address record"
  if version ≠ FORMAT_VERSION then
    throw (.discovery (s!"address record format version {version}, this build understands " ++
      s!"{FORMAT_VERSION}"))
  else
    let seq ← Reader.u64 "address record"
    let notAfter ← Reader.u64 "address record"
    let hints ← decodeHints u "address record"
    return ⟨hints, seq, notAfter⟩

def fromPlaintext (u : Unicode) (plaintext : Bytes) : Except Error AddressRecord :=
  if plaintext.length ≠ PLAINTEXT_LEN then
    .error (.discovery "address record has the wrong width")
  else
    let bodyLen := ofBe (plaintext.take 2)
    if bodyLen + 2 > PLAINTEXT_LEN then
      .error (.discovery "address record declares a body past its own width")
    else
      match read u ⟨slice plaintext 2 bodyLen, 0⟩ with
      | .error e _ => .error e
      | .ok r c =>
        if !c.atEnd then .error (.discovery
          "trailing bytes in the address record — refusing an ambiguous encoding")
        else if r.hints = [] then .error (.discovery "address record carries no addresses")
        else .ok r

/-- Both checks of a record against the clock. -/
def checkTimes (r : AddressRecord) (now : UInt64) : Except Error AddressRecord :=
  if r.isExpiredAt now then
    .error (.discovery ("address record has expired — the peer has not published recently, " ++
      "and this address may since have been reassigned"))
  else if r.notAfter > saturatingAdd now MAX_TTL_SECS then
    .error (.discovery s!"address record claims a lifetime past the {MAX_TTL_SECS}s maximum")
  else .ok r

def openAt (pr : Primitives) (u : Unicode) (sealedRecord : Bytes) (slot : Slot) (now : UInt64) :
    Except Error AddressRecord :=
  if sealedRecord.length ≠ SEALED_LEN then
    .error (.discovery (s!"address record is {sealedRecord.length} bytes, " ++
      s!"expected exactly {SEALED_LEN}"))
  else
    match pr.decrypt slot.key.toList (sealedRecord.take NONCE_LEN) (aadFor slot)
        (sealedRecord.drop NONCE_LEN) with
    | none => .error (.discovery ("could not open the address record: it was written by someone " ++
        "who does not share this pairing, served under the wrong tag, or corrupted"))
    | some plaintext => do
      let record ← fromPlaintext u plaintext
      record.checkTimes now

def directHints (r : AddressRecord) : List SocketAddr := r.hints.filterMap directOf

end AddressRecord

/-! ## What is sealed is opened -/

theorem length_encodeHint_le (h : Endpoint) : (encodeHint h).length ≤ 65 := by
  rcases h with (⟨o, port⟩ | ⟨o, port, flowinfo, scopeId⟩) | a
  · simp [encodeHint]
  · simp [encodeHint]
  · have := a.length_host
    unfold ONION_LABEL_BYTES at this
    simp only [encodeHint, List.length_append, this, length_beBytes, List.length_singleton]
    omega

theorem length_flatMap_encodeHint_le (hints : List Endpoint) :
    (hints.flatMap encodeHint).length ≤ 65 * hints.length := by
  induction hints with
  | nil => simp
  | cons h hints ih =>
    have := length_encodeHint_le h
    rw [List.flatMap_cons, List.length_append, List.length_cons]
    omega

namespace AddressRecord

variable {pr : Primitives} {u : Unicode} {r : AddressRecord} {slot : Slot} {draws : SealDraws}
  {b : Bytes}

/-- Hints that can be published and read back. -/
structure Publishable (hints : List Endpoint) : Prop where
  ne_nil : hints ≠ []
  length_le : hints.length ≤ MAX_HINTS
  carried : ∀ h ∈ hints, h.Carried

theorem new_eq_ok {hints : List Endpoint} {now millis : UInt64}
    (h : new hints now (.ok millis) = .ok r) :
    hints ≠ [] ∧ r = ⟨hints, millis, saturatingAdd now DEFAULT_TTL_SECS⟩ := by
  unfold new at h
  by_cases hnil : hints = []
  · rw [if_pos hnil] at h
    cases h
  · rw [if_neg hnil] at h
    cases h
    exact ⟨hnil, rfl⟩

theorem checkTimes_eq_ok {now : UInt64} {r' : AddressRecord} (h : r.checkTimes now = .ok r') :
    r' = r ∧ now < r.notAfter ∧ r.notAfter ≤ saturatingAdd now MAX_TTL_SECS := by
  unfold checkTimes isExpiredAt at h
  split at h
  · cases h
  · split at h
    · cases h
    · rename_i hexpired hlong
      cases h
      simp only [ge_iff_le, decide_eq_true_eq] at hexpired
      exact ⟨rfl, UInt64.not_le.mp hexpired, UInt64.not_lt.mp hlong⟩

theorem checkTimes_ok {now : UInt64} (hlive : now < r.notAfter)
    (hshort : r.notAfter ≤ saturatingAdd now MAX_TTL_SECS) : r.checkTimes now = .ok r := by
  unfold checkTimes isExpiredAt
  rw [if_neg (by simpa using hlive), if_neg (UInt64.not_lt.mpr hshort)]

theorem length_toPlaintext_le (h : r.hints.length ≤ MAX_HINTS) : r.toPlaintext.length ≤ 538 := by
  have := length_flatMap_encodeHint_le r.hints
  unfold MAX_HINTS at h
  unfold toPlaintext encodeHints
  simp only [List.length_append, List.length_singleton, length_beBytes]
  omega

theorem openAt_eq_ok {now : UInt64} (h : openAt pr u b slot now = .ok r) :
    ∃ plaintext, pr.decrypt slot.key.toList (b.take NONCE_LEN) (aadFor slot) (b.drop NONCE_LEN) =
      some plaintext ∧ fromPlaintext u plaintext = .ok r ∧ now < r.notAfter ∧
      r.notAfter ≤ saturatingAdd now MAX_TTL_SECS := by
  unfold openAt at h
  split at h
  · cases h
  · split at h
    · cases h
    · rename_i plaintext hplaintext
      cases hr : fromPlaintext u plaintext with
      | error e =>
        rw [hr] at h
        cases h
      | ok r' =>
        rw [hr] at h
        obtain ⟨rfl, hlive, hshort⟩ := checkTimes_eq_ok h
        exact ⟨plaintext, hplaintext, hr, hlive, hshort⟩

theorem length_padded (h : r.toPlaintext.length + 2 ≤ PLAINTEXT_LEN)
    (padding : List.Vector UInt8 PLAINTEXT_LEN) : (r.padded padding).length = PLAINTEXT_LEN := by
  unfold padded
  rw [List.length_append, List.length_append, List.length_drop, length_beBytes,
    padding.toList_length]
  omega

theorem reads_read (hu : u.Plain) (h : Publishable r.hints) :
    Reads (read u) r.toPlaintext r := by
  refine (Reader.reads_u8 FORMAT_VERSION).bind ?_
  rw [if_neg (not_not.mpr rfl)]
  refine (Reader.reads_u64 r.seq).bind ((Reader.reads_u64 r.notAfter).bind ?_)
  exact (reads_decodeHints hu h.length_le h.carried).bind_pure (reads_pure r)

theorem fromPlaintext_padded_read (hfits : r.toPlaintext.length + 2 ≤ PLAINTEXT_LEN)
    (padding : List.Vector UInt8 PLAINTEXT_LEN) : fromPlaintext u (r.padded padding) =
      match read u ⟨r.toPlaintext, 0⟩ with
      | .error e _ => .error e
      | .ok r c =>
        if !c.atEnd then .error (.discovery
          "trailing bytes in the address record — refusing an ambiguous encoding")
        else if r.hints = [] then .error (.discovery "address record carries no addresses")
        else .ok r := by
  have hbody : r.toPlaintext.length < 256 ^ 2 := by
    unfold PLAINTEXT_LEN at hfits
    omega
  have hlen : ofBe ((r.padded padding).take 2) = r.toPlaintext.length := by
    unfold padded
    rw [List.take_left' (length_beBytes 2 _), ofBe_beBytes 2 _ hbody]
  have hslice : slice (r.padded padding) 2 r.toPlaintext.length = r.toPlaintext :=
    slice_field _ _ _ (length_beBytes 2 _) rfl
  unfold fromPlaintext
  rw [if_neg (not_not.mpr (length_padded hfits padding))]
  simp only [hlen, hslice, if_neg (not_lt.mpr hfits)]

theorem toPlaintext_fits (h : r.hints.length ≤ MAX_HINTS) :
    r.toPlaintext.length + 2 ≤ PLAINTEXT_LEN := by
  have hbody := length_toPlaintext_le h
  unfold PLAINTEXT_LEN
  omega

theorem fromPlaintext_padded (hu : u.Plain) (h : Publishable r.hints)
    (padding : List.Vector UInt8 PLAINTEXT_LEN) :
    fromPlaintext u (r.padded padding) = .ok r := by
  rw [fromPlaintext_padded_read (toPlaintext_fits h.length_le)]
  simp only [(reads_read hu h).whole, atEnd, decide_true, Bool.not_true, Bool.false_eq_true,
    if_false, h.ne_nil]

theorem sealFor_ok (hpr : pr.Correct) (h : r.hints.length ≤ MAX_HINTS) (slot : Slot)
    {padding : List.Vector UInt8 PLAINTEXT_LEN} {nonce : List.Vector UInt8 NONCE_LEN} :
    ∃ b, sealFor pr r slot ⟨.ok padding, .ok nonce⟩ = .ok b := by
  have hfits := toPlaintext_fits h
  obtain ⟨c, hc⟩ := Option.isSome_iff_exists.mp (hpr.encrypt_ok slot.key.toList nonce.toList
    (aadFor slot) (r.padded padding) (le_of_eq (length_padded hfits padding)))
  refine ⟨nonce.toList ++ c, ?_⟩
  unfold sealFor
  rw [if_neg (not_lt.mpr hfits)]
  simp only [Except.mapError, bind, Except.bind, hc]
  rfl

theorem sealFor_eq_ok (h : sealFor pr r slot draws = .ok b) :
    r.toPlaintext.length + 2 ≤ PLAINTEXT_LEN ∧ ∃ padding nonce c,
      draws = ⟨.ok padding, .ok nonce⟩ ∧ pr.encrypt slot.key.toList nonce.toList (aadFor slot)
        (r.padded padding) = some c ∧ b = nonce.toList ++ c := by
  obtain ⟨padding, nonce⟩ := draws
  unfold sealFor at h
  split at h
  · cases h
  rename_i hfits
  refine ⟨not_lt.mp hfits, ?_⟩
  obtain ⟨padding', hpadding, hrun⟩ := of_bind_eq_ok h
  obtain ⟨nonce', hnonce, hend⟩ := of_bind_eq_ok hrun
  cases padding with
  | error e => cases hpadding
  | ok padding =>
    cases nonce with
    | error e => cases hnonce
    | ok nonce =>
      cases hpadding
      cases hnonce
      split at hend
      · cases hend
      · rename_i c hc
        cases hend
        exact ⟨_, _, c, rfl, hc, rfl⟩

theorem openAt_of_decrypt {nonce c plaintext : Bytes} (hnonce : nonce.length = NONCE_LEN)
    (hc : c.length = PLAINTEXT_LEN + AEAD_TAG_LEN)
    (hd : pr.decrypt slot.key.toList nonce (aadFor slot) c = some plaintext) (now : UInt64) :
    openAt pr u (nonce ++ c) slot now =
      (fromPlaintext u plaintext >>= fun record => record.checkTimes now) := by
  have hlen : (nonce ++ c).length = SEALED_LEN := by
    rw [List.length_append, hnonce, hc]
    rfl
  unfold openAt
  rw [if_neg (not_not.mpr hlen), List.take_left' hnonce, List.drop_left' hnonce, hd]

theorem openAt_sealFor (hpr : pr.Correct) (hu : u.Plain) (h : Publishable r.hints)
    (hseal : sealFor pr r slot draws = .ok b) (now : UInt64) :
    openAt pr u b slot now = r.checkTimes now := by
  obtain ⟨hfits, padding, nonce, c, -, hc, rfl⟩ := sealFor_eq_ok hseal
  have hlen := hpr.length_encrypt hc
  rw [length_padded hfits] at hlen
  rw [openAt_of_decrypt nonce.toList_length hlen (hpr.decrypt_encrypt hc),
    fromPlaintext_padded hu h padding]
  rfl

end AddressRecord

/-! ## Primitives to run the model with -/

def sampleUnicode : Unicode where
  isWhitespace c := c.toNat = 32 || (9 ≤ c.toNat && c.toNat ≤ 13)
  toLowercase s := s.map Char.toLower

theorem sampleUnicode_plain : sampleUnicode.Plain where
  isWhitespace_ascii c _ := by simp [sampleUnicode]
  toLowercase_ascii _ _ := rfl

/-- The authenticator is read off the associated data and the key. -/
def sampleMac (key aad : Bytes) : Bytes :=
  ((aad.drop 23).take 12 ++ key.take 4 ++ List.replicate 16 0).take 16

theorem length_sampleMac (key aad : Bytes) : (sampleMac key aad).length = 16 := by
  simp [sampleMac]
  omega

def samplePrimitives : Primitives where
  keyedXof key input := ⟨(input.drop 21 ++ key.toList ++ List.replicate 64 0).take 64, by simp⟩
  encrypt key _ aad msg := some (msg ++ sampleMac key aad)
  decrypt key _ aad c :=
    if c.drop (c.length - 16) = sampleMac key aad then some (c.take (c.length - 16)) else none

theorem samplePrimitives_correct : samplePrimitives.Correct where
  encrypt_ok _ _ _ _ _ := rfl
  length_encrypt := by
    intro key nonce aad msg c h
    cases h
    rw [List.length_append, length_sampleMac]
    rfl
  decrypt_encrypt := by
    intro key nonce aad msg c h
    cases h
    have hlen : (msg ++ sampleMac key aad).length - 16 = msg.length := by
      rw [List.length_append, length_sampleMac]
      omega
    simp only [samplePrimitives, hlen, List.drop_left, List.take_left, if_true]

end AtomVault.Live
