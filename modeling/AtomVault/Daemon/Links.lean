import AtomVault.Daemon.Friends
import AtomVault.Live.Base32
import AtomVault.Live.Canonical

/-!
# Links (`p2p_utils.rs`, `daemon.rs`, `id.rs`)

The daemon writes its own link to `onion.txt`. Links are pasted by friends. The length of a key is
checked before its letter case is changed.
-/

open Lib

namespace AtomVault.Daemon

open Live

/-! ## The daemon's own link -/

section Own

variable (u : Unicode) (tx : Texts) (sha3 : Bytes → List.Vector UInt8 32)

def cleanOnion (onionKey : List.Vector UInt8 32) : Text :=
  let sum := sha3 (ascii ".onion checksum" ++ (onionKey.toList ++ [3]))
  u.toLowercase (tx.base32 (onionKey.toList ++ (sum.toList.take 2 ++ [3]))) ++ ONION_SUFFIX

def finalLink (onionKey : List.Vector UInt8 32) (key : VerifyingKey) : Text :=
  URI_START ++ (cleanOnion u tx sha3 onionKey ++ '/' :: u.toLowercase (tx.base32 key.toList))

/-- `utf8Error` is how the standard library shows bytes that are no text. -/
def getIdString (c : ConfigCipher) (utf8Error : Bytes → String) :
    Option Bytes → Except String Text
  | none => .error "Identity not generated yet. Run 'atom daemon' first."
  | some raw => do
    let decrypted ← decryptConfig c raw
    match fromUtf8 decrypted with
    | none => .error (utf8Error decrypted)
    | some text => return u.trim text

/-- The link that is shown, if there is one. -/
def handleId (c : ConfigCipher) (utf8Error : Bytes → String) (file : Option Bytes) : Option Text :=
  match getIdString u c utf8Error file with
  | .ok onion => some ("atom://".toList ++ onion)
  | .error _ => none

end Own

/-! ## What a link is -/

section Links

variable (tx : Texts) (ed : Ed25519)

/-- A host of 56 bytes without a slash, and 52 characters of base 32 that are a key. -/
def IsLink (url host : Text) (key : VerifyingKey) : Prop :=
  ∃ label text, url = URI_START ++ ((label ++ ONION_SUFFIX) ++ '/' :: text) ∧
    host = label ++ ONION_SUFFIX ∧ (utf8 label).length = 56 ∧ '/' ∉ label ∧
    text.length = 52 ∧ (∀ c ∈ text, c.toNat < 128) ∧
    text.map Char.toUpper = tx.base32 key.toList ∧ ed.keyError key = none

/-- The text accepted as a key where everything before it is in order. -/
def keyPart (url : Text) : Option Text :=
  match stripPrefix url URI_START with
  | none => none
  | some stripped =>
    match splitOnce '/' stripped with
    | none => none
    | some (onion, pubkey) =>
      if (utf8 onion).length = 62 ∧ ONION_SUFFIX <:+ onion ∧ (utf8 pubkey).length = 52 then
        some pubkey
      else none

/-- The part of `parse_atom_uri` behind the lengths. -/
def decodeKey (onion pubkey : Text) : Option (Except AtomUriError (Text × VerifyingKey)) :=
  match tx.fromBase32 (tx.toUppercase pubkey) with
  | .error e => some (.error (.base32DecodeError e))
  | .ok decoded =>
    if h : decoded.length = 32 then
      match ed.fromBytes ⟨decoded, h⟩ with
      | .error e => some (.error (.invalidEd25519Key e))
      | .ok key => some (.ok (onion, key))
    else none

/-- Exactly the links are accepted, and nothing panics. -/
def LinkExact (url : Text) : Prop :=
  parseAtomUri tx ed url ≠ none ∧
    ∀ host key, parseAtomUri tx ed url = some (.ok (host, key)) ↔ IsLink tx ed url host key

/-- The upper case of a text is the base 32 of bytes that are not refused as a key. -/
def Mistakable (pubkey : Text) : Prop :=
  ∃ b, tx.toUppercase pubkey = tx.base32 b ∧ ∀ h : b.length = 32, ed.keyError ⟨b, h⟩ = none

end Links

section Parse

variable {tx : Texts} {ed : Ed25519} {url onion pubkey host : Text} {key : VerifyingKey}

theorem splitOnce_append {c : Char} {a : Text} (h : c ∉ a) (b : Text) :
    splitOnce c (a ++ c :: b) = some (a, b) := by
  have hkeep : ∀ d ∈ a, decide (d ≠ c) = true := by
    intro d hd
    rw [decide_eq_true_eq]
    rintro rfl
    exact h hd
  unfold splitOnce
  rw [if_pos (by simp), List.takeWhile_append_of_pos hkeep, List.dropWhile_append_of_pos hkeep]
  simp

theorem splitOnce_eq_some {c : Char} {s a b : Text} (h : splitOnce c s = some (a, b)) :
    s = a ++ c :: b ∧ c ∉ a := by
  unfold splitOnce at h
  split at h
  · rename_i hmem
    cases h
    have hnot : c ∉ s.takeWhile (· ≠ c) := by
      intro hc
      have := List.mem_takeWhile_imp hc
      simp at this
    obtain ⟨d, rest, hrest⟩ : ∃ d rest, s.dropWhile (· ≠ c) = d :: rest := by
      cases hdrop : s.dropWhile (· ≠ c) with
      | nil =>
        have := List.dropWhile_eq_nil_iff.mp hdrop c hmem
        simp at this
      | cons d rest => exact ⟨d, rest, rfl⟩
    have hd : d = c := by
      have hhead := List.head?_dropWhile_not (· ≠ c) s
      rw [hrest] at hhead
      simpa using hhead
    refine ⟨?_, hnot⟩
    conv_lhs => rw [← List.takeWhile_append_dropWhile (p := (· ≠ c)) (l := s)]
    rw [hrest, hd]
    rfl
  · cases h

theorem stripPrefix_eq_some {s start rest : Text} (h : stripPrefix s start = some rest) :
    s = start ++ rest := by
  unfold stripPrefix at h
  split at h
  · rename_i hstart
    cases h
    calc s = s.take start.length ++ s.drop start.length := (List.take_append_drop _ _).symm
      _ = start ++ s.drop start.length := by rw [hstart]
  · cases h

theorem utf8_length_ascii {s : Text} (h : ∀ c ∈ s, c.toNat < 128) : (utf8 s).length = s.length := by
  rw [utf8_ascii h, List.length_map]

variable (tx ed) in
theorem keyPart_eq_some (h : keyPart url = some pubkey) : ∃ onion,
    url = URI_START ++ (onion ++ '/' :: pubkey) ∧ '/' ∉ onion ∧ (utf8 onion).length = 62 ∧
      ONION_SUFFIX <:+ onion ∧ (utf8 pubkey).length = 52 ∧
      parseAtomUri tx ed url = decodeKey tx ed onion pubkey := by
  unfold keyPart at h
  split at h
  · cases h
  rename_i stripped hstrip
  split at h
  · cases h
  rename_i onion pubkey' hsplit
  split at h
  · rename_i hlen
    cases h
    obtain ⟨rfl, hslash⟩ := splitOnce_eq_some hsplit
    refine ⟨onion, stripPrefix_eq_some hstrip, hslash, hlen.1, hlen.2.1, hlen.2.2, ?_⟩
    have hfirst : ¬((utf8 onion).length ≠ 62 ∨ ¬ONION_SUFFIX <:+ onion) := by
      rw [not_or, not_not, not_not]
      exact ⟨hlen.1, hlen.2.1⟩
    unfold parseAtomUri
    simp only [hstrip, hsplit, if_neg hfirst, if_neg (not_not.mpr hlen.2.2)]
    rfl
  · cases h

variable (tx ed) in
theorem parse_of_keyPart_none (h : keyPart url = none) :
    ∃ e, parseAtomUri tx ed url = some (.error e) := by
  unfold keyPart at h
  unfold parseAtomUri
  cases hstrip : stripPrefix url URI_START with
  | none => exact ⟨_, rfl⟩
  | some stripped =>
    simp only [hstrip] at h ⊢
    cases hsplit : splitOnce '/' stripped with
    | none => exact ⟨_, rfl⟩
    | some parts =>
      obtain ⟨onion, pubkey⟩ := parts
      simp only [hsplit] at h ⊢
      by_cases hfirst : (utf8 onion).length ≠ 62 ∨ ¬ONION_SUFFIX <:+ onion
      · rw [if_pos hfirst]
        exact ⟨_, rfl⟩
      · rw [if_neg hfirst]
        rw [not_or, not_not, not_not] at hfirst
        have hkey : (utf8 pubkey).length ≠ 52 := by
          intro hlen
          rw [if_pos ⟨hfirst.1, hfirst.2, hlen⟩] at h
          cases h
        rw [if_pos hkey]
        exact ⟨_, rfl⟩

theorem suffix_slash : '/' ∉ ONION_SUFFIX := by decide

theorem IsLink.keyPart (h : IsLink tx ed url host key) : ∃ text,
    Daemon.keyPart url = some text ∧ url = URI_START ++ (host ++ '/' :: text) ∧ '/' ∉ host ∧
      (∀ c ∈ text, c.toNat < 128) ∧ text.map Char.toUpper = tx.base32 key.toList := by
  obtain ⟨label, text, rfl, rfl, hlabel, hslash, hlen, hascii, hupper, -⟩ := h
  have hhost : '/' ∉ label ++ ONION_SUFFIX := by
    rw [List.mem_append, not_or]
    exact ⟨hslash, suffix_slash⟩
  refine ⟨text, ?_, rfl, hhost, hascii, hupper⟩
  have hwidth : (utf8 (label ++ ONION_SUFFIX)).length = 62 := by
    rw [utf8_append, List.length_append, hlabel]
    rfl
  have hkey : (utf8 text).length = 52 := by rw [utf8_length_ascii hascii, hlen]
  unfold Daemon.keyPart
  simp only [stripPrefix_append, splitOnce_append hhost]
  rw [if_pos ⟨hwidth, List.suffix_append _ _, hkey⟩]

variable (tx ed) in
theorem decodeKey_cases (htx : tx.Correct) (hstrict : tx.Strict) (onion pubkey : Text) :
    (∃ e, decodeKey tx ed onion pubkey = some (.error e) ∧ ¬Mistakable tx ed pubkey) ∨
    (∃ b, tx.toUppercase pubkey = tx.base32 b ∧ b.length ≠ 32 ∧
      decodeKey tx ed onion pubkey = none) ∨
    ∃ key : VerifyingKey, tx.toUppercase pubkey = tx.base32 key.toList ∧ ed.keyError key = none ∧
      decodeKey tx ed onion pubkey = some (.ok (onion, key)) := by
  unfold decodeKey
  cases hdecoded : tx.fromBase32 (tx.toUppercase pubkey) with
  | error e =>
    refine .inl ⟨_, rfl, ?_⟩
    rintro ⟨b, hb, -⟩
    rw [hb, htx.fromBase32_base32] at hdecoded
    cases hdecoded
  | ok b =>
    have hbytes := hstrict.base32_fromBase32 hdecoded
    by_cases hlen : b.length = 32
    · simp only [dif_pos hlen]
      unfold Ed25519.fromBytes
      cases hkey : ed.keyError ⟨b, hlen⟩ with
      | none => exact .inr (.inr ⟨⟨b, hlen⟩, hbytes.symm, hkey, rfl⟩)
      | some e =>
        refine .inl ⟨_, rfl, ?_⟩
        rintro ⟨b', hb', hvalid⟩
        rw [hb', htx.fromBase32_base32] at hdecoded
        cases hdecoded
        rw [hvalid hlen] at hkey
        cases hkey
    · simp only [dif_neg hlen]
      exact .inr (.inl ⟨b, hbytes.symm, hlen, trivial⟩)

theorem IsLink.parts {onion pubkey : Text} (h : IsLink tx ed url host key)
    (hpart : Daemon.keyPart url = some pubkey) (hurl : url = URI_START ++ (onion ++ '/' :: pubkey))
    (hslash : '/' ∉ onion) :
    host = onion ∧ (∀ c ∈ pubkey, c.toNat < 128) ∧
      pubkey.map Char.toUpper = tx.base32 key.toList := by
  obtain ⟨text, htext, hsame, hhost, hascii, hupper⟩ := h.keyPart
  rw [hpart] at htext
  cases htext
  rw [hurl] at hsame
  have hsplit := splitOnce_append hslash pubkey
  rw [List.append_cancel_left hsame, splitOnce_append hhost] at hsplit
  cases hsplit
  exact ⟨rfl, hascii, hupper⟩

theorem linkExact_of_keyPart_none (hpart : keyPart url = none) : LinkExact tx ed url := by
  obtain ⟨e, he⟩ := parse_of_keyPart_none tx ed hpart
  unfold LinkExact
  rw [he]
  refine ⟨by simp, fun host key => iff_of_false (by simp) fun hlink => ?_⟩
  obtain ⟨text, htext, -⟩ := hlink.keyPart
  rw [hpart] at htext
  cases htext

theorem linkExact_of_ascii (htx : tx.Correct) (hstrict : tx.Strict) {pubkey : Text}
    (hpart : keyPart url = some pubkey) (hascii : ∀ c ∈ pubkey, c.toNat < 128) :
    LinkExact tx ed url := by
  obtain ⟨onion, hurl, hslash, hwidth, hsuffix, hlen, hparse⟩ := keyPart_eq_some tx ed hpart
  have hupper := htx.toUppercase_ascii pubkey hascii
  have hcount : pubkey.length = 52 := by rw [← utf8_length_ascii hascii, hlen]
  have hbytes : ∀ b, tx.toUppercase pubkey = tx.base32 b → b.length = 32 := by
    intro b hb
    have hwide := congrArg List.length hb
    rw [hupper, List.length_map, hcount, hstrict.length_base32] at hwide
    omega
  unfold LinkExact
  rw [hparse]
  rcases decodeKey_cases tx ed htx hstrict onion pubkey with
    ⟨e, he, hnot⟩ | ⟨b, hb, hne, -⟩ | ⟨key', hkey', hvalid, hok⟩
  · rw [he]
    refine ⟨by simp, fun host key => iff_of_false (by simp) fun hlink => hnot ?_⟩
    obtain ⟨-, -, hkey⟩ := hlink.parts hpart hurl hslash
    obtain ⟨_, _, -, -, -, -, -, -, -, hvalid⟩ := hlink
    exact ⟨key.toList, hupper.trans hkey, fun _ => hvalid⟩
  · exact absurd (hbytes b hb) hne
  · rw [hok]
    refine ⟨by simp, fun host key => ⟨fun h => ?_, fun hlink => ?_⟩⟩
    · cases h
      obtain ⟨label, rfl⟩ := hsuffix
      rw [List.mem_append, not_or] at hslash
      rw [utf8_append, List.length_append] at hwidth
      have hdot : (utf8 ONION_SUFFIX).length = 6 := rfl
      exact ⟨label, pubkey, hurl, rfl, by omega, hslash.1, hcount, hascii,
        hupper.symm.trans hkey', hvalid⟩
    · obtain ⟨rfl, -, hkey⟩ := hlink.parts hpart hurl hslash
      rw [← hupper, hkey'] at hkey
      have hread := htx.fromBase32_base32 key'.toList
      rw [hkey, htx.fromBase32_base32] at hread
      have hsame : key'.toList = key.toList := (Except.ok.inj hread).symm
      rw [List.Vector.toList_injective hsame]

theorem linkExact_iff_of_not_ascii (htx : tx.Correct) (hstrict : tx.Strict) {pubkey : Text}
    (hpart : keyPart url = some pubkey) (hascii : ¬∀ c ∈ pubkey, c.toNat < 128) :
    LinkExact tx ed url ↔ ¬Mistakable tx ed pubkey := by
  obtain ⟨onion, hurl, hslash, -, -, -, hparse⟩ := keyPart_eq_some tx ed hpart
  have hnolink : ∀ host key, ¬IsLink tx ed url host key :=
    fun host key hlink => hascii (hlink.parts hpart hurl hslash).2.1
  unfold LinkExact
  rw [hparse]
  rcases decodeKey_cases tx ed htx hstrict onion pubkey with
    ⟨e, he, hnot⟩ | ⟨b, hb, hne, hpanic⟩ | ⟨key', hkey', hvalid, hok⟩
  · rw [he]
    exact iff_of_true ⟨by simp, fun host key => iff_of_false (by simp) (hnolink host key)⟩ hnot
  · rw [hpanic]
    refine iff_of_false (fun h => h.1 rfl) fun hnot => hnot ⟨b, hb, fun h => absurd h hne⟩
  · rw [hok]
    refine iff_of_false (fun h => hnolink _ _ ((h.2 onion key').mp rfl)) fun hnot => hnot ?_
    exact ⟨key'.toList, hkey', fun _ => hvalid⟩

theorem linkExact_iff_keyPart (htx : tx.Correct) (hstrict : tx.Strict) (url : Text) :
    LinkExact tx ed url ↔ ∀ pubkey, keyPart url = some pubkey →
      (∀ c ∈ pubkey, c.toNat < 128) ∨ ¬Mistakable tx ed pubkey := by
  cases hpart : keyPart url with
  | none => exact iff_of_true (linkExact_of_keyPart_none hpart) (by simp)
  | some pubkey =>
    simp only [Option.some.injEq, forall_eq']
    by_cases hascii : ∀ c ∈ pubkey, c.toNat < 128
    · exact iff_of_true (linkExact_of_ascii htx hstrict hpart hascii) (.inl hascii)
    · rw [or_iff_right hascii]
      exact linkExact_iff_of_not_ascii htx hstrict hpart hascii

end Parse

/-! ## The link the daemon writes -/

section Written

variable {u : Unicode} {tx : Texts} {ed : Ed25519} {sha3 : Bytes → List.Vector UInt8 32}
variable {onionKey : List.Vector UInt8 32} {key : VerifyingKey}

theorem lower_base32 (hu : u.Plain) (htx : tx.Correct) (b : Bytes) :
    ∀ c ∈ u.toLowercase (tx.base32 b), c.toNat < 128 ∧ c ≠ '/' := by
  have hslash : '/' ∉ ALPHABET.map Char.toLower := by decide
  intro c hc
  refine ⟨(hostChar_base32 hu htx b c hc).2.1, ?_⟩
  rintro rfl
  rw [toLowercase_base32 hu htx] at hc
  obtain ⟨d, hd, hlower⟩ := List.mem_map.mp hc
  exact hslash (List.mem_map.mpr ⟨d, htx.base32_alphabet b d hd, hlower⟩)

theorem length_lower_base32 (hu : u.Plain) (htx : tx.Correct) (hstrict : tx.Strict) (b : Bytes) :
    (u.toLowercase (tx.base32 b)).length = (8 * b.length + 4) / 5 := by
  rw [toLowercase_base32 hu htx, List.length_map, hstrict.length_base32]

variable (sha3 onionKey) in
theorem isLink_finalLink (hu : u.Plain) (htx : tx.Correct) (hstrict : tx.Strict)
    (hkey : ed.keyError key = none) : IsLink tx ed (finalLink u tx sha3 onionKey key)
      (cleanOnion u tx sha3 onionKey) key := by
  have hlower := lower_base32 hu htx
  refine ⟨_, _, rfl, rfl, ?_, fun h => (hlower _ _ h).2 rfl, ?_, fun c hc => (hlower _ c hc).1,
    toUpper_base32 hu htx _, hkey⟩
  · -- 32 bytes of the key, two of the checksum, and the version
    rw [utf8_length_ascii fun c hc => (hlower _ c hc).1, length_lower_base32 hu htx hstrict]
    simp
  · rw [length_lower_base32 hu htx hstrict, key.toList_length]

theorem parse_of_isLink (htx : tx.Correct) (hstrict : tx.Strict) {url host : Text}
    (h : IsLink tx ed url host key) : parseAtomUri tx ed url = some (.ok (host, key)) := by
  obtain ⟨text, hpart, -, -, hascii, -⟩ := h.keyPart
  have hexact : LinkExact tx ed url := by
    refine (linkExact_iff_keyPart htx hstrict url).mpr fun pubkey hpubkey => ?_
    rw [hpart] at hpubkey
    cases hpubkey
    exact .inl hascii
  exact (hexact.2 host key).mpr h

variable (tx ed) in
/-- **Links.** Those with a key in ASCII are accepted exactly, and so is the one the daemon
writes. A key that is not ASCII is a mistake where its capitals are. -/
theorem linkExact_iff (hu : u.Plain) (htx : tx.Correct) (hstrict : tx.Strict) :
    (∀ url, LinkExact tx ed url ↔ ∀ pubkey, keyPart url = some pubkey →
      (∀ c ∈ pubkey, c.toNat < 128) ∨ ¬Mistakable tx ed pubkey) ∧
    ∀ sha3 onionKey (key : VerifyingKey), ed.keyError key = none →
      parseAtomUri tx ed (finalLink u tx sha3 onionKey key) =
        some (.ok (cleanOnion u tx sha3 onionKey, key)) :=
  ⟨linkExact_iff_keyPart htx hstrict, fun sha3 onionKey _ hkey =>
    parse_of_isLink htx hstrict (isLink_finalLink sha3 onionKey hu htx hstrict hkey)⟩

end Written

/-! ## Reading one's own link -/

section Readers

variable (u : Unicode) (tx : Texts) (ed : Ed25519) (c : ConfigCipher)

/-- `onion.txt`, once the daemon has written it. -/
def publishedFile (sha3 : Bytes → List.Vector UInt8 32) (onionKey : List.Vector UInt8 32)
    (key : VerifyingKey) (nonce : List.Vector UInt8 24) : Bytes :=
  onionData c nonce (finalLink u tx sha3 onionKey key)

/-- The link that is shown is the daemon's. -/
def ShownBack (utf8Error : Bytes → String) (file : Bytes) (onion : Text) (key : VerifyingKey) :
    Prop :=
  ∃ shown, handleId u c utf8Error (some file) = some shown ∧
    parseAtomUri tx ed shown = some (.ok (onion, key))

/-- No link with one's own key is added, under any nickname and to any list. -/
def SelfRejected (file : Bytes) (key : VerifyingKey) : Prop :=
  ∀ url host, parseAtomUri tx ed url = some (.ok (host, key)) → ∀ nickname friends,
    ∃ e, addFriendCore u tx ed (some (some file)) url nickname (some friends) = some (.error e)

variable {u tx ed c} {sha3 : Bytes → List.Vector UInt8 32} {onionKey : List.Vector UInt8 32}
variable {key : VerifyingKey}

theorem parse_twice (rest : Text) :
    parseAtomUri tx ed (URI_START ++ (URI_START ++ rest)) = some (.error .invalidOnionLength) := by
  have hsplit : splitOnce '/' (URI_START ++ rest) = some ("atom:".toList, '/' :: rest) :=
    splitOnce_append (a := "atom:".toList) (by decide) ('/' :: rest)
  unfold parseAtomUri
  simp only [stripPrefix_append, hsplit]
  exact if_pos (.inl (by decide))

theorem handleId_published (hu : u.Plain) (htx : tx.Correct) (hc : c.Correct)
    (utf8Error : Bytes → String) (nonce : List.Vector UInt8 24) :
    handleId u c utf8Error (some (publishedFile u tx c sha3 onionKey key nonce)) =
      some (URI_START ++ finalLink u tx sha3 onionKey key) := by
  have hstart : ∀ a ∈ URI_START, IsHostChar a := hostChars_of_all (by decide)
  have hsuffix : ∀ a ∈ ONION_SUFFIX, IsHostChar a := hostChars_of_all (by decide)
  have hchars : ∀ a ∈ finalLink u tx sha3 onionKey key, IsHostChar a := by
    intro a ha
    unfold finalLink cleanOnion at ha
    rw [List.mem_append, List.mem_append, List.mem_append, List.mem_cons] at ha
    rcases ha with h | (h | h) | rfl | h
    · exact hstart a h
    · exact hostChar_base32 hu htx _ a h
    · exact hsuffix a h
    · decide
    · exact hostChar_base32 hu htx _ a h
  have htrim := hu.trim_visible fun a ha => ⟨(hchars a ha).1, (hchars a ha).2.1⟩
  have hread : getIdString u c utf8Error (some (publishedFile u tx c sha3 onionKey key nonce)) =
      .ok (finalLink u tx sha3 onionKey key) := by
    unfold publishedFile onionData getIdString
    simp only [decryptConfig_encryptConfig hc, bind, Except.bind, fromUtf8_utf8, htrim]
    rfl
  unfold handleId
  rw [hread]
  rfl

theorem addFriendCore_own (hu : u.Plain) (nonce : List.Vector UInt8 24) (link : Text)
    {url host : Text} (hurl : parseAtomUri tx ed url = some (.ok (host, key))) (nickname : String) :
    ∃ msg, addFriendCore u tx ed (some (some (onionData c nonce link))) url nickname (some []) =
      some (.ok (msg, [⟨nickname, url, [], none⟩])) := by
  rw [addFriendCore_onionData hu nonce link hurl]
  exact ⟨_, rfl⟩

/-- **One's own link.** What is shown is no link, and one's own link is added like any other. -/
theorem readers_disagree (hu : u.Plain) (htx : tx.Correct) (hstrict : tx.Strict) (hc : c.Correct)
    (hkey : ed.keyError key = none) (utf8Error : Bytes → String) (nonce : List.Vector UInt8 24) :
    ¬ShownBack u tx ed c utf8Error (publishedFile u tx c sha3 onionKey key nonce)
      (cleanOnion u tx sha3 onionKey) key ∧
    ¬SelfRejected u tx ed (publishedFile u tx c sha3 onionKey key nonce) key := by
  constructor
  · rintro ⟨shown, hshown, hparse⟩
    rw [handleId_published hu htx hc] at hshown
    cases hshown
    unfold finalLink at hparse
    rw [parse_twice] at hparse
    cases hparse
  · intro h
    have hown := parse_of_isLink htx hstrict (isLink_finalLink sha3 onionKey hu htx hstrict hkey)
    obtain ⟨msg, hadded⟩ := addFriendCore_own (c := c) hu nonce
      (finalLink u tx sha3 onionKey key) hown ""
    obtain ⟨e, he⟩ := h _ _ hown "" []
    unfold publishedFile at he
    rw [he] at hadded
    cases hadded

end Readers

/-! ### Letters whose capitals are ASCII -/

def linkHost : Text := List.replicate 56 'a' ++ ONION_SUFFIX

/-- The capitals of two letters are `SS` and `I`. -/
def wideTexts : Texts := { sampleTexts with
  toUppercase := fun s => s.flatMap fun c =>
    if c = 'ß' then ['S', 'S'] else if c = 'ı' then ['I'] else [c.toUpper] }

theorem wideTexts_correct : wideTexts.Correct where
  base32_alphabet := sampleTexts_correct.base32_alphabet
  fromBase32_base32 := sampleTexts_correct.fromBase32_base32
  toUppercase_ascii s h := by
    show (s.flatMap fun c =>
      if c = 'ß' then ['S', 'S'] else if c = 'ı' then ['I'] else [c.toUpper]) = s.map Char.toUpper
    induction s with
    | nil => rfl
    | cons c s ih =>
      have hc := h c List.mem_cons_self
      have hsharp : c ≠ 'ß' := by
        rintro rfl
        exact absurd hc (by decide)
      have hdotless : c ≠ 'ı' := by
        rintro rfl
        exact absurd hc (by decide)
      rw [List.flatMap_cons, if_neg hsharp, if_neg hdotless,
        ih fun d hd => h d (List.mem_cons_of_mem c hd)]
      rfl

theorem wideTexts_strict : wideTexts.Strict where
  length_base32 := sampleTexts_strict.length_base32
  base32_fromBase32 := sampleTexts_strict.base32_fromBase32

def keyLink (text : Text) : Text := URI_START ++ (linkHost ++ '/' :: text)

/-- One letter too few, in 52 bytes. -/
def dotlessKey : Text := 'ı' :: 'ı' :: List.replicate 48 'a'

/-- One letter too many, in 52 bytes. -/
def sharpKey : Text := 'ß' :: List.replicate 50 'a'

theorem length_sampleSum (b : Bytes) : ((b ++ List.replicate 32 0).take 32).length = 32 := by simp

def sampleSum (b : Bytes) : List.Vector UInt8 32 :=
  ⟨(b ++ List.replicate 32 0).take 32, length_sampleSum b⟩

/-- What the upper case of `sharpKey` is read as. -/
def wideKey : VerifyingKey := ⟨148 :: 128 :: List.replicate 30 0, rfl⟩

def linkKey : VerifyingKey := List.Vector.replicate 32 7

theorem linkExact_iff_wide :
    LinkExact wideTexts sampleEd (keyLink (List.replicate 52 'a')) ∧
    ¬LinkExact wideTexts sampleEd (keyLink sharpKey) ∧
    parseAtomUri wideTexts sampleEd
        (finalLink sampleUnicode wideTexts sampleSum linkKey linkKey) =
      some (.ok (cleanOnion sampleUnicode wideTexts sampleSum linkKey, linkKey)) := by
  have hlinks := linkExact_iff wideTexts sampleEd sampleUnicode_plain wideTexts_correct
    wideTexts_strict
  have hplain : keyPart (keyLink (List.replicate 52 'a')) = some (List.replicate 52 'a') := by
    decide +kernel
  have hsharp : keyPart (keyLink sharpKey) = some sharpKey := by decide +kernel
  refine ⟨(hlinks.1 _).mpr fun pubkey h => .inl ?_, fun h => ?_, hlinks.2 _ _ _ rfl⟩
  · rw [hplain] at h
    cases h
    intro c hc
    rw [List.eq_of_mem_replicate hc]
    decide
  · rcases (hlinks.1 _).mp h _ hsharp with hascii | hnot
    · exact absurd (hascii 'ß' (by decide)) (by decide)
    · exact hnot ⟨wideKey.toList, by decide +kernel, fun _ => rfl⟩

/-- Fifty letters in 52 bytes panic, and 51 are taken for the key they are not. -/
theorem capitals_panic :
    parseAtomUri wideTexts sampleEd (keyLink dotlessKey) = none ∧
    ¬LinkExact wideTexts sampleEd (keyLink dotlessKey) ∧
    parseAtomUri wideTexts sampleEd (keyLink sharpKey) =
      some (.ok (linkHost, wideKey)) ∧
    ¬LinkExact wideTexts sampleEd (keyLink sharpKey) := by
  have hpanic : parseAtomUri wideTexts sampleEd (keyLink dotlessKey) = none := by decide +kernel
  have haccepted : parseAtomUri wideTexts sampleEd (keyLink sharpKey) =
      some (.ok (linkHost, wideKey)) := by decide +kernel
  refine ⟨hpanic, fun h => h.1 hpanic, haccepted, fun h => ?_⟩
  obtain ⟨text, htext, -, -, hascii, -⟩ := ((h.2 _ _).mp haccepted).keyPart
  have hsharp : keyPart (keyLink sharpKey) = some sharpKey := by decide +kernel
  rw [hsharp] at htext
  cases htext
  exact absurd (hascii 'ß' (by decide)) (by decide)

/-! ### One's own link -/

def ownLink : Text := finalLink sampleUnicode sampleTexts sampleSum linkKey linkKey

def ownFile : Bytes :=
  publishedFile sampleUnicode sampleTexts sampleCipher sampleSum linkKey linkKey
    (List.Vector.replicate 24 0)

theorem readers_disagree_sample :
    ¬ShownBack sampleUnicode sampleTexts sampleEd sampleCipher (fun _ => "") ownFile
      (cleanOnion sampleUnicode sampleTexts sampleSum linkKey) linkKey ∧
    ¬SelfRejected sampleUnicode sampleTexts sampleEd ownFile linkKey :=
  readers_disagree sampleUnicode_plain sampleTexts_correct sampleTexts_strict sampleCipher_correct
    rfl (fun _ => "") _

/-- The link shown starts with two schemes, and the book takes the owner for a friend. -/
theorem owner_befriended :
    handleId sampleUnicode sampleCipher (fun _ => "") (some ownFile) =
      some ("atom://".toList ++ ownLink) ∧
    parseAtomUri sampleTexts sampleEd ("atom://".toList ++ ownLink) =
      some (.error .invalidOnionLength) ∧
    addFriendCore sampleUnicode sampleTexts sampleEd (some (some ownFile)) ownLink "me" (some []) =
      some (.ok ("Friend 'me' securely added! Make sure they add your atom link too.",
        [⟨"me", ownLink, [], none⟩])) ∧
    ¬ShownBack sampleUnicode sampleTexts sampleEd sampleCipher (fun _ => "") ownFile
      (cleanOnion sampleUnicode sampleTexts sampleSum linkKey) linkKey ∧
    ¬SelfRejected sampleUnicode sampleTexts sampleEd ownFile linkKey := by
  have hshown : handleId sampleUnicode sampleCipher (fun _ => "") (some ownFile) =
      some ("atom://".toList ++ ownLink) :=
    handleId_published sampleUnicode_plain sampleTexts_correct sampleCipher_correct _ _
  have hparse : parseAtomUri sampleTexts sampleEd ("atom://".toList ++ ownLink) =
      some (.error .invalidOnionLength) := by decide +kernel
  have hown : parseAtomUri sampleTexts sampleEd ownLink =
      some (.ok (cleanOnion sampleUnicode sampleTexts sampleSum linkKey, linkKey)) := by
    decide +kernel
  have hadded : addFriendCore sampleUnicode sampleTexts sampleEd (some (some ownFile)) ownLink "me"
      (some []) = some (.ok ("Friend 'me' securely added! Make sure they add your atom link too.",
        [⟨"me", ownLink, [], none⟩])) :=
    addFriendCore_onionData sampleUnicode_plain _ _ hown "me" []
  refine ⟨hshown, hparse, hadded, ?_, fun h => ?_⟩
  · rintro ⟨shown, hshown', hparse'⟩
    rw [hshown] at hshown'
    cases hshown'
    rw [hparse] at hparse'
    cases hparse'
  · obtain ⟨e, he⟩ := h ownLink _ hown "me" []
    rw [hadded] at he
    cases he

end AtomVault.Daemon
