import AtomVault.Daemon.Config
import AtomVault.Live.Peers

/-!
# The address book (`p2p_utils.rs`, `friend.rs`)

Friends are kept in `friends.json`. Where the code panics or exits the result is `none`.
-/

open Lib

namespace AtomVault.Daemon

open Live

/-! ## Links -/

abbrev VerifyingKey := List.Vector UInt8 32

/-- Ed25519: which 32 bytes are no key, and what a key verifies. -/
structure Ed25519 where
  keyError : List.Vector UInt8 32 → Option String
  verifyStrict : VerifyingKey → (msg : Bytes) → (sig : List.Vector UInt8 64) → Bool

def Ed25519.fromBytes (ed : Ed25519) (b : List.Vector UInt8 32) : Except String VerifyingKey :=
  match ed.keyError b with
  | some e => .error e
  | none => .ok b

inductive AtomUriError
  | invalidPrefix
  | invalidFormat
  | invalidOnionLength
  | invalidKeyLength
  | base32DecodeError (e : String)
  | invalidEd25519Key (e : String)
  deriving DecidableEq

def AtomUriError.show : AtomUriError → String
  | invalidPrefix => "URI must start with 'atom://'"
  | invalidFormat => "URI must contain Tor address and Identity Key separated by '/'"
  | invalidOnionLength => "Invalid Tor V3 address length"
  | invalidKeyLength => "Invalid Base32 identity key length"
  | base32DecodeError e => s!"Base32 decode error: {e}"
  | invalidEd25519Key e => s!"Invalid Ed25519 key: {e}"

def URI_START : Text := "atom://".toList

section Textual

variable (tx : Texts) (ed : Ed25519)

def parseAtomUri (url : Text) : Option (Except AtomUriError (Text × VerifyingKey)) :=
  match stripPrefix url URI_START with
  | none => some (.error .invalidPrefix)
  | some stripped =>
    match splitOnce '/' stripped with
    | none => some (.error .invalidFormat)
    | some (onionAddress, pubkey) =>
      if (utf8 onionAddress).length ≠ 62 ∨ ¬ ONION_SUFFIX <:+ onionAddress then
        some (.error .invalidOnionLength)
      else if (utf8 pubkey).length ≠ 52 then some (.error .invalidKeyLength)
      else
        match tx.fromBase32 (tx.toUppercase pubkey) with
        | .error e => some (.error (.base32DecodeError e))
        | .ok decoded =>
          -- `copy_from_slice` takes 32 bytes and nothing else
          if h : decoded.length = 32 then
            match ed.fromBytes ⟨decoded, h⟩ with
            | .error e => some (.error (.invalidEd25519Key e))
            | .ok key => some (.ok (onionAddress, key))
          else none

/-- The key of a link, if it is one. -/
def keyOf (url : Text) : Option (Option VerifyingKey) :=
  (parseAtomUri tx ed url).map fun r => r.toOption.map Prod.snd

end Textual

/-! ## Friends -/

structure SharedVault where
  originalName : String
  label : String
  localPath : String
  lastModified : UInt64
  deriving DecidableEq

structure FriendRecord where
  nickname : String
  url : Text
  sharedVaults : List SharedVault
  lastSeen : Option UInt64
  deriving DecidableEq

section Book

variable (c : ConfigCipher) (js : Json (List FriendRecord))

/-- Of a file that is missing, or cannot be read, or is not JSON, there are no friends. -/
def loadFriends : Option Bytes → Option (List FriendRecord)
  | none => some []
  | some raw =>
    match decryptConfig c raw with
    | .error _ => none
    | .ok decrypted =>
      match fromUtf8 decrypted with
      | none => some []
      | some contents =>
        match js.read contents with
        | .ok friends => some friends
        | .error _ => some []

/-- The bytes `save_friends` writes. -/
def friendsData (nonce : List.Vector UInt8 24) (friends : List FriendRecord) : Bytes :=
  encryptConfig c nonce (utf8 (js.write friends))

end Book

/-- The first friend of that name. -/
def friendNamed (friends : List FriendRecord) (nickname : String) : Option FriendRecord :=
  friends.find? fun f => f.nickname = nickname

def modifyFriend (nickname : String) (g : FriendRecord → FriendRecord)
    (friends : List FriendRecord) : List FriendRecord :=
  friends.modify (friends.findIdx fun f => f.nickname = nickname) g

/-- What is saved, if the friend is there. -/
def updateFriendLastSeen (nickname : String) (now : UInt64) (friends : List FriendRecord) :
    Option (List FriendRecord) :=
  match friendNamed friends nickname with
  | some _ => some (modifyFriend nickname (fun f => { f with lastSeen := some now }) friends)
  | none => none

section Adding

variable (u : Unicode) (tx : Texts) (ed : Ed25519)

/-- The key in `onion.txt`, when it can be read as a text and is a link. -/
def ownKey : Option Bytes → Option (Option VerifyingKey)
  | none => some none
  | some raw =>
    match fromUtf8 raw with
    | none => some none
    | some myUrl => keyOf tx ed (u.trim myUrl)

def addTo (url : Text) (nickname : String) (key : VerifyingKey) (friends : List FriendRecord) :
    Option (Except String (String × List FriendRecord)) := do
  let byKey ← friends.findM? fun f => do return (← keyOf tx ed f.url) = some key
  match byKey.filter fun f => f.nickname ≠ nickname with
  | some f => return .error s!"This identity is already saved under the nickname '{f.nickname}'."
  | none =>
    match friendNamed friends nickname with
    | some existing =>
      match ← parseAtomUri tx ed existing.url with
      | .error e => return .error e.show
      | .ok (_, existingKey) =>
        if existingKey ≠ key then
          return .error (s!"SECURITY ALERT: Nickname '{nickname}' is already associated with a " ++
            "DIFFERENT identity key! To overwrite, manually remove the old friend first.")
        else
          return .ok (s!"Friend '{nickname}' routing address successfully updated!",
            modifyFriend nickname (fun f => { f with url := url }) friends)
    | none =>
      return .ok (s!"Friend '{nickname}' securely added! Make sure they add your atom link too.",
        friends ++ [⟨nickname, url, [], none⟩])

/-- `home` is what `onion.txt` holds, if the home directory is known. `friends` is what
`load_friends` returns, and the list in the result is what is saved. -/
def addFriendCore (home : Option (Option Bytes)) (url : Text) (nickname : String)
    (friends : Option (List FriendRecord)) : Option (Except String (String × List FriendRecord)) := do
  match ← parseAtomUri tx ed url with
  | .error e => return .error s!"Invalid atom:// link: {e.show}"
  | .ok (_, key) =>
    match home with
    | none => return .error "System error: Could not determine user home directory."
    | some onion => do
      if (← ownKey u tx ed onion) = some key then
        return .error "You cannot add your own identity as a friend."
      else addTo tx ed url nickname key (← friends)

/-! ## The daemon's view of it -/

/-- The keys of all links that are links. -/
def authorizedKeys (friends : List FriendRecord) : Option (List VerifyingKey) :=
  (friends.mapM fun f => keyOf tx ed f.url).map List.reduceOption

/-- What the daemon writes to `onion.txt`. -/
def onionData (c : ConfigCipher) (nonce : List.Vector UInt8 24) (link : Text) : Bytes :=
  encryptConfig c nonce (utf8 link)

end Adding

/-! ## The check of one's own key -/

section Own

variable {u : Unicode} {tx : Texts} {ed : Ed25519} {c : ConfigCipher}

theorem keyOf_eq_none {url : Text} (h : stripPrefix url URI_START = none) :
    keyOf tx ed url = some none := by
  unfold keyOf parseAtomUri
  rw [h]
  rfl

theorem fromUtf8_append (a : Char) (b : Bytes) :
    fromUtf8 (String.utf8EncodeChar a ++ b) = (fromUtf8 b).map (a :: ·) := by
  unfold fromUtf8
  rw [List.toByteArray_append, ← List.utf8Encode_singleton,
    ByteArray.utf8Decode?_utf8Encode_singleton_append, Option.map_map, Option.map_map]
  congr 1
  funext s
  simp

theorem trim_cons {a : Char} (ha : u.isWhitespace a = false) (t : Text) :
    ∃ rest, u.trim (a :: t) = a :: rest := by
  have hfront : (a :: t).dropWhile u.isWhitespace = a :: t := by simp [ha]
  have hback : (t.reverse ++ [a]).dropWhile u.isWhitespace =
      t.reverse.dropWhile u.isWhitespace ++ [a] := by
    rw [List.dropWhile_append]
    split
    · rename_i hempty
      simp [ha, List.isEmpty_iff.mp hempty]
    · rfl
  refine ⟨(t.reverse.dropWhile u.isWhitespace).reverse, ?_⟩
  unfold Unicode.trim
  rw [hfront, List.reverse_cons, hback, List.reverse_append]
  rfl

theorem ownKey_onionData (hu : u.Plain) (nonce : List.Vector UInt8 24) (link : Text) :
    ownKey u tx ed (some (onionData c nonce link)) = some none := by
  have hbytes : onionData c nonce link = String.utf8EncodeChar 'A' ++
      (MAGIC.tail ++ (nonce.toList ++ c.encrypt nonce (utf8 link))) := rfl
  unfold ownKey
  rw [hbytes]
  simp only [fromUtf8_append]
  cases fromUtf8 (MAGIC.tail ++ (nonce.toList ++ c.encrypt nonce (utf8 link))) with
  | none => rfl
  | some t =>
    have hblank : u.isWhitespace 'A' = false := by
      have h := (hu.isWhitespace_ascii 'A' (by decide)).not
      simpa using h
    obtain ⟨rest, hrest⟩ := trim_cons hblank t
    have hstart : stripPrefix ('A' :: rest) URI_START = none := by
      refine if_neg fun h => ?_
      have hhead : some 'A' = some 'a' := congrArg List.head? h
      cases hhead
    simp only [Option.map_some, hrest]
    exact keyOf_eq_none hstart

theorem addFriendCore_onionData (hu : u.Plain) (nonce : List.Vector UInt8 24) (link : Text)
    {url onion : Text} {key : VerifyingKey} (hurl : parseAtomUri tx ed url = some (.ok (onion, key)))
    (nickname : String) (friends : List FriendRecord) :
    addFriendCore u tx ed (some (some (onionData c nonce link))) url nickname (some friends) =
      addTo tx ed url nickname key friends := by
  unfold addFriendCore
  simp [hurl, ownKey_onionData hu]

end Own

/-! ### An address book to run the model with -/

namespace Coding

open Bincode

def sharedVault : Codec SharedVault :=
  (string.seq fun _ => string.seq fun _ => string.seq fun _ => u64).iso
    (fun (originalName, label, localPath, lastModified) =>
      ⟨originalName, label, localPath, lastModified⟩)
    (fun v => (v.originalName, v.label, v.localPath, v.lastModified)) (fun _ => rfl) (fun _ => rfl)

def friendRecord : Codec FriendRecord :=
  (string.seq fun _ => text.seq fun _ => (Codec.list count sharedVault).seq fun _ =>
    option u64).iso
    (fun (nickname, url, sharedVaults, lastSeen) => ⟨nickname, url, sharedVaults, lastSeen⟩)
    (fun f => (f.nickname, f.url, f.sharedVaults, f.lastSeen)) (fun _ => rfl) (fun _ => rfl)

end Coding

def sampleJson : Json (List FriendRecord) := .ofCodec (Codec.list Bincode.count Coding.friendRecord)

theorem sampleJson_correct : sampleJson.Correct := Json.ofCodec_correct _

/-- A signature is the key and the message. -/
def sampleEd : Ed25519 where
  keyError _ := none
  verifyStrict key msg sig := sig.toList = key.toList ++ msg

def sampleLink (key : VerifyingKey) : Text :=
  URI_START ++ (List.replicate 56 'a' ++ (ONION_SUFFIX ++ '/' ::
    (base32Encode key.toList).map Char.toLower))

end AtomVault.Daemon
