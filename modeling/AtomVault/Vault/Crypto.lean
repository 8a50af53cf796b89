import AtomVault.Lib.Calls

/-!
# Keys, chunk blobs and the vault's tables (`crypto/mod.rs`, `vfs/mod.rs`, `chunker.rs`)

The crates the vault is built on are the fields of `Crates`. `Ideal` is what their
documentation promises and the vault relies on.
-/

open Lib

namespace AtomVault

def ascii (s : String) : Bytes := s.toList.map fun c => c.toNat.toUInt8

/-! ## Constants -/

def KEY_LEN : Nat := 32
def SALT_LEN : Nat := 32
def XNONCE_LEN : Nat := 24
def WRAPPED_DEK_LEN : Nat := KEY_LEN + 16
def FILE_SALT_LEN : Nat := 16
def FILE_ID_LEN : Nat := 16
def CHUNK_MAGIC_V1 : Bytes := [0x41, 0x56, 0x01]
def CHUNK_KEY_INFO : Bytes := ascii "atom-vault v1 file-key"
def KDF_SIZE : Nat := 13
def VAULT_HEADER_SIZE : Nat := 8 + KDF_SIZE + SALT_LEN + XNONCE_LEN + WRAPPED_DEK_LEN
def CHUNK_OVERHEAD : Nat := CHUNK_MAGIC_V1.length + FILE_SALT_LEN + XNONCE_LEN + 16
def MAX_CHUNK_SIZE : Nat := 8192

abbrev FileId := List.Vector UInt8 16

def METADATA_FILE_ID : FileId := ⟨ascii "atom-vault-meta1", by decide⟩

/-! ## The tables -/

structure ChunkEntry where
  cipherLen : UInt64
  offset : UInt64
  fileId : FileId
  plainLen : UInt64
  deriving DecidableEq

structure FileIndex where
  vfsName : String
  chunks : List ChunkEntry
  lastModifiedUnix : UInt64
  deriving DecidableEq

structure VaultMetadata where
  fileTable : List FileIndex
  cdcSalt : List.Vector UInt8 32
  deriving DecidableEq

structure UnlockedVault where
  dek : Bytes
  deriving DecidableEq

inductive KdfChoice
  | argon2id
  | scrypt
  deriving DecidableEq

structure KdfSettings where
  choice : KdfChoice
  memoryKib : UInt32
  iterations : UInt32
  parallelism : UInt32
  deriving DecidableEq

inductive CryptoError
  | badFormat
  | kdf
  | sealFailed
  | openFailed
  deriving DecidableEq

def CryptoError.debug : CryptoError → String
  | badFormat => "BadFormat"
  | kdf => "Kdf"
  | sealFailed => "Seal"
  | openFailed => "Open"

/-- `Box<dyn Error>`: an I/O error as it came, or a text. -/
inductive VaultError
  | io (text : String)
  | text (msg : String)
  deriving DecidableEq

inductive KdfError
  | params (debug : String)
  | hashing (debug : String)

/-- One chunk boundary of FastCDC. -/
structure ChunkData where
  offset : Nat
  length : Nat

/-! ## The crates -/

structure Crates where
  argon2id : (password salt : Bytes) → (memoryKib iterations parallelism : UInt32) →
    Except KdfError Bytes
  scrypt : (password salt : Bytes) → (logN : Nat) → (r p : UInt32) → Except KdfError Bytes
  hkdf : (ikm salt info : Bytes) → Option Bytes
  encrypt : (key nonce aad msg : Bytes) → Option Bytes
  decrypt : (key nonce aad ciphertext : Bytes) → Option Bytes
  serialize : VaultMetadata → Except String Bytes
  deserialize : Bytes → Except String VaultMetadata
  chunkData : Bytes → Except String (List ChunkData)

/-- Contiguous non-empty chunks from `p` to `n`, none longer than `MAX_CHUNK_SIZE`. -/
def Tiles : Nat → List ChunkData → Nat → Prop
  | p, [], n => p = n
  | p, c :: cs, n =>
    c.offset = p ∧ 0 < c.length ∧ c.length ≤ MAX_CHUNK_SIZE ∧ Tiles (p + c.length) cs n

structure Crates.Ideal (cr : Crates) : Prop where
  /-- Decrypting an encryption under the same key, nonce and AAD gives the plaintext. -/
  decrypt_encrypt : ∀ {key nonce aad msg c}, cr.encrypt key nonce aad msg = some c →
    cr.decrypt key nonce aad c = some msg
  encrypt_length : ∀ {key nonce aad msg c}, cr.encrypt key nonce aad msg = some c →
    c.length = msg.length + 16
  /-- Less than a whole encryption does not open. -/
  decrypt_take : ∀ {key nonce aad msg c n}, cr.encrypt key nonce aad msg = some c → n < c.length →
    cr.decrypt key nonce aad (c.take n) = none
  /-- Sealing fails on messages past 256 GiB only. -/
  encrypt_total : ∀ key nonce aad msg, msg.length < 2 ^ 32 → (cr.encrypt key nonce aad msg).isSome
  hkdf_total : ∀ ikm salt info, (cr.hkdf ikm salt info).isSome
  serialize_total : ∀ m, ∃ b, cr.serialize m = .ok b
  deserialize_serialize : ∀ {m b}, cr.serialize m = .ok b → cr.deserialize b = .ok m
  /-- One more file makes the encoding no shorter, and neither does a longer name. -/
  serialize_push : ∀ {table f salt b b'}, cr.serialize ⟨table, salt⟩ = .ok b →
    cr.serialize ⟨table ++ [f], salt⟩ = .ok b' → b.length ≤ b'.length
  serialize_rename : ∀ {l₁ f l₂ name salt b b'}, cr.serialize ⟨l₁ ++ f :: l₂, salt⟩ = .ok b →
    cr.serialize ⟨l₁ ++ { f with vfsName := name } :: l₂, salt⟩ = .ok b' →
    f.vfsName.toUTF8.size ≤ name.toUTF8.size → b.length ≤ b'.length
  chunkData_tiles : ∀ data, ∃ cs, cr.chunkData data = .ok cs ∧ Tiles 0 cs data.length

/-- What opens is a message and a tag of 16 bytes. -/
def Crates.Tagged (cr : Crates) : Prop := ∀ {key nonce aad msg c},
  cr.decrypt key nonce aad c = some msg → c.length = msg.length + 16

/-! ## Key derivation -/

def KdfSettings.toBytes (k : KdfSettings) : Bytes :=
  (match k.choice with
    | .argon2id => 0
    | .scrypt => 1) ::
  (leBytes 4 k.memoryKib.toNat ++ leBytes 4 k.iterations.toNat ++ leBytes 4 k.parallelism.toNat)

def KdfSettings.fromBytes (buf : Bytes) : Except String KdfSettings :=
  let rest (choice : KdfChoice) : KdfSettings :=
    { choice
      memoryKib := UInt32.ofNat (ofLe (slice buf 1 4))
      iterations := UInt32.ofNat (ofLe (slice buf 5 4))
      parallelism := UInt32.ofNat (ofLe (slice buf 9 4)) }
  match buf.head? with
  | some 0 => .ok (rest .argon2id)
  | some 1 => .ok (rest .scrypt)
  | _ => .error "Unknown KDF algorithm byte in vault header"

variable (cr : Crates)

/-- Scrypt takes `log2 N`: the memory cost's logarithm, kept within 10 and 20. -/
def deriveKek (password : String) (salt : Bytes) (settings : KdfSettings) : Except String Bytes :=
  let pw := password.toUTF8.toList
  match settings.choice with
  | .argon2id =>
    match cr.argon2id pw salt settings.memoryKib settings.iterations settings.parallelism with
    | .ok kek => .ok kek
    | .error (.params e) => .error s!"Invalid Argon2 params: {e}"
    | .error (.hashing e) => .error s!"Argon2 hashing failed: {e}"
  | .scrypt =>
    let logN := min (max (Nat.log2 settings.memoryKib.toNat) 10) 20
    match cr.scrypt pw salt logN (max settings.iterations 1) (max settings.parallelism 1) with
    | .ok kek => .ok kek
    | .error (.params e) => .error s!"Invalid Scrypt params: {e}"
    | .error (.hashing e) => .error s!"Scrypt hashing failed: {e}"

variable {σ ε : Type}

/-- The wrapped key and the nonce it was wrapped under. -/
def wrapDek (kek dek : Bytes) : Prog σ ε (Option (Bytes × Bytes)) := do
  let nonce ← Call.draw XNONCE_LEN
  return (cr.encrypt kek nonce.toList [] dek).map fun wrapped => (wrapped, nonce.toList)

def unwrapDek (kek wrappedDek nonce : Bytes) : Option UnlockedVault := do
  let dek ← cr.decrypt kek nonce [] wrappedDek
  if dek.length ≠ KEY_LEN then none else some ⟨dek⟩

/-! ## Chunk blobs -/

def deriveChunkKey (dek fileSalt : Bytes) (fileId : FileId) : Except CryptoError Bytes :=
  match cr.hkdf dek fileSalt (CHUNK_KEY_INFO ++ fileId.toList) with
  | some key => .ok key
  | none => .error .kdf

def chunkAad (fileId : FileId) : Bytes := CHUNK_MAGIC_V1 ++ fileId.toList

/-- The blob for one choice of salt and nonce. -/
def sealChunk (v : UnlockedVault) (plaintext : Bytes) (fileId : FileId) (fileSalt nonce : Bytes) :
    Except CryptoError Bytes := do
  let key ← deriveChunkKey cr v.dek fileSalt fileId
  match cr.encrypt key nonce (chunkAad fileId) plaintext with
  | none => .error .sealFailed
  | some ciphertext => .ok (CHUNK_MAGIC_V1 ++ fileSalt ++ nonce ++ ciphertext)

def encryptChunk (v : UnlockedVault) (plaintext : Bytes) (fileId : FileId) :
    Prog σ ε (Except CryptoError Bytes) := do
  let fileSalt ← Call.draw FILE_SALT_LEN
  let nonce ← Call.draw XNONCE_LEN
  return sealChunk cr v plaintext fileId fileSalt.toList nonce.toList

def decryptChunk (v : UnlockedVault) (blob : Bytes) (fileId : FileId) : Except CryptoError Bytes :=
  if blob.take 3 ≠ CHUNK_MAGIC_V1 then .error .badFormat else
    let rest := blob.drop 3
    if rest.length < FILE_SALT_LEN + XNONCE_LEN + 16 then .error .badFormat else do
      let fileSalt := rest.take FILE_SALT_LEN
      let nonce := (rest.drop FILE_SALT_LEN).take XNONCE_LEN
      let ciphertext := (rest.drop FILE_SALT_LEN).drop XNONCE_LEN
      let key ← deriveChunkKey cr v.dek fileSalt fileId
      match cr.decrypt key nonce (chunkAad fileId) ciphertext with
      | none => .error .openFailed
      | some plaintext => .ok plaintext

/-! ## Round trips -/

section RoundTrip

variable {cr} {v : UnlockedVault} {plaintext blob fileSalt nonce : Bytes} {fileId : FileId}

theorem encrypt_of_sealChunk (h : sealChunk cr v plaintext fileId fileSalt nonce = .ok blob) :
    ∃ key c, deriveChunkKey cr v.dek fileSalt fileId = .ok key ∧
      cr.encrypt key nonce (chunkAad fileId) plaintext = some c ∧
      blob = CHUNK_MAGIC_V1 ++ fileSalt ++ nonce ++ c := by
  unfold sealChunk at h
  cases hkey : deriveChunkKey cr v.dek fileSalt fileId with
  | error e => simp [hkey, bind, Except.bind] at h
  | ok key =>
    simp only [hkey, bind, Except.bind] at h
    split at h
    · simp at h
    · rename_i c hc
      exact ⟨key, c, rfl, hc, (Except.ok.inj h).symm⟩

theorem decryptChunk_of_decrypt {key c : Bytes} (hs : fileSalt.length = FILE_SALT_LEN)
    (hn : nonce.length = XNONCE_LEN) (hkey : deriveChunkKey cr v.dek fileSalt fileId = .ok key)
    (hlen : 16 ≤ c.length) (hc : cr.decrypt key nonce (chunkAad fileId) c = some plaintext) :
    decryptChunk cr v (CHUNK_MAGIC_V1 ++ fileSalt ++ nonce ++ c) fileId = .ok plaintext := by
  have hrest : (CHUNK_MAGIC_V1 ++ fileSalt ++ nonce ++ c).drop 3 = fileSalt ++ (nonce ++ c) := by
    simp [CHUNK_MAGIC_V1]
  unfold decryptChunk
  rw [if_neg (by simp [CHUNK_MAGIC_V1]), hrest]
  simp only
  rw [if_neg (by simp only [List.length_append, FILE_SALT_LEN, XNONCE_LEN] at *; omega), ← hs,
    List.take_left, List.drop_left, ← hn, List.take_left, List.drop_left]
  simp only [hkey, bind, Except.bind, hc]

theorem decryptChunk_sealChunk (hi : cr.Ideal) (hs : fileSalt.length = FILE_SALT_LEN)
    (hn : nonce.length = XNONCE_LEN)
    (h : sealChunk cr v plaintext fileId fileSalt nonce = .ok blob) :
    decryptChunk cr v blob fileId = .ok plaintext := by
  obtain ⟨key, c, hkey, hc, rfl⟩ := encrypt_of_sealChunk h
  have hlen := hi.encrypt_length hc
  exact decryptChunk_of_decrypt hs hn hkey (by omega) (hi.decrypt_encrypt hc)

theorem decrypt_of_decryptChunk (h : decryptChunk cr v blob fileId = .ok plaintext) :
    ∃ fileSalt nonce c key, fileSalt.length = FILE_SALT_LEN ∧ nonce.length = XNONCE_LEN ∧
      blob = CHUNK_MAGIC_V1 ++ fileSalt ++ nonce ++ c ∧
      deriveChunkKey cr v.dek fileSalt fileId = .ok key ∧
      cr.decrypt key nonce (chunkAad fileId) c = some plaintext := by
  unfold decryptChunk at h
  split at h
  · cases h
  rename_i hmagic
  rw [not_not] at hmagic
  dsimp only at h
  split at h
  · cases h
  rename_i hlen
  obtain ⟨key, hkey, hopen⟩ := of_bind_eq_ok h
  split at hopen
  · cases hopen
  rename_i plain hdec
  cases hopen
  have hsize : FILE_SALT_LEN = 16 ∧ XNONCE_LEN = 24 := ⟨rfl, rfl⟩
  rw [List.length_drop] at hlen
  refine ⟨_, _, _, key, ?_, ?_, ?_, hkey, hdec⟩
  · rw [List.length_take, List.length_drop]
    omega
  · rw [List.length_take, List.length_drop, List.length_drop]
    omega
  · rw [← hmagic, List.append_assoc, List.append_assoc, List.take_append_drop,
      List.take_append_drop, List.take_append_drop]

theorem length_of_decryptChunk (ht : cr.Tagged) (h : decryptChunk cr v blob fileId = .ok plaintext) :
    blob.length = plaintext.length + CHUNK_OVERHEAD := by
  obtain ⟨fileSalt, nonce, c, key, hs, hn, rfl, -, hdec⟩ := decrypt_of_decryptChunk h
  have hlen := ht hdec
  simp only [List.length_append, CHUNK_OVERHEAD, FILE_SALT_LEN, XNONCE_LEN] at *
  omega

theorem length_sealChunk (hi : cr.Ideal) (hs : fileSalt.length = FILE_SALT_LEN)
    (hn : nonce.length = XNONCE_LEN)
    (h : sealChunk cr v plaintext fileId fileSalt nonce = .ok blob) :
    blob.length = plaintext.length + CHUNK_OVERHEAD := by
  obtain ⟨key, c, -, hc, rfl⟩ := encrypt_of_sealChunk h
  have hlen := hi.encrypt_length hc
  simp only [List.length_append, CHUNK_OVERHEAD, FILE_SALT_LEN, XNONCE_LEN] at *
  omega

theorem decryptChunk_take (hi : cr.Ideal) (hs : fileSalt.length = FILE_SALT_LEN)
    (hn : nonce.length = XNONCE_LEN)
    (h : sealChunk cr v plaintext fileId fileSalt nonce = .ok blob) {n : Nat}
    (hlt : n < blob.length) : ∃ e, decryptChunk cr v (blob.take n) fileId = .error e := by
  obtain ⟨key, c, hkey, hc, rfl⟩ := encrypt_of_sealChunk h
  have hhead : (CHUNK_MAGIC_V1 ++ fileSalt ++ nonce).length = 43 := by simp [hs, hn]; rfl
  by_cases hshort : n < CHUNK_OVERHEAD
  · unfold decryptChunk
    split
    · exact ⟨_, rfl⟩
    simp only
    rw [if_pos]
    · exact ⟨_, rfl⟩
    · unfold CHUNK_OVERHEAD CHUNK_MAGIC_V1 at hshort
      simp only [List.length_drop, List.length_take, List.length_cons, List.length_nil] at *
      omega
  · have hover : CHUNK_OVERHEAD = 59 := rfl
    have htake : (CHUNK_MAGIC_V1 ++ fileSalt ++ nonce ++ c).take n =
        CHUNK_MAGIC_V1 ++ (fileSalt ++ (nonce ++ c.take (n - 43))) := by
      rw [List.take_append, List.take_of_length_le (by omega), hhead]
      simp only [List.append_assoc]
    have hfail : cr.decrypt key nonce (chunkAad fileId) (c.take (n - 43)) = none := by
      apply hi.decrypt_take hc
      rw [List.length_append, hhead] at hlt
      omega
    have hlen : (c.take (n - 43)).length = n - 43 := by
      rw [List.length_append, hhead] at hlt
      rw [List.length_take]
      omega
    rw [htake]
    unfold decryptChunk
    rw [if_neg (by simp [CHUNK_MAGIC_V1])]
    have hrest : (CHUNK_MAGIC_V1 ++ (fileSalt ++ (nonce ++ c.take (n - 43)))).drop 3 =
        fileSalt ++ (nonce ++ c.take (n - 43)) := by
      simp [CHUNK_MAGIC_V1]
    rw [hrest]
    simp only
    rw [if_neg (by simp only [List.length_append, FILE_SALT_LEN, XNONCE_LEN] at *; omega), ← hs,
      List.take_left, List.drop_left, ← hn, List.take_left, List.drop_left]
    simp only [hkey, bind, Except.bind, hfail]
    exact ⟨_, rfl⟩

theorem sealChunk_total (hi : cr.Ideal) (v : UnlockedVault) (fileId : FileId)
    (fileSalt nonce : Bytes) (h : plaintext.length < 2 ^ 32) :
    ∃ blob, sealChunk cr v plaintext fileId fileSalt nonce = .ok blob := by
  obtain ⟨key, hkey⟩ := Option.isSome_iff_exists.mp
    (hi.hkdf_total v.dek fileSalt (CHUNK_KEY_INFO ++ fileId.toList))
  obtain ⟨c, hc⟩ := Option.isSome_iff_exists.mp
    (hi.encrypt_total key nonce (chunkAad fileId) plaintext h)
  refine ⟨CHUNK_MAGIC_V1 ++ fileSalt ++ nonce ++ c, ?_⟩
  simp only [sealChunk, deriveChunkKey, hkey, hc, bind, Except.bind]

end RoundTrip

theorem wp_encryptChunk {s : Env σ} {Q : Except CryptoError Bytes → Env σ → Prop}
    {E : ε → Env σ → Prop} {v : UnlockedVault} {plaintext : Bytes} {fileId : FileId}
    (hok : ∀ salt nonce s', salt.length = FILE_SALT_LEN → nonce.length = XNONCE_LEN → Still s s' →
      Q (sealChunk cr v plaintext fileId salt nonce) s') :
    wp (encryptChunk cr v plaintext fileId) Q E s := by
  unfold encryptChunk
  rw [wp_bind]
  apply wp_draw
  intro salt s1 a1
  rw [wp_bind]
  apply wp_draw
  intro nonce s2 a2
  exact hok _ _ s2 salt.toList_length nonce.toList_length (a1.trans a2)

theorem KdfSettings.length_toBytes (k : KdfSettings) : k.toBytes.length = KDF_SIZE := by
  simp [toBytes, KDF_SIZE]

theorem KdfSettings.fromBytes_toBytes (k : KdfSettings) : fromBytes k.toBytes = .ok k := by
  have hm := ofLe_leBytes 4 k.memoryKib.toNat (by simpa using k.memoryKib.toNat_lt)
  have hi := ofLe_leBytes 4 k.iterations.toNat (by simpa using k.iterations.toNat_lt)
  have hp := ofLe_leBytes 4 k.parallelism.toNat (by simpa using k.parallelism.toNat_lt)
  have hcut : ∀ (c : UInt8) (a b d : Bytes), a.length = 4 → b.length = 4 → d.length = 4 →
      slice (c :: (a ++ b ++ d)) 1 4 = a ∧ slice (c :: (a ++ b ++ d)) 5 4 = b ∧
        slice (c :: (a ++ b ++ d)) 9 4 = d := by
    intro c a b d ha hb hd
    refine ⟨?_, ?_, ?_⟩
    · simpa using slice_field [c] a (b ++ d) (p := 1) rfl ha
    · simpa using slice_field (c :: a) b d (p := 5) (by simp [ha]) hb
    · simpa using slice_field (c :: a ++ b) d [] (p := 9) (by simp [ha, hb]) hd
  obtain ⟨choice, m, i, p⟩ := k
  cases choice <;> simp_all [fromBytes, toBytes]

end AtomVault
