import AtomVault.Lib.Aead
import AtomVault.Vault.Instance

/-!
# Which blobs open

A blob carries its salt, and its reader brings the key and the id. Under an ideal AEAD a
reader gets something out of a string of bytes only where `encryptChunk` made that string
under the reader's key and id.
-/

open Lib

namespace AtomVault

/-! ## Panics -/

section Panics

variable (cr : Crates)

end Panics

/-! ## What was made -/

/-- A call of `encryptChunk` and the blob that it returned. -/
structure ChunkCall where
  vault : UnlockedVault
  fileId : FileId
  plaintext : Bytes
  blob : Bytes

/-- What a call went through. -/
structure Sealed (cr : Crates) where
  vault : UnlockedVault
  fileId : FileId
  plaintext : Bytes
  fileSalt : List.Vector UInt8 FILE_SALT_LEN
  nonce : List.Vector UInt8 XNONCE_LEN
  key : Bytes
  ciphertext : Bytes
  derived : deriveChunkKey cr vault.dek fileSalt.toList fileId = .ok key
  encrypted : cr.encrypt key nonce.toList (chunkAad fileId) plaintext = some ciphertext

namespace Sealed

variable {cr : Crates}

def blob (x : Sealed cr) : Bytes :=
  CHUNK_MAGIC_V1 ++ x.fileSalt.toList ++ x.nonce.toList ++ x.ciphertext

def call (x : Sealed cr) : ChunkCall := ⟨x.vault, x.fileId, x.plaintext, x.blob⟩

def sealing (x : Sealed cr) : Sealing :=
  ⟨x.key, x.nonce.toList, chunkAad x.fileId, x.plaintext, x.ciphertext⟩

end Sealed

/-! ## What opens -/

/-- The boxes in the blobs of these calls. -/
def sealings (cr : Crates) (calls : Set ChunkCall) : Set Sealing :=
  {y | ∃ x : Sealed cr, x.call ∈ calls ∧ x.sealing = y}

/-- The crates after `calls`, which made every box with a chunk's associated data: an ideal AEAD for
messages of any length, and one key for one derivation. -/
structure Crates.IdealAfter (cr : Crates) (calls : Set ChunkCall) (other : Set Sealing) : Prop where
  aead : IdealAead cr.encrypt cr.decrypt (other ∪ sealings cr calls)
  other_aad : ∀ y ∈ other, ∀ fileId, y.aad ≠ chunkAad fileId
  encrypts : ∀ key nonce aad msg, ∃ c, cr.encrypt key nonce aad msg = some c
  encrypt_length : ∀ {key nonce aad msg c}, cr.encrypt key nonce aad msg = some c →
    c.length = msg.length + 16
  hkdf_total : ∀ ikm salt info, (cr.hkdf ikm salt info).isSome
  hkdf_injective : ∀ {ikm salt info ikm' salt' info' key}, salt.length = salt'.length →
    info.length = info'.length → cr.hkdf ikm salt info = some key →
    cr.hkdf ikm' salt' info' = some key → ikm = ikm' ∧ salt = salt' ∧ info = info'

section Format

variable {cr : Crates} {calls : Set ChunkCall} {other : Set Sealing} {v : UnlockedVault}
  {plaintext blob : Bytes} {fileId : FileId}

theorem Crates.IdealAfter.opens (h : cr.IdealAfter calls other) {x : Sealed cr}
    (hx : x.call ∈ calls) : decryptChunk cr x.vault x.blob x.fileId = .ok x.plaintext := by
  have hlen := h.encrypt_length x.encrypted
  have hopen := h.aead.opens (Set.mem_union_right other ⟨x, hx, rfl⟩)
  exact decryptChunk_of_decrypt x.fileSalt.toList_length x.nonce.toList_length x.derived (by omega)
    hopen

end Format

/-! ## A chunk, the table and a wrapped key -/

/-- The tag is the id in the associated data. -/
def idBox (aad msg : Bytes) : Bytes := (aad.drop 3 ++ List.replicate 16 0).take 16 ++ msg

def sampleSealing (fileId : FileId) (msg : Bytes) : Sealing where
  key := List.replicate 16 2 ++ (CHUNK_KEY_INFO ++ fileId.toList) ++ List.replicate 32 1
  nonce := List.replicate 24 3
  aad := chunkAad fileId
  msg := msg
  box := idBox (chunkAad fileId) msg

def wrapSealing : Sealing := ⟨[4], List.replicate 24 5, [], List.replicate 32 1,
  idBox [] (List.replicate 32 1)⟩

def sampleFileId : FileId := ⟨List.replicate 16 6, by decide⟩

def blobTable : List Sealing :=
  [wrapSealing, sampleSealing METADATA_FILE_ID [7], sampleSealing sampleFileId [8, 9]]

def sampleCrates : Crates :=
  { standin with
    hkdf := fun ikm salt info => some (salt ++ info ++ ikm)
    encrypt := fun _ _ aad msg => some (idBox aad msg)
    decrypt := tableOpen blobTable }

def sampleSealed (fileId : FileId) (msg : Bytes) : Sealed sampleCrates where
  vault := ⟨List.replicate 32 1⟩
  fileId := fileId
  plaintext := msg
  fileSalt := ⟨List.replicate 16 2, by decide⟩
  nonce := ⟨List.replicate 24 3, by decide⟩
  key := (sampleSealing fileId msg).key
  ciphertext := (sampleSealing fileId msg).box
  derived := rfl
  encrypted := rfl

end AtomVault
