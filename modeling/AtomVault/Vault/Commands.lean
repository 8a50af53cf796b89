import AtomVault.Vault.Storage

/-!
# The vault's commands (`commands/*.rs`, `gui/explorer.rs`)

What the handlers take by `&mut` is the session. A handler that fails leaves in it what
it had already changed.
-/

open Lib

namespace AtomVault

structure Session where
  vaultPath : String
  /-- The descriptor `physical_vault`. -/
  fd : Nat
  unlockedVault : UnlockedVault
  metadata : VaultMetadata
  currentPayloadOffset : UInt64

abbrev Cmd := Prog Session VaultError

namespace Session

def advance (st : Session) (n : Nat) : Session :=
  { st with currentPayloadOffset := st.currentPayloadOffset + UInt64.ofNat n }

def setTable (st : Session) (table : List FileIndex) : Session :=
  { st with metadata := { st.metadata with fileTable := table } }

end Session

def session : Cmd Session := fun s => .ok s.vars s

def update (f : Session → Session) : Cmd Unit := fun s => .ok () { s with vars := f s.vars }

def hasName (table : List FileIndex) (name : String) : Bool := table.any (·.vfsName == name)

variable (cr : Crates)

/-! ## Creating and entering -/

/-- `handle_create` from the point where the password and the KDF settings are chosen. -/
def handleCreate {σ : Type} (path password : String) (settings : KdfSettings) :
    Prog σ VaultError Unit := do
  let salt ← Call.draw 32
  let dek ← Call.draw 32
  let kek ← ofExcept (fun e => .text s!"KDF error: {e.quote}")
    (deriveKek cr password salt.toList settings)
  let wrapped ← wrapDek cr kek dek.toList
  let (wrappedDek, dekNonce) ← ofOption (.text "Encryption error: Error") wrapped
  let unlockedVault ← ofOption (.text "DEK unwrap error: Error")
    (unwrapDek cr kek wrappedDek dekNonce)
  let fd ← Call.createNew
    (fun e => .text s!"Failed to create vault file (it might already exist): {ioDebug e}") path
  let payloadOffset : UInt64 := UInt64.ofNat (112 + KDF_SIZE)
  Call.writeAll .io fd (leBytes 8 payloadOffset.toNat)
  Call.writeAll .io fd settings.toBytes
  Call.writeAll .io fd salt.toList
  Call.writeAll .io fd dekNonce
  Call.writeAll .io fd wrappedDek
  let cdcSalt ← Call.draw 32
  saveVaultMetadata cr fd { fileTable := [], cdcSalt } unlockedVault payloadOffset
  Call.sync .io fd

/-- `handle_enter` up to the shell: open the file and load it. -/
def handleEnter (path password : String) : Cmd Unit := do
  let fd ← Call.openFile (fun e => .text s!"Failed to open vault file '{path}': {ioDebug e}") path
  let (metadata, unlockedVault, currentPayloadOffset) ← loadVaultMetadata cr fd password
  update fun _ => { vaultPath := path, fd, unlockedVault, metadata, currentPayloadOffset }

/-! ## Importing -/

def alreadyExists (name : String) : VaultError :=
  .text s!"Error: A file named '{name}' already exists in the vault."

/-- One turn of the chunk loop. `fetch` is where the plaintext comes from. -/
def importChunk (fetch : ChunkData → Cmd Bytes) (chunkInfo : ChunkData) : Cmd ChunkEntry := do
  let plain ← fetch chunkInfo
  let noise ← Call.draw (MAX_CHUNK_SIZE - chunkInfo.length)
  -- `MlockGuard::new(&padded)?`
  Call.probe .io
  let fileId ← Call.draw FILE_ID_LEN
  let st ← session
  let result ← encryptChunk cr st.unlockedVault (plain ++ noise.toList) fileId
  let blob ← ofExcept (fun e => .text s!"Encryption error: {e.debug}") result
  Call.writeAll .io st.fd blob
  update (·.advance blob.length)
  return {
    cipherLen := UInt64.ofNat blob.length
    offset := st.currentPayloadOffset
    fileId
    plainLen := UInt64.ofNat chunkInfo.length }

def importChunks (fetch : ChunkData → Cmd Bytes) :
    List ChunkData → List ChunkEntry → Cmd (List ChunkEntry)
  | [], newChunks => pure newChunks
  | chunkInfo :: rest, newChunks => do
    let entry ← importChunk cr fetch chunkInfo
    importChunks fetch rest (newChunks ++ [entry])

/-- The part of an import before its metadata save. -/
def importPayload (fetch : ChunkData → Cmd Bytes) (data : Bytes) (vfsName : String) : Cmd Unit := do
  let chunkBoundaries ← ofExcept .io (cr.chunkData data)
  let st ← session
  Call.seek .io st.fd st.currentPayloadOffset.toNat
  let newChunks ← importChunks cr fetch chunkBoundaries []
  let now ← Call.now
  let st ← session
  update (·.setTable (st.metadata.fileTable ++
    [{ vfsName, chunks := newChunks, lastModifiedUnix := UInt64.ofNat now }]))

/-- The metadata save that ends an import and a removal, and the `sync_all` after it. -/
def saveSession : Cmd Unit := do
  let st ← session
  saveVaultMetadata cr st.fd st.metadata st.unlockedVault st.currentPayloadOffset
  Call.sync .io st.fd

def importBytesPrepare (data : Bytes) (vfsName : String) : Cmd Unit := do
  let st ← session
  if hasName st.metadata.fileTable vfsName then throw (alreadyExists vfsName)
  importPayload cr (fun c => pure (slice data c.offset c.length)) data vfsName

def handleImportFromBytes (data : Bytes) (vfsName : String) : Cmd Unit := do
  importBytesPrepare cr data vfsName
  saveSession cr

/-- The environment `handle_import` asks: two variables and `canonicalize`. -/
structure PathEnv where
  xdgRuntimeDir : Option String
  home : Option String
  canonicalize : String → Option String

def PathEnv.stagingDir (env : PathEnv) : Option String :=
  match env.xdgRuntimeDir, env.home with
  | some dir, _ => some s!"{dir}/atom_staging"
  | none, some home => some s!"{home}/.atom_vault/staging"
  | none, none => none

/-- `Path::starts_with` compares whole components. -/
def pathStartsWith (path base : String) : Bool :=
  ((base.toList.splitOn '/').filter (· ≠ [])).isPrefixOf
    ((path.toList.splitOn '/').filter (· ≠ []))

def PathEnv.stagedPath (env : PathEnv) (fromDisk : String) : Except String String :=
  match env.stagingDir with
  | none =>
    .error "Security Error: Neither XDG_RUNTIME_DIR nor HOME environment variables are set."
  | some dir =>
    match env.canonicalize dir with
    | none => .error "Fatal: Could not resolve staging directory path."
    | some allowedPath =>
      match env.canonicalize fromDisk with
      | none => .error s!"Error: The file '{fromDisk}' does not exist or cannot be resolved."
      | some targetPath =>
        if pathStartsWith targetPath allowedPath then .ok targetPath else
          .error (s!"Security Violation: Imports are strictly limited to the staging area.\n" ++
            s!"Please move your file to: {dir}\nAttempted to access: {targetPath}")

/-- The part of `handle_import` before its metadata save: the staged file's path and
descriptor. -/
def importPrepare (env : PathEnv) (fromDisk vfsName : String) : Cmd (String × Nat) := do
  let targetPath ← ofExcept .text (env.stagedPath fromDisk)
  let st ← session
  if hasName st.metadata.fileTable vfsName then throw (alreadyExists vfsName)
  let file ← Call.openFile .io targetPath
  -- The chunker reads the whole file.
  let data ← Call.readToEnd .io file maxLen
  importPayload cr (fun c => do
    Call.seek .io file c.offset
    Call.readExact .io file c.length) data vfsName
  return (targetPath, file)

/-- `while written < size`, until a write fails. -/
def shredLoop (file : Nat) : Nat → Nat → Cmd Unit
  | 0, _ => pure ()
  | fuel + 1, left =>
    if left = 0 then pure () else
      tryCatch (do
        Call.writeAll .io file (List.replicate (min 4096 left) 0)
        shredLoop file fuel (left - min 4096 left)) fun _ => pure ()

/-- The shredder's errors are dropped. -/
def ignoreErr (x : Cmd Unit) : Cmd Unit := tryCatch x fun _ => pure ()

def shred (targetPath : String) (file : Nat) : Cmd Unit := do
  ignoreErr do
    let size ← Call.fileLen .io file
    ignoreErr (Call.seek .io file 0)
    shredLoop file (size + 1) size
    ignoreErr (Call.sync .io file)
  ignoreErr (Call.remove .io targetPath)

def handleImport (env : PathEnv) (fromDisk vfsName : String) : Cmd Unit := do
  let (targetPath, file) ← importPrepare cr env fromDisk vfsName
  saveSession cr
  shred targetPath file

/-! ## Removing -/

def zeroChunks : List ChunkEntry → Cmd Unit
  | [] => pure ()
  | chunk :: rest => do
    let st ← session
    Call.seek .io st.fd chunk.offset.toNat
    Call.writeAll .io st.fd (List.replicate chunk.cipherLen.toNat 0)
    zeroChunks rest

/-- The part of `handle_rm` before its metadata save. -/
def rmPrepare (vfsName : String) : Cmd Unit := do
  let st ← session
  match st.metadata.fileTable.findIdx? (·.vfsName == vfsName) with
  | none => throw (.text "File not found in metadata")
  | some index =>
    zeroChunks ((st.metadata.fileTable[index]?).elim [] (·.chunks))
    -- `flush`
    Call.probe .io
    update (·.setTable (st.metadata.fileTable.eraseIdx index))
    Call.seek .io st.fd st.currentPayloadOffset.toNat
    Call.setLen .io st.fd st.currentPayloadOffset.toNat

def handleRm (vfsName : String) : Cmd Unit := do
  rmPrepare vfsName
  saveSession cr

/-! ## Renaming -/

def isValidVfsFilename (name : String) : Bool :=
  name ≠ "" && !name.toList.contains '/' && !name.toList.contains '\\' &&
    !name.toList.contains (Char.ofNat 0)

def renameFirst (old new : String) : List FileIndex → List FileIndex
  | [] => []
  | f :: rest => if f.vfsName = old then { f with vfsName := new } :: rest
    else f :: renameFirst old new rest

/-- The part of a rename before its metadata save: whether anything was renamed. -/
def renamePrepare (oldName newName : String) : Cmd Bool := do
  if !isValidVfsFilename newName then throw (.text "Rename Error: Invalid characters.")
  let st ← session
  if hasName st.metadata.fileTable newName then
    throw (.text "Rename Error: A file with that name already exists.")
  if hasName st.metadata.fileTable oldName then
    update (·.setTable (renameFirst oldName newName st.metadata.fileTable))
    return true
  else return false

/-- The rename dialog's Save button. Nothing happens if no file has the old name. -/
def handleRename (oldName newName : String) : Cmd Bool := do
  let found ← renamePrepare oldName newName
  if found then
    let st ← session
    saveVaultMetadata cr st.fd st.metadata st.unlockedVault st.currentPayloadOffset
  return found

/-! ## Vacuum -/

/-- The inner loop: one file's chunks move to `tmpFile`. `put` is the file's place in the
table, which follows chunk by chunk. -/
def moveChunks (fd tmpFile : Nat) (put : List ChunkEntry → Cmd Unit) :
    List ChunkEntry → List ChunkEntry → UInt64 → Cmd (List ChunkEntry × UInt64)
  | moved, [], off => pure (moved, off)
  | moved, chunk :: rest, off => do
    Call.seek .io fd chunk.offset.toNat
    let cipherBuffer ← Call.readExact .io fd chunk.cipherLen.toNat
    Call.seek .io tmpFile off.toNat
    Call.writeAll .io tmpFile cipherBuffer
    let moved := moved ++ [{ chunk with offset := off }]
    put (moved ++ rest)
    moveChunks fd tmpFile put moved rest (off + chunk.cipherLen)

def moveFiles (fd tmpFile : Nat) : List FileIndex → List FileIndex → UInt64 → Cmd UInt64
  | _, [], off => pure off
  | moved, f :: rest, off => do
    let put := fun chunks => update (·.setTable (moved ++ { f with chunks } :: rest))
    let (chunks, off) ← moveChunks fd tmpFile put [] f.chunks off
    moveFiles fd tmpFile (moved ++ [{ f with chunks }]) rest off

/-- The pointer is zero until the save, the rest of the header is copied. -/
def copyHeader (fd tmpFile : Nat) : Cmd Unit := do
  Call.writeAll .io tmpFile (List.replicate 8 0)
  Call.seek .io fd 8
  let headerRest ← Call.readExact .io fd (VAULT_HEADER_SIZE - 8)
  Call.writeAll .io tmpFile headerRest

def handleVacuum : Cmd UInt64 := do
  let st ← session
  let tmpPath := st.vaultPath ++ ".tmp"
  let tmpFile ← Call.createNew (fun e => .text s!"Failed to create vacuum temp file: {ioDebug e}")
    tmpPath
  copyHeader st.fd tmpFile
  let newPayloadOffset ←
    moveFiles st.fd tmpFile [] st.metadata.fileTable (UInt64.ofNat VAULT_HEADER_SIZE)
  let st ← session
  saveVaultMetadata cr tmpFile st.metadata st.unlockedVault newPayloadOffset
  Call.sync .io tmpFile
  Call.rename .io tmpPath st.vaultPath
  return newPayloadOffset

/-- The shell's `vacuum`: reopen the file and take the new offset. -/
def shellVacuum : Cmd Unit := do
  let newOffset ← handleVacuum cr
  let st ← session
  let file ← Call.openFile .io st.vaultPath
  update fun st => { st with fd := file, currentPayloadOffset := newOffset }

/-! ## Reading -/

/-- `&decrypted[..plain_len]`, which panics past the end. Chunks without a plaintext length are from
before the padding. -/
def stripPadding (plainLen : UInt64) (decrypted : Bytes) : Option Bytes :=
  if plainLen > 0 then
    if plainLen.toNat ≤ decrypted.length then some (decrypted.take plainLen.toNat) else none
  else some decrypted

/-- A panic ends a command with its message. -/
def outOfRange (plainLen : UInt64) (decrypted : Bytes) : VaultError :=
  .text s!"range end index {plainLen} out of range for slice of length {decrypted.length}"

/-- The plaintext of one chunk, as all readers come by it. -/
def plainChunk (onErr : String → VaultError) (chunk : ChunkEntry) : Cmd Bytes := do
  let st ← session
  Call.seek .io st.fd chunk.offset.toNat
  let cipherBuffer ← Call.readExact .io st.fd chunk.cipherLen.toNat
  let decrypted ← ofExcept (fun e => onErr s!"Decryption error: {e.debug}")
    (decryptChunk cr st.unlockedVault cipherBuffer chunk.fileId)
  -- `mlock`
  Call.probe .io
  ofOption (outOfRange chunk.plainLen decrypted) (stripPadding chunk.plainLen decrypted)

def decryptChunks : List ChunkEntry → Cmd Bytes
  | [] => pure []
  | chunk :: rest => do
    let content ← plainChunk cr .text chunk
    let output ← decryptChunks rest
    return content ++ output

def decryptToBytes (vfsName : String) : Cmd Bytes := do
  let st ← session
  let fileEntry ← ofOption (.text s!"Error: File '{vfsName}' not found in vault.")
    (st.metadata.fileTable.find? (·.vfsName == vfsName))
  decryptChunks cr fileEntry.chunks

end AtomVault
