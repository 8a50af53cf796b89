import AtomVault.Vault.Export
import AtomVault.Vault.Shredding

/-!
# All that reads a file (`commands/{export,cat,view}.rs`, `vfs/mod.rs`)

Four loops open the chunks of one file: into a buffer, into the staging area, into a memory file for
a viewer, and into one of a size fixed beforehand for the terminal.
-/

open Lib

namespace AtomVault

/-! ## Memory files -/

/-- A memory file with its cursor, and how long it can get. -/
structure MemFile where
  bytes : Bytes
  pos : Nat
  limit : Nat
  pos_le : pos ≤ bytes.length

/-- The longest name that `memfd_create` takes. -/
def MEMFD_NAME_MAX : Nat := 249

/-- `CString::new` and `memfd_create`. -/
def memfdCreate (name : String) : Except String MemFile :=
  if hasNul name then
    .error s!"nul byte found in provided data at position: {name.toUTF8.toList.findIdx (· == 0)}"
  else if MEMFD_NAME_MAX < name.utf8ByteSize then .error Call.invalidArgument
  else .ok ⟨[], 0, maxLen, le_refl 0⟩

namespace MemFile

/-- `MemFile::new`: `ftruncate` takes no length past `off_t`, and `mmap` not the length 0. -/
def new (vaultName : String) (vaultSize : Nat) : Except String MemFile := do
  let _ ← memfdCreate vaultName
  if maxLen < vaultSize then .error Call.invalidArgument
  else if vaultSize = 0 then .error Call.invalidArgument
  else .ok ⟨List.replicate vaultSize 0, 0, vaultSize, Nat.zero_le _⟩

def writeAll (m : MemFile) (b : Bytes) : Option MemFile :=
  if m.pos + b.length ≤ m.limit then
    some ⟨patch m.bytes m.pos b, m.pos + b.length, m.limit, by rw [length_patch]; omega⟩
  else none

def rewind (m : MemFile) : MemFile := { m with pos := 0, pos_le := Nat.zero_le _ }

/-- What was written from the start on. -/
def written (m : MemFile) : Bytes := m.bytes.take m.pos

variable {m m' : MemFile} {b : Bytes}

theorem writeAll_of_fits (h : m.pos + b.length ≤ m.limit) : ∃ m', m.writeAll b = some m' ∧
    m'.bytes = patch m.bytes m.pos b ∧ m'.pos = m.pos + b.length ∧ m'.limit = m.limit :=
  ⟨_, if_pos h, rfl, rfl, rfl⟩

theorem writeAll_of_large (h : m.limit < m.pos + b.length) : m.writeAll b = none :=
  if_neg (not_le.mpr h)

theorem written_patch (h : m'.bytes = patch m.bytes m.pos b) (hpos : m'.pos = m.pos + b.length) :
    m'.written = m.written ++ b := by
  unfold written
  rw [hpos, List.take_add, h, take_patch _ _ _ _ (le_refl _) m.pos_le]
  exact congrArg _ (slice_patch_self m.bytes m.pos b)

end MemFile

/-! ## The readers -/

variable (cr : Crates)

/-- `process_secure_chunk`, up to the plaintext that its action gets. -/
def processSecureChunk (chunk : ChunkEntry) : Cmd Bytes := plainChunk cr .io chunk

def memfdChunks : List ChunkEntry → MemFile → Cmd MemFile
  | [], memfdFile => pure memfdFile
  | chunk :: rest, memfdFile => do
    let securePlaintext ← processSecureChunk cr chunk
    let memfdFile ← ofOption (.text "Fatal: Failed to write to RAM disk")
      (memfdFile.writeAll securePlaintext)
    memfdChunks rest memfdFile

def memfdName (vfsName : String) : String := s!"atom_vault_memfd_{vfsName}"

def prepareDecryptedMemfd (fileIndex : FileIndex) : Cmd MemFile := do
  let memfdFile ← ofExcept .io (memfdCreate (memfdName fileIndex.vfsName))
  let memfdFile ← memfdChunks cr fileIndex.chunks memfdFile
  return memfdFile.rewind

def AEAD_TAG_LEN : Nat := 16

def chunkCapacity (c : ChunkEntry) : Nat :=
  if c.plainLen > 0 then c.plainLen.toNat else c.cipherLen.toNat - AEAD_TAG_LEN

/-- The size that `handleCat` takes beforehand. -/
def totalCapacity (chunks : List ChunkEntry) : Nat := (chunks.map chunkCapacity).sum

/-- The `map_err` of `handleCat`. A panic goes past it. -/
def chunkError : VaultError → VaultError
  | .io e => .text s!"Chunk processing error: {e}"
  | .text panic => .text panic

/-- A failing write is only logged. -/
def catChunks : List ChunkEntry → MemFile → Cmd MemFile
  | [], memfile => pure memfile
  | chunk :: rest, memfile => do
    let st ← session
    Call.seek .io st.fd chunk.offset.toNat
    let plaintext ← tryCatch (processSecureChunk cr chunk) fun e => throw (chunkError e)
    catChunks rest ((memfile.writeAll plaintext).getD memfile)

/-- `handle_cat`, up to the buffer that it prints. A name that is not there is a line of output. -/
def handleCat (vfsName : String) : Cmd (Option Bytes) := do
  let st ← session
  match st.metadata.fileTable.find? (·.vfsName == vfsName) with
  | none => return none
  | some targetFile =>
    let memfile ← ofExcept .io (MemFile.new vfsName (totalCapacity targetFile.chunks))
    let memfile ← catChunks cr targetFile.chunks memfile
    return some memfile.written

/-! ## What each of them gives -/

section Given

variable {α : Type}

/-- The bytes a reader gives, or nothing if it fails. -/
def given (x : Cmd α) (bytes : α → Host → Option Bytes) (s : Env Session) : Option Bytes :=
  match x s with
  | .ok a s' => bytes a s'.host
  | .error _ _ => none

def decrypted (vfsName : String) (s : Env Session) : Option Bytes :=
  given (decryptToBytes cr vfsName) (fun b _ => some b) s

def exported (env : PathEnv) (vfsName toDisk : String) (force : Bool) (s : Env Session) :
    Option Bytes :=
  given (handleExport cr env vfsName toDisk force)
    (fun _ h => (exportTarget env toDisk).toOption.bind h.contents) s

def viewed (f : FileIndex) (s : Env Session) : Option Bytes :=
  given (prepareDecryptedMemfd cr f) (fun m _ => some m.bytes) s

def shown (vfsName : String) (s : Env Session) : Option Bytes :=
  given (handleCat cr vfsName) (fun b _ => b) s

variable {cr}

theorem given_of_wp {x : Cmd α} {bytes : α → Host → Option Bytes} {r : Option Bytes}
    {s : Env Session} (h : wp x (fun a s' => bytes a s'.host = r) (fun _ _ => r = none) s) :
    given x bytes s = r := by
  unfold given wp at *
  split
  · rename_i hx
    rw [hx] at h
    exact h
  · rename_i hx
    rw [hx] at h
    exact h.symm

end Given

variable {cr} {s : Env Session} {f : FileIndex} {vfsName toDisk : String} {env : PathEnv}
  {force : Bool}

/-- The file as it is in the container. -/
def stored (cr : Crates) (s : Env Session) (f : FileIndex) : Option Bytes :=
  openChunks cr s.vars.unlockedVault (s.host.data s.vars.fd) f.chunks

theorem decrypted_eq (hf : s.host.fault = none)
    (hfind : s.vars.metadata.fileTable.find? (·.vfsName == vfsName) = some f) :
    decrypted cr vfsName s = stored cr s f := by
  apply given_of_wp
  have hread : wp (decryptChunks cr f.chunks) (fun b _ => some b = stored cr s f)
      (fun _ _ => stored cr s f = none) s :=
    wp_mono (wp_decryptChunks hf) (fun _ _ h => h.symm) fun _ _ h => h
  unfold decryptToBytes
  rw [wp_bind, wp_session, wp_bind, hfind]
  exact hread

theorem wp_memfdChunks {v : UnlockedVault} {F : Bytes} {Q : MemFile → Env Session → Prop}
    {E : VaultError → Env Session → Prop} : ∀ {es : List ChunkEntry} {m : MemFile}
    {s : Env Session}, s.host.fault = none → s.vars.unlockedVault = v →
    s.host.data s.vars.fd = F → m.pos = m.bytes.length →
    (∀ t s', (∀ p, openChunks cr v F es = some p → m.limit < m.bytes.length + p.length) → E t s') →
    (∀ p m' s', openChunks cr v F es = some p → m'.bytes = m.bytes ++ p → Q m' s') →
    wp (memfdChunks cr es m) Q E s := by
  intro es
  induction es with
  | nil =>
    intro m s _ _ _ _ _ hok
    exact hok [] m s rfl (by simp)
  | cons e es ih =>
    intro m s hf hv hF hpos herr hok
    unfold memfdChunks processSecureChunk
    rw [wp_bind]
    apply wp_plainChunk
    · rintro (hnone | hlasts) t s1 -
      · rw [hv, hF] at hnone
        exact herr _ _ (by simp [openChunks, hnone])
      · exact absurd (by rw [hf]; trivial) hlasts
    intro p s1 hp _ m1
    rw [hv, hF] at hp
    rw [wp_bind]
    by_cases hfit : m.pos + p.length ≤ m.limit
    · obtain ⟨m', hwrite, hbytes, hpos', hlimit⟩ := MemFile.writeAll_of_fits hfit
      rw [hpos, patch_at_end] at hbytes
      rw [hwrite]
      apply ih (m1.fault.eq_none hf) (by rw [m1.vars, hv]) (by rw [m1.vars, m1.data, hF])
        (by rw [hpos', hbytes, List.length_append, hpos])
      · intro t s2 hlarge
        refine herr t s2 fun r hr => ?_
        rw [openChunks_cons hp] at hr
        obtain ⟨q, hq, rfl⟩ := Option.map_eq_some_iff.mp hr
        have hover := hlarge q hq
        rw [hlimit, hbytes] at hover
        simp only [List.length_append] at *
        omega
      · intro q m2 s2 hq hbytes2
        refine hok (p ++ q) m2 s2 (by rw [openChunks_cons hp, hq]; rfl) ?_
        rw [hbytes2, hbytes, List.append_assoc]
    · rw [MemFile.writeAll_of_large (not_le.mp hfit)]
      refine herr _ _ fun r hr => ?_
      rw [openChunks_cons hp] at hr
      obtain ⟨q, hq, rfl⟩ := Option.map_eq_some_iff.mp hr
      rw [List.length_append]
      omega

theorem wp_catChunks {v : UnlockedVault} {F : Bytes} {Q : MemFile → Env Session → Prop}
    {E : VaultError → Env Session → Prop} : ∀ {es : List ChunkEntry} {m : MemFile}
    {s : Env Session}, s.host.fault = none → s.vars.unlockedVault = v →
    s.host.data s.vars.fd = F →
    (∀ t s', openChunks cr v F es = none → E t s') →
    (∀ p m' s', openChunks cr v F es = some p →
      (m.pos + p.length ≤ m.limit → m'.written = m.written ++ p) → Q m' s') →
    wp (catChunks cr es m) Q E s := by
  intro es
  induction es with
  | nil =>
    intro m s _ _ _ _ hok
    exact hok [] m s rfl (by simp)
  | cons e es ih =>
    intro m s hf hv hF herr hok
    have hstop : openChunk cr v F e = none → ∀ t s', E t s' := fun hnone t s' =>
      herr t s' (by simp [openChunks, hnone])
    unfold catChunks processSecureChunk
    rw [wp_bind, wp_session, wp_bind]
    apply wp_seek
    · rintro (h | h) t s1 -
      · exact absurd hf h
      · refine hstop ?_ _ s1
        unfold openChunk
        rw [if_neg]
        have hfit := Host.data_fits s.host s.vars.fd
        rw [hF] at hfit
        show ¬e.offset.toNat + e.cipherLen.toNat ≤ F.length
        omega
    intro s1 _ m1 _
    have hf1 := m1.fault.eq_none hf
    rw [wp_bind, wp_tryCatch]
    apply wp_plainChunk
    · rintro (hnone | hlasts) t s2 -
      · rw [m1.vars, m1.data, hv, hF] at hnone
        exact hstop hnone _ s2
      · exact absurd (by rw [hf1]; trivial) hlasts
    intro p s2 hp _ m2
    rw [m1.vars, m1.data, hv, hF] at hp
    have hvars : s2.vars = s.vars := m2.vars.trans m1.vars
    apply ih (m2.fault.eq_none hf1) (by rw [hvars, hv])
      (by rw [hvars, m2.data, m1.data, hF])
    · exact fun t s3 hnone => herr t s3 (by rw [openChunks_cons hp, hnone]; rfl)
    intro q m' s3 hq hwritten
    refine hok (p ++ q) m' s3 (by rw [openChunks_cons hp, hq]; rfl) fun hfits => ?_
    rw [List.length_append] at hfits
    obtain ⟨m2, hwrite, hbytes, hpos, hlimit⟩ :=
      MemFile.writeAll_of_fits (m := m) (b := p) (by omega)
    rw [hwrite, Option.getD_some, hpos, hlimit, MemFile.written_patch hbytes hpos,
      List.append_assoc] at hwritten
    exact hwritten (by omega)

/-! ## The size taken beforehand -/

theorem chunkCapacity_of_openChunk (ht : cr.Tagged) {v : UnlockedVault} {F p : Bytes}
    {e : ChunkEntry} (h : openChunk cr v F e = some p) :
    0 < chunkCapacity e ∧ p.length ≤ chunkCapacity e := by
  unfold openChunk at h
  split at h
  case isFalse => cases h
  rename_i hin
  unfold readChunk at h
  split at h
  case h_2 => cases h
  rename_i plain hdec
  have hover : CHUNK_OVERHEAD = 59 := rfl
  have hlen : e.cipherLen.toNat = plain.length + CHUNK_OVERHEAD := by
    rw [← length_of_decryptChunk ht hdec]
    exact (length_slice F e.offset.toNat e.cipherLen.toNat hin).symm
  unfold stripPadding at h
  unfold chunkCapacity AEAD_TAG_LEN
  split at h
  · rename_i hpad
    rw [if_pos hpad]
    have hpos : 0 < e.plainLen.toNat := hpad
    split at h
    · cases h
      exact ⟨hpos, List.length_take_le _ _⟩
    · cases h
  · rename_i hpad
    cases h
    rw [if_neg hpad]
    omega

theorem length_le_totalCapacity (ht : cr.Tagged) {v : UnlockedVault} {F : Bytes}
    {es : List ChunkEntry} : ∀ {p : Bytes}, openChunks cr v F es = some p →
    p.length ≤ totalCapacity es ∧ (es ≠ [] → 0 < totalCapacity es) := by
  induction es with
  | nil =>
    intro p h
    cases h
    simp [totalCapacity]
  | cons e es ih =>
    intro p h
    cases he : openChunk cr v F e with
    | none => simp [openChunks, he] at h
    | some q =>
      rw [openChunks_cons he] at h
      obtain ⟨r, hr, rfl⟩ := Option.map_eq_some_iff.mp h
      obtain ⟨hpos, hle⟩ := chunkCapacity_of_openChunk ht he
      obtain ⟨hrest, -⟩ := ih hr
      have hsum : totalCapacity (e :: es) = chunkCapacity e + totalCapacity es := by
        simp [totalCapacity]
      rw [List.length_append]
      omega

/-! ## Who gives what -/

/-- A name that a memory file can have. -/
structure MemfdName (name : String) : Prop where
  noNul : hasNul name = false
  short : name.utf8ByteSize ≤ MEMFD_NAME_MAX

theorem memfdCreate_eq_ok_iff {name : String} {m : MemFile} :
    memfdCreate name = .ok m ↔ MemfdName name ∧ m = ⟨[], 0, maxLen, le_refl 0⟩ := by
  unfold memfdCreate
  constructor
  · intro h
    split at h
    · cases h
    rename_i hnul
    split at h
    · cases h
    rename_i hshort
    cases h
    exact ⟨⟨by simpa using hnul, not_lt.mp hshort⟩, rfl⟩
  · rintro ⟨hname, rfl⟩
    rw [if_neg (by simp [hname.noNul]), if_neg (not_lt.mpr hname.short)]

theorem MemFile.new_eq_ok_iff {name : String} {n : Nat} {m : MemFile} :
    MemFile.new name n = .ok m ↔ MemfdName name ∧ 0 < n ∧ n ≤ maxLen ∧
      m = ⟨List.replicate n 0, 0, n, Nat.zero_le _⟩ := by
  unfold MemFile.new
  constructor
  · intro h
    obtain ⟨m₀, hcreate, h⟩ := of_bind_eq_ok h
    obtain ⟨hname, -⟩ := memfdCreate_eq_ok_iff.mp hcreate
    split at h
    · cases h
    rename_i hmax
    split at h
    · cases h
    rename_i hzero
    cases h
    exact ⟨hname, Nat.pos_of_ne_zero hzero, not_lt.mp hmax, rfl⟩
  · rintro ⟨hname, hpos, hmax, rfl⟩
    have hcreate := memfdCreate_eq_ok_iff.mpr ⟨hname, rfl⟩
    rw [hcreate]
    show (if maxLen < n then _ else _) = _
    rw [if_neg (not_lt.mpr hmax), if_neg (by omega)]

theorem wp_prepareDecryptedMemfd (hf : s.host.fault = none) :
    wp (prepareDecryptedMemfd cr f)
      (fun m _ => MemfdName (memfdName f.vfsName) ∧ stored cr s f = some m.bytes)
      (fun _ _ => MemfdName (memfdName f.vfsName) → ∀ p, stored cr s f = some p →
        maxLen < p.length) s := by
  unfold prepareDecryptedMemfd
  rw [wp_bind]
  apply wp_ofExcept
  case herr =>
    intro t herr hname
    rw [memfdCreate_eq_ok_iff.mpr ⟨hname, rfl⟩] at herr
    cases herr
  intro m hcreate
  obtain ⟨hname, rfl⟩ := memfdCreate_eq_ok_iff.mp hcreate
  rw [wp_bind]
  apply wp_memfdChunks hf rfl rfl rfl
  · intro t s' hlarge _ p hp
    have hover := hlarge p hp
    rwa [List.length_nil, Nat.zero_add] at hover
  · exact fun p m' s' hp hbytes => ⟨hname, hp.trans (congrArg some hbytes.symm)⟩

theorem wp_handleCat (ht : cr.Tagged) (hf : s.host.fault = none)
    (hfind : s.vars.metadata.fileTable.find? (·.vfsName == vfsName) = some f) :
    wp (handleCat cr vfsName)
      (fun b _ => f.chunks ≠ [] ∧ totalCapacity f.chunks ≤ maxLen ∧ b = stored cr s f)
      (fun _ _ => stored cr s f ≠ none → MemfdName vfsName → f.chunks ≠ [] →
        maxLen < totalCapacity f.chunks) s := by
  unfold handleCat
  rw [wp_bind, wp_session, hfind]
  dsimp only
  rw [wp_bind]
  apply wp_ofExcept
  case herr =>
    intro t herr hstored hname hne
    obtain ⟨p, hp⟩ := Option.ne_none_iff_exists'.mp hstored
    have hpos := (length_le_totalCapacity ht hp).2 hne
    by_contra hmax
    rw [MemFile.new_eq_ok_iff.mpr ⟨hname, hpos, not_lt.mp hmax, rfl⟩] at herr
    cases herr
  intro m hnew
  obtain ⟨-, hpos, hmax, rfl⟩ := MemFile.new_eq_ok_iff.mp hnew
  rw [wp_bind]
  apply wp_catChunks hf rfl rfl
  · exact fun t s' hnone hstored => absurd hnone hstored
  intro p m' s' hp hwritten
  refine ⟨?_, hmax, ?_⟩
  · intro hnil
    rw [hnil] at hpos
    exact absurd hpos (lt_irrefl 0)
  · have hle := (length_le_totalCapacity ht hp).1
    rw [hwritten (by simpa using hle)]
    exact hp.symm

theorem eq_nil_of_openChunks {v : UnlockedVault} {es : List ChunkEntry} {p : Bytes}
    (h : openChunks cr v [] es = some p) : es = [] := by
  cases es with
  | nil => rfl
  | cons e es => simp [openChunks, openChunk_nil] at h

/-- The inode an export writes to. -/
def targetIno (s : Env Session) (path : String) : Nat := (s.host.names path).getD s.host.nextIno

theorem wp_exported (h : Held s) (hf : s.host.fault = none)
    (hfind : s.vars.metadata.fileTable.find? (·.vfsName == vfsName) = some f) :
    wp (handleExport cr env vfsName toDisk force)
      (fun _ s' => ∃ path p, exportTarget env toDisk = .ok path ∧ s'.host.contents path = some p ∧
        ¬ExportStops env vfsName toDisk force s ∧ openChunks cr s.vars.unlockedVault
          (seenFrom s (targetIno s path)) f.chunks = some p)
      (fun _ _ => ¬ExportStops env vfsName toDisk force s → ∃ path, exportTarget env toDisk = .ok path ∧
        ∀ p, openChunks cr s.vars.unlockedVault (seenFrom s (targetIno s path)) f.chunks = some p →
          maxLen < p.length) s := by
  apply wp_handleExport h
  · exact fun hstops _ _ _ hruns => absurd hstops hruns
  · rintro path i g t s' hexp - hfails -
    refine ⟨path, hexp.target, fun p hp => ?_⟩
    obtain rfl : f = g := by simpa [hfind] using hexp.found
    rcases hfails with hfault | hlarge
    · exact absurd hf hfault
    · rw [hexp.inode] at hlarge
      have hover := hlarge p hp
      rwa [Nat.zero_add] at hover
  · rintro path i g s' hexp hread
    obtain rfl : f = g := by simpa [hfind] using hexp.found
    refine ⟨path, (s'.host.files i).bytes, hexp.target, ?_, hexp.runs, ?_⟩
    · apply Host.contents_of_names
      rw [hexp.names, Function.update_self]
    · rw [hexp.inode] at hread ⊢
      exact hread

/-- What all four need that some do not: a chunk to write, a name for a memory file, a size for it,
and a target of the export that is free and not the container. -/
structure AllCanRead (env : PathEnv) (vfsName toDisk : String) (force : Bool) (f : FileIndex)
    (s : Env Session) : Prop where
  nonempty : f.chunks ≠ []
  named : MemfdName (memfdName vfsName)
  sized : totalCapacity f.chunks ≤ maxLen
  runs : ¬ExportStops env vfsName toDisk force s
  other : ∀ path, exportTarget env toDisk = .ok path →
    s.host.names path ≠ some (s.host.ino s.vars.fd)

theorem memfdName_of_longer {name : String} (h : MemfdName (memfdName name)) : MemfdName name := by
  have happ : memfdName name = "atom_vault_memfd_" ++ name := rfl
  refine ⟨?_, ?_⟩
  · have hnul := h.noNul
    unfold hasNul at hnul ⊢
    rw [happ, String.toList_append] at hnul
    simp only [List.contains_eq_mem, List.mem_append, decide_eq_false_iff_not, not_or] at hnul ⊢
    exact hnul.2
  · have hshort := h.short
    rw [happ, String.utf8ByteSize_append] at hshort
    omega

theorem seenFrom_of_other (h : Held s) {path : String}
    (hother : s.host.names path ≠ some (s.host.ino s.vars.fd)) :
    seenFrom s (targetIno s path) = s.host.data s.vars.fd := by
  unfold seenFrom targetIno
  rw [if_neg]
  cases hn : s.host.names path with
  | none => exact ne_of_lt h.ino_lt
  | some i => exact fun heq => hother (by rw [hn]; exact congrArg some heq.symm)

theorem seenFrom_of_own {path : String} (hown : s.host.names path = some (s.host.ino s.vars.fd)) :
    seenFrom s (targetIno s path) = [] := by
  unfold seenFrom targetIno
  rw [hown]
  exact if_pos rfl

/-! ## The four readers -/

theorem shown_eq_some (ht : cr.Tagged) (hf : s.host.fault = none)
    (hfind : s.vars.metadata.fileTable.find? (·.vfsName == vfsName) = some f) {b : Bytes}
    (hb : shown cr vfsName s = some b) :
    f.chunks ≠ [] ∧ totalCapacity f.chunks ≤ maxLen ∧ stored cr s f = some b := by
  unfold shown given at hb
  split at hb
  case h_2 => cases hb
  rename_i r s' hrun
  obtain ⟨hne, hmax, hr⟩ := wp_of_ok (wp_handleCat ht hf hfind) hrun
  exact ⟨hne, hmax, hr.symm.trans hb⟩

theorem viewed_eq_some (hf : s.host.fault = none) {b : Bytes} (hb : viewed cr f s = some b) :
    MemfdName (memfdName f.vfsName) ∧ stored cr s f = some b := by
  unfold viewed given at hb
  split at hb
  case h_2 => cases hb
  rename_i m s' hrun
  obtain ⟨hname, hm⟩ := wp_of_ok (wp_prepareDecryptedMemfd hf) hrun
  exact ⟨hname, hm.trans hb⟩

theorem exported_eq_some (h : Held s) (hf : s.host.fault = none)
    (hfind : s.vars.metadata.fileTable.find? (·.vfsName == vfsName) = some f) {b : Bytes}
    (hb : exported cr env vfsName toDisk force s = some b) :
    stored cr s f = some b ∧ ¬ExportStops env vfsName toDisk force s ∧ (f.chunks ≠ [] →
      ∀ path, exportTarget env toDisk = .ok path →
        s.host.names path ≠ some (s.host.ino s.vars.fd)) := by
  unfold exported given at hb
  split at hb
  case h_2 => cases hb
  rename_i r s' hrun
  obtain ⟨path, p, htarget, hnow, hruns, hread⟩ := wp_of_ok (wp_exported h hf hfind) hrun
  obtain rfl : p = b := by
    rw [htarget] at hb
    exact Option.some.inj (hnow.symm.trans hb)
  refine ⟨?_, hruns, fun hne path' htarget' hown => ?_⟩
  · by_cases hown : s.host.names path = some (s.host.ino s.vars.fd)
    · rw [seenFrom_of_own hown] at hread
      have hnil := eq_nil_of_openChunks hread
      unfold stored
      rw [hnil] at hread ⊢
      exact hread
    · rw [seenFrom_of_other h hown] at hread
      exact hread
  · obtain rfl : path = path' := by simpa [htarget] using htarget'
    rw [seenFrom_of_own hown] at hread
    exact hne (eq_nil_of_openChunks hread)

theorem AllCanRead.agree (ht : cr.Tagged) (h : Held s) (hf : s.host.fault = none)
    (hfind : s.vars.metadata.fileTable.find? (·.vfsName == vfsName) = some f)
    (hall : AllCanRead env vfsName toDisk force f s) {p : Bytes} (hp : stored cr s f = some p) :
    exported cr env vfsName toDisk force s = some p ∧ viewed cr f s = some p ∧
      shown cr vfsName s = some p := by
  have hname : f.vfsName = vfsName := by simpa using List.find?_some hfind
  have hroom : p.length ≤ maxLen := (length_le_totalCapacity ht hp).1.trans hall.sized
  refine ⟨?_, ?_, ?_⟩
  · apply given_of_wp
    refine wp_mono (wp_exported h hf hfind) ?_ ?_
    · rintro _ s' ⟨path, q, htarget, hnow, -, hread⟩
      rw [seenFrom_of_other h (hall.other path htarget)] at hread
      rw [htarget]
      exact hnow.trans (hread.symm.trans hp)
    · intro _ _ hfails
      obtain ⟨path, htarget, hlarge⟩ := hfails hall.runs
      rw [seenFrom_of_other h (hall.other path htarget)] at hlarge
      exact absurd (hlarge p hp) (not_lt.mpr hroom)
  · apply given_of_wp
    refine wp_mono (wp_prepareDecryptedMemfd hf) ?_ ?_
    · exact fun _ _ hm => hm.2.symm.trans hp
    · intro _ _ hfails
      rw [hname] at hfails
      exact absurd (hfails hall.named p hp) (not_lt.mpr hroom)
  · apply given_of_wp
    refine wp_mono (wp_handleCat ht hf hfind) ?_ ?_
    · exact fun _ _ hm => hm.2.2.trans hp
    · intro _ _ hfails
      have hlarge := hfails (by simp [hp]) (memfdName_of_longer hall.named) hall.nonempty
      exact absurd hlarge (not_lt.mpr hall.sized)

/-- **Readers.** In every session in which the host fails no call, the four readers of a file give
the same bytes, or fail all four, exactly if some chunk of it does not open, or it has a chunk and a
name and a size for a memory file and the target of the export is free and not the container. What
three of them give is always what the first gives. -/
theorem readers_agree_iff (ht : cr.Tagged) (h : Used cr s) (hf : s.host.fault = none)
    (hfind : s.vars.metadata.fileTable.find? (·.vfsName == vfsName) = some f) :
    ((exported cr env vfsName toDisk force s = decrypted cr vfsName s ∧
        viewed cr f s = decrypted cr vfsName s ∧ shown cr vfsName s = decrypted cr vfsName s) ↔
      (∃ e ∈ f.chunks, openChunk cr s.vars.unlockedVault (s.host.data s.vars.fd) e = none) ∨
        AllCanRead env vfsName toDisk force f s) ∧
    ∀ b, (exported cr env vfsName toDisk force s = some b ∨ viewed cr f s = some b ∨
      shown cr vfsName s = some b) → decrypted cr vfsName s = some b := by
  have hname : f.vfsName = vfsName := by simpa using List.find?_some hfind
  have honly : ∀ b, (exported cr env vfsName toDisk force s = some b ∨ viewed cr f s = some b ∨
      shown cr vfsName s = some b) → stored cr s f = some b := by
    rintro b (hb | hb | hb)
    · exact (exported_eq_some h.held hf hfind hb).1
    · exact (viewed_eq_some hf hb).2
    · exact (shown_eq_some ht hf hfind hb).2.2
  rw [decrypted_eq hf hfind]
  refine ⟨?_, honly⟩
  rw [← openChunks_eq_none_iff]
  cases hp : stored cr s f with
  | none =>
    -- Nobody gives anything.
    refine iff_of_true ⟨?_, ?_, ?_⟩ (Or.inl hp)
    all_goals
      refine Option.eq_none_iff_forall_ne_some.mpr fun b hb => ?_
    · simpa [hp] using honly b (Or.inl hb)
    · simpa [hp] using honly b (Or.inr (Or.inl hb))
    · simpa [hp] using honly b (Or.inr (Or.inr hb))
  | some p =>
    constructor
    · rintro ⟨hexp, hview, hshow⟩
      obtain ⟨hne, hmax, -⟩ := shown_eq_some ht hf hfind hshow
      obtain ⟨hmem, -⟩ := viewed_eq_some hf hview
      obtain ⟨-, hruns, hother⟩ := exported_eq_some h.held hf hfind hexp
      rw [hname] at hmem
      exact Or.inr ⟨hne, hmem, hmax, hruns, hother hne⟩
    · rintro (hnone | hall)
      · rw [stored, hnone] at hp
        cases hp
      · exact hall.agree ht h.held hf hfind hp

/-! ## Two files -/

theorem Refines.find {password : String} {H : Bytes} {M : Files} (h : Refines cr password H s M)
    (vfsName : String) :
    (M vfsName = none ∧ s.vars.metadata.fileTable.find? (·.vfsName == vfsName) = none) ∨
    ∃ f b, M vfsName = some b ∧ stored cr s f = some b ∧ f.vfsName = vfsName ∧
      s.vars.metadata.fileTable.find? (·.vfsName == vfsName) = some f := by
  have hs := h.kept.sound
  cases hM : M vfsName with
  | none =>
    refine Or.inl ⟨rfl, List.find?_eq_none.mpr fun f hf => ?_⟩
    have hnot : ¬hasName s.vars.metadata.fileTable vfsName = true := by
      rw [h.shows.hasName_iff]
      exact not_not.mpr hM
    simpa using hasName_eq_false hnot f hf
  | some b =>
    obtain ⟨f, hf, rfl⟩ := h.shows.only vfsName b hM
    obtain ⟨b', hread, hb'⟩ := h.shows.live f hf
    obtain rfl : b' = b := Option.some.inj (hb'.symm.trans hM)
    refine Or.inr ⟨f, b', rfl, ?_, rfl, find_of_mem hs.layout.names hf⟩
    rw [← hread]
    exact openChunks_eq_readFile fun e he =>
      (hs.layout.packed.le_hi _ (mem_extents hf he)).trans hs.fits

theorem Refines.decrypted {password : String} {H : Bytes} {M : Files} (h : Refines cr password H s M)
    (vfsName : String) : decrypted cr vfsName s = M vfsName := by
  rcases h.find vfsName with ⟨hM, hfind⟩ | ⟨f, b, hM, hread, -, hfind⟩
  · have hnot : ¬hasName s.vars.metadata.fileTable vfsName = true := by
      rw [h.shows.hasName_iff]
      exact not_not.mpr hM
    unfold AtomVault.decrypted given
    rw [decryptToBytes_missing hnot, hM]
  · rw [decrypted_eq h.noFault hfind, hread, hM]

theorem Pair.used {s₁ s₂ s₃ s : Env Session} (h : Pair s₁ s₂ s₃ s) : Used standin s := by
  have hfresh := (created_of_ok standin_ideal h.create).fresh fresh_start
  exact ((Used.entered hfresh h.enter).done h.first).done h.second

theorem exportTarget_sample : exportTarget stagingEnv "a" = .ok "/run/atom_staging/a" := by decide

theorem readers_agree_iff_pair : ∃ s f, Used standin s ∧
    s.vars.metadata.fileTable.find? (·.vfsName == "a") = some f ∧
    decrypted standin "a" s = some [1, 2, 3] ∧
    exported standin stagingEnv "a" "a" false s = some [1, 2, 3] ∧
    viewed standin f s = some [1, 2, 3] ∧ shown standin "a" s = some [1, 2, 3] := by
  obtain ⟨s₁, s₂, s₃, s, hpair, hfacts⟩ := Pair.of_check pair_eval
  simp only [pairFacts, Bool.and_eq_true, decide_eq_true_eq, beq_iff_eq,
    Option.isNone_iff_eq_none] at hfacts
  obtain ⟨⟨⟨⟨⟨⟨hfirst, hsecond⟩, hfits₃⟩, hfits⟩, htable⟩, -⟩, hfree⟩ := hfacts
  have hruns := hpair.runs hfirst hsecond hfits₃ hfits
  obtain ⟨H, hr⟩ := hruns.refines standin_ideal
  have hused := hpair.used
  obtain ⟨f, l, hf, hname, -⟩ := List.map_eq_cons_iff.mp htable
  rw [nameAndSizes, Prod.mk.injEq] at hname
  obtain ⟨e, l', hchunks, hplain, hl'⟩ := List.map_eq_cons_iff.mp hname.2
  obtain rfl := List.map_eq_nil_iff.mp hl'
  have hfind : s.vars.metadata.fileTable.find? (·.vfsName == "a") = some f := by
    rw [hf]
    exact List.find?_cons_of_pos (by simp [hname.1])
  have hcan : AllCanRead stagingEnv "a" "a" false f s := by
    refine ⟨by rw [hchunks]; simp, ⟨by decide, by decide⟩, ?_, fun hstops => ?_, ?_⟩
    · rw [totalCapacity, hchunks]
      simp only [List.map_cons, List.map_nil, List.sum_singleton, chunkCapacity, hplain]
      rw [if_pos (by decide)]
      decide
    · rcases hstops _ exportTarget_sample with hnul | ⟨-, htaken⟩ | hnone | hlast
      · exact absurd hnul (by decide)
      · exact htaken hfree
      · rw [hfind] at hnone
        cases hnone
      · exact hlast (by rw [hr.noFault]; trivial)
    · intro path hpath
      obtain rfl := Except.ok.inj (exportTarget_sample.symm.trans hpath)
      rw [hfree]
      simp
  have hagree : (exported standin stagingEnv "a" "a" false s = decrypted standin "a" s ∧ _) ↔ _ :=
    (readers_agree_iff standin_tagged hused hr.noFault hfind).1
  obtain ⟨hexp, hview, hshow⟩ := hagree.mpr (Or.inr hcan)
  have hdec : decrypted standin "a" s = some [1, 2, 3] := hr.decrypted "a"
  exact ⟨s, f, hused, hfind, hdec, hexp.trans hdec, hview.trans hdec, hshow.trans hdec⟩

/-! ## An empty file -/

set_option maxRecDepth 100000 in
theorem readEmpty_eval : (match importEmpty start with
    | .ok _ s => s.host.fault.isNone &&
      (s.vars.metadata.fileTable.find? (·.vfsName == "a")).any (·.chunks.isEmpty)
    | .error _ _ => false) = true := by decide +kernel

theorem used_importEmpty : ∃ s f, Used standin s ∧ s.host.fault = none ∧
    s.vars.metadata.fileTable.find? (·.vfsName == "a") = some f ∧ f.chunks = [] := by
  have heval := readEmpty_eval
  split at heval
  case h_2 => cases heval
  rename_i s hrun
  obtain ⟨⟨⟩, s₁, hcreate, hrun⟩ := bind_eq_ok hrun
  obtain ⟨⟨⟩, s₂, henter, himport⟩ := bind_eq_ok hrun
  have hfresh := (created_of_ok standin_ideal hcreate).fresh fresh_start
  have hstep : (Op.importBytes [] "a").run standin s₂ = .ok true s := run_of_ok himport
  rw [Bool.and_eq_true, Option.any_eq_true] at heval
  obtain ⟨hfault, f, hfind, hempty⟩ := heval
  exact ⟨s, f, .done (.entered hfresh henter) hstep, Option.isNone_iff_eq_none.mp hfault, hfind,
    List.isEmpty_iff.mp hempty⟩

/-- `cat` cannot map a memory file of no bytes, and an empty file can be read by the others. -/
theorem empty_file_not_shown : ¬∀ (s : Env Session) (f : FileIndex) (name : String),
    Used standin s → s.host.fault = none →
    s.vars.metadata.fileTable.find? (·.vfsName == name) = some f →
    shown standin name s = decrypted standin name s := by
  intro hall
  obtain ⟨s, f, hused, hf, hfind, hempty⟩ := used_importEmpty
  have hshown := hall s f "a" hused hf hfind
  rw [decrypted_eq hf hfind, stored, hempty] at hshown
  exact (shown_eq_some standin_tagged hf hfind hshown).1 hempty

end AtomVault
