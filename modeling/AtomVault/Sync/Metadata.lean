import AtomVault.Lib.Bytes
import Mathlib.Data.Vector.Basic

/-!
# The synchronised metadata (`p2p-sync/src/sync.rs`)

Which chunks of the remote's files are missing here, and how one that arrived is written
into the file table.
-/

open Lib

namespace AtomVault.Sync

abbrev Nonce := List.Vector UInt8 24

structure ChunkEntry where
  cipherLen : Nat
  offset : Nat
  nonce : Nonce
  deriving DecidableEq

structure FileIndex where
  vfsName : String
  lastModifiedUnix : UInt64
  chunks : List ChunkEntry
  deriving DecidableEq

structure VaultMetadata where
  fileTable : List FileIndex
  cdcSalt : List.Vector UInt8 32
  deriving DecidableEq

inductive SyncMessage
  | metadataExchange (metadata : VaultMetadata)
  | chunkRequest (nonce : Nonce)
  | chunkTransfer (nonce : Nonce) (ciphertext : Bytes)
  deriving DecidableEq

namespace FileIndex

def nonces (f : FileIndex) : List Nonce := f.chunks.map (·.nonce)

def hasNonce (f : FileIndex) (n : Nonce) : Bool := f.chunks.any fun c => c.nonce = n

end FileIndex

/-! ## What is missing -/

/-- One entry of `missing_chunks_info`. -/
structure Missing where
  nonce : Nonce
  vfsName : String
  lastMod : UInt64
  deriving DecidableEq

namespace VaultMetadata

variable (m : VaultMetadata)

def find (name : String) : Option FileIndex := m.fileTable.find? fun f => f.vfsName = name

/-- `is_newer`: the remote's file is not here, or was changed later than the one here. -/
def isNewer (remote : FileIndex) : Bool :=
  (m.find remote.vfsName).all fun f => f.lastModifiedUnix < remote.lastModifiedUnix

/-- `chunk_exists`, in the file of that name. -/
def chunkExists (name : String) (n : Nonce) : Bool := (m.find name).any fun f => f.hasNonce n

def missingOf (remote : FileIndex) : List Missing :=
  if m.isNewer remote then
    (remote.chunks.filter fun c => !m.chunkExists remote.vfsName c.nonce).map fun c =>
      ⟨c.nonce, remote.vfsName, remote.lastModifiedUnix⟩
  else []

def missingChunks (remote : VaultMetadata) : List Missing := remote.fileTable.flatMap m.missingOf

end VaultMetadata

/-- Into the first file of that name, or into a new one at the end. -/
def recordIn (name : String) (lastMod : UInt64) (e : ChunkEntry) : List FileIndex → List FileIndex
  | [] => [⟨name, lastMod, [e]⟩]
  | f :: fs =>
    if f.vfsName = name then { f with lastModifiedUnix := lastMod, chunks := f.chunks ++ [e] } :: fs
    else f :: recordIn name lastMod e fs

/-- The first entry with that nonce, file by file. -/
def VaultMetadata.chunkInfo (m : VaultMetadata) (n : Nonce) : Option ChunkEntry :=
  m.fileTable.findSome? fun f => f.chunks.find? fun c => c.nonce = n

/-! ## Writing down a chunk -/

/-- A chunk that was fetched and written down: for which request, from which reply, where. -/
structure Record where
  wanted : Missing
  replied : Nonce
  ciphertext : Bytes
  offset : Nat

def Record.entry (r : Record) : ChunkEntry := ⟨r.ciphertext.length, r.offset, r.wanted.nonce⟩

def VaultMetadata.record (m : VaultMetadata) (r : Record) : VaultMetadata :=
  { m with fileTable := recordIn r.wanted.vfsName r.wanted.lastMod r.entry m.fileTable }

/-! ### Its entries -/

def VaultMetadata.entries (m : VaultMetadata) : List ChunkEntry := m.fileTable.flatMap (·.chunks)

theorem mem_entries_recordIn {name : String} {lastMod : UInt64} {e e' : ChunkEntry}
    {fs : List FileIndex} : e ∈ (recordIn name lastMod e' fs).flatMap (·.chunks) ↔
      e ∈ fs.flatMap (·.chunks) ∨ e = e' := by
  induction fs with
  | nil => simp [recordIn]
  | cons f fs ih =>
    unfold recordIn
    split
    · simp only [List.flatMap_cons, List.mem_append, List.mem_singleton]
      tauto
    · rw [List.flatMap_cons, List.mem_append, ih, List.flatMap_cons, List.mem_append]
      tauto

theorem mem_entries_record {m : VaultMetadata} {r : Record} {e : ChunkEntry} :
    e ∈ (m.record r).entries ↔ e ∈ m.entries ∨ e = r.entry := mem_entries_recordIn

theorem mem_entries_records {m : VaultMetadata} {log : List Record} {e : ChunkEntry} :
    e ∈ (log.foldl VaultMetadata.record m).entries ↔ e ∈ m.entries ∨ ∃ r ∈ log, e = r.entry := by
  induction log generalizing m with
  | nil => simp
  | cons r log ih =>
    rw [List.foldl_cons, ih, mem_entries_record]
    simp only [List.mem_cons, exists_eq_or_imp]
    tauto

/-- A file of that name lists the entry. -/
def VaultMetadata.Lists (m : VaultMetadata) (name : String) (e : ChunkEntry) : Prop :=
  ∃ f ∈ m.fileTable, f.vfsName = name ∧ e ∈ f.chunks

theorem lists_recordIn {name : String} {lastMod : UInt64} {e e' : ChunkEntry} {of : String}
    {fs : List FileIndex} :
    (∃ f ∈ recordIn name lastMod e' fs, f.vfsName = of ∧ e ∈ f.chunks) ↔
      (∃ f ∈ fs, f.vfsName = of ∧ e ∈ f.chunks) ∨ name = of ∧ e = e' := by
  induction fs with
  | nil => simp [recordIn]
  | cons f fs ih =>
    unfold recordIn
    split
    · rename_i hf
      simp only [List.mem_cons, exists_eq_or_imp, List.mem_append, List.not_mem_nil, or_false, hf,
        and_or_left]
      exact or_right_comm
    · simp only [List.mem_cons, exists_eq_or_imp, ih]
      exact or_assoc.symm

theorem lists_records {m : VaultMetadata} {log : List Record} {name : String} {e : ChunkEntry} :
    (log.foldl VaultMetadata.record m).Lists name e ↔
      m.Lists name e ∨ ∃ r ∈ log, r.wanted.vfsName = name ∧ e = r.entry := by
  induction log generalizing m with
  | nil => simp
  | cons r log ih =>
    have hone : (m.record r).Lists name e ↔ m.Lists name e ∨ r.wanted.vfsName = name ∧ e = r.entry :=
      lists_recordIn
    rw [List.foldl_cons, ih, hone]
    simp only [List.mem_cons, exists_eq_or_imp]
    tauto

theorem mem_entries_of_chunkInfo {m : VaultMetadata} {n : Nonce} {e : ChunkEntry}
    (h : m.chunkInfo n = some e) : e ∈ m.entries := by
  obtain ⟨f, hf, he⟩ := List.exists_of_findSome?_eq_some h
  exact List.mem_flatMap.mpr ⟨f, hf, List.mem_of_find?_eq_some he⟩

/-! ### Its files -/

/-- The file a record goes into, as it is afterwards. -/
def FileIndex.withRecord (f : Option FileIndex) (r : Record) : FileIndex :=
  ⟨r.wanted.vfsName, r.wanted.lastMod, (f.elim [] (·.chunks)) ++ [r.entry]⟩

theorem find_record_self (m : VaultMetadata) (r : Record) :
    (m.record r).find r.wanted.vfsName = some (.withRecord (m.find r.wanted.vfsName) r) := by
  unfold VaultMetadata.find VaultMetadata.record
  induction m.fileTable with
  | nil => simp [recordIn, FileIndex.withRecord]
  | cons f fs ih =>
    unfold recordIn
    by_cases hf : f.vfsName = r.wanted.vfsName
    · simp [hf, FileIndex.withRecord]
    · simpa [hf] using ih

theorem find_record_of_ne (m : VaultMetadata) {r : Record} {name : String}
    (h : name ≠ r.wanted.vfsName) : (m.record r).find name = m.find name := by
  unfold VaultMetadata.find VaultMetadata.record
  induction m.fileTable with
  | nil => simp [recordIn, Ne.symm h]
  | cons f fs ih =>
    unfold recordIn
    by_cases hf : f.vfsName = r.wanted.vfsName
    · simp [hf, Ne.symm h]
    · by_cases hn : f.vfsName = name
      · simp [hn, h]
      · simpa [hf, hn] using ih

theorem mem_recordIn {name : String} {lastMod : UInt64} {e : ChunkEntry} {f : FileIndex}
    {fs : List FileIndex} (h : f ∈ recordIn name lastMod e fs) :
    f ∈ fs ∨ f.chunks = ((fs.find? fun f => f.vfsName = name).elim [] (·.chunks)) ++ [e] := by
  induction fs with
  | nil =>
    rw [List.mem_singleton.mp h]
    exact Or.inr rfl
  | cons g fs ih =>
    unfold recordIn at h
    split at h
    · rename_i hg
      rcases List.mem_cons.mp h with rfl | h
      · exact Or.inr (by simp [hg])
      · exact Or.inl (List.mem_cons_of_mem _ h)
    · rename_i hg
      rcases List.mem_cons.mp h with rfl | h
      · exact Or.inl List.mem_cons_self
      · rcases ih h with h | h
        · exact Or.inl (List.mem_cons_of_mem _ h)
        · exact Or.inr (by simpa [hg] using h)

/-- The records that go into the file of that name. -/
def recordsOf (name : String) (log : List Record) : List Record :=
  log.filter fun r => r.wanted.vfsName = name

theorem find_records (name : String) (log : List Record) (m : VaultMetadata) :
    (log.foldl VaultMetadata.record m).find name =
      (recordsOf name log).foldl (fun f r => some (.withRecord f r)) (m.find name) := by
  induction log generalizing m with
  | nil => rfl
  | cons r log ih =>
    rw [List.foldl_cons, ih]
    unfold recordsOf
    by_cases hr : r.wanted.vfsName = name
    · subst hr
      rw [List.filter_cons_of_pos (by simp), List.foldl_cons, find_record_self]
    · rw [List.filter_cons_of_neg (by simpa using hr), find_record_of_ne m (Ne.symm hr)]

theorem withRecords_chunks (log : List Record) (f : Option FileIndex) :
    ((log.foldl (fun f r => some (.withRecord f r)) f).elim [] fun f : FileIndex => f.chunks) =
      (f.elim [] fun f => f.chunks) ++ log.map Record.entry := by
  induction log generalizing f with
  | nil => simp
  | cons r log ih =>
    rw [List.foldl_cons, ih]
    simp [FileIndex.withRecord]

/-- A file that gained records: its name, the time of the last one, and the old chunks with
the new ones behind. -/
theorem find_records_concat {name : String} {log own : List Record} {r : Record}
    {m : VaultMetadata} (h : recordsOf name log = own ++ [r]) :
    (log.foldl VaultMetadata.record m).find name = some ⟨name, r.wanted.lastMod,
      ((m.find name).elim [] fun f => f.chunks) ++ (own ++ [r]).map Record.entry⟩ := by
  have hname : r.wanted.vfsName = name := by
    have hr : r ∈ recordsOf name log := by simp [h]
    simpa using (List.mem_filter.mp hr).2
  rw [find_records, h, List.foldl_append, List.foldl_cons, List.foldl_nil, FileIndex.withRecord,
    withRecords_chunks, hname, List.map_append, List.append_assoc]
  rfl

theorem find_records_nil {name : String} {log : List Record} {m : VaultMetadata}
    (h : recordsOf name log = []) : (log.foldl VaultMetadata.record m).find name = m.find name := by
  rw [find_records, h]
  rfl

/-- The file and the nonce a task was spawned for. -/
def Missing.key (m : Missing) : String × Nonce := (m.vfsName, m.nonce)

def VaultMetadata.hasKey (m : VaultMetadata) (k : String × Nonce) : Bool := m.chunkExists k.1 k.2

theorem hasKey_record (m : VaultMetadata) (r : Record) (k : String × Nonce) :
    (m.record r).hasKey k = true ↔ m.hasKey k = true ∨ r.wanted.key = k := by
  obtain ⟨name, n⟩ := k
  unfold VaultMetadata.hasKey VaultMetadata.chunkExists Missing.key
  by_cases hname : name = r.wanted.vfsName
  · subst hname
    rw [find_record_self]
    cases m.find r.wanted.vfsName with
    | none => simp [FileIndex.hasNonce, FileIndex.withRecord, Record.entry]
    | some f => simp [FileIndex.hasNonce, FileIndex.withRecord, Record.entry]
  · rw [find_record_of_ne m hname]
    simp [Ne.symm hname]

theorem hasKey_records (log : List Record) (m : VaultMetadata) (k : String × Nonce) :
    (log.foldl VaultMetadata.record m).hasKey k = true ↔
      m.hasKey k = true ∨ ∃ r ∈ log, r.wanted.key = k := by
  induction log generalizing m with
  | nil => simp
  | cons r log ih =>
    rw [List.foldl_cons, ih, hasKey_record]
    simp only [List.mem_cons, exists_eq_or_imp]
    tauto

/-! ### What is missing -/

theorem mem_missingChunks {m remote : VaultMetadata} {w : Missing} :
    w ∈ m.missingChunks remote ↔ ∃ f ∈ remote.fileTable, m.isNewer f = true ∧
      ∃ n ∈ f.nonces, m.hasKey (f.vfsName, n) = false ∧ w = ⟨n, f.vfsName, f.lastModifiedUnix⟩ := by
  unfold VaultMetadata.missingChunks VaultMetadata.missingOf FileIndex.nonces
  rw [List.mem_flatMap]
  constructor
  · rintro ⟨f, hf, hw⟩
    split at hw
    · rename_i hnew
      obtain ⟨c, hc, rfl⟩ := List.mem_map.mp hw
      obtain ⟨hc, hnot⟩ := List.mem_filter.mp hc
      have hnot : m.chunkExists f.vfsName c.nonce = false := by simpa using hnot
      exact ⟨f, hf, hnew, c.nonce, List.mem_map_of_mem hc, hnot, rfl⟩
    · cases hw
  · rintro ⟨f, hf, hnew, n, hn, hnot, rfl⟩
    obtain ⟨c, hc, rfl⟩ := List.mem_map.mp hn
    refine ⟨f, hf, ?_⟩
    rw [if_pos hnew]
    refine List.mem_map_of_mem (List.mem_filter.mpr ⟨hc, ?_⟩)
    have hnot : m.chunkExists f.vfsName c.nonce = false := hnot
    rw [hnot]
    rfl

end AtomVault.Sync
