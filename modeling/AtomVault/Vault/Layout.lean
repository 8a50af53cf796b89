import AtomVault.Lib.Extents
import AtomVault.Vault.Commands
import Mathlib.Data.List.Flatten

/-!
# Where the chunks lie and what they hold

Chunks are packed between the header and the payload offset, and a file is what its
chunks open to. Both are facts about the bytes of the container and one table.
-/

open Lib

namespace AtomVault

def ChunkEntry.extent (e : ChunkEntry) : Extent := ⟨e.offset.toNat, e.cipherLen.toNat⟩

def extents (table : List FileIndex) : List Extent := table.flatMap fun f => f.chunks.map (·.extent)

structure Layout (table : List FileIndex) (off : Nat) : Prop where
  packed : Packed VAULT_HEADER_SIZE off (extents table)
  names : (table.map (·.vfsName)).Nodup

variable (cr : Crates) (v : UnlockedVault)

def readChunk (F : Bytes) (e : ChunkEntry) : Option Bytes :=
  match decryptChunk cr v (e.extent.read F) e.fileId with
  | .ok plain => stripPadding e.plainLen plain
  | .error _ => none

/-- What `decryptToBytes` makes of the chunks of one file. -/
def readFile (F : Bytes) : List ChunkEntry → Option Bytes
  | [] => some []
  | e :: es => do
    let plain ← readChunk cr v F e
    let rest ← readFile F es
    return plain ++ rest

/-- Nothing is read past the end of the file. -/
def openChunk (F : Bytes) (e : ChunkEntry) : Option Bytes :=
  if e.extent.stop ≤ F.length then readChunk cr v F e else none

def openChunks (F : Bytes) : List ChunkEntry → Option Bytes
  | [] => some []
  | e :: es => do
    let plain ← openChunk cr v F e
    let rest ← openChunks F es
    return plain ++ rest

variable {cr v} {F F' : Bytes}

theorem openChunks_cons {e : ChunkEntry} {es : List ChunkEntry} {p : Bytes}
    (hp : openChunk cr v F e = some p) :
    openChunks cr v F (e :: es) = (openChunks cr v F es).map (p ++ ·) := by
  rw [openChunks, hp]
  cases openChunks cr v F es <;> rfl

theorem openChunks_eq_none_iff {es : List ChunkEntry} :
    openChunks cr v F es = none ↔ ∃ e ∈ es, openChunk cr v F e = none := by
  induction es with
  | nil => simp [openChunks]
  | cons e es ih =>
    cases hp : openChunk cr v F e with
    | none => simp [openChunks, hp]
    | some p => simp [openChunks_cons hp, ih, hp]

theorem openChunks_eq_readFile {es : List ChunkEntry} (h : ∀ e ∈ es, e.extent.stop ≤ F.length) :
    openChunks cr v F es = readFile cr v F es := by
  induction es with
  | nil => rfl
  | cons e es ih =>
    unfold openChunks readFile openChunk
    rw [if_pos (h e (by simp)), ih fun x hx => h x (by simp [hx])]

theorem readChunk_congr {e e' : ChunkEntry} (hread : e'.extent.read F' = e.extent.read F)
    (hid : e'.fileId = e.fileId) (hlen : e'.plainLen = e.plainLen) :
    readChunk cr v F' e' = readChunk cr v F e := by
  unfold readChunk
  rw [hread, hid, hlen]

theorem readFile_congr {es : List ChunkEntry}
    (h : ∀ e ∈ es, e.extent.read F' = e.extent.read F) :
    readFile cr v F' es = readFile cr v F es := by
  induction es with
  | nil => rfl
  | cons e es ih =>
    simp only [readFile]
    rw [readChunk_congr (h e (by simp)) rfl rfl, ih fun e' he => h e' (by simp [he])]

theorem mem_extents {table : List FileIndex} {f : FileIndex} {e : ChunkEntry} (hf : f ∈ table)
    (he : e ∈ f.chunks) : e.extent ∈ extents table :=
  List.mem_flatMap.mpr ⟨f, hf, List.mem_map_of_mem he⟩

theorem extents_append (t t' : List FileIndex) : extents (t ++ t') = extents t ++ extents t' := by
  simp [extents]

theorem readFile_of_take {table : List FileIndex} {off : Nat} (hl : Layout table off)
    (h : F'.take off = F.take off) {f : FileIndex} (hf : f ∈ table) :
    readFile cr v F' f.chunks = readFile cr v F f.chunks := by
  apply readFile_congr
  intro e he
  have hle := hl.packed.le_hi _ (mem_extents hf he)
  unfold Extent.read
  rw [← slice_take F' _ _ off hle, ← slice_take F _ _ off hle, h]

/-! ## Names -/

theorem hasName_iff {table : List FileIndex} {name : String} :
    hasName table name = true ↔ ∃ f ∈ table, f.vfsName = name := by
  simp [hasName]

theorem hasName_eq_false {table : List FileIndex} {name : String} (h : ¬hasName table name = true) :
    ∀ f ∈ table, f.vfsName ≠ name := by
  intro f hf hname
  exact h (hasName_iff.mpr ⟨f, hf, hname⟩)

theorem find_of_mem {table : List FileIndex} (h : (table.map (·.vfsName)).Nodup) {f : FileIndex}
    (hf : f ∈ table) : table.find? (·.vfsName == f.vfsName) = some f := by
  induction table with
  | nil => cases hf
  | cons g table ih =>
    rw [List.map_cons, List.nodup_cons] at h
    rcases List.mem_cons.mp hf with rfl | hf
    · simp
    · have hne : g.vfsName ≠ f.vfsName := by
        intro heq
        exact h.1 (heq ▸ List.mem_map_of_mem hf)
      rw [List.find?_cons_of_neg (by simpa using hne)]
      exact ih h.2 hf

theorem Layout.nil (off : Nat) : Layout [] off := ⟨Packed.nil _ _, by simp⟩

theorem Layout.mono {table : List FileIndex} {off off' : Nat} (h : Layout table off)
    (hle : off ≤ off') : Layout table off' :=
  ⟨h.packed.mono hle, h.names⟩

theorem Layout.push {table : List FileIndex} {off off' : Nat} {f : FileIndex}
    (h : Layout table off) (hoff : VAULT_HEADER_SIZE ≤ off)
    (hnew : ∀ g ∈ table, g.vfsName ≠ f.vfsName) (hc : Chain off (f.chunks.map (·.extent)) off') :
    Layout (table ++ [f]) off' := by
  refine ⟨?_, ?_⟩
  · rw [extents_append]
    exact h.packed.append hoff hc.le (by simpa [extents] using hc.packed)
  · rw [List.map_append, List.nodup_append]
    refine ⟨h.names, by simp, ?_⟩
    rintro a ha b hb rfl
    obtain ⟨g, hg, rfl⟩ := List.mem_map.mp ha
    exact hnew g hg (by simpa using hb)

theorem Layout.eraseIdx {table : List FileIndex} {off : Nat} (h : Layout table off) (i : Nat) :
    Layout (table.eraseIdx i) off := by
  have hs := List.eraseIdx_sublist table i
  exact ⟨h.packed.sublist (hs.flatMap _), h.names.sublist (hs.map _)⟩

end AtomVault
