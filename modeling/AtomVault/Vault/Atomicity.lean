import AtomVault.Vault.Simulation

/-!
# Commands that stop half way

A command can stop between any two of its writes. The vault is then closed and loaded again.
Which table that gives depends on how many of the writes went through.
-/

open Lib

namespace AtomVault

variable {cr : Crates} {password : String} {H : Bytes}

/-! ## Where a command may stop -/

namespace Op

/-- The tables a command can leave. -/
def After (cr : Crates) (s : Env Session) (m : VaultMetadata) : Op → Prop
  | importBytes data name => ∃ f : FileIndex, f.vfsName = name ∧
      f.chunks.length = chunkCount cr data ∧
      m = ⟨s.vars.metadata.fileTable ++ [f], s.vars.metadata.cdcSalt⟩
  | importFile env fromDisk name => ∃ f : FileIndex, f.vfsName = name ∧
      f.chunks.length = chunkCount cr ((stagedBytes s.host env fromDisk).getD []) ∧
      m = ⟨s.vars.metadata.fileTable ++ [f], s.vars.metadata.cdcSalt⟩
  | rm name => ∃ i f, s.vars.metadata.fileTable[i]? = some f ∧ f.vfsName = name ∧
      m = ⟨s.vars.metadata.fileTable.eraseIdx i, s.vars.metadata.cdcSalt⟩
  | rename oldName newName =>
      m = ⟨renameFirst oldName newName s.vars.metadata.fileTable, s.vars.metadata.cdcSalt⟩
  | vacuum => False

/-- Every table the command can leave is within the reader's limit. -/
def AfterFits (cr : Crates) (s : Env Session) (op : Op) : Prop := ∀ m, op.After cr s m → Fits cr m

/-- The command may stop after `j` writes. An import of `n` chunks has overwritten the only table
from its first chunk on until its last write, a removal of `n` chunks has none between its cut and
the write after that, and a rename none after the first write of a shorter table. -/
def SafeStop (cr : Crates) (s : Env Session) (j : Nat) : Op → Prop
  | importBytes data name => j = 0 ∨ (importBytes data name).AfterFits cr s ∧
      (chunkCount cr data = 0 ∨ chunkCount cr data + 3 ≤ j)
  | importFile env fromDisk name => j = 0 ∨ (importFile env fromDisk name).AfterFits cr s ∧
      (chunkCount cr ((stagedBytes s.host env fromDisk).getD []) = 0 ∨
        chunkCount cr ((stagedBytes s.host env fromDisk).getD []) + 3 ≤ j)
  | rm name => ∀ f ∈ s.vars.metadata.fileTable, f.vfsName = name →
      j ≤ f.chunks.length ∨ (rm name).AfterFits cr s ∧ j ≠ f.chunks.length + 1
  | rename oldName newName => j = 0 ∨ (rename oldName newName).AfterFits cr s ∧
      (j ≠ 1 ∨ oldName.toUTF8.size ≤ newName.toUTF8.size)
  | vacuum => False

/-- What the command takes away. -/
def Removes : Op → String → Prop
  | rm name, name' => name = name'
  | _, _ => False

/-- The name a file has after the command. -/
def Renames : Op → String → String → Prop
  | rename oldName newName, name, name' => name = oldName ∧ name' = newName
  | _, _, _ => False

end Op

/-! ## The file a stopped save leaves -/

section Stages

variable {F blob : Bytes} {off : UInt64}

theorem saved_of_pointer (h8 : 8 ≤ off.toNat) (hoff : off.toNat ≤ F.length)
    (hptr : masterPointer F = off) : saved F off.toNat blob = F.take off.toNat ++ blob := by
  have hlen : (slice F 0 8).length = 8 := length_slice F 0 8 (by omega)
  have hbytes : leBytes 8 off.toNat = slice F 0 8 := by
    have hle := leBytes_ofLe (slice F 0 8)
    have hlt := ofLe_lt (slice F 0 8)
    rw [hlen] at hle hlt
    have htoNat : off.toNat = ofLe (slice F 0 8) := by
      rw [← hptr, masterPointer]
      exact UInt64.toNat_ofNat_of_lt' (by simpa using hlt)
    rw [htoNat, hle]
  have hhead : slice F 0 8 = (F.take off.toNat ++ blob).take 8 := by
    rw [slice_from_zero, List.take_append_of_le_length (by rw [List.length_take]; omega),
      List.take_take, min_eq_left h8]
  unfold saved
  rw [hbytes]
  unfold patch
  rw [hlen, hhead]
  simp

/-- A save over an older table of the same offset is done with its first write, unless the older
table was longer. -/
theorem saveStage_eq_saved {j : Nat} (h8 : 8 ≤ off.toNat) (hoff : off.toNat ≤ F.length)
    (hptr : masterPointer F = off) (hj : j ≠ 0)
    (hlong : j = 1 → F.length ≤ off.toNat + blob.length) :
    saveStage F off.toNat blob j = saved F off.toNat blob := by
  match j with
  | 0 => exact absurd rfl hj
  | 1 =>
    have hdrop : F.drop (off.toNat + blob.length) = [] := List.drop_eq_nil_of_le (hlong rfl)
    rw [saved_of_pointer h8 hoff hptr]
    unfold saveStage patch
    rw [hdrop, Nat.sub_eq_zero_of_le hoff]
    simp
  | 2 =>
    rw [saved_of_pointer h8 hoff hptr]
    rfl
  | n + 3 => rfl

end Stages

/-! ## What a stop leaves -/

/-- The file that `s'` left for a session `s` describes the table `m`. -/
structure Left (cr : Crates) (password : String) (H : Bytes) (s s' : Env Session)
    (m : VaultMetadata) (off : UInt64) : Prop where
  named : s'.host.names s.vars.vaultPath = some (s'.host.ino s.vars.fd)
  fresh : Fresh s'.host
  disk : OnDisk cr password H (s'.host.data s.vars.fd) m s.vars.unlockedVault off
  fits : Fits cr m

/-- A file of the old table under the new one, with the same chunks and the same bytes. -/
def Kin (cr : Crates) (op : Op) (v : UnlockedVault) (F F' : Bytes) (f f' : FileIndex) : Prop :=
  (f'.vfsName = f.vfsName ∨ op.Renames f.vfsName f'.vfsName) ∧
    readFile cr v F' f'.chunks = readFile cr v F f.chunks

/-- The command left the old table or the new one, with every file of the old one that it does not
remove. -/
def Intact (cr : Crates) (password : String) (H : Bytes) (op : Op) (s s' : Env Session) : Prop :=
  ∃ m off, Left cr password H s s' m off ∧ (m = s.vars.metadata ∨ op.After cr s m) ∧
    ∀ f ∈ s.vars.metadata.fileTable, ¬op.Removes f.vfsName → ∃ f' ∈ m.fileTable,
      Kin cr op s.vars.unlockedVault (s.host.data s.vars.fd) (s'.host.data s.vars.fd) f f'

section Stop

variable {s s' s₁ : Env Session} {op : Op}

theorem Intact.of_old (hfits : Fits cr s.vars.metadata)
    (hnamed : s'.host.names s.vars.vaultPath = some (s'.host.ino s.vars.fd))
    (hfresh : Fresh s'.host)
    (hdisk : OnDisk cr password H (s'.host.data s.vars.fd) s.vars.metadata s.vars.unlockedVault
      s.vars.currentPayloadOffset)
    (hread : ∀ f ∈ s.vars.metadata.fileTable, ¬op.Removes f.vfsName →
      readFile cr s.vars.unlockedVault (s'.host.data s.vars.fd) f.chunks =
        readFile cr s.vars.unlockedVault (s.host.data s.vars.fd) f.chunks) :
    Intact cr password H op s s' :=
  ⟨_, _, ⟨hnamed, hfresh, hdisk, hfits⟩, Or.inl rfl,
    fun f hf hrm => ⟨f, hf, Or.inl rfl, hread f hf hrm⟩⟩

theorem Sound.named_of_sameFile (hs : Sound H s) (h : SameFile s.vars.fd s.host s'.host) :
    s'.host.names s.vars.vaultPath = some (s'.host.ino s.vars.fd) ∧ Fresh s'.host := by
  refine ⟨by rw [h.names, h.ino]; exact hs.named, ?_⟩
  intro path i hp
  rw [h.names] at hp
  rw [h.nextIno]
  exact hs.fresh path i hp

theorem Intact.of_same (h : Kept cr password H true s) (hfits : Fits cr s.vars.metadata)
    (hhost : SameFile s.vars.fd s.host s'.host)
    (hdata : s'.host.data s.vars.fd = s.host.data s.vars.fd) : Intact cr password H op s s' := by
  obtain ⟨hnamed, hfresh⟩ := h.sound.named_of_sameFile hhost
  refine Intact.of_old hfits hnamed hfresh ?_ fun f _ _ => by rw [hdata]
  rw [hdata]
  exact h.onDisk

theorem onDisk_saved {blob : Bytes} (hs : Sound H s)
    (hv : unlock cr (s.host.data s.vars.fd) password = some s.vars.unlockedVault)
    (hseals : Seals cr s.vars.unlockedVault s.vars.metadata blob) :
    OnDisk cr password H (saved (s.host.data s.vars.fd) s.vars.currentPayloadOffset.toNat blob)
      s.vars.metadata s.vars.unlockedVault s.vars.currentPayloadOffset := by
  have hsize : VAULT_HEADER_SIZE = 125 := rfl
  have hle := hs.header_le
  have hheader : slice (saved (s.host.data s.vars.fd) s.vars.currentPayloadOffset.toNat blob) 8
      (VAULT_HEADER_SIZE - 8) = slice (s.host.data s.vars.fd) 8 (VAULT_HEADER_SIZE - 8) :=
    slice_saved (by omega) (by omega) hs.fits
  have hlen : (saved (s.host.data s.vars.fd) s.vars.currentPayloadOffset.toNat blob).length =
      s.vars.currentPayloadOffset.toNat + blob.length :=
    length_saved (by omega) hs.fits
  refine ⟨hheader.trans hs.header, ?_, hs.layout, hle, by omega, masterPointer_saved, blob, hseals,
    drop_saved (by omega) hs.fits, hlen⟩
  rw [← hv]
  exact unlock_congr hheader

/-- The command prepared the session `s₁`, and the file is the one a save of `s₁` leaves. -/
theorem Intact.of_saved {blob : Bytes} (h : Kept cr password H true s) (hs₁ : Sound H s₁)
    (hv : s₁.vars.unlockedVault = s.vars.unlockedVault)
    (hhost : SameFile s.vars.fd s.host s'.host)
    (hseals : Seals cr s₁.vars.unlockedVault s₁.vars.metadata blob)
    (hdata : s'.host.data s.vars.fd =
      saved (s₁.host.data s₁.vars.fd) s₁.vars.currentPayloadOffset.toNat blob)
    (hafter : op.After cr s s₁.vars.metadata) (hfits : op.AfterFits cr s)
    (hkin : ∀ f ∈ s.vars.metadata.fileTable, ¬op.Removes f.vfsName →
      ∃ f' ∈ s₁.vars.metadata.fileTable, Kin cr op s.vars.unlockedVault (s.host.data s.vars.fd)
        (s₁.host.data s₁.vars.fd) f f') :
    Intact cr password H op s s' := by
  obtain ⟨hnamed, hfresh⟩ := h.sound.named_of_sameFile hhost
  have hunlock := unlock_of_sound h.sound hs₁ hv h.unlocks
  have hdisk := onDisk_saved hs₁ hunlock hseals
  rw [← hdata, hv] at hdisk
  refine ⟨_, _, ⟨hnamed, hfresh, hdisk, hfits _ hafter⟩, Or.inr hafter, ?_⟩
  intro f hf hrm
  obtain ⟨f', hf', hname, hread⟩ := hkin f hf hrm
  refine ⟨f', hf', hname, ?_⟩
  rw [hdata, readFile_saved hs₁.layout hs₁.fits hf', hread]

theorem Intact.of_stage {j : Nat} {blob : Bytes} (h : Kept cr password H true s) (hs₁ : Sound H s₁)
    (hfd : s₁.vars.fd = s.vars.fd) (hv : s₁.vars.unlockedVault = s.vars.unlockedVault)
    (hhost : SameFile s.vars.fd s.host s'.host)
    (hseals : Seals cr s₁.vars.unlockedVault s₁.vars.metadata blob)
    (hdata : s'.host.data s₁.vars.fd =
      saveStage (s₁.host.data s₁.vars.fd) s₁.vars.currentPayloadOffset.toNat blob j)
    (hstage : j = 3 ∨ j ≠ 0 ∧
      masterPointer (s₁.host.data s₁.vars.fd) = s₁.vars.currentPayloadOffset ∧
      (j = 1 → (s₁.host.data s₁.vars.fd).length ≤
        s₁.vars.currentPayloadOffset.toNat + blob.length))
    (hafter : op.After cr s s₁.vars.metadata) (hfits : op.AfterFits cr s)
    (hkin : ∀ f ∈ s.vars.metadata.fileTable, ¬op.Removes f.vfsName →
      ∃ f' ∈ s₁.vars.metadata.fileTable, Kin cr op s.vars.unlockedVault (s.host.data s.vars.fd)
        (s₁.host.data s₁.vars.fd) f f') :
    Intact cr password H op s s' := by
  have hsize : VAULT_HEADER_SIZE = 125 := rfl
  have hle := hs₁.header_le
  refine Intact.of_saved h hs₁ hv hhost hseals ?_ hafter hfits hkin
  rw [← hfd, hdata]
  rcases hstage with rfl | ⟨hj, hptr, hlong⟩
  · rfl
  · exact saveStage_eq_saved (by omega) hs₁.fits hptr hj hlong

/-! ## Imports -/

section Import

variable {name : String} {data : Bytes} {f : FileIndex}

theorem Prepared.kin (hs : Sound H s) (hprep : Prepared cr name data f s s₁) {g : FileIndex}
    (hg : g ∈ s.vars.metadata.fileTable) : ∃ g' ∈ s₁.vars.metadata.fileTable,
      Kin cr op s.vars.unlockedVault (s.host.data s.vars.fd) (s₁.host.data s₁.vars.fd) g g' := by
  refine ⟨g, ?_, Or.inl rfl, ?_⟩
  · rw [hprep.vars]
    exact List.mem_append_left _ hg
  · rw [hprep.vars]
    exact readFile_of_take hs.layout hprep.appended.keeps hg

theorem Prepared.metadata (hprep : Prepared cr name data f s s₁) : s₁.vars.metadata =
    ⟨s.vars.metadata.fileTable ++ [f], s.vars.metadata.cdcSalt⟩ := by
  rw [hprep.vars]
  rfl

theorem Prepared.of_empty (hprep : Prepared cr name data f s s₁) (hn : chunkCount cr data = 0)
    (htorn : torn s.host.fault = 0) :
    s₁.vars.currentPayloadOffset = s.vars.currentPayloadOffset ∧
      s₁.host.data s₁.vars.fd = s.host.data s.vars.fd := by
  have hchunks : f.chunks = [] := List.length_eq_zero_iff.mp (hprep.count.trans hn)
  have hchain := hprep.appended.chain
  rw [hchunks] at hchain
  have hfd : s₁.vars.fd = s.vars.fd := by rw [hprep.vars]; rfl
  refine ⟨UInt64.toNat_inj.mp hchain.symm, ?_⟩
  rw [hfd]
  exact hprep.untouched htorn hn

theorem Intact.of_prepared (hi : cr.Ideal) {j : Nat} {blob : Bytes} (h : Kept cr password H true s)
    (htorn : torn s.host.fault = 0) (hprep : Prepared cr name data f s s₁)
    (hhost : SameFile s₁.vars.fd s₁.host s'.host)
    (hseals : Seals cr s₁.vars.unlockedVault s₁.vars.metadata blob)
    (hdata : s'.host.data s₁.vars.fd =
      saveStage (s₁.host.data s₁.vars.fd) s₁.vars.currentPayloadOffset.toNat blob j)
    (hj : j ≠ 0) (hsafe : chunkCount cr data = 0 ∨ chunkCount cr data + 3 ≤ chunkCount cr data + j)
    (hj3 : j ≤ 3)
    (hafter : op.After cr s s₁.vars.metadata) (hfits : op.AfterFits cr s) :
    Intact cr password H op s s' := by
  have hs := h.sound
  have hfd : s₁.vars.fd = s.vars.fd := by rw [hprep.vars]; rfl
  have hhost₁ := hprep.host
  rw [hfd] at hhost
  refine Intact.of_stage h (hprep.sound hs) hfd hprep.vault (hhost₁.trans hhost) hseals hdata ?_
    hafter hfits fun g hg _ => hprep.kin hs hg
  rcases hsafe with hn | hn
  · obtain ⟨hoff, hsame⟩ := hprep.of_empty hn htorn
    obtain ⟨old, hold, hdrop, hlen⟩ := (h.stored rfl).blob
    -- The new table has one file more, so its blob covers the old one.
    have hgrows : old.length ≤ blob.length := by
      obtain ⟨b, hb, hblen⟩ := hold.length hi
      obtain ⟨b', hb', hblen'⟩ := hseals.length hi
      rw [hprep.metadata] at hb'
      have := hi.serialize_push hb hb'
      omega
    refine Or.inr ⟨hj, ?_, fun _ => ?_⟩
    · rw [hsame, hoff]
      exact (h.stored rfl).pointer
    · rw [hsame, hoff, hlen]
      omega
  · exact Or.inl (by omega)

theorem SaveStops.cases (hstop : SaveStops cr s₁ s') (htorn : torn s₁.host.fault = 0) :
    s'.host.writes = s₁.host.writes ∧ s'.host.data s₁.vars.fd = s₁.host.data s₁.vars.fd ∨
    ∃ j blob, j ≠ 0 ∧ j ≤ 3 ∧ s'.host.writes = s₁.host.writes + j ∧
      Seals cr s₁.vars.unlockedVault s₁.vars.metadata blob ∧ s'.host.data s₁.vars.fd =
        saveStage (s₁.host.data s₁.vars.fd) s₁.vars.currentPayloadOffset.toNat blob j := by
  obtain ⟨j, hj, hw, ⟨rfl, hsame⟩ | ⟨blob, hseals, hdata⟩⟩ := hstop.stage htorn
  · exact Or.inl ⟨hw, hsame⟩
  · by_cases hj0 : j = 0
    · subst hj0
      exact Or.inl ⟨hw, hdata⟩
    · exact Or.inr ⟨j, blob, hj0, hj, hw, hseals, hdata⟩

theorem Saves.sameFile {blob : Bytes} (h : Saves cr blob s₁ s') :
    SameFile s₁.vars.fd s₁.host s'.host := h.touches.toConfined.sameFile _

section ImportStops

variable (h : Kept cr password H true s) (hold : Fits cr s.vars.metadata)
  (htorn : torn s.host.fault = 0)
  (hsafe : s'.host.writes - s.host.writes = 0 ∨ op.AfterFits cr s ∧ (chunkCount cr data = 0 ∨
    chunkCount cr data + 3 ≤ s'.host.writes - s.host.writes))

include h hold htorn hsafe

theorem Partial.intact (hpart : Partial (chunkCount cr data) s s') :
    Intact cr password H op s s' := by
  have hle := hpart.writes_le
  have hmax := hpart.le_writes
  refine Intact.of_same h hold hpart.host (hpart.untouched htorn ?_)
  rcases hsafe with hj | ⟨-, hn | hn⟩ <;> omega

theorem SaveStops.intact (hi : cr.Ideal) (hprep : Prepared cr name data f s s₁)
    (hstop : SaveStops cr s₁ s') (hafter : op.After cr s s₁.vars.metadata) :
    Intact cr password H op s s' := by
  have hfd : s₁.vars.fd = s.vars.fd := by rw [hprep.vars]; rfl
  have hwrites := hprep.writes
  have hhost := hstop.touches.toConfined.sameFile s₁.vars.fd
  have htorn₁ : torn s₁.host.fault = 0 := by rw [hprep.host.fault.torn_eq, htorn]
  rcases hstop.cases htorn₁ with ⟨hw, hsame⟩ | ⟨j, blob, hj, hj3, hw, hseals, hdata⟩
  · -- The chunks are over the table, or there are none.
    have hn : chunkCount cr data = 0 := by
      rcases hsafe with hj | ⟨-, hn | hn⟩ <;> omega
    obtain ⟨-, hsame₁⟩ := hprep.of_empty hn htorn
    rw [hfd] at hhost hsame hsame₁
    exact Intact.of_same h hold (hprep.host.trans hhost) (hsame.trans hsame₁)
  · rcases hsafe with hj0 | ⟨hfits, hn⟩
    · omega
    · exact Intact.of_prepared hi h htorn hprep hhost hseals hdata hj (by omega) hj3 hafter hfits

omit hold in
theorem Saves.intact (hi : cr.Ideal) {blob : Bytes} (hprep : Prepared cr name data f s s₁)
    (hsave : Saves cr blob s₁ s') (hafter : op.After cr s s₁.vars.metadata) :
    Intact cr password H op s s' := by
  have hwrites := hprep.writes
  have hw := hsave.writes
  rcases hsafe with hj0 | ⟨hfits, -⟩
  · omega
  · exact Intact.of_prepared (j := 3) hi h htorn hprep hsave.sameFile hsave.seals hsave.data (by omega)
      (by omega) (by omega) hafter hfits

end ImportStops

theorem Intact.shreds {path : String} {s₂ : Env Session} (h : Intact cr password H op s s₂)
    (hfd : s₂.vars.fd = s.vars.fd) (hshred : Shreds path s₂ s')
    (hpath : s₂.host.names path ≠ some (s₂.host.ino s₂.vars.fd)) : Intact cr password H op s s' := by
  obtain ⟨m, off, hleft, htable, hkin⟩ := h
  have hino := hshred.ino
  have hdata := hshred.data
  rw [hfd] at hino hdata hpath
  refine ⟨m, off, ⟨?_, ?_, ?_, hleft.fits⟩, htable, ?_⟩
  · rw [hino]
    rcases hshred.names s.vars.vaultPath with hn | ⟨rfl, -⟩
    · rw [hn]; exact hleft.named
    · exact absurd hleft.named hpath
  · intro p i hp
    rw [hshred.nextIno]
    rcases hshred.names p with hn | ⟨-, hn⟩
    · rw [hn] at hp; exact hleft.fresh p i hp
    · rw [hn] at hp; cases hp
  · rw [hdata]; exact hleft.disk
  · rw [hdata]; exact hkin

end Import

/-! ## Removals -/

section Remove

variable {i : Nat} {f : FileIndex} {F F' : Bytes}

theorem OnDisk.of_agreeOff {m : VaultMetadata} {v : UnlockedVault} {off : UInt64}
    (h : OnDisk cr password H F m v off) (hf : f ∈ m.fileTable)
    (hagree : AgreeOff (f.chunks.map (·.extent)) F F') : OnDisk cr password H F' m v off := by
  have hsize : VAULT_HEADER_SIZE = 125 := rfl
  have hheader := header_of_agreeOff h.layout hf hagree
  have hchunk : ∀ x ∈ f.chunks.map (·.extent), VAULT_HEADER_SIZE ≤ x.start ∧
      x.stop ≤ off.toNat := by
    intro x hx
    obtain ⟨e, he, rfl⟩ := List.mem_map.mp hx
    exact ⟨h.layout.packed.lo_le _ (mem_extents hf he), h.layout.packed.le_hi _ (mem_extents hf he)⟩
  have hptr : slice F' 0 8 = slice F 0 8 :=
    hagree.read ⟨0, 8⟩ fun x hx => Or.inl (by have := hchunk x hx; simp only [Extent.stop]; omega)
  have htail : F'.drop off.toNat = F.drop off.toNat := by
    have hread := hagree.read ⟨off.toNat, F.length⟩ fun x hx => Or.inr (hchunk x hx).2
    unfold Extent.read slice at hread
    dsimp only at hread
    rwa [List.take_of_length_le (by rw [List.length_drop, hagree.length]; omega),
      List.take_of_length_le (by rw [List.length_drop]; omega)] at hread
  obtain ⟨blob, hseals, hdrop, hlen⟩ := h.blob
  refine ⟨hheader.trans h.header, ?_, h.layout, h.header_le, ?_, ?_, blob, hseals, ?_, ?_⟩
  · rw [← h.unlocks]
    exact unlock_congr hheader
  · rw [hagree.length]; exact h.fits
  · rw [← h.pointer, masterPointer, masterPointer, hptr]
  · rw [htail, hdrop]
  · rw [hagree.length, hlen]

theorem Removing.intact (h : Kept cr password H true s) (hold : Fits cr s.vars.metadata)
    (hf : s.vars.metadata.fileTable[i]? = some f) (hrem : Removing i f s s') :
    Intact cr password H (.rm f.vfsName) s s' := by
  obtain ⟨hnamed, hfresh⟩ := h.sound.named_of_sameFile hrem.host
  refine Intact.of_old hold hnamed hfresh
    (h.onDisk.of_agreeOff (List.mem_of_getElem? hf) hrem.agree) fun g hg hne => ?_
  exact readFile_of_agreeOff h.sound.layout hf
    (mem_eraseIdx_of_name hf hg fun heq => hne heq.symm) hrem.agree

/-- A removal that stopped after its cut and at least one write of the save. -/
theorem Removed.intact {j : Nat} {blob : Bytes} (h : Kept cr password H true s)
    (hf : s.vars.metadata.fileTable[i]? = some f) (hrem : Removed i f s s₁)
    (hhost : SameFile s₁.vars.fd s₁.host s'.host)
    (hseals : Seals cr s₁.vars.unlockedVault s₁.vars.metadata blob)
    (hdata : s'.host.data s₁.vars.fd =
      saveStage (s₁.host.data s₁.vars.fd) s₁.vars.currentPayloadOffset.toNat blob j)
    (hj : j ≠ 0) (hfits : (Op.rm f.vfsName).AfterFits cr s) :
    Intact cr password H (.rm f.vfsName) s s' := by
  have hs := h.sound
  have hsize : VAULT_HEADER_SIZE = 125 := rfl
  have hle := hs.header_le
  have hfd : s₁.vars.fd = s.vars.fd := by rw [hrem.vars]; rfl
  have hoff : s₁.vars.currentPayloadOffset = s.vars.currentPayloadOffset := by rw [hrem.vars]; rfl
  obtain ⟨F, hagree, hcut⟩ := hrem.data
  have hdisk := h.onDisk.of_agreeOff (List.mem_of_getElem? hf) hagree
  rw [hfd] at hhost
  refine Intact.of_stage h (hrem.sound hs hf) hfd (by rw [hrem.vars]; rfl) (hrem.host.trans hhost)
    hseals hdata (Or.inr ⟨hj, ?_, fun _ => ?_⟩) ⟨i, f, hf, rfl, by rw [hrem.vars]; rfl⟩ hfits ?_
  · have hptr := hdisk.pointer
    unfold masterPointer at hptr ⊢
    rw [hfd, hoff, hcut, slice_take _ _ _ _ (by omega), hptr]
  · rw [hfd, hoff, hcut, List.length_take]
    omega
  · intro g hg hne
    have hmem := mem_eraseIdx_of_name hf hg fun heq => hne heq.symm
    refine ⟨g, ?_, Or.inl rfl, ?_⟩
    · rw [hrem.vars]
      exact hmem
    · rw [hfd]
      exact hrem.readFile hs hf hmem

end Remove

/-! ## Renames -/

section Rename

variable {old new : String}

theorem renamed_kin (v : UnlockedVault) (F : Bytes)
    (hold : hasName s.vars.metadata.fileTable old = true) {g : FileIndex}
    (hg : g ∈ s.vars.metadata.fileTable) :
    ∃ g' ∈ (renamed old new s).vars.metadata.fileTable, Kin cr (.rename old new) v F F g g' := by
  obtain ⟨l₁, f, l₂, hsplit, hf, hren⟩ := renameFirst_split new hold
  show ∃ g' ∈ renameFirst old new s.vars.metadata.fileTable, _
  rw [hren]
  rw [hsplit, List.mem_append, List.mem_cons] at hg
  rcases hg with hg | rfl | hg
  · exact ⟨g, by simp [hg], Or.inl rfl, rfl⟩
  · exact ⟨{ g with vfsName := new }, by simp, Or.inr ⟨hf, rfl⟩, rfl⟩
  · exact ⟨g, by simp [hg], Or.inl rfl, rfl⟩

theorem renamed_intact (hi : cr.Ideal) {j : Nat} {blob : Bytes} (h : Kept cr password H true s)
    (hold : hasName s.vars.metadata.fileTable old = true)
    (hnew : ¬hasName s.vars.metadata.fileTable new = true)
    (hhost : SameFile s.vars.fd s.host s'.host)
    (hseals : Seals cr s.vars.unlockedVault (renamed old new s).vars.metadata blob)
    (hdata : s'.host.data s.vars.fd =
      saveStage (s.host.data s.vars.fd) s.vars.currentPayloadOffset.toNat blob j)
    (hj : j ≠ 0) (hfits : (Op.rename old new).AfterFits cr s)
    (hlong : j ≠ 1 ∨ old.toUTF8.size ≤ new.toUTF8.size) :
    Intact cr password H (.rename old new) s s' := by
  have hs := h.sound
  have hst := h.stored rfl
  refine Intact.of_stage h (hs.renamed hold hnew) rfl rfl hhost hseals
    hdata (Or.inr ⟨hj, hst.pointer, fun hj1 => ?_⟩) rfl hfits
    fun g hg _ => renamed_kin _ _ hold hg
  obtain ⟨oldBlob, holdSeals, -, hlen⟩ := hst.blob
  obtain ⟨b, hb, hblen⟩ := holdSeals.length hi
  obtain ⟨b', hb', hblen'⟩ := hseals.length hi
  obtain ⟨l₁, f, l₂, hsplit, rfl, hren⟩ := renameFirst_split new hold
  have hb : cr.serialize ⟨l₁ ++ f :: l₂, s.vars.metadata.cdcSalt⟩ = .ok b := by
    rw [← hsplit]
    exact hb
  have hb' : cr.serialize ⟨l₁ ++ { f with vfsName := new } :: l₂, s.vars.metadata.cdcSalt⟩ =
      .ok b' := by
    rw [← hren]
    exact hb'
  have hgrows := hi.serialize_rename hb hb' (by omega)
  show (s.host.data s.vars.fd).length ≤ s.vars.currentPayloadOffset.toNat + blob.length
  omega

end Rename

/-! ## One command -/

theorem Kept.stops (hi : cr.Ideal) (h : Kept cr password H true s) (hold : Fits cr s.vars.metadata)
    (htorn : torn s.host.fault = 0) (ha : op.Spares s) :
    wp (op.run cr)
      (fun _ s' => op.SafeStop cr s (s'.host.writes - s.host.writes) → Intact cr password H op s s')
      (fun _ s' => op.SafeStop cr s (s'.host.writes - s.host.writes) → Intact cr password H op s s')
      s := by
  have hs := h.sound
  -- A refusal.
  have hsame : ∀ {op : Op}, Intact cr password H op s s :=
    Intact.of_same h hold ((Confined.refl s.vars.fd s.host).sameFile _) rfl
  cases op with
  | importBytes data name =>
    unfold Op.run
    rw [wp_bind]
    apply wp_handleImportFromBytes hi hs.fits
    · exact fun _ _ => hsame
    · exact fun _ _ s' hpart hsafe => hpart.intact h hold htorn hsafe
    · exact fun f _ s₁ s' hprep _ hstop hsafe => hstop.intact h hold htorn hsafe hi hprep
        ⟨f, hprep.name_eq, hprep.count, hprep.metadata⟩
    · exact fun f _ s₁ s' hprep hsave hsafe => hsave.intact h htorn hsafe hi hprep
        ⟨f, hprep.name_eq, hprep.count, hprep.metadata⟩
  | importFile env fromDisk name =>
    unfold Op.run
    rw [wp_bind]
    apply wp_handleImport hi hs.fd_lt hs.fits ha
    · exact fun _ _ _ => hsame
    · exact fun _ _ => hsame
    · exact fun _ _ s' hpart hsafe => hpart.intact h hold htorn hsafe
    · intro data f _ s₁ s' hdata hprep _ hstop hsafe
      have hafter : (Op.importFile env fromDisk name).After cr s s₁.vars.metadata :=
        ⟨f, hprep.name_eq, by rw [hdata]; exact hprep.count, hprep.metadata⟩
      simp only [Op.SafeStop, hdata, Option.getD_some] at hsafe
      exact hstop.intact h hold htorn hsafe hi hprep hafter
    · intro data f _ path s₁ s₂ s' hdata hprep hsave hshred hpath hsafe
      have hafter : (Op.importFile env fromDisk name).After cr s s₁.vars.metadata :=
        ⟨f, hprep.name_eq, by rw [hdata]; exact hprep.count, hprep.metadata⟩
      have hfd : s₂.vars.fd = s.vars.fd := by
        rw [hsave.touches.vars, hprep.vars]
        rfl
      simp only [Op.SafeStop, hdata, Option.getD_some] at hsafe
      -- The shredder's writes only come on top.
      have hmore := hshred.writes_le
      have hw := hsave.writes
      have hprepw := hprep.writes
      refine Intact.shreds (hsave.intact h htorn ?_ hi hprep hafter) hfd hshred hpath
      rcases hsafe with hj | ⟨hfits, -⟩
      · omega
      · exact Or.inr ⟨hfits, Or.inr (by omega)⟩
  | rm name =>
    unfold Op.run
    rw [wp_bind]
    apply wp_handleRm hi hs
    · exact fun _ _ => hsame
    · rintro - i f _ s' hf rfl hrem -
      exact hrem.intact h hold hf
    · rintro i f _ s₁ s' hf rfl hrem - hstop hsafe
      have hw₁ := hrem.writes
      have htorn₁ : torn s₁.host.fault = 0 := by rw [hrem.host.fault.torn_eq, htorn]
      have hcases := hsafe f (List.mem_of_getElem? hf) rfl
      rcases hstop.cases htorn₁ with ⟨hw, -⟩ | ⟨j, blob, hj, -, hw, hseals, hdata⟩
      · rcases hcases with hj | ⟨-, hj⟩ <;> omega
      · rcases hcases with hj | ⟨hfits, -⟩
        · omega
        · exact hrem.intact h hf (hstop.touches.toConfined.sameFile _) hseals hdata hj hfits
    · rintro i f blob s₁ s' hf rfl hrem hsave hsafe
      have hw₁ := hrem.writes
      have hw := hsave.writes
      rcases hsafe f (List.mem_of_getElem? hf) rfl with hj | ⟨hfits, -⟩
      · omega
      · exact hrem.intact (j := 3) h hf hsave.sameFile hsave.seals hsave.data (by omega) hfits
  | rename oldName newName =>
    unfold Op.run
    apply wp_handleRename hi hs.fits
    · exact fun _ _ _ => hsame
    · exact fun _ _ => hsame
    · intro _ s' _ hhas hnew _ hstop hsafe
      rcases hstop.cases htorn with ⟨-, hdata⟩ | ⟨j, blob, hj, -, hw, hseals, hdata⟩
      · exact Intact.of_same h hold (hstop.touches.toConfined.sameFile _) hdata
      · have hw : s'.host.writes = s.host.writes + j := hw
        rcases hsafe with hj0 | ⟨hfits, hlong⟩
        · omega
        · exact renamed_intact hi h hhas hnew (hstop.touches.toConfined.sameFile _) hseals hdata hj
            hfits (hlong.imp_left (by omega))
    · intro blob s' _ hhas hnew hsave hsafe
      have hw : s'.host.writes = s.host.writes + 3 := hsave.writes
      rcases hsafe with hj0 | ⟨hfits, -⟩
      · omega
      · exact renamed_intact (j := 3) hi h hhas hnew hsave.sameFile hsave.seals hsave.data
          (by omega) hfits (Or.inl (by omega))
  | vacuum => exact (wp_iff _ _ _ _).mpr ⟨fun _ _ _ => False.elim, fun _ _ _ => False.elim⟩

end Stop

/-! ## Whole runs -/

/-- The sessions of a vault whose commands went through, or stopped where they may and were
followed by a close and a load. -/
inductive Survives (cr : Crates) (password : String) (H : Bytes) : Env Session → Prop
  | created {s s₁ s₂ : Env Session} {path : String} {settings : KdfSettings} {i : Nat}
      (fresh : Fresh s.host) (noFault : s.host.fault = none)
      (create : handleCreate cr path password settings s = .ok () s₁)
      (file : s₁.host.names path = some i) (header : headerOf (s₁.host.files i).bytes = H)
      (enter : handleEnter cr path password s₁ = .ok () s₂) : Survives cr password H s₂
  | done {s s' : Env Session} {op : Op} {saved : Bool} (before : Survives cr password H s)
      (spares : op.Spares s) (run : op.run cr s = .ok saved s') (fits : Fits cr s'.vars.metadata) :
      Survives cr password H s'
  | stopped {s s' : Env Session} {op : Op} {g : Fault} (before : Survives cr password H s)
      (spares : op.Spares s) (whole : g.written = 0)
      (safe : op.SafeStop cr s
        ((finalState (op.run cr (s.setFault (some g)))).host.writes - s.host.writes))
      (enter : handleEnter cr s.vars.vaultPath password
        ((finalState (op.run cr (s.setFault (some g)))).setFault none) = .ok () s') :
      Survives cr password H s'

section Runs

variable {s s' : Env Session} {op : Op}

theorem Kept.setFault {b : Bool} (h : Kept cr password H b s) (g : Option Fault) :
    Kept cr password H b (s.setFault g) := by
  have hs := h.sound
  exact ⟨⟨hs.named, hs.fresh, hs.fd_lt, hs.layout, hs.header, hs.header_le, hs.fits⟩, h.unlocks,
    fun hb => ⟨(h.stored hb).pointer, (h.stored hb).blob⟩⟩

theorem wp_finalState {α : Type} {x : Cmd α} {P : Env Session → Prop}
    (h : wp x (fun _ => P) (fun _ => P) s) : P (finalState (x s)) := by
  cases hx : x s with
  | ok a s' =>
    have hP := wp_of_ok h hx
    exact hP
  | error e s' =>
    have hP := wp_of_error h hx
    exact hP

theorem Kept.stopped (hi : cr.Ideal) (h : Kept cr password H true s) (hold : Fits cr s.vars.metadata)
    (ha : op.Spares s) {g : Fault} (hg : g.written = 0)
    (hsafe : op.SafeStop cr s
      ((finalState (op.run cr (s.setFault (some g)))).host.writes - s.host.writes)) :
    Intact cr password H op s (finalState (op.run cr (s.setFault (some g)))) := by
  have hspares : op.Spares (s.setFault (some g)) := by cases op <;> exact ha
  have hspec := (h.setFault (some g)).stops hi hold hg hspares
  have hstop := wp_finalState (P := fun s' =>
    op.SafeStop cr (s.setFault (some g)) (s'.host.writes - s.host.writes) →
      Intact cr password H op (s.setFault (some g)) s') hspec
  obtain ⟨m, off, hleft, htable, hkin⟩ := hstop (by cases op <;> exact hsafe)
  exact ⟨m, off, ⟨hleft.named, hleft.fresh, hleft.disk, hleft.fits⟩,
    by cases op <;> exact htable, hkin⟩

theorem Left.enters (hi : cr.Ideal) {m : VaultMetadata} {off : UInt64}
    (h : Left cr password H s s' m off) :
    ∃ s'', handleEnter cr s.vars.vaultPath password (s'.setFault none) = .ok () s'' := by
  have hopen := h.disk.openBytes hi (Host.data_fits _ _) h.fits
  have hspec : wp (handleEnter cr s.vars.vaultPath password) (fun _ _ => True) (fun _ _ => False)
      (s'.setFault none) := by
    apply wp_handleEnter
    · rintro (hf | hf) _ _
      · exact hf rfl
      · exact Option.some_ne_none _ (hopen.symm.trans (hf _ h.named))
    · exact fun _ _ _ _ _ _ _ _ => trivial
  obtain ⟨⟨⟩, s'', hs'', -⟩ := ok_of_wp hspec
  exact ⟨s'', hs''⟩

theorem Left.entered (hi : cr.Ideal) {m : VaultMetadata} {off : UInt64} {s'' : Env Session}
    (h : Left cr password H s s' m off)
    (henter : handleEnter cr s.vars.vaultPath password (s'.setFault none) = .ok () s'') :
    Kept cr password H true s'' ∧ s''.host.fault = none ∧ s''.vars.metadata = m ∧
      s''.vars.unlockedVault = s.vars.unlockedVault ∧
      s''.host.data s''.vars.fd = s'.host.data s.vars.fd := by
  obtain ⟨hkept, he, -⟩ := Kept.of_enter hi (s := s'.setFault none) h.fresh h.named h.disk henter
  exact ⟨hkept, he.fault.eq_none rfl, by rw [he.vars], by rw [he.vars], he.data⟩

theorem Survives.kept (hi : cr.Ideal) (h : Survives cr password H s) :
    Kept cr password H true s ∧ Fits cr s.vars.metadata ∧ s.host.fault = none := by
  induction h with
  | created fresh noFault create file header enter =>
    obtain ⟨H', hr⟩ := refines_of_created hi fresh noFault create enter
    obtain ⟨hkept, -, hfits⟩ := Kept.of_create hi fresh create file enter
    rw [← header]
    exact ⟨hkept, hfits, hr.noFault⟩
  | @done s s' op saved _ spares run fits ih =>
    obtain ⟨hkept, -, hf⟩ := ih
    obtain ⟨hkept', hgoes⟩ := wp_of_ok (hkept.run hi spares) run
    rw [Bool.or_true] at hkept'
    exact ⟨hkept', fits, hgoes.eq_none hf⟩
  | stopped _ spares whole safe enter ih =>
    obtain ⟨hkept, hfits, -⟩ := ih
    obtain ⟨m, off, hleft, -, -⟩ := hkept.stopped hi hfits spares whole safe
    obtain ⟨hkept', hf, hm, -, -⟩ := hleft.entered hi enter
    exact ⟨hkept', by rw [hm]; exact hleft.fits, hf⟩

/-- **Stopped anywhere it may.** A command on a reachable vault that stops where it may leaves a
vault that loads, with the old table or the new one, and every file but a removed one reads what
it read before. -/
theorem stop_loads (hi : cr.Ideal) (h : Survives cr password H s) (ha : op.Spares s) {g : Fault}
    (hg : g.written = 0) (hsafe : op.SafeStop cr s
      ((finalState (op.run cr (s.setFault (some g)))).host.writes - s.host.writes)) :
    ∃ s', handleEnter cr s.vars.vaultPath password
        ((finalState (op.run cr (s.setFault (some g)))).setFault none) = .ok () s' ∧
      (s'.vars.metadata = s.vars.metadata ∨ op.After cr s s'.vars.metadata) ∧
      ∀ f ∈ s.vars.metadata.fileTable, ¬op.Removes f.vfsName →
        ∃ f' ∈ s'.vars.metadata.fileTable,
          (f'.vfsName = f.vfsName ∨ op.Renames f.vfsName f'.vfsName) ∧
          ∀ b, (∃ s₁, decryptToBytes cr f.vfsName s = .ok b s₁) →
            ∃ s₂, decryptToBytes cr f'.vfsName s' = .ok b s₂ := by
  obtain ⟨hkept, hfits, hf⟩ := h.kept hi
  obtain ⟨m, off, hleft, htable, hkin⟩ := hkept.stopped hi hfits ha hg hsafe
  obtain ⟨s', henter⟩ := hleft.enters hi
  obtain ⟨hkept', hf', hm, hv, hdata⟩ := hleft.entered hi henter
  refine ⟨s', henter, by rw [hm]; exact htable, ?_⟩
  intro x hx hne
  obtain ⟨x', hx', hname, hread⟩ := hkin x hx hne
  rw [← hm] at hx'
  refine ⟨x', hx', hname, ?_⟩
  intro b hb
  rw [decryptToBytes_eq_ok_iff hkept.sound hf hx] at hb
  rw [decryptToBytes_eq_ok_iff hkept'.sound hf' hx', hv, hdata, hread]
  exact hb

/-! ## A removal that stops after its cut -/

theorem Removed.openBytes_eq_none {i : Nat} {f : FileIndex} (h : Kept cr password H true s)
    (hf : s.vars.metadata.fileTable[i]? = some f) (hrem : Removed i f s s') :
    openBytes cr (s'.host.data s.vars.fd) password = none := by
  have hsize : VAULT_HEADER_SIZE = 125 := rfl
  have hle := h.sound.header_le
  obtain ⟨F, hagree, hcut⟩ := hrem.data
  have hdisk := h.onDisk.of_agreeOff (List.mem_of_getElem? hf) hagree
  have hlen : (s'.host.data s.vars.fd).length = s.vars.currentPayloadOffset.toNat := by
    rw [hcut, List.length_take, min_eq_left hdisk.fits]
  have hptr : masterPointer (s'.host.data s.vars.fd) = s.vars.currentPayloadOffset := by
    have hptr := hdisk.pointer
    unfold masterPointer at hptr ⊢
    rw [hcut, slice_take _ _ _ _ (by omega), hptr]
  have hheader := header_of_take hle (show (s'.host.data s.vars.fd).take _ = F.take _ by
    rw [hcut, List.take_take, min_self])
  have hempty : slice (s'.host.data s.vars.fd) s.vars.currentPayloadOffset.toNat METADATA_LIMIT =
      [] := by
    rw [slice, List.drop_eq_nil_of_le (le_of_eq hlen), List.take_nil]
  rw [openBytes_of_unlock (by rw [hlen]; exact hle) ((unlock_congr hheader).trans hdisk.unlocks)
    (by rw [hptr, ← hlen]; exact Host.data_fits _ _), hptr, hempty]
  rfl

/-- A removal that made all its zeros and its cut, and no write of the save. -/
theorem Kept.rm_cut (hi : cr.Ideal) {name : String} (h : Kept cr password H true s)
    (htorn : torn s.host.fault = 0) (hhas : hasName s.vars.metadata.fileTable name = true) :
    wp ((Op.rm name).run cr)
      (fun _ s' => (∀ f ∈ s.vars.metadata.fileTable, f.vfsName = name →
        s'.host.writes = s.host.writes + f.chunks.length + 1) →
        SameFile s.vars.fd s.host s'.host ∧ openBytes cr (s'.host.data s.vars.fd) password = none)
      (fun _ s' => (∀ f ∈ s.vars.metadata.fileTable, f.vfsName = name →
        s'.host.writes = s.host.writes + f.chunks.length + 1) →
        SameFile s.vars.fd s.host s'.host ∧ openBytes cr (s'.host.data s.vars.fd) password = none)
      s := by
  unfold Op.run
  rw [wp_bind]
  apply wp_handleRm hi h.sound
  · exact fun hnone => absurd hhas hnone
  · intro _ i f _ s' hf hname hrem hcut
    have hw := hcut f (List.mem_of_getElem? hf) hname
    have hle := hrem.le_writes
    omega
  · intro i f _ s₁ s' hf hname hrem _ hstop hcut
    have hw := hcut f (List.mem_of_getElem? hf) hname
    have hw₁ := hrem.writes
    have hfd : s₁.vars.fd = s.vars.fd := by rw [hrem.vars]; rfl
    have htorn₁ : torn s₁.host.fault = 0 := by rw [hrem.host.fault.torn_eq, htorn]
    rcases hstop.cases htorn₁ with ⟨-, hdata⟩ | ⟨j, _, hj, -, hw', -, -⟩
    · rw [hfd] at hdata
      refine ⟨hrem.host.trans (hstop.touches.toConfined.sameFile _), ?_⟩
      rw [hdata]
      exact hrem.openBytes_eq_none h hf
    · omega
  · intro i f _ s₁ s' hf hname hrem hsave hcut
    have hw := hcut f (List.mem_of_getElem? hf) hname
    have hw₁ := hrem.writes
    have hw' := hsave.writes
    omega

/-- A vault with one empty file. -/
def withEmptyFile : Cmd Unit := do
  createOwn
  handleEnter standin ownPath "pw"
  handleImportFromBytes standin [] "e"

/-- The removal stopped right after its cut. -/
def rmStopped (s : Env Session) : Env Session :=
  finalState ((Op.rm "e").run standin (s.setFault (some ⟨3, 0, "stopped"⟩)))

def emptyCheck (s : Env Session) : Bool :=
  decide ((Bincode.vaultMetadata.enc s.vars.metadata).length + CHUNK_OVERHEAD ≤ METADATA_LIMIT) &&
    hasName s.vars.metadata.fileTable "e" && s.vars.metadata.fileTable.all (·.chunks.isEmpty) &&
    (rmStopped s).host.writes == s.host.writes + 1

set_option maxRecDepth 100000 in
theorem withEmptyFile_eval : (match withEmptyFile start with
    | .ok _ s => emptyCheck s
    | .error _ _ => false) = true := by decide +kernel

theorem withEmptyFile_survives : ∃ H s, Survives standin "pw" H s ∧
    hasName s.vars.metadata.fileTable "e" = true ∧
    (∀ f ∈ s.vars.metadata.fileTable, f.chunks = []) ∧
    (rmStopped s).host.writes = s.host.writes + 1 := by
  have heval := withEmptyFile_eval
  split at heval
  case h_2 => cases heval
  rename_i s₃ hrun
  obtain ⟨⟨⟩, s₁, hcreate, hrun⟩ := bind_eq_ok hrun
  obtain ⟨⟨⟩, s₂, henter, himport⟩ := bind_eq_ok hrun
  have hfile : s₁.host.names ownPath = some start.host.nextIno := by
    rw [(created_of_ok standin_ideal hcreate).names, Function.update_self]
  have hs₂ : Survives standin "pw" _ s₂ := .created fresh_start rfl hcreate hfile rfl henter
  have hop : (Op.importBytes [] "e").run standin s₂ = .ok true s₃ := by
    show EStateM.bind (handleImportFromBytes standin [] "e") (fun _ => pure true) s₂ = _
    rw [EStateM.bind, himport]
    rfl
  simp only [emptyCheck, Bool.and_eq_true, decide_eq_true_eq, beq_iff_eq, List.all_eq_true,
    List.isEmpty_iff] at heval
  obtain ⟨⟨⟨hfits, hhas⟩, hempty⟩, hcut⟩ := heval
  have hspares : (Op.importBytes [] "e").Spares s₂ := trivial
  exact ⟨_, s₃, hs₂.done hspares hop ⟨_, rfl, hfits⟩, hhas, hempty, hcut⟩

/-- The removal of `a` from a vault with two files, stopped after the first write of its save. -/
def rmPast (s : Env Session) : Env Session :=
  finalState ((Op.rm "a").run standin (s.setFault (some ⟨7, 0, "stopped"⟩)))

set_option maxRecDepth 100000 in
theorem rmPast_eval : checkPair (fun _ _ s => (rmPast s).host.writes == s.host.writes + 3 &&
    decide (Fits standin ⟨s.vars.metadata.fileTable.eraseIdx 0, s.vars.metadata.cdcSalt⟩)) = true := by
  decide +kernel

theorem stop_loads_pair : ∃ H s s', Survives standin "pw" H s ∧
    (rmPast s).host.writes = s.host.writes + 3 ∧
    handleEnter standin s.vars.vaultPath "pw" ((rmPast s).setFault none) = .ok () s' ∧
    ∃ f' ∈ s'.vars.metadata.fileTable, f'.vfsName = "b" ∧
      ∃ s₁, decryptToBytes standin "b" s' = .ok [4] s₁ := by
  obtain ⟨s₁, s₂, s₃, s, hpair, hfacts⟩ := Pair.of_check pair_eval
  obtain ⟨_, _, _, _, hpair', hpast⟩ := Pair.of_check rmPast_eval
  rw [← hpair.unique hpair', Bool.and_eq_true, beq_iff_eq, decide_eq_true_eq] at hpast
  simp only [pairFacts, Bool.and_eq_true, decide_eq_true_eq, beq_iff_eq] at hfacts
  obtain ⟨⟨⟨⟨⟨⟨hfirst, hsecond⟩, hfits₃⟩, hfits⟩, htable⟩, -⟩, -⟩ := hfacts
  obtain ⟨hwrites, hafter⟩ := hpast
  have hfile : s₁.host.names ownPath = some start.host.nextIno := by
    rw [(created_of_ok standin_ideal hpair.create).names]
    exact Function.update_self ..
  have hcreated : Survives standin "pw" _ s₂ :=
    .created fresh_start rfl hpair.create hfile rfl hpair.enter
  have hone := hcreated.done (by trivial) hpair.first hfits₃
  have hs := hone.done (by trivial) hpair.second hfits
  obtain ⟨a, l, htab, ha, hl⟩ := List.map_eq_cons_iff.mp htable
  obtain ⟨b, l', rfl, hb, hl'⟩ := List.map_eq_cons_iff.mp hl
  obtain rfl := List.map_eq_nil_iff.mp hl'
  rw [nameAndSizes, Prod.mk.injEq] at ha hb
  have hcount : a.chunks.length = 1 := by simpa using congrArg List.length ha.2
  -- The stop comes after the window in which no table is on the disk.
  have hsafe : (Op.rm "a").SafeStop standin s ((rmPast s).host.writes - s.host.writes) := by
    intro f hf hname
    refine Or.inr ⟨?_, ?_⟩
    · rintro m ⟨i, g, hi, hg, rfl⟩
      rw [htab] at hi
      obtain rfl : i = 0 := by
        match i, hi with
        | 0, _ => rfl
        | 1, hi =>
          obtain rfl : b = g := by simpa using hi
          rw [hb.1] at hg
          exact absurd hg (by decide)
      exact hafter
    · rw [htab] at hf
      simp only [List.mem_cons, List.not_mem_nil, or_false] at hf
      rcases hf with rfl | rfl
      · omega
      · rw [hb.1] at hname
        exact absurd hname (by decide)
  obtain ⟨s', henter, -, hkin⟩ := stop_loads standin_ideal hs (by trivial)
    (g := ⟨7, 0, "stopped"⟩) rfl hsafe
  obtain ⟨f', hf', hname, hread⟩ := hkin b (by rw [htab]; simp) (by
    rw [hb.1]
    exact fun (h : "a" = "b") => absurd h (by decide))
  have hname' : f'.vfsName = "b" := hname.elim (fun h => h.trans hb.1) False.elim
  obtain ⟨H, hr⟩ := (hpair.runs hfirst hsecond hfits₃ hfits).refines standin_ideal
  have hmem : b ∈ s.vars.metadata.fileTable := by rw [htab]; simp
  obtain ⟨content, hcontent, hM⟩ := hr.shows.live b hmem
  rw [hb.1] at hM
  obtain rfl : [4] = content := Option.some.inj hM
  obtain ⟨s₄, hs₄⟩ := hread [4]
    ((decryptToBytes_eq_ok_iff hr.kept.sound hr.noFault hmem).mpr hcontent)
  exact ⟨_, s, s', hs, hwrites, henter, f', hf', hname', s₄, hname' ▸ hs₄⟩

/-- Cut and not yet saved, a vault does not load. -/
theorem rm_stopped_after_cut : ¬∀ (H : Bytes) (s : Env Session) (op : Op) (g : Fault),
    Survives standin "pw" H s → op.Spares s → g.written = 0 →
    ∃ s', handleEnter standin s.vars.vaultPath "pw"
      ((finalState (op.run standin (s.setFault (some g)))).setFault none) = .ok () s' := by
  intro hall
  obtain ⟨H, s, hs, hhas, hempty, hcut⟩ := withEmptyFile_survives
  have hspares : (Op.rm "e").Spares s := trivial
  obtain ⟨s', henter⟩ := hall H s (.rm "e") ⟨3, 0, "stopped"⟩ hs hspares rfl
  obtain ⟨hkept, -, -⟩ := hs.kept standin_ideal
  have hspec := (hkept.setFault (some ⟨3, 0, "stopped"⟩)).rm_cut standin_ideal rfl hhas
  obtain ⟨hsame, hnone⟩ := wp_finalState (P := fun s' => _ → _ ∧ _) hspec fun f hf _ => by
    rw [hempty f hf]
    exact hcut
  obtain ⟨hnamed, -⟩ := (hkept.setFault _).sound.named_of_sameFile hsame
  have hopened : wp (handleEnter standin s.vars.vaultPath "pw") (fun _ _ => False)
      (fun _ _ => True) ((rmStopped s).setFault none) := by
    apply wp_handleEnter
    · exact fun _ _ _ => trivial
    · intro i m v off _ hi hopen _
      obtain rfl := Option.some.inj (hnamed.symm.trans hi)
      exact Option.some_ne_none _ (hopen.symm.trans hnone)
  have hnever := wp_of_ok hopened henter
  exact hnever

end Runs

end AtomVault
