import AtomVault.Vault.Sessions

/-!
# What is in a compacted vault

Nothing but the header, the live chunks in the order of the table, and the table. Whatever the
session has been through, that is what a vacuum makes of its file.
-/

open Lib

namespace AtomVault

variable {cr : Crates}

/-! ## Where the chunks lie does not matter -/

theorem placed_relocate : ∀ {es : List ChunkEntry} {off off' : UInt64},
    placed off' (relocate off es) = placed off' es := by
  intro es
  induction es with
  | nil => exact rfl
  | cons e es ih => exact ih

theorem relocate_relocate : ∀ {es : List ChunkEntry} {off off' : UInt64},
    relocate off' (relocate off es) = relocate off' es := by
  intro es
  induction es with
  | nil => exact rfl
  | cons e es ih =>
    intro off off'
    rw [relocate, relocate, relocate, ih]

theorem placedFiles_relocateFiles : ∀ {table : List FileIndex} {off off' : UInt64},
    placedFiles off' (relocateFiles off table) = placedFiles off' table := by
  intro table
  induction table with
  | nil => exact rfl
  | cons f table ih =>
    intro off off'
    rw [relocateFiles, placedFiles, placedFiles, placed_relocate, ih]

theorem relocateFiles_relocateFiles : ∀ {table : List FileIndex} {off off' : UInt64},
    relocateFiles off' (relocateFiles off table) = relocateFiles off' table := by
  intro table
  induction table with
  | nil => exact rfl
  | cons f table ih =>
    intro off off'
    rw [relocateFiles, relocateFiles, relocateFiles, relocate_relocate, placed_relocate, ih]

/-- A chunk without its place. -/
def ChunkEntry.unplaced (e : ChunkEntry) : ChunkEntry := { e with offset := 0 }

/-- A file without the places of its chunks: its name, its time, and of each chunk the id and the
two lengths. -/
def FileIndex.unplaced (f : FileIndex) : FileIndex := { f with chunks := f.chunks.map (·.unplaced) }

theorem unplaced_relocate : ∀ {es : List ChunkEntry} {off : UInt64},
    (relocate off es).map (·.unplaced) = es.map (·.unplaced) := by
  intro es
  induction es with
  | nil => exact rfl
  | cons e es ih =>
    intro off
    rw [relocate, List.map_cons, List.map_cons, ih]
    rfl

theorem unplaced_relocateFiles : ∀ {table : List FileIndex} {off : UInt64},
    (relocateFiles off table).map (·.unplaced) = table.map (·.unplaced) := by
  intro table
  induction table with
  | nil => exact rfl
  | cons f table ih =>
    intro off
    rw [relocateFiles, List.map_cons, List.map_cons, ih]
    simp only [FileIndex.unplaced, unplaced_relocate]

theorem tableBytes_eq (F : Bytes) (table : List FileIndex) :
    tableBytes F table = (extents table).flatMap (·.read F) := by
  simp only [tableBytes, extents, chunkBytes, List.flatMap_assoc, List.flatMap_map]

/-! ## The compacted file -/

def cipherLens (table : List FileIndex) : List Nat :=
  (table.flatMap (·.chunks)).map (·.cipherLen.toNat)

theorem cipherLens_relocateFiles {table : List FileIndex} {off : UInt64} :
    cipherLens (relocateFiles off table) = cipherLens table := by
  have hlens : ∀ t : List FileIndex,
      cipherLens t = ((t.map (·.unplaced)).flatMap (·.chunks)).map (·.cipherLen.toNat) := by
    intro t
    simp only [cipherLens, FileIndex.unplaced, ChunkEntry.unplaced, List.flatMap_map,
      List.map_flatMap, List.map_map, Function.comp_def]
  rw [hlens, unplaced_relocateFiles, ← hlens]

theorem len_extents (table : List FileIndex) : (extents table).map (·.len) = cipherLens table := by
  simp only [extents, cipherLens, List.map_flatMap, List.map_map, Function.comp_def,
    ChunkEntry.extent]

/-- `F'` holds the header of `F`, the chunks of `table` as they are in `F`, and the sealed table `m`
that says where they are now. -/
structure Compact (cr : Crates) (v : UnlockedVault) (F : Bytes) (table : List FileIndex)
    (m : VaultMetadata) (n : UInt64) (F' : Bytes) : Prop where
  header : slice F' 8 (VAULT_HEADER_SIZE - 8) = slice F 8 (VAULT_HEADER_SIZE - 8)
  payload : slice F' VAULT_HEADER_SIZE (n.toNat - VAULT_HEADER_SIZE) = tableBytes F table
  contiguous : Chain VAULT_HEADER_SIZE (extents m.fileTable) n.toNat
  total : n.toNat = VAULT_HEADER_SIZE + (cipherLens table).sum
  pointer : masterPointer F' = n
  blob : ∃ blob, Seals cr v m blob ∧ F'.drop n.toNat = blob ∧
    F'.length = n.toNat + blob.length
  entries : m.fileTable.map (·.unplaced) = table.map (·.unplaced)

theorem Rewritten.compact {s s' : Env Session} {n : UInt64} (h : Rewritten cr s n s') :
    Compact cr s.vars.unlockedVault (s.host.data s.vars.fd) s.vars.metadata.fileTable
      s'.vars.metadata n (s'.host.files s.host.nextIno).bytes := by
  have hsize : VAULT_HEADER_SIZE = 125 := rfl
  obtain ⟨G, blob, hG, hoff, hseals, hfile⟩ := h.file
  set F := s.host.data s.vars.fd with hF
  set table := s.vars.metadata.fileTable with htable
  have hheadLen : (List.replicate 8 0 ++ slice F 8 (VAULT_HEADER_SIZE - 8) : Bytes).length =
      VAULT_HEADER_SIZE := by
    rw [List.length_append, length_slice _ _ _ (by exact h.header)]
    rfl
  have hGlen : G.length = VAULT_HEADER_SIZE + (tableBytes F table).length := by
    rw [hG, List.length_append, hheadLen]
  have htail : G.drop VAULT_HEADER_SIZE = tableBytes F table := by
    rw [hG]
    exact List.drop_left' hheadLen
  have hend : n.toNat ≤ G.length := le_of_eq hoff
  have hfit := (s'.host.files s.host.nextIno).fits
  rw [hfile, length_saved (by omega) hend, hoff] at hfit
  have hnew : s'.vars.metadata.fileTable = relocateFiles (UInt64.ofNat VAULT_HEADER_SIZE) table := by
    rw [h.vars]
    rfl
  have hcopied : CopiedAll cr s.vars.unlockedVault F
      (List.replicate 8 0 ++ slice F 8 (VAULT_HEADER_SIZE - 8)) table s'.vars.metadata.fileTable G := by
    rw [hnew, hG]
    refine CopiedAll.of_relocate ?_ h.chunks ?_
    · rw [hheadLen]
      rfl
    · rw [← hG]
      omega
  have hchain := hcopied.chain
  rw [hheadLen, ← hoff] at hchain
  have htotal := hchain.eq_add
  rw [len_extents, hnew, cipherLens_relocateFiles] at htotal
  rw [hfile]
  refine ⟨?_, ?_, hchain, htotal, masterPointer_saved, ⟨blob, hseals, drop_saved (by omega) hend,
    length_saved (by omega) hend⟩, ?_⟩
  · rw [slice_saved (by omega) (by omega) hend, hG, List.append_assoc]
    exact slice_field (List.replicate 8 0) _ _ rfl (length_slice _ _ _ (by exact h.header))
  · rw [slice_saved (by omega) (by omega) hend, slice, htail, List.take_of_length_le]
    omega
  · rw [hnew]
    exact unplaced_relocateFiles

theorem rewritten_of_ok (hi : cr.Ideal) {s s' : Env Session} {n : UInt64} (h : Held s)
    (hrun : handleVacuum cr s = .ok n s') : Rewritten cr s n s' := by
  have hspec : wp (handleVacuum cr) (fun n s' => Rewritten cr s n s') (fun _ _ => True) s := by
    apply wp_rewrite hi h.fd_lt h.ino_lt
    · exact fun _ _ _ _ => trivial
    · exact fun _ _ hr _ _ => hr
  have hrewritten := wp_of_ok hspec hrun
  exact hrewritten

theorem shellVacuum_eq_ok (hi : cr.Ideal) {s s₁ : Env Session} (h : Held s)
    (hrun : shellVacuum cr s = .ok () s₁) : ∃ n s', handleVacuum cr s = .ok n s' ∧
      s₁.vars.metadata = s'.vars.metadata ∧ s₁.vars.currentPayloadOffset = n ∧
      s₁.host.data s₁.vars.fd = (s'.host.files s.host.nextIno).bytes := by
  obtain ⟨n, s', hvacuum, hrest⟩ := bind_eq_ok hrun
  have hr := rewritten_of_ok hi h hvacuum
  have hpath : s'.vars.vaultPath = s.vars.vaultPath := by rw [hr.vars]; rfl
  have hspec : wp (do
        let st ← session
        let file ← Call.openFile .io st.vaultPath
        update fun st => { st with fd := file, currentPayloadOffset := n } : Cmd Unit)
      (fun _ s₁ => s₁.vars.metadata = s'.vars.metadata ∧ s₁.vars.currentPayloadOffset = n ∧
        s₁.host.data s₁.vars.fd = (s'.host.files s.host.nextIno).bytes) (fun _ _ => True) s' := by
    rw [wp_bind, wp_session, wp_bind]
    apply wp_openFile
    · exact fun _ _ _ _ => trivial
    intro i s2 hi2 o2
    rw [hpath, hr.names, Function.update_self] at hi2
    obtain rfl := Option.some.inj hi2
    rw [wp_update]
    refine ⟨?_, rfl, o2.data⟩
    show s2.vars.metadata = _
    rw [o2.vars]
  have hopened := wp_of_ok hspec hrest
  exact ⟨n, s', hvacuum, hopened⟩

/-- **Vacuum.** In every session, whatever happened in it, a vacuum that returns leaves a file under
the vault's name that holds the old header, the old bytes of the live chunks in the order of the
table and without a gap, and the table. A second one leaves the same table and the same chunks. -/
theorem vacuum_compacts (hi : cr.Ideal) {s s' : Env Session} {n : UInt64} (h : Used cr s)
    (hrun : handleVacuum cr s = .ok n s') :
    ∃ F', s'.host.contents s.vars.vaultPath = some F' ∧
      Compact cr s.vars.unlockedVault (s.host.data s.vars.fd) s.vars.metadata.fileTable
        s'.vars.metadata n F' ∧
      ∀ {s₁ s₂ : Env Session} {n₂ : UInt64}, shellVacuum cr s = .ok () s₁ →
        handleVacuum cr s₁ = .ok n₂ s₂ → n₂ = n ∧ s₂.vars.metadata = s'.vars.metadata ∧
          ∃ F'', s₂.host.contents s₁.vars.vaultPath = some F'' ∧
            slice F'' VAULT_HEADER_SIZE (n.toNat - VAULT_HEADER_SIZE) =
              slice F' VAULT_HEADER_SIZE (n.toNat - VAULT_HEADER_SIZE) := by
  have hr := rewritten_of_ok hi h.held hrun
  have hc := hr.compact
  refine ⟨_, ?_, hc, ?_⟩
  · apply Host.contents_of_names
    rw [hr.names]
    exact Function.update_self ..
  intro s₁ s₂ n₂ hshell hrun₂
  obtain ⟨n', s'', hvacuum, hmeta, -, hdata⟩ := shellVacuum_eq_ok hi h.held hshell
  obtain ⟨rfl, rfl⟩ : n = n' ∧ s' = s'' := by
    rw [hrun] at hvacuum
    cases hvacuum
    exact ⟨rfl, rfl⟩
  have hheld₁ := wp_of_ok h.held.shellVacuum hshell
  have hr₂ := rewritten_of_ok hi hheld₁ hrun₂
  have htable : s₁.vars.metadata.fileTable =
      relocateFiles (UInt64.ofNat VAULT_HEADER_SIZE) s.vars.metadata.fileTable := by
    rw [hmeta, hr.vars]
    rfl
  have hn : n₂ = n := by
    rw [hr₂.offset, hr.offset, htable, placedFiles_relocateFiles]
  refine ⟨hn, ?_, (s₂.host.files s₁.host.nextIno).bytes, ?_, ?_⟩
  · rw [← hmeta, hr₂.vars, htable, relocateFiles_relocateFiles, ← htable]
    rfl
  · apply Host.contents_of_names
    rw [hr₂.names]
    exact Function.update_self ..
  · have hpayload := hr₂.compact.payload
    rw [hn, hdata, tableBytes_eq, hmeta, hc.contiguous.flatMap_read] at hpayload
    exact hpayload

/-! ## A vault with a dead zone -/

def deadZoneTable : VaultMetadata :=
  ⟨[⟨"b", [⟨3, 130, METADATA_FILE_ID, 3⟩], 0⟩], List.Vector.replicate 32 0⟩

/-- Five bytes that no chunk covers, a chunk of three behind them, and the sealed table. -/
def deadZoneFile : Bytes :=
  let salt := List.replicate FILE_SALT_LEN 1
  let nonce := List.replicate XNONCE_LEN 2
  let info := CHUNK_KEY_INFO ++ METADATA_FILE_ID.toList
  let key := Standin.pad32 (salt ++ info ++ sampleVault.dek)
  let table := Bincode.vaultMetadata.enc deadZoneTable
  leBytes 8 133 ++ sampleHeader.drop 8 ++ [9, 9, 9, 9, 9, 1, 2, 3] ++ CHUNK_MAGIC_V1 ++ salt ++
    nonce ++ (Standin.tag key nonce (chunkAad METADATA_FILE_ID) table ++ table)

theorem length_deadZoneFile : deadZoneFile.length ≤ maxLen := by decide +kernel

def deadZone : Env Session :=
  ⟨(Host.blank.create "v").2.setFile 0 ⟨deadZoneFile, length_deadZoneFile⟩, start.vars⟩

theorem fresh_deadZone : Fresh deadZone.host := by
  have hblank : ∀ path i, Host.blank.names path = some i → i < 0 := nofun
  exact bounded_update hblank "v"

set_option maxRecDepth 100000 in
theorem vacuum_eval : (match (do
      handleEnter standin "v" "pw"
      handleVacuum standin : Cmd UInt64) deadZone with
    | .ok n _ => n == 128
    | .error _ _ => false) = true := by decide +kernel

theorem vacuum_compacts_dead_zone : ∃ s s' n F', Used standin s ∧
    handleVacuum standin s = .ok n s' ∧ s'.host.contents s.vars.vaultPath = some F' ∧
    Compact standin s.vars.unlockedVault (s.host.data s.vars.fd) s.vars.metadata.fileTable
      s'.vars.metadata n F' ∧ n = 128 := by
  have heval := vacuum_eval
  split at heval
  case h_2 => cases heval
  rename_i n s' hrun
  obtain ⟨⟨⟩, s, henter, hvacuum⟩ := bind_eq_ok hrun
  have hused : Used standin s := .entered fresh_deadZone henter
  obtain ⟨F', hnamed, hcompact, -⟩ := vacuum_compacts standin_ideal hused hvacuum
  exact ⟨s, s', n, F', hused, hvacuum, hnamed, hcompact, eq_of_beq heval⟩

end AtomVault
