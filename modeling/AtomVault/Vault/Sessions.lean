import AtomVault.Lib.Keeps
import AtomVault.Vault.Lives

/-!
# Every session

Whatever commands ran in a session and whatever became of them, its descriptor is open on some
file. No more is known of a session that has failed at every turn, and some results need no more.
-/

open Lib

namespace AtomVault

variable {cr : Crates}

/-! ## The commands keep the descriptor -/

abbrev KeepsFd {α : Type} (x : Cmd α) : Prop := Keeps (Grows Session.fd) x

theorem keepsFd_session : KeepsFd session := fun s => refl_of (Grows Session.fd) s

theorem keepsFd_update {f : Session → Session} (hf : ∀ st, (f st).fd = st.fd) :
    KeepsFd (update f) :=
  fun s => ⟨le_refl _, le_refl _, fun _ _ => rfl, id, hf s.vars⟩

theorem keepsFd_encryptChunk {v : UnlockedVault} {plaintext : Bytes} {fileId : FileId} :
    KeepsFd (encryptChunk cr v plaintext fileId) := by
  unfold encryptChunk
  refine .bind keeps_draw fun _ => .bind keeps_draw fun _ => ?_
  exact .pure _

theorem keepsFd_saveVaultMetadata {fd : Nat} {m : VaultMetadata} {v : UnlockedVault} {off : UInt64} :
    KeepsFd (saveVaultMetadata cr fd m v off) := by
  unfold saveVaultMetadata
  refine .bind (.ofExcept _ _) fun _ => .bind keepsFd_encryptChunk fun _ => ?_
  refine .bind (.ofExcept _ _) fun _ => .bind keeps_seek fun _ => .bind keeps_writeAll fun _ => ?_
  refine .bind keeps_position fun _ => .bind keeps_setLen fun _ => .bind keeps_sync fun _ => ?_
  exact .bind keeps_seek fun _ => .bind keeps_writeAll fun _ => keeps_sync

theorem keepsFd_saveSession : KeepsFd (saveSession cr) := by
  unfold saveSession
  refine .bind keepsFd_session fun _ => .bind keepsFd_saveVaultMetadata fun _ => ?_
  exact keeps_sync

theorem keepsFd_importChunks {fetch : ChunkData → Cmd Bytes} (hfetch : ∀ c, KeepsFd (fetch c)) :
    ∀ {cs : List ChunkData} {new : List ChunkEntry}, KeepsFd (importChunks cr fetch cs new) := by
  intro cs
  induction cs with
  | nil => exact .pure _
  | cons c cs ih =>
    intro new
    unfold importChunks importChunk
    refine .bind ?_ fun _ => ih
    refine .bind (hfetch c) fun _ => .bind keeps_draw fun _ => .bind keeps_probe fun _ => ?_
    refine .bind keeps_draw fun _ => .bind keepsFd_session fun _ => ?_
    refine .bind keepsFd_encryptChunk fun _ => .bind (.ofExcept _ _) fun _ => ?_
    refine .bind keeps_writeAll fun _ => .bind (keepsFd_update fun _ => rfl) fun _ => ?_
    exact .pure _

theorem keepsFd_importPayload {fetch : ChunkData → Cmd Bytes} (hfetch : ∀ c, KeepsFd (fetch c))
    {data : Bytes} {name : String} : KeepsFd (importPayload cr fetch data name) := by
  unfold importPayload
  refine .bind (.ofExcept _ _) fun _ => .bind keepsFd_session fun _ => .bind keeps_seek fun _ => ?_
  refine .bind (keepsFd_importChunks hfetch) fun _ => .bind keeps_now fun _ => ?_
  exact .bind keepsFd_session fun _ => keepsFd_update fun _ => rfl

theorem keepsFd_importBytes (data : Bytes) (name : String) :
    KeepsFd (handleImportFromBytes cr data name) := by
  unfold handleImportFromBytes importBytesPrepare
  refine .bind (.bind keepsFd_session fun _ => ?_) fun _ => keepsFd_saveSession
  split
  · exact .bind (.throw _) fun _ => keepsFd_importPayload fun _ => .pure _
  · exact keepsFd_importPayload fun _ => .pure _

theorem keepsFd_importPrepare (env : PathEnv) (fromDisk name : String) :
    KeepsFd (importPrepare cr env fromDisk name) := by
  unfold importPrepare
  refine .bind (.ofExcept _ _) fun path => .bind keepsFd_session fun st => ?_
  have hrest : ∀ fd data, KeepsFd (importPayload cr (fun c => do
      Call.seek .io fd c.offset
      Call.readExact .io fd c.length) data name) :=
    fun fd data => keepsFd_importPayload fun _ => .bind keeps_seek fun _ => keeps_readExact
  split
  · refine .bind (.throw _) fun _ => .bind keeps_openFile fun _ => .bind keeps_readToEnd fun _ => ?_
    exact .bind (hrest _ _) fun _ => .pure _
  · refine .bind keeps_openFile fun _ => .bind keeps_readToEnd fun _ => ?_
    exact .bind (hrest _ _) fun _ => .pure _

theorem keepsFd_ignoreErr {x : Cmd Unit} (hx : KeepsFd x) : KeepsFd (ignoreErr x) :=
  hx.tryCatch fun _ => .pure _

theorem keepsFd_shredLoop (file : Nat) : ∀ {fuel left : Nat}, KeepsFd (shredLoop file fuel left) := by
  intro fuel
  induction fuel with
  | zero => exact .pure _
  | succ fuel ih =>
    intro left
    unfold shredLoop
    split
    · exact .pure _
    · exact .tryCatch (.bind keeps_writeAll fun _ => ih) fun _ => .pure _

theorem keepsFd_shred (path : String) (file : Nat) : KeepsFd (shred path file) := by
  unfold shred
  refine .bind (keepsFd_ignoreErr ?_) fun _ => keepsFd_ignoreErr keeps_remove
  refine .bind keeps_fileLen fun _ => .bind (keepsFd_ignoreErr keeps_seek) fun _ => ?_
  exact .bind (keepsFd_shredLoop file) fun _ => keepsFd_ignoreErr keeps_sync

theorem keepsFd_handleImport (env : PathEnv) (fromDisk name : String) :
    KeepsFd (handleImport cr env fromDisk name) := by
  unfold handleImport
  refine .bind (keepsFd_importPrepare env fromDisk name) fun _ => ?_
  exact .bind keepsFd_saveSession fun _ => keepsFd_shred _ _

theorem keepsFd_zeroChunks : ∀ {es : List ChunkEntry}, KeepsFd (zeroChunks es) := by
  intro es
  induction es with
  | nil => exact .pure _
  | cons e es ih =>
    unfold zeroChunks
    exact .bind keepsFd_session fun _ => .bind keeps_seek fun _ => .bind keeps_writeAll fun _ => ih

theorem keepsFd_handleRm (name : String) : KeepsFd (handleRm cr name) := by
  unfold handleRm rmPrepare
  refine .bind (.bind keepsFd_session fun _ => ?_) fun _ => keepsFd_saveSession
  split
  · exact .throw _
  · refine .bind keepsFd_zeroChunks fun _ => .bind keeps_probe fun _ => ?_
    exact .bind (keepsFd_update fun _ => rfl) fun _ => .bind keeps_seek fun _ => keeps_setLen

theorem keepsFd_handleRename (old new : String) : KeepsFd (handleRename cr old new) := by
  have hrename : ∀ st : Session, KeepsFd (if hasName st.metadata.fileTable old = true then do
      update (·.setTable (renameFirst old new st.metadata.fileTable))
      return true
    else return false) := by
    intro st
    split
    · exact .bind (keepsFd_update fun _ => rfl) fun _ => .pure _
    · exact .pure _
  have hprepare : KeepsFd (renamePrepare old new) := by
    have hrest : KeepsFd (do
        let st ← session
        if hasName st.metadata.fileTable new then
          throw (.text "Rename Error: A file with that name already exists.")
        if hasName st.metadata.fileTable old then
          update (·.setTable (renameFirst old new st.metadata.fileTable))
          return true
        else return false) := by
      refine .bind keepsFd_session fun st => ?_
      dsimp only
      by_cases hnew : hasName st.metadata.fileTable new = true
      · rw [if_pos hnew]
        exact .bind (.throw _) fun _ => hrename st
      · rw [if_neg hnew]
        exact hrename st
    unfold renamePrepare
    split
    · exact .bind (.throw _) fun _ => hrest
    · exact hrest
  unfold handleRename
  refine .bind hprepare fun found => ?_
  split
  · refine .bind keepsFd_session fun _ => .bind keepsFd_saveVaultMetadata fun _ => ?_
    exact .pure _
  · exact .pure _

theorem keepsFd_moveChunks {fd tmpFile : Nat} {put : List ChunkEntry → Cmd Unit}
    (hput : ∀ es, KeepsFd (put es)) : ∀ {es moved : List ChunkEntry} {off : UInt64},
    KeepsFd (moveChunks fd tmpFile put moved es off) := by
  intro es
  induction es with
  | nil => exact .pure _
  | cons e es ih =>
    intro moved off
    unfold moveChunks
    refine .bind keeps_seek fun _ => .bind keeps_readExact fun _ => .bind keeps_seek fun _ => ?_
    exact .bind keeps_writeAll fun _ => .bind (hput _) fun _ => ih

theorem keepsFd_moveFiles {fd tmpFile : Nat} : ∀ {table moved : List FileIndex} {off : UInt64},
    KeepsFd (moveFiles fd tmpFile moved table off) := by
  intro table
  induction table with
  | nil => exact .pure _
  | cons f table ih =>
    intro moved off
    unfold moveFiles
    refine .bind (keepsFd_moveChunks fun _ => ?_) fun _ => ih
    exact keepsFd_update fun _ => rfl

theorem keepsFd_handleVacuum : KeepsFd (handleVacuum cr) := by
  unfold handleVacuum copyHeader
  refine .bind keepsFd_session fun _ => .bind keeps_createNew fun _ => .bind ?_ fun _ => ?_
  · refine .bind keeps_writeAll fun _ => .bind keeps_seek fun _ => ?_
    exact .bind keeps_readExact fun _ => keeps_writeAll
  refine .bind keepsFd_moveFiles fun _ => .bind keepsFd_session fun _ => ?_
  refine .bind keepsFd_saveVaultMetadata fun _ => .bind keeps_sync fun _ => ?_
  exact .bind keeps_rename fun _ => .pure _

/-! ## Whatever happened -/

/-- The session's descriptor is open on a file, and no name goes to a file yet to come. -/
structure Held (s : Env Session) : Prop where
  fresh : Fresh s.host
  fd_lt : s.vars.fd < s.host.nextFd
  ino_lt : s.host.ino s.vars.fd < s.host.nextIno

variable {password : String} {H : Bytes}

theorem Sound.held {s : Env Session} (hs : Sound H s) : Held s :=
  ⟨hs.fresh, hs.fd_lt, hs.fresh _ _ hs.named⟩

theorem Held.of_grows {s s' : Env Session} (h : Held s) (a : Grows Session.fd s s') : Held s' := by
  have hfd : s'.vars.fd = s.vars.fd := a.vars
  refine ⟨a.fresh h.fresh, ?_, ?_⟩
  · rw [hfd]
    exact h.fd_lt.trans_le a.fds
  · rw [hfd, a.ino _ h.fd_lt]
    exact h.ino_lt.trans_le a.inos

theorem Entered.held {s s' : Env Session} {path : String} {i : Nat} {m : VaultMetadata}
    {v : UnlockedVault} {off : UInt64} (h : Entered path i m v off s s') (hfresh : Fresh s.host)
    (hi : s.host.names path = some i) : Held s' := by
  refine ⟨?_, ?_, ?_⟩
  · unfold Fresh
    rw [h.names, h.nextIno]
    exact hfresh
  · rw [h.vars, h.nextFd]
    exact Nat.lt_succ_self _
  · rw [h.vars, h.ino, h.nextIno]
    exact hfresh path i hi

theorem Held.shellVacuum {s : Env Session} (h : Held s) :
    wp (shellVacuum cr) (fun _ s' => Held s') (fun _ s' => Held s') s := by
  unfold AtomVault.shellVacuum
  rw [wp_bind]
  refine wp_mono (keepsFd_handleVacuum s) (fun off s1 a => ?_) fun _ _ a => h.of_grows a
  have h1 := h.of_grows a
  rw [wp_bind, wp_session, wp_bind]
  apply wp_openFile
  · exact fun _ _ _ a => h1.of_grows (.of_still a)
  intro i s2 hi o2
  rw [wp_update]
  refine ⟨?_, ?_, ?_⟩
  · unfold Fresh
    rw [o2.names, o2.nextIno]
    exact h1.fresh
  · show s1.host.nextFd < s2.host.nextFd
    rw [o2.nextFd]
    exact Nat.lt_succ_self _
  · show s2.host.ino s1.host.nextFd < s2.host.nextIno
    rw [o2.ino, o2.nextIno]
    exact h1.fresh _ i hi

theorem Held.run {s : Env Session} (h : Held s) (op : Op) :
    wp (op.run cr) (fun _ s' => Held s') (fun _ s' => Held s') s := by
  have hkeeps : ∀ {x : Cmd Bool}, KeepsFd x → wp x (fun _ s' => Held s') (fun _ s' => Held s') s :=
    fun hx => wp_mono (hx s) (fun _ _ a => h.of_grows a) fun _ _ a => h.of_grows a
  cases op with
  | importBytes data name =>
    exact hkeeps (.bind (keepsFd_importBytes data name) fun _ => .pure _)
  | importFile env fromDisk name =>
    exact hkeeps (.bind (keepsFd_handleImport env fromDisk name) fun _ => .pure _)
  | rm name => exact hkeeps (.bind (keepsFd_handleRm name) fun _ => .pure _)
  | rename old new => exact hkeeps (keepsFd_handleRename old new)
  | vacuum =>
    unfold Op.run
    rw [wp_bind]
    exact h.shellVacuum

/-- The sessions on any file that could be entered, after any commands with any outcome. Between
them the rest of the system does what it likes, also with the vault. -/
inductive Used (cr : Crates) : Env Session → Prop
  | entered {s s' : Env Session} {path password : String} (fresh : Fresh s.host)
      (enter : handleEnter cr path password s = .ok () s') : Used cr s'
  | done {s s' : Env Session} {op : Op} {saved : Bool} (used : Used cr s)
      (run : op.run cr s = .ok saved s') : Used cr s'
  | failed {s s' : Env Session} {op : Op} {e : VaultError} (used : Used cr s)
      (run : op.run cr s = .error e s') : Used cr s'
  | outside {s s' : Env Session} (used : Used cr s) (vars : s'.vars = s.vars)
      (fresh : Fresh s'.host) (fd_lt : s.vars.fd < s'.host.nextFd)
      (ino_lt : s'.host.ino s.vars.fd < s'.host.nextIno) : Used cr s'

theorem Used.held {s : Env Session} (h : Used cr s) : Held s := by
  induction h with
  | @entered s s' path password fresh enter =>
    have hspec : wp (handleEnter cr path password) (fun _ s' => Held s') (fun _ _ => True) s := by
      apply wp_handleEnter
      · exact fun _ _ _ => trivial
      · exact fun i m v off s' hi _ h => h.held fresh hi
    have hheld := wp_of_ok hspec enter
    exact hheld
  | @done _ _ op _ _ run ih =>
    have hheld := wp_of_ok (ih.run op) run
    exact hheld
  | @failed _ _ op _ _ run ih =>
    have hheld := wp_of_error (ih.run op) run
    exact hheld
  | outside _ vars fresh fd_lt ino_lt _ =>
    rw [← vars] at fd_lt ino_lt
    exact ⟨fresh, fd_lt, ino_lt⟩

theorem Lives.used (hi : cr.Ideal) {password : String} {H : Bytes} {s : Env Session}
    (h : Lives cr password H s) : Used cr s := by
  induction h with
  | created fresh create _ _ enter => exact .entered ((created_of_ok hi create).fresh fresh) enter
  | loaded _ _ fresh _ _ enter => exact .entered fresh enter
  | @outside s s' lives vars name ino _ fresh fd_lt ih =>
    have hs := (lives.alive hi).kept.sound
    refine .outside ih vars fresh fd_lt (fresh s.vars.vaultPath _ ?_)
    rw [name, hs.named, ino]
  | done _ _ run ih => exact .done ih run
  | failed _ _ run ih => exact .failed ih run

/-! ## Sessions whose file is the vault

What a failing save leaves past the payload offset and in the pointer does not concern the chunks.
-/

/-- Bytes past the payload offset and the pointer may differ, and more of them be there. -/
structure PastHeader (off : Nat) (F F' : Bytes) : Prop where
  header : headerOf F' = headerOf F
  fits : off ≤ F'.length

theorem PastHeader.patch {off pos : Nat} {F b : Bytes} (hend : off ≤ F.length)
    (hoff : VAULT_HEADER_SIZE ≤ off) (hpos : off ≤ pos ∨ pos + b.length ≤ 8) :
    PastHeader off F (Lib.patch F pos b) := by
  have hsize : VAULT_HEADER_SIZE = 125 := rfl
  refine ⟨?_, by rw [length_patch]; omega⟩
  exact slice_patch_of_disjoint F pos b 8 (VAULT_HEADER_SIZE - 8) (by omega)

theorem PastHeader.resize {off n : Nat} {F : Bytes} (hend : off ≤ F.length)
    (hoff : VAULT_HEADER_SIZE ≤ off) (hn : off ≤ n) : PastHeader off F (Lib.resize F n) := by
  refine ⟨header_of_take hoff ?_, by rw [length_resize]; exact hn⟩
  rw [Lib.resize, List.take_append_of_le_length (by rw [List.length_take]; omega), List.take_take,
    min_eq_left hn]

/-- The file of `fd` changed so, and nothing else. -/
structure Past (fd off : Nat) (s s' : Env Session) : Prop where
  touches : Touches fd s s'
  bytes : PastHeader off (s.host.data fd) (s'.host.data fd)

section Past

variable {fd off : Nat} {s s₁ s' : Env Session}

theorem Past.refl (hend : off ≤ (s.host.data fd).length) : Past fd off s s :=
  ⟨(Still.refl s).touches fd, rfl, hend⟩

theorem Past.touch (h : Past fd off s s₁) (a : Touches fd s₁ s')
    (hb : PastHeader off (s₁.host.data fd) (s'.host.data fd)) : Past fd off s s' :=
  ⟨h.touches.trans a, hb.header.trans h.bytes.header, hb.fits⟩

theorem Past.same (h : Past fd off s s₁) (a : Touches fd s₁ s')
    (hd : s'.host.data fd = s₁.host.data fd) : Past fd off s s' :=
  h.touch a ⟨by rw [hd], by rw [hd]; exact h.bytes.fits⟩

theorem Past.still (h : Past fd off s s₁) (a : Still s₁ s') : Past fd off s s' :=
  h.same (a.touches fd) (a.data fd)

theorem Past.moves (h : Past fd off s s₁) (a : Moves fd s₁ s') : Past fd off s s' :=
  h.same a.toTouches (a.data fd)

end Past

theorem wp_save_past {s : Env Session} {fd : Nat} {m : VaultMetadata} {v : UnlockedVault}
    {off : UInt64} (hoff : VAULT_HEADER_SIZE ≤ off.toNat)
    (hend : off.toNat ≤ (s.host.data fd).length) :
    wp (saveVaultMetadata cr fd m v off) (fun _ s' => Past fd off.toNat s s')
      (fun _ s' => Past fd off.toNat s s') s := by
  have h0 : Past fd off.toNat s s := Past.refl hend
  unfold saveVaultMetadata
  rw [wp_bind]
  apply wp_ofExcept
  case herr => exact fun _ _ => h0
  intro b _
  rw [wp_bind]
  apply wp_encryptChunk
  intro salt nonce s1 _ _ a1
  have h1 := h0.still a1
  rw [wp_bind]
  apply wp_ofExcept
  case herr => exact fun _ _ => h1
  intro blob _
  rw [wp_bind]
  apply wp_seek
  · exact fun _ _ _ a => h1.still a
  intro s2 _ m2 p2
  have h2 := h1.moves m2
  rw [wp_bind]
  apply wp_writeAll (by rw [p2]; exact h2.bytes.fits)
  · rintro - t s' a ⟨k, -, hd, -⟩ -
    refine h2.touch a ?_
    rw [hd, p2]
    exact .patch h2.bytes.fits hoff (Or.inl (le_refl _))
  intro s3 _ a3 d3 p3 _ _
  have h3 : Past fd off.toNat s s3 := by
    refine h2.touch a3 ?_
    rw [d3, p2]
    exact .patch h2.bytes.fits hoff (Or.inl (le_refl _))
  rw [wp_bind]
  apply wp_position
  · exact fun _ _ _ a => h3.still a
  intro s4 a4
  have h4 := h3.still a4
  rw [wp_bind]
  apply wp_setLen
  · exact fun _ _ _ a => h4.still a
  intro s5 _ a5 d5 _ _ _
  have h5 : Past fd off.toNat s s5 := by
    refine h4.touch a5 ?_
    rw [d5]
    exact .resize h4.bytes.fits hoff (by rw [p3, p2]; omega)
  rw [wp_bind]
  apply wp_sync
  · exact fun _ _ _ a => h5.still a
  intro s6 a6 d6 _ _ _
  have h6 := h5.same a6 d6
  rw [wp_bind]
  apply wp_seek
  · exact fun _ _ _ a => h6.still a
  intro s7 _ m7 p7
  have h7 := h6.moves m7
  rw [wp_bind]
  apply wp_writeAll (by rw [p7]; omega)
  · rintro - t s' a ⟨k, -, hd, -⟩ -
    refine h7.touch a ?_
    rw [hd, p7]
    refine .patch h7.bytes.fits hoff (Or.inr ?_)
    rw [List.length_take, length_leBytes]
    omega
  intro s8 _ a8 d8 _ _ _
  have h8 : Past fd off.toNat s s8 := by
    refine h7.touch a8 ?_
    rw [d8, p7]
    exact .patch h7.bytes.fits hoff (Or.inr (by rw [length_leBytes]))
  apply wp_sync
  · exact fun _ _ _ a => h8.still a
  · exact fun s9 a9 d9 _ _ _ => h8.same a9 d9

theorem Sound.past {s s' : Env Session} (hs : Sound H s)
    (h : Past s.vars.fd s.vars.currentPayloadOffset.toNat s s') : Sound H s' := by
  have hvars := h.touches.vars
  refine hs.of_sameFile (h.touches.toConfined.sameFile _) (by rw [hvars]) (by rw [hvars]) ?_ ?_ ?_
    h.bytes.header
  · rw [hvars]; exact hs.layout
  · rw [hvars]; exact hs.header_le
  · rw [hvars]; exact h.bytes.fits

theorem wp_saveSession_sound {s : Env Session} (hs : Sound H s) :
    wp (saveSession cr) (fun _ s' => Sound H s' ∧ s'.vars = s.vars)
      (fun _ s' => Sound H s' ∧ s'.vars = s.vars) s := by
  have hpast : ∀ {s' : Env Session}, Past s.vars.fd s.vars.currentPayloadOffset.toNat s s' →
      Sound H s' ∧ s'.vars = s.vars := fun h => ⟨hs.past h, h.touches.vars⟩
  unfold saveSession
  rw [wp_bind, wp_session, wp_bind]
  refine wp_mono (wp_save_past hs.header_le hs.fits) (fun _ s1 h1 => ?_) fun _ _ h => hpast h
  apply wp_sync
  · exact fun _ _ _ a => hpast (h1.still a)
  · exact fun s2 a2 d2 _ _ _ => hpast (h1.same a2 d2)

/-- An import spares the container, and a vacuum fails before it has begun. -/
def Op.Mild (op : Op) (s : Env Session) : Prop := op.Spares s ∧ (op = .vacuum → op.Early s)

/-- A command that fails leaves the file a vault, unless it is a vacuum that had begun. -/
theorem Sound.failed (hi : cr.Ideal) {op : Op} {s : Env Session} (hs : Sound H s)
    (hmild : op.Mild s) :
    wp (op.run cr) (fun _ _ => True)
      (fun _ s' => Sound H s' ∧ s'.vars.unlockedVault = s.vars.unlockedVault) s := by
  have hsave : ∀ {s₁ : Env Session}, Sound H s₁ →
      s₁.vars.unlockedVault = s.vars.unlockedVault →
      wp (saveSession cr) (fun _ _ => True)
        (fun _ s' => Sound H s' ∧ s'.vars.unlockedVault = s.vars.unlockedVault) s₁ := by
    intro s₁ hs₁ hv
    refine wp_mono (wp_saveSession_sound hs₁) (fun _ _ _ => trivial) fun _ s' h => ⟨h.1, ?_⟩
    rw [h.2, hv]
  cases op with
  | importBytes data name =>
    unfold Op.run handleImportFromBytes
    rw [wp_bind, wp_bind]
    apply wp_importBytesPrepare hi hs.fits
    · exact fun _ => ⟨hs, rfl⟩
    · exact fun _ t s' hpart => ⟨hpart.sound hs, by rw [hpart.vars]⟩
    · intro hnew f s1 a1 _ w1 hentry hgrown happ
      have hprep := Prepared.of_partial a1 hnew hentry w1 hgrown happ
      exact hsave (hprep.sound hs) hprep.vault
  | importFile env fromDisk name =>
    unfold Op.run handleImport
    rw [wp_bind, wp_bind]
    apply wp_importPrepare hi hs.fd_lt hs.fits hmild.1
    · exact fun _ _ => ⟨hs, rfl⟩
    · exact fun _ => ⟨hs, rfl⟩
    · exact fun _ t s' hpart => ⟨hpart.sound hs, by rw [hpart.vars]⟩
    · intro path data f s1 hnew _ _ _ a1 w1 hentry hgrown happ
      have hprep := Prepared.of_partial a1 hnew hentry w1 hgrown happ
      dsimp only
      rw [wp_bind]
      refine wp_mono (hsave (hprep.sound hs) hprep.vault) (fun _ _ _ => ?_) fun _ _ h => h
      exact wp_shred_true
  | rm name =>
    unfold Op.run handleRm
    rw [wp_bind, wp_bind]
    apply wp_rmPrepare hs
    · exact fun _ => ⟨hs, rfl⟩
    · intro _ i f t s' hf _ hrem
      refine ⟨hrem.sound hs hf, ?_⟩
      rcases hrem.vars with hv | hv <;> rw [hv]
      rfl
    · intro i f s1 hf _ hrem
      exact hsave (hrem.sound hs hf) (by rw [hrem.vars]; rfl)
  | rename old new =>
    unfold Op.run handleRename
    rw [wp_bind]
    apply wp_renamePrepare
    · exact fun _ _ => ⟨hs, rfl⟩
    · exact fun _ => trivial
    · intro _ hold hnew
      have hren := hs.renamed hold hnew
      simp only [if_true]
      rw [wp_bind, wp_session, wp_bind]
      refine wp_mono (wp_save_past hren.header_le hren.fits) (fun _ _ _ => trivial) fun _ s' h => ?_
      exact ⟨hren.past h, by rw [h.touches.vars]; rfl⟩
  | vacuum =>
    unfold Op.run
    rw [wp_bind]
    apply wp_shellVacuum hi hs
    · rintro e s' - (⟨hstill, -⟩ | ⟨⟨hlasts, hfree⟩, -⟩)
      · exact ⟨hs.of_still hstill, by rw [hstill.vars]⟩
      · rcases hmild.2 rfl with hrefused | hstops
        · exact absurd hfree hrefused
        · exact absurd hlasts hstops
    · exact fun _ _ => trivial

/-- The sessions of a vault created with the header `H`. `Done` is asked of every command that goes
through and `Failed` of every one that fails. -/
inductive Sessions (cr : Crates) (password : String) (H : Bytes) (Done Failed : Op → Env Session → Prop) :
    Env Session → Prop
  | created {s s₁ s₂ : Env Session} {path : String} {settings : KdfSettings} {i : Nat}
      (fresh : Fresh s.host) (create : handleCreate cr path password settings s = .ok () s₁)
      (file : s₁.host.names path = some i) (header : headerOf (s₁.host.files i).bytes = H)
      (enter : handleEnter cr path password s₁ = .ok () s₂) : Sessions cr password H Done Failed s₂
  | loaded {s₀ s s' : Env Session} {path : String} {i : Nat}
      (session : Sessions cr password H Done Failed s₀)
      (stored : Stored cr s₀) (fresh : Fresh s.host) (file : s.host.names path = some i)
      (copy : (s.host.files i).bytes = s₀.host.data s₀.vars.fd)
      (enter : handleEnter cr path password s = .ok () s') : Sessions cr password H Done Failed s'
  | outside {s s' : Env Session} (session : Sessions cr password H Done Failed s)
      (vars : s'.vars = s.vars)
      (name : s'.host.names s.vars.vaultPath = s.host.names s.vars.vaultPath)
      (ino : s'.host.ino s.vars.fd = s.host.ino s.vars.fd)
      (data : s'.host.data s.vars.fd = s.host.data s.vars.fd) (fresh : Fresh s'.host)
      (fd_lt : s.vars.fd < s'.host.nextFd) : Sessions cr password H Done Failed s'
  | done {s s' : Env Session} {saved : Bool} {op : Op}
      (session : Sessions cr password H Done Failed s) (meets : Done op s)
      (run : op.run cr s = .ok saved s') : Sessions cr password H Done Failed s'
  | failed {s s' : Env Session} {op : Op} {e : VaultError}
      (session : Sessions cr password H Done Failed s) (meets : Failed op s)
      (run : op.run cr s = .error e s') : Sessions cr password H Done Failed s'

/-- The sessions whose file is the vault: no import took the container itself, and no vacuum has
failed on its way. Any other command may have failed anywhere. -/
abbrev Steady (cr : Crates) (password : String) (H : Bytes) : Env Session → Prop :=
  Sessions cr password H Op.Spares Op.Mild

theorem Steady.kept (hi : cr.Ideal) {s : Env Session} (h : Steady cr password H s) :
    Kept cr password H false s := by
  induction h with
  | created fresh create file header enter =>
    obtain ⟨hkept, -, -⟩ := Kept.of_create hi fresh create file enter
    rw [header] at hkept
    exact hkept.saved_false
  | @loaded s₀ _ _ _ _ _ stored fresh file copy enter ih =>
    have hkept : Kept cr password H true s₀ := ⟨ih.sound, ih.unlocks, fun _ => stored⟩
    have hdisk := hkept.onDisk
    rw [← copy] at hdisk
    exact (Kept.of_enter hi fresh file hdisk enter).1.saved_false
  | outside _ vars name ino data fresh fd_lt ih => exact ih.outside vars name ino data fresh fd_lt
  | done _ spares run ih =>
    obtain ⟨hkept, -⟩ := wp_of_ok (ih.run hi spares) run
    exact hkept.saved_false
  | failed _ mild run ih =>
    obtain ⟨hs, hv⟩ := wp_of_error (ih.sound.failed hi mild) run
    exact ih.step hs hv (by simp)

end AtomVault
