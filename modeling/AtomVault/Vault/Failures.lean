import AtomVault.Vault.Refinement

/-!
# What a failed command leaves

The handlers change the session while they go. Whether a failed one leaves it as it was
depends on how far it came: before its first change every error is harmless, and after it
none is.
-/

open Lib

namespace AtomVault

variable {cr : Crates} {H : Bytes}

/-! ## When a command stops early -/

/-- An import stops no later than the write of its first chunk, after `opening` calls for all of the
file and `chunk` for the chunk. One without chunks has no write before its save. -/
def StopsAtFirst (opening chunk : Nat) (data : Bytes) (s : Env Session) : Prop :=
  if data = [] then ¬Lasts opening s.host.fault else
    ¬Lasts (opening + chunk) s.host.fault ∨
      maxLen < s.vars.currentPayloadOffset.toNat + SEALED_CHUNK

/-- A removal of `f` stops before it has written anything. -/
def RmStops (f : FileIndex) (s : Env Session) : Prop :=
  ¬Lasts 1 s.host.fault ∨ f.chunks ≠ [] ∧ ¬Lasts 2 s.host.fault ∧ torn s.host.fault = 0

namespace Op

/-- The command does not pass its own checks. -/
def Refused (s : Env Session) : Op → Prop
  | importBytes _ name => hasName s.vars.metadata.fileTable name = true
  | importFile env fromDisk name =>
    hasName s.vars.metadata.fileTable name = true ∨ stagedBytes s.host env fromDisk = none
  | rm name => ¬hasName s.vars.metadata.fileTable name = true
  | rename _ newName =>
    isValidVfsFilename newName = false ∨ hasName s.vars.metadata.fileTable newName = true
  | vacuum => s.host.names (tmpPath s.vars) ≠ none

/-- The host's error comes before the command's first change. -/
def StopsEarly (s : Env Session) : Op → Prop
  | importBytes data _ => StopsAtFirst 1 2 data s
  | importFile env fromDisk _ =>
    ∃ data, stagedBytes s.host env fromDisk = some data ∧ StopsAtFirst 3 4 data s
  | rm name => ∃ f ∈ s.vars.metadata.fileTable, f.vfsName = name ∧ RmStops f s
  | rename _ _ => False
  | vacuum => ¬Lasts 1 s.host.fault

def Early (s : Env Session) (op : Op) : Prop := op.Refused s ∨ op.StopsEarly s

end Op

/-! ## The session as it was -/

/-- The file has the content `b`, once no fault is in the way. -/
def Decrypts (cr : Crates) (s : Env Session) (name : String) (b : Bytes) : Prop :=
  ∃ s', decryptToBytes cr name (s.setFault none) = .ok b s'

/-- What a failed command is to leave: the table, the payload offset and the descriptor are the
same and describe the file that is open, which is still the vault at its path, its files open to
what they held, and every command passes the checks that it passed before. -/
structure AsBefore (cr : Crates) (H : Bytes) (s s' : Env Session) : Prop where
  session : s'.vars = s.vars
  describes : Sound H s'
  decrypts : ∀ f ∈ s.vars.metadata.fileTable,
    ∃ b, Decrypts cr s f.vfsName b ∧ Decrypts cr s' f.vfsName b
  retry : ∀ op : Op, op.Refused s' ↔ op.Refused s

/-- Every file of the table opens. -/
def Readable (cr : Crates) (s : Env Session) : Prop := ∀ f ∈ s.vars.metadata.fileTable,
  ∃ b, readFile cr s.vars.unlockedVault (s.host.data s.vars.fd) f.chunks = some b

section Before

variable {s s' s'' : Env Session}

theorem Sound.setFault (hs : Sound H s) (g : Option Fault) : Sound H (s.setFault g) where
  named := hs.named
  fresh := hs.fresh
  fd_lt := hs.fd_lt
  layout := hs.layout
  header := hs.header
  header_le := hs.header_le
  fits := hs.fits

theorem Sound.decrypts_iff (hs : Sound H s) {f : FileIndex} (hf : f ∈ s.vars.metadata.fileTable)
    (b : Bytes) : Decrypts cr s f.vfsName b ↔
      readFile cr s.vars.unlockedVault (s.host.data s.vars.fd) f.chunks = some b :=
  decryptToBytes_eq_ok_iff (hs.setFault none) rfl hf

/-- Nothing but bytes past the payload changed, and descriptors on other files. -/
structure Harmless (s s' : Env Session) : Prop where
  vars : s'.vars = s.vars
  host : SameFile s.vars.fd s.host s'.host
  fits : s.vars.currentPayloadOffset.toNat ≤ (s'.host.data s.vars.fd).length
  keeps : (s'.host.data s.vars.fd).take s.vars.currentPayloadOffset.toNat =
    (s.host.data s.vars.fd).take s.vars.currentPayloadOffset.toNat

theorem Harmless.of_part {n : Nat} (a : Partial n s s') (hvars : s'.vars = s.vars) :
    Harmless s s' := by
  have hfits := a.fits
  rw [hvars] at hfits
  exact ⟨hvars, a.host, hfits, a.keeps⟩

theorem Harmless.of_moves {fd : Nat} (a : Moves fd s s')
    (hoff : s.vars.currentPayloadOffset.toNat ≤ (s.host.data s.vars.fd).length) : Harmless s s' :=
  .of_part (Partial.of_moves a hoff) a.vars

theorem Harmless.trans (a : Harmless s s') (b : Harmless s' s'') : Harmless s s'' := by
  have hhost := b.host
  have hfits := b.fits
  have hkeeps := b.keeps
  rw [a.vars] at hhost hfits hkeeps
  exact ⟨b.vars.trans a.vars, a.host.trans hhost, hfits, hkeeps.trans a.keeps⟩

theorem Op.refused_congr {op : Op} (hvars : s'.vars = s.vars) (hnames : s'.host.names = s.host.names) :
    op.Refused s' ↔ op.Refused s := by
  cases op with
  | importFile env fromDisk name =>
    have hstaged : stagedBytes s'.host env fromDisk = none ↔
        stagedBytes s.host env fromDisk = none := by
      simp [stagedBytes, hnames]
    simp only [Op.Refused, hvars, hstaged]
  | importBytes data name => simp only [Op.Refused, hvars]
  | rm name => simp only [Op.Refused, hvars]
  | rename oldName newName => simp only [Op.Refused, hvars]
  | vacuum => simp only [Op.Refused, hvars, hnames]

theorem Harmless.asBefore (a : Harmless s s') (hs : Sound H s) (hread : Readable cr s) :
    AsBefore cr H s s' := by
  have hsound : Sound H s' := by
    refine hs.of_sameFile a.host (by rw [a.vars]) (by rw [a.vars]) ?_ ?_ ?_
      (header_of_take hs.header_le a.keeps)
    · rw [a.vars]; exact hs.layout
    · rw [a.vars]; exact hs.header_le
    · rw [a.vars]; exact a.fits
  refine ⟨a.vars, hsound, ?_, fun op => Op.refused_congr a.vars a.host.names⟩
  intro f hf
  obtain ⟨b, hb⟩ := hread f hf
  refine ⟨b, (hs.decrypts_iff hf b).mpr hb, ?_⟩
  have hf' : f ∈ s'.vars.metadata.fileTable := by rw [a.vars]; exact hf
  rw [hsound.decrypts_iff hf', a.vars, readFile_of_take hs.layout a.keeps hf]
  exact hb

/-! ## Refusals -/

theorem wp_createNew_taken {path : String} {onErr : String → VaultError}
    {Q : Nat → Env Session → Prop} {E : VaultError → Env Session → Prop}
    (h : s.host.names path ≠ none) (herr : ∀ t s', Still s s' → E (onErr t) s') :
    wp (Call.createNew onErr path) Q E s := by
  apply wp_createNew
  · exact fun _ => herr
  · exact fun _ hfree => absurd hfree h

/-- A command that does not pass its own checks fails, and does nothing else. -/
theorem Op.Refused.stops {op : Op} (h : op.Refused s) :
    wp (op.run cr) (fun _ _ => False) (fun _ s' => Still s s') s := by
  cases op with
  | importBytes data name =>
    unfold Op.run handleImportFromBytes importBytesPrepare
    rw [wp_bind, wp_bind, wp_bind, wp_session]
    split
    · exact Still.refl s
    · rename_i hnew
      exact absurd h hnew
  | importFile env fromDisk name =>
    unfold Op.run handleImport importPrepare
    rw [wp_bind, wp_bind, wp_bind]
    apply wp_ofExcept
    case herr => exact fun _ _ => Still.refl s
    intro path hpath
    rw [wp_bind, wp_session]
    split
    · exact Still.refl s
    rename_i hnew
    have hnone : s.host.names path = none := by
      have hstaged := h.resolve_left hnew
      rw [stagedBytes_of_path hpath] at hstaged
      simpa [Host.contents] using hstaged
    rw [wp_bind]
    apply wp_openFile
    · exact fun _ _ _ a => a
    · intro i s' hi
      rw [hnone] at hi
      cases hi
  | rm name =>
    unfold Op.run handleRm rmPrepare
    rw [wp_bind, wp_bind, wp_bind, wp_session]
    split
    · exact Still.refl s
    rename_i i hfind
    obtain ⟨f, hf, hname⟩ := findIdx_some hfind
    exact absurd (hasName_iff.mpr ⟨f, List.mem_of_getElem? hf, hname⟩) h
  | rename oldName newName =>
    unfold Op.run handleRename renamePrepare
    rw [wp_bind]
    cases hvalid : isValidVfsFilename newName with
    | false => exact Still.refl s
    | true =>
      have hnew : hasName s.vars.metadata.fileTable newName = true := by
        rcases h with h | h
        · rw [hvalid] at h
          cases h
        · exact h
      simp only [Bool.not_true, Bool.false_eq_true, if_false]
      rw [wp_bind, wp_session]
      split
      · exact Still.refl s
      · rename_i hfree
        exact absurd hnew hfree
  | vacuum =>
    unfold Op.run shellVacuum handleVacuum
    rw [wp_bind, wp_bind, wp_bind, wp_session]
    dsimp only
    rw [wp_bind]
    exact wp_createNew_taken h fun _ _ a => a

/-! ## Renaming, and the vacuum -/

theorem hasName_renameFirst {old new : String} {table : List FileIndex}
    (h : hasName table old = true) : hasName (renameFirst old new table) new = true := by
  obtain ⟨l₁, f, l₂, -, -, hren⟩ := renameFirst_split new h
  rw [hren, hasName_iff]
  exact ⟨{ f with vfsName := new }, by simp, rfl⟩

/-- A rename that was not refused has the new name in the table before it saves. -/
theorem rename_stops (hi : cr.Ideal) {old new : String} (hs : Sound H s)
    (hallowed : ¬(Op.rename old new).Refused s) :
    wp (handleRename cr old new) (fun _ _ => True) (fun _ s' => ¬AsBefore cr H s s') s := by
  apply wp_handleRename hi hs.fits
  · exact fun _ hrefused => absurd hrefused hallowed
  · exact fun _ => trivial
  · intro e s' _ hold hnew _ hstop hbefore
    have hvars : (renamed old new s).vars = s.vars := hstop.touches.vars.symm.trans hbefore.session
    have htable : renameFirst old new s.vars.metadata.fileTable = s.vars.metadata.fileTable :=
      congrArg (·.metadata.fileTable) hvars
    apply hnew
    rw [← htable]
    exact hasName_renameFirst hold
  · exact fun _ _ _ _ _ _ => trivial

/-- A vacuum that has its temporary file leaves that file behind, or an open file that is no
longer the vault. -/
theorem vacuum_stops (hi : cr.Ideal) (hs : Sound H s) (hread : Readable cr s)
    (hallowed : ¬Op.vacuum.Refused s) :
    wp (shellVacuum cr) (fun _ _ => True)
      (fun _ s' => AsBefore cr H s s' ↔ Op.vacuum.StopsEarly s) s := by
  apply wp_shellVacuum hi hs
  · rintro e s' - (⟨hstill, hwhy⟩ | ⟨⟨hlasts, hfree⟩, hpath, hfd, hleft⟩)
    · have hsame : Harmless s s' := .of_moves (hstill.moves s.vars.fd) hs.fits
      exact iff_of_true (hsame.asBefore hs hread) (hwhy.resolve_right hallowed)
    · refine iff_of_false (fun hbefore => ?_) (not_not.mpr hlasts)
      rcases hleft with htmp | hname
      · have hrefused : Op.vacuum.Refused s' := by
          unfold Op.Refused tmpPath
          rw [hpath]
          exact htmp
        exact hallowed ((hbefore.retry .vacuum).mp hrefused)
      · have hnamed := hbefore.describes.named
        rw [hpath, hfd] at hnamed
        exact hname hnamed
  · exact fun _ _ => trivial

/-! ## Removing -/

theorem readChunk_zeroed {v : UnlockedVault} {F : Bytes} {e : ChunkEntry} {k : Nat} (hk : 0 < k)
    (hle : k ≤ e.cipherLen.toNat) :
    readChunk cr v (patch F e.offset.toNat (List.replicate k 0)) e = none := by
  have htake : (e.extent.read (patch F e.offset.toNat (List.replicate k 0))).take k =
      List.replicate k 0 := by
    have hself := slice_patch_self F e.offset.toNat (List.replicate k 0)
    rw [List.length_replicate] at hself
    unfold Extent.read slice ChunkEntry.extent
    rw [List.take_take, min_eq_left hle]
    exact hself
  have hhead : (e.extent.read (patch F e.offset.toNat (List.replicate k 0))).head? ≠ some 0x41 := by
    have hfirst := congrArg List.head? htake
    rw [List.head?_take, if_neg (by omega)] at hfirst
    rw [hfirst]
    exact head_replicate_zero k
  unfold readChunk
  rw [decryptChunk_of_head hhead]

theorem readFile_cons_eq_none {v : UnlockedVault} {F : Bytes} {e : ChunkEntry}
    (es : List ChunkEntry) (h : readChunk cr v F e = none) : readFile cr v F (e :: es) = none := by
  simp [readFile, h]

theorem cipherLen_pos {v : UnlockedVault} {F b : Bytes} {e : ChunkEntry}
    (h : readChunk cr v F e = some b) : 0 < e.cipherLen.toNat := by
  by_contra hzero
  have hread : e.extent.read F = [] := by
    unfold Extent.read ChunkEntry.extent
    rw [Nat.eq_zero_of_not_pos hzero, slice_zero]
  unfold readChunk at h
  rw [hread, decryptChunk_of_head (by simp)] at h
  cases h

theorem not_asBefore_of_unreadable {f : FileIndex} (hf : f ∈ s.vars.metadata.fileTable)
    (h : readFile cr s.vars.unlockedVault (s'.host.data s.vars.fd) f.chunks = none) :
    ¬AsBefore cr H s s' := by
  intro hbefore
  obtain ⟨b, -, hb⟩ := hbefore.decrypts f hf
  have hf' : f ∈ s'.vars.metadata.fileTable := by rw [hbefore.session]; exact hf
  rw [hbefore.describes.decrypts_iff hf', hbefore.session, h] at hb
  cases hb

theorem not_asBefore_of_erased {i : Nat} (hi : i < s.vars.metadata.fileTable.length)
    (h : s'.vars = s.vars.setTable (s.vars.metadata.fileTable.eraseIdx i)) :
    ¬AsBefore cr H s s' := by
  intro hbefore
  have htable := congrArg (·.metadata.fileTable.length) (h.symm.trans hbefore.session)
  simp only [Session.setTable, List.length_eraseIdx_of_lt hi] at htable
  omega

theorem wp_zeroChunks_cons {e : ChunkEntry} {es : List ChunkEntry} {v : UnlockedVault}
    {Q : Unit → Env Session → Prop} {E : VaultError → Env Session → Prop}
    (hoff : s.vars.currentPayloadOffset.toNat ≤ (s.host.data s.vars.fd).length)
    (hin : ∀ x ∈ e :: es, x.extent.stop ≤ (s.host.data s.vars.fd).length)
    (hpos : 0 < e.cipherLen.toNat) (hapart : ∀ x ∈ es, e.extent.Apart x.extent)
    (herr : ∀ t s', Harmless s s' ∧ (¬Lasts 1 s.host.fault ∨
        ¬Lasts 2 s.host.fault ∧ torn s.host.fault = 0) ∨
      readChunk cr v (s'.host.data s.vars.fd) e = none ∧ Lasts 1 s.host.fault ∧
        (¬Lasts 2 s.host.fault → torn s.host.fault ≠ 0) → E (.io t) s')
    (hok : ∀ s', s'.vars = s.vars → readChunk cr v (s'.host.data s.vars.fd) e = none →
      Lasts 2 s.host.fault → Q () s') :
    wp (zeroChunks (e :: es)) Q E s := by
  have hstop := hin e (by simp)
  have hmax : e.extent.stop ≤ maxLen := hstop.trans (Host.data_fits _ _)
  have hbound : e.offset.toNat + e.cipherLen.toNat = e.extent.stop := rfl
  unfold zeroChunks
  rw [wp_bind, wp_session, wp_bind]
  apply wp_counted counted_seek
  apply wp_seek
  · intro _ t s' a hwhy
    refine herr t s' (Or.inl ⟨.of_moves (a.moves s.vars.fd) hoff, Or.inl ?_⟩)
    exact hwhy.resolve_right (by omega)
  intro s1 _ m1 p1 hspent
  rw [wp_bind]
  apply wp_writeAll_torn
  · rw [p1, m1.data]
    omega
  · rw [p1, List.length_replicate]
    omega
  · intro hlast t s' a hdata
    rw [p1, m1.data, m1.fault.torn_eq, List.take_replicate] at hdata
    have hlasts : ¬Lasts 2 s.host.fault := hspent.not_lasts hlast
    by_cases htorn : torn s.host.fault = 0
    · rw [htorn, Nat.zero_min, List.replicate_zero, patch_nil (by omega)] at hdata
      have t' := m1.toTouches.trans a
      refine herr t s' (Or.inl ⟨⟨t'.vars, t'.toConfined.sameFile _, ?_, ?_⟩, Or.inr ⟨hlasts, htorn⟩⟩)
      · rw [hdata]; exact hoff
      · rw [hdata]
    · refine herr t s' (Or.inr ⟨?_, hspent.lasts, fun _ => htorn⟩)
      rw [hdata]
      exact readChunk_zeroed (by omega) (min_le_right _ _)
  intro s2 hspent2 a2 d2
  rw [p1, m1.data] at d2
  have hvars2 : s2.vars = s.vars := a2.vars.trans m1.vars
  have hlasts : Lasts 2 s.host.fault := (hspent.trans hspent2).lasts
  have hzero : readChunk cr v (s2.host.data s.vars.fd) e = none := by
    rw [d2]
    exact readChunk_zeroed hpos (le_refl _)
  -- The other chunks are elsewhere.
  have hstay : ∀ {s'}, Zeroed es s2 s' → readChunk cr v (s'.host.data s.vars.fd) e = none := by
    intro s' a
    have hagree := a.agree
    rw [hvars2] at hagree
    rw [← hzero]
    refine readChunk_congr (hagree.read e.extent ?_) rfl rfl
    intro x hx
    obtain ⟨y, hy, rfl⟩ := List.mem_map.mp hx
    exact hapart y hy
  have hlen : (s2.host.data s.vars.fd).length = (s.host.data s.vars.fd).length := by
    rw [d2, length_patch, List.length_replicate]
    omega
  apply wp_zeroChunks
  · intro x hx
    rw [hvars2, hlen]
    exact hin x (by simp [hx])
  · intro _ t s' a
    exact herr t s' (Or.inr ⟨hstay a, hspent.lasts, fun h => absurd hlasts h⟩)
  · intro s' a _
    exact hok s' (a.touches.vars.trans hvars2) (hstay a) hlasts

theorem Layout.apart_in {table : List FileIndex} {off : Nat} {f : FileIndex}
    (hl : Layout table off) (hf : f ∈ table) : (f.chunks.map (·.extent)).Pairwise Extent.Apart := by
  obtain ⟨l₁, l₂, rfl⟩ := List.append_of_mem hf
  have hpair := hl.packed.apart
  have hcons : extents (f :: l₂) = f.chunks.map (·.extent) ++ extents l₂ := by simp [extents]
  rw [extents_append, hcons, List.pairwise_append, List.pairwise_append] at hpair
  exact hpair.2.1.1

/-- A removal that came to its second write has taken the file away, from the disk or from the
table. -/
theorem wp_rmPrepare_stops {name : String} {Q : Unit → Env Session → Prop}
    {E : VaultError → Env Session → Prop} (hs : Sound H s) (hread : Readable cr s)
    (hallowed : ¬(Op.rm name).Refused s)
    (herr : ∀ e s', (AsBefore cr H s s' ↔ (Op.rm name).StopsEarly s) → E e s')
    (hok : ∀ i s', i < s.vars.metadata.fileTable.length →
      s'.vars = s.vars.setTable (s.vars.metadata.fileTable.eraseIdx i) →
      s.vars.currentPayloadOffset.toNat ≤ (s'.host.data s.vars.fd).length →
      ¬(Op.rm name).StopsEarly s → Q () s') :
    wp (rmPrepare name) Q E s := by
  unfold rmPrepare
  rw [wp_bind, wp_session]
  split
  · rename_i hfind
    refine absurd ?_ hallowed
    intro hname
    obtain ⟨f, hf, hname⟩ := hasName_iff.mp hname
    have := List.findIdx?_eq_none_iff.mp hfind f hf
    simp [hname] at this
  rename_i i hfind
  obtain ⟨f, hf, hname⟩ := findIdx_some hfind
  have hmem := List.mem_of_getElem? hf
  have hlt : i < s.vars.metadata.fileTable.length := (List.getElem?_eq_some_iff.mp hf).1
  have hearly : (Op.rm name).StopsEarly s ↔ RmStops f s := by
    constructor
    · rintro ⟨g, hg, hgn, hstops⟩
      obtain rfl : g = f :=
        List.inj_on_of_nodup_map hs.layout.names hg hmem (hgn.trans hname.symm)
      exact hstops
    · exact fun h => ⟨f, hmem, hname, h⟩
  rw [hearly] at herr hok
  rw [hf, Option.elim_some, wp_bind]
  -- What comes after the chunks.
  have hrest : ∀ s₁ : Env Session, s₁.vars = s.vars → ¬RmStops f s → wp (do
      update (·.setTable (s.vars.metadata.fileTable.eraseIdx i))
      Call.seek .io s.vars.fd s.vars.currentPayloadOffset.toNat
      Call.setLen .io s.vars.fd s.vars.currentPayloadOffset.toNat) Q E s₁ := by
    intro s₁ hvars₁ hlate
    rw [wp_bind, wp_update, wp_bind, hvars₁]
    apply wp_seek
    · intro _ t s' a
      exact herr _ s' (iff_of_false (not_asBefore_of_erased hlt a.vars) hlate)
    intro s₂ _ m₂ _
    apply wp_setLen
    · intro _ t s' a
      exact herr _ s' (iff_of_false (not_asBefore_of_erased hlt (a.vars.trans m₂.vars)) hlate)
    · intro s' _ a hdata _ _ _
      exact hok i s' hlt (a.vars.trans m₂.vars) (by rw [hdata, length_resize]) hlate
  cases hchunks : f.chunks with
  | nil =>
    unfold zeroChunks
    rw [wp_pure, wp_bind]
    apply wp_counted counted_probe
    apply wp_probe
    · intro _ t s' a hlast
      have hsame : Harmless s s' := .of_moves (a.moves s.vars.fd) hs.fits
      exact herr _ s' (iff_of_true (hsame.asBefore hs hread) (Or.inl hlast))
    · intro s1 a1 hspent
      refine hrest s1 a1.vars ?_
      rintro (hlast | ⟨hne, -⟩)
      · exact hlast hspent.lasts
      · exact hne hchunks
  | cons e es =>
    have hpair := hs.layout.apart_in hmem
    rw [hchunks, List.map_cons, List.pairwise_cons] at hpair
    obtain ⟨b, hb⟩ := hread f hmem
    have hne : f.chunks ≠ [] := by rw [hchunks]; exact List.cons_ne_nil _ _
    apply wp_zeroChunks_cons (v := s.vars.unlockedVault) hs.fits
    · intro x hx
      exact le_trans (hs.layout.packed.le_hi _ (mem_extents hmem (by rw [hchunks]; exact hx))) hs.fits
    · rw [hchunks] at hb
      cases hfirst : readChunk cr s.vars.unlockedVault (s.host.data s.vars.fd) e with
      | none =>
        rw [readFile_cons_eq_none es hfirst] at hb
        cases hb
      | some plain => exact cipherLen_pos hfirst
    · exact fun x hx => hpair.1 _ (List.mem_map_of_mem hx)
    · rintro t s' (⟨hsame, hwhy⟩ | ⟨hzero, hfirst, hsecond⟩)
      · exact herr _ s' (iff_of_true (hsame.asBefore hs hread) (hwhy.imp_right fun h => ⟨hne, h⟩))
      · refine herr _ s' (iff_of_false ?_ ?_)
        · apply not_asBefore_of_unreadable hmem
          rw [hchunks]
          exact readFile_cons_eq_none es hzero
        · rintro (hlast | ⟨-, hlast, htorn⟩)
          · exact hlast hfirst
          · exact hsecond hlast htorn
    · intro s1 hvars1 hzero hlasts
      have hlate : ¬RmStops f s := by
        rintro (hlast | ⟨-, hlast, -⟩)
        · exact hlast (hlasts.mono (by omega))
        · exact hlast hlasts
      rw [wp_bind]
      apply wp_probe
      · intro _ t s' a
        refine herr _ s' (iff_of_false (not_asBefore_of_unreadable hmem ?_) hlate)
        rw [hchunks, a.data]
        exact readFile_cons_eq_none es hzero
      · intro s2 a2
        exact hrest s2 (a2.vars.trans hvars1) hlate

theorem rm_stops (hi : cr.Ideal) {name : String} (hs : Sound H s) (hread : Readable cr s)
    (hallowed : ¬(Op.rm name).Refused s) :
    wp (handleRm cr name) (fun _ _ => True)
      (fun _ s' => AsBefore cr H s s' ↔ (Op.rm name).StopsEarly s) s := by
  unfold handleRm
  rw [wp_bind]
  apply wp_rmPrepare_stops hs hread hallowed
  · exact fun _ _ h => h
  intro i s1 hlt hvars hfits hlate
  apply wp_saveSession hi
  · rw [hvars]
    exact hfits
  · intro e s' _ hstop
    exact iff_of_false (not_asBefore_of_erased hlt (hstop.touches.vars.trans hvars)) hlate
  · exact fun _ _ _ => trivial

end Before

end AtomVault
