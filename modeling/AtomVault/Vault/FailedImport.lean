import AtomVault.Vault.Failures

/-!
# What a failed import leaves

The payload offset moves with every chunk, and the entry is in the table before the save.
An import is harmless as long as its first chunk is not written.
-/

open Lib

namespace AtomVault

variable {cr : Crates} {H : Bytes} {s s' s'' : Env Session}

/-! ## One chunk, and the loop -/

/-- `fetch` makes `k` calls on the descriptor `src`, and while `R` holds it fails by the fault
only. -/
structure Fetching (fd src k : Nat) (data : Bytes) (R : Host → Prop) (fetch : ChunkData → Cmd Bytes) :
    Prop where
  apart : src ≠ fd
  spec : ∀ {s : Env Session} {c : ChunkData} {Q E}, c.offset + c.length ≤ data.length →
    (∀ e s', Moves src s s' → (R s.host → ¬Lasts k s.host.fault) → E e s') →
    (∀ b s', Moves src s s' → Spends k s s' → b.length = c.length → Q b s') → wp (fetch c) Q E s

theorem fetching_bytes (fd : Nat) (data : Bytes) :
    Fetching fd (fd + 1) 0 data (fun _ => True) fun c => pure (slice data c.offset c.length) where
  apart := by omega
  spec hend _ hok := hok _ _ (Moves.refl _ _) (Spends.of_eq rfl) (length_slice _ _ _ hend)

theorem fetching_file {fd src : Nat} (data : Bytes) (h : src ≠ fd) :
    Fetching fd src 2 data (fun h => data.length ≤ (h.data src).length) fun c => do
      Call.seek .io src c.offset
      Call.readExact .io src c.length where
  apart := h
  spec := by
    intro s c Q E hend herr hok
    have hfits := Host.data_fits s.host src
    rw [wp_bind]
    apply wp_counted counted_seek
    apply wp_seek
    · intro _ t s' a hwhy
      refine herr _ s' (a.moves src) fun hlong hlasts => ?_
      exact hwhy.resolve_right (by omega) (hlasts.mono (by omega))
    intro s1 _ m1 p1 hspent
    apply wp_counted counted_readExact
    apply wp_readExact
    · intro _ t s' a hwhy
      refine herr _ s' (m1.trans (a.moves src)) fun hlong => ?_
      exact hspent.not_lasts (hwhy.resolve_right (by rw [m1.data, p1]; omega))
    · intro s2 hfit m2 _ hspent2
      exact hok _ s2 (m1.trans m2) (hspent.trans hspent2) (length_slice _ _ _ hfit)

theorem counted_encryptChunk {v : UnlockedVault} {plaintext : Bytes} {fileId : FileId} :
    wp (encryptChunk cr v plaintext fileId : Cmd _) (fun _ s' => Spends 0 s s') (fun _ _ => False)
      s := Spends.of_eq rfl

/-- An import that has written some chunks. -/
structure Grown (s s' : Env Session) : Prop where
  vars : s'.vars = { s.vars with currentPayloadOffset := s'.vars.currentPayloadOffset }
  grows : s.vars.currentPayloadOffset.toNat ≤ s'.vars.currentPayloadOffset.toNat
  cursor : s'.host.pos s.vars.fd = s'.vars.currentPayloadOffset.toNat
  fits : s'.vars.currentPayloadOffset.toNat ≤ (s'.host.data s.vars.fd).length

theorem Grown.trans (a : Grown s s') (b : Grown s' s'') : Grown s s'' := by
  have hfd : s'.vars.fd = s.vars.fd := by rw [a.vars]
  refine ⟨by rw [b.vars, a.vars], a.grows.trans b.grows, ?_, ?_⟩
  · rw [← hfd]; exact b.cursor
  · rw [← hfd]; exact b.fits

section Import

variable {fd src k : Nat} {data : Bytes} {R : Host → Prop} {fetch : ChunkData → Cmd Bytes}

theorem wp_importChunk_stops (hi : cr.Ideal) (hf : Fetching fd src k data R fetch) {c : ChunkData}
    {Q : ChunkEntry → Env Session → Prop} {E : VaultError → Env Session → Prop}
    (hmax : c.length ≤ MAX_CHUNK_SIZE) (hend : c.offset + c.length ≤ data.length)
    (hfd : s.vars.fd = fd) (hcur : s.host.pos fd = s.vars.currentPayloadOffset.toNat)
    (hoff : s.vars.currentPayloadOffset.toNat ≤ (s.host.data fd).length)
    (herr : ∀ e s', Harmless s s' → (R s.host → ¬Lasts (k + 2) s.host.fault ∨
      maxLen < s.vars.currentPayloadOffset.toNat + SEALED_CHUNK) → E e s')
    (hok : ∀ entry s', Grown s s' → Lasts (k + 2) s.host.fault →
      s'.vars.currentPayloadOffset.toNat = s.vars.currentPayloadOffset.toNat + SEALED_CHUNK →
      Q entry s') :
    wp (importChunk cr fetch c) Q E s := by
  subst hfd
  unfold importChunk
  rw [wp_bind]
  apply hf.spec hend
  · intro e s' m hwhy
    refine herr e s' (.of_moves m hoff) fun hR => Or.inl ?_
    exact fun hlasts => hwhy hR (hlasts.mono (by omega))
  intro plain s1 m1 hspent1 hplain
  rw [wp_bind]
  apply wp_counted counted_draw
  apply wp_draw
  intro noise s2 a2 hspent2
  replace m1 := m1.trans (a2.moves src)
  replace hspent2 := hspent1.trans hspent2
  rw [wp_bind]
  apply wp_counted counted_probe
  apply wp_probe
  · intro _ t s' a hlast
    refine herr _ s' (.of_moves (m1.trans (a.moves src)) hoff) fun _ => Or.inl ?_
    exact fun hlasts => hspent2.not_lasts hlast (hlasts.mono (by omega))
  intro s3 a3 hspent3
  replace m1 := m1.trans (a3.moves src)
  replace hspent3 := hspent2.trans hspent3
  rw [wp_bind]
  apply wp_counted counted_draw
  apply wp_draw
  intro fileId s4 a4 hspent4
  replace m1 := m1.trans (a4.moves src)
  replace hspent4 := hspent3.trans hspent4
  rw [wp_bind, wp_session, wp_bind]
  apply wp_counted counted_encryptChunk
  apply wp_encryptChunk
  intro salt nonce s5 hsalt hnonce a5 hspent5
  replace m1 := m1.trans (a5.moves src)
  replace hspent5 := hspent4.trans hspent5
  have hvars : s4.vars = s5.vars := a5.vars.symm
  have hvars5 : s5.vars = s.vars := m1.vars
  have hpadded : (plain ++ noise.toList).length = MAX_CHUNK_SIZE := by
    rw [List.length_append, hplain, noise.toList_length]
    omega
  rw [wp_bind]
  apply wp_ofExcept
  case herr =>
    intro e he
    obtain ⟨blob, hblob⟩ := sealChunk_total hi s4.vars.unlockedVault fileId salt nonce
      (hpadded.trans_lt (by decide))
    rw [hblob] at he
    cases he
  intro blob hblob
  have hlen : blob.length = SEALED_CHUNK := by
    rw [length_sealChunk hi hsalt hnonce hblob, hpadded]
    rfl
  have hoff5 : s5.vars.currentPayloadOffset.toNat ≤ (s5.host.data s5.vars.fd).length := by
    rw [m1.data, hvars5]
    exact hoff
  have hcur5 : s5.host.pos s5.vars.fd = s5.vars.currentPayloadOffset.toNat := by
    rw [hvars5, m1.pos _ hf.apart.symm, hcur]
  have hpart := Partial.of_moves m1 hoff
  rw [hvars, wp_bind]
  apply wp_counted counted_writeAll
  apply wp_writeAll (by rw [hcur5]; exact hoff5)
  · rintro - t s' a ⟨n, hn, hdata, -⟩ hw hwhy
    rw [hcur5] at hdata hwhy
    rw [hlen, hvars5] at hwhy
    have hpart' := hpart.trans (Partial.of_torn a hoff5 ⟨n, hn, hdata⟩ hw)
    refine herr _ s' (.of_part hpart' (a.vars.trans hvars5)) fun _ => hwhy.imp_left ?_
    intro hlast hlasts
    exact hspent5.not_lasts hlast (hlasts.mono (by omega))
  intro s6 hfit t6 d6 p6 _ w6 hspent6
  rw [hcur5] at hfit d6 p6
  obtain ⟨hpart6, hadd⟩ := Partial.of_written t6 hoff5 hfit d6 w6
  have hpart' := hpart.trans hpart6
  rw [wp_bind, wp_update]
  have hnew : (s6.vars.advance blob.length).currentPayloadOffset.toNat =
      s.vars.currentPayloadOffset.toNat + SEALED_CHUNK := by rw [hadd, hvars5, hlen]
  refine hok _ _ ⟨hpart'.vars, hpart'.grows, ?_, hpart'.fits⟩
    ((hspent5.trans hspent6).lasts.mono (by omega)) hnew
  show s6.host.pos s.vars.fd = _
  rw [hnew, ← hvars5, p6, hlen]

theorem wp_importChunks_grows (hi : cr.Ideal) (hf : Fetching fd src k data R fetch) :
    ∀ {cs : List ChunkData} {s : Env Session} {p : Nat} {acc : List ChunkEntry}
      {Q : List ChunkEntry → Env Session → Prop} {E : VaultError → Env Session → Prop},
    Tiles p cs data.length → s.vars.fd = fd →
    s.host.pos fd = s.vars.currentPayloadOffset.toNat →
    s.vars.currentPayloadOffset.toNat ≤ (s.host.data fd).length →
    (∀ e s', s.vars.currentPayloadOffset.toNat ≤ s'.vars.currentPayloadOffset.toNat → E e s') →
    (∀ es s', Grown s s' → Q es s') → wp (importChunks cr fetch cs acc) Q E s := by
  intro cs
  induction cs with
  | nil =>
    intro s p acc Q E _ hfd hcur hoff _ hok
    subst hfd
    exact hok acc s ⟨rfl, le_refl _, hcur, hoff⟩
  | cons c cs ih =>
    rintro s p acc Q E ⟨rfl, -, hmax, ht⟩ hfd hcur hoff herr hok
    unfold importChunks
    rw [wp_bind]
    apply wp_importChunk_stops hi hf hmax (Tiles.end_le ht) hfd hcur hoff
    · intro e s' a _
      exact herr e s' (by rw [a.vars])
    intro entry s1 a1 _ _
    have hfd1 : s1.vars.fd = s.vars.fd := by rw [a1.vars]
    have hcur1 := a1.cursor
    have hfits1 := a1.fits
    rw [hfd] at hcur1 hfits1
    apply ih ht (hfd1.trans hfd) hcur1 hfits1
    · intro e s' hgrows
      exact herr e s' (a1.grows.trans hgrows)
    · intro es s' a
      exact hok es s' (a1.trans a)

/-! ## Up to the save -/

theorem StopsAtFirst.of_spends {n opening chunk : Nat} (a : Spends n s s') (hvars : s'.vars = s.vars) :
    StopsAtFirst opening chunk data s' ↔ StopsAtFirst (opening + n) chunk data s := by
  unfold StopsAtFirst
  rw [a.left, a.left, hvars]
  have hsum : opening + chunk + n = opening + n + chunk := by omega
  rw [hsum]

theorem StopsAtFirst.of_not_lasts {opening chunk : Nat} (h : ¬Lasts opening s.host.fault) :
    StopsAtFirst opening chunk data s := by
  unfold StopsAtFirst
  split
  · exact h
  · exact Or.inl fun hlasts => h (hlasts.mono (by omega))

theorem wp_importPayload_stops (hi : cr.Ideal) (hf : Fetching fd src k data R fetch) {name : String}
    {Q : Unit → Env Session → Prop} {E : VaultError → Env Session → Prop} (hfd : s.vars.fd = fd)
    (hoff : s.vars.currentPayloadOffset.toNat ≤ (s.host.data fd).length)
    (hR : ∀ {s'}, Moves fd s s' → R s'.host)
    (herr : ∀ e s', Harmless s s' ∧ StopsAtFirst 1 (k + 2) data s ∨
      s'.vars ≠ s.vars ∧ ¬StopsAtFirst 1 (k + 2) data s → E e s')
    (hok : ∀ s', s'.vars.fd = fd →
      s'.vars.metadata.fileTable.length = s.vars.metadata.fileTable.length + 1 →
      s'.vars.currentPayloadOffset.toNat ≤ (s'.host.data fd).length →
      ¬StopsAtFirst 1 (k + 2) data s → Q () s') :
    wp (importPayload cr fetch data name) Q E s := by
  subst hfd
  obtain ⟨cs, hcs, ht⟩ := hi.chunkData_tiles data
  unfold importPayload
  rw [wp_bind]
  apply wp_ofExcept
  case herr =>
    intro e he
    rw [hcs] at he
    cases he
  intro cs' hcs'
  obtain rfl : cs = cs' := by rw [hcs] at hcs'; exact Except.ok.inj hcs'
  rw [wp_bind, wp_session, wp_bind]
  apply wp_counted counted_seek
  apply wp_seek
  · intro _ t s' a hwhy
    have hlast := hwhy.resolve_right (not_lt.mpr (hoff.trans (Host.data_fits _ _)))
    exact herr _ s' (Or.inl ⟨.of_moves (a.moves s.vars.fd) hoff, .of_not_lasts hlast⟩)
  intro s1 _ m1 p1 hspent
  have hvars1 : s1.vars = s.vars := m1.vars
  have hcur1 : s1.host.pos s.vars.fd = s1.vars.currentPayloadOffset.toNat := by rw [p1, hvars1]
  have hoff1 : s1.vars.currentPayloadOffset.toNat ≤ (s1.host.data s.vars.fd).length := by
    rw [m1.data, hvars1]
    exact hoff
  -- The entry goes into the table when all chunks are written.
  have hpush : ∀ {s₂}, Grown s1 s₂ → ¬StopsAtFirst 1 (k + 2) data s → ∀ newChunks, wp (do
      let now ← Call.now
      let st ← session
      update (·.setTable (st.metadata.fileTable ++
        [{ vfsName := name, chunks := newChunks, lastModifiedUnix := UInt64.ofNat now }])))
      Q E s₂ := by
    intro s₂ a₂ hlate newChunks
    have hvars₂ := a₂.vars
    rw [hvars1] at hvars₂
    rw [wp_bind]
    apply wp_now
    rw [wp_bind, wp_session, wp_update]
    refine hok _ ?_ ?_ ?_ hlate
    · show s₂.vars.fd = s.vars.fd
      rw [hvars₂]
    · show (s₂.vars.metadata.fileTable ++ _).length = _
      rw [hvars₂, List.length_append, List.length_singleton]
    · have hfits := a₂.fits
      rw [hvars1] at hfits
      exact hfits
  rw [wp_bind]
  cases cs with
  | nil =>
    have hempty : data = [] := List.length_eq_zero_iff.mp (Eq.symm ht)
    have hlate : ¬StopsAtFirst 1 (k + 2) data s := by
      rw [StopsAtFirst, if_pos hempty]
      exact not_not.mpr hspent.lasts
    refine hpush ⟨rfl, le_refl _, ?_, ?_⟩ hlate []
    · rw [hvars1, p1]
    · rw [hvars1, m1.data]; exact hoff
  | cons c cs =>
    obtain ⟨hp, hpos, hmax, ht⟩ := ht
    have hend := Tiles.end_le ht
    have hne : data ≠ [] := by
      rintro rfl
      simp only [List.length_nil] at hend
      omega
    have hstops : StopsAtFirst 1 (k + 2) data s ↔ ¬Lasts (1 + (k + 2)) s.host.fault ∨
        maxLen < s.vars.currentPayloadOffset.toNat + SEALED_CHUNK := by
      rw [StopsAtFirst, if_neg hne]
    unfold importChunks
    rw [wp_bind]
    apply wp_importChunk_stops hi hf hmax (by rw [hp]; exact hend) (by rw [hvars1]) hcur1 hoff1
    · intro e s' a hwhy
      have hsame : Harmless s s' := (Harmless.of_moves m1 hoff).trans a
      refine herr e s' (Or.inl ⟨hsame, hstops.mpr ((hwhy (hR m1)).imp ?_ ?_)⟩)
      · exact hspent.not_lasts
      · rw [hvars1]
        exact id
    intro entry s2 a2 hlasts hgrown
    rw [hvars1] at hgrown
    have hlate : ¬StopsAtFirst 1 (k + 2) data s := by
      rw [hstops]
      rintro (hlast | hroom)
      · rw [hspent.left, Nat.add_comm] at hlasts
        exact hlast hlasts
      · have hfits := a2.fits.trans (Host.data_fits _ _)
        omega
    have hfd2 : s2.vars.fd = s.vars.fd := by rw [a2.vars, hvars1]
    have hcur2 := a2.cursor
    have hfits2 := a2.fits
    rw [hvars1] at hcur2 hfits2
    apply wp_importChunks_grows hi hf ht hfd2 hcur2 hfits2
    · intro e s' hgrows
      refine herr e s' (Or.inr ⟨fun hsame => ?_, hlate⟩)
      rw [hsame, hgrown] at hgrows
      have : 0 < SEALED_CHUNK := by decide
      omega
    · intro es s' a
      exact hpush (a2.trans a) hlate es

end Import

/-! ## The two commands -/

theorem save_stops_late (hi : cr.Ideal) {s₁ : Env Session} {early : Prop}
    (hfd : s₁.vars.fd = s.vars.fd)
    (hcount : s₁.vars.metadata.fileTable.length = s.vars.metadata.fileTable.length + 1)
    (hfits : s₁.vars.currentPayloadOffset.toNat ≤ (s₁.host.data s.vars.fd).length)
    (hlate : ¬early) {Q : Unit → Env Session → Prop} (hok : ∀ s', Q () s') :
    wp (saveSession cr) Q (fun _ s' => AsBefore cr H s s' ↔ early) s₁ := by
  apply wp_saveSession hi
  · rw [hfd]
    exact hfits
  · intro e s' _ hstop
    refine iff_of_false (fun hbefore => ?_) hlate
    rw [← hstop.touches.vars, hbefore.session] at hcount
    omega
  · exact fun _ s' _ => hok s'

theorem asBefore_iff_of_stop {early : Prop} (hs : Sound H s) (hread : Readable cr s)
    (h : Harmless s s' ∧ early ∨ s'.vars ≠ s.vars ∧ ¬early) : AsBefore cr H s s' ↔ early := by
  rcases h with ⟨hsame, hearly⟩ | ⟨hvars, hlate⟩
  · exact iff_of_true (hsame.asBefore hs hread) hearly
  · exact iff_of_false (fun hbefore => hvars hbefore.session) hlate

theorem importBytes_stops (hi : cr.Ideal) {data : Bytes} {name : String} (hs : Sound H s)
    (hread : Readable cr s) (hallowed : ¬(Op.importBytes data name).Refused s) :
    wp (handleImportFromBytes cr data name) (fun _ _ => True)
      (fun _ s' => AsBefore cr H s s' ↔ (Op.importBytes data name).StopsEarly s) s := by
  unfold handleImportFromBytes importBytesPrepare
  rw [wp_bind, wp_bind, wp_session]
  split
  · rename_i hdup
    exact absurd hdup hallowed
  apply wp_importPayload_stops hi (fetching_bytes s.vars.fd data) rfl hs.fits (fun _ => trivial)
  · exact fun _ _ h => asBefore_iff_of_stop hs hread h
  · intro s1 hfd hcount hfits hlate
    exact save_stops_late hi hfd hcount hfits hlate fun _ => trivial

theorem wp_shred_true {path : String} {file : Nat} {E : VaultError → Env Session → Prop} :
    wp (shred path file) (fun _ _ => True) E s := by
  have hignored : ∀ (x : Cmd Unit) (E' : VaultError → Env Session → Prop) (s₁ : Env Session),
      wp (ignoreErr x) (fun _ _ => True) E' s₁ := by
    intro x E' s₁
    apply wp_ignoreErr
    rw [wp_iff]
    exact ⟨fun _ _ _ => trivial, fun _ _ _ => trivial⟩
  unfold shred
  rw [wp_bind]
  exact wp_mono (hignored _ E s) (fun _ s' _ => hignored _ E s') fun _ _ h => h

theorem importFile_stops (hi : cr.Ideal) {env : PathEnv} {fromDisk name : String} (hs : Sound H s)
    (hread : Readable cr s) (hallowed : ¬(Op.importFile env fromDisk name).Refused s) :
    wp (handleImport cr env fromDisk name) (fun _ _ => True)
      (fun _ s' => AsBefore cr H s s' ↔ (Op.importFile env fromDisk name).StopsEarly s) s := by
  obtain ⟨hnew, hfound⟩ := not_or.mp hallowed
  have hne : s.vars.fd ≠ s.host.nextFd := ne_of_lt hs.fd_lt
  unfold handleImport importPrepare
  rw [wp_bind, wp_bind]
  apply wp_ofExcept
  case herr =>
    intro msg hpath
    refine absurd ?_ hfound
    simp [stagedBytes, hpath, Except.toOption]
  intro path hpath
  rw [wp_bind, wp_session]
  split
  · rename_i hdup
    exact absurd hdup hnew
  rw [stagedBytes_of_path hpath] at hfound
  obtain ⟨i, hi1⟩ : ∃ i, s.host.names path = some i := by
    rw [← Option.ne_none_iff_exists']
    intro hnone
    rw [Host.contents, hnone] at hfound
    exact hfound rfl
  have hdata : stagedBytes s.host env fromDisk = some (s.host.files i).bytes := by
    rw [stagedBytes_of_path hpath, Host.contents_of_names hi1]
  have hearly : (Op.importFile env fromDisk name).StopsEarly s ↔
      StopsAtFirst 3 4 (s.host.files i).bytes s := by
    constructor
    · rintro ⟨data, hdata', hstops⟩
      rw [hdata] at hdata'
      rwa [Option.some.inj hdata']
    · exact fun h => ⟨_, hdata, h⟩
  rw [hearly]
  have hfirst : ∀ {n s'}, n ≤ 3 → ¬Lasts n s.host.fault → Harmless s s' →
      (AsBefore cr H s s' ↔ StopsAtFirst 3 4 (s.host.files i).bytes s) := by
    intro n s' hn hlast hsame
    refine iff_of_true (hsame.asBefore hs hread) (.of_not_lasts fun hlasts => ?_)
    exact hlast (hlasts.mono hn)
  rw [wp_bind]
  apply wp_counted counted_openFile
  apply wp_openFile
  · intro _ t s' a hwhy
    refine hfirst (by omega) (hwhy.resolve_right ?_) (.of_moves (a.moves s.vars.fd) hs.fits)
    rw [hi1]
    exact Option.some_ne_none i
  intro j s1 hj o1 hspent1
  obtain rfl : i = j := Option.some.inj (hi1.symm.trans hj)
  have hopened : Harmless s s1 := .of_part (Partial.of_opened o1 hs.fd_lt hs.fits) o1.vars
  have hoff1 : s1.vars.currentPayloadOffset.toNat ≤ (s1.host.data s1.vars.fd).length := by
    rw [o1.vars]
    exact hopened.fits
  rw [wp_bind]
  apply wp_counted counted_readToEnd
  apply wp_readToEnd
  · intro _ t s' a hlast
    exact hfirst (by omega) (hspent1.not_lasts hlast)
      (hopened.trans (.of_moves (a.moves s.vars.fd) hoff1))
  intro s2 m2 hspent2
  have hvars2 : s2.vars = s.vars := m2.vars.trans o1.vars
  have hsame2 : Harmless s s2 := hopened.trans (.of_moves m2 hoff1)
  -- The chunker read the whole file.
  have hfile : slice (s1.host.data s.host.nextFd) (s1.host.pos s.host.nextFd) maxLen =
      (s.host.files i).bytes := by
    rw [o1.data, o1.pos, slice_from_zero, List.take_of_length_le (s.host.files i).fits]
  have hstops : StopsAtFirst 1 (2 + 2) (s.host.files i).bytes s2 ↔
      StopsAtFirst 3 4 (s.host.files i).bytes s :=
    StopsAtFirst.of_spends (hspent1.trans hspent2) hvars2
  rw [hfile, wp_bind]
  apply wp_importPayload_stops hi (fetching_file _ hne.symm) (by rw [hvars2])
    (by rw [hvars2]; exact hsame2.fits)
  · intro s' m
    rw [m.data, m2.data, o1.data]
  · intro e s' h
    rw [hstops, hvars2] at h
    exact asBefore_iff_of_stop hs hread (h.imp_left (And.imp_left hsame2.trans))
  intro s3 hfd hcount hfits hlate
  rw [hstops] at hlate
  rw [hvars2] at hcount
  rw [wp_pure]
  dsimp only
  rw [wp_bind]
  apply save_stops_late hi hfd hcount hfits hlate
  exact fun s4 => wp_shred_true

end AtomVault
