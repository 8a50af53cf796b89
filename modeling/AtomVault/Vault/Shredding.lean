import AtomVault.Vault.Sessions

/-!
# What a removal erases

Zeros go over the chunks of the removed file and over nothing else, since no two chunks overlap
and none reaches into the header.
-/

open Lib

namespace AtomVault

variable {cr : Crates} {password name : String} {H : Bytes}

/-! ## The zeros -/

def ChunkEntry.zeros (e : ChunkEntry) : Bytes := List.replicate e.cipherLen.toNat 0

theorem wp_zeroChunks_zeros : ∀ {es : List ChunkEntry} {s : Env Session},
    (es.map (·.extent)).Pairwise Extent.Apart →
    (∀ e ∈ es, e.extent.stop ≤ (s.host.data s.vars.fd).length) →
    wp (zeroChunks es) (fun _ s' => ∀ e ∈ es, e.extent.read (s'.host.data s.vars.fd) = e.zeros)
      (fun _ _ => True) s := by
  intro es
  induction es with
  | nil =>
    intro s _ _
    exact fun e he => absurd he List.not_mem_nil
  | cons e es ih =>
    intro s hapart hin
    rw [List.map_cons, List.pairwise_cons] at hapart
    obtain ⟨hfirst, hrest⟩ := hapart
    have hstop := hin e (by simp)
    unfold zeroChunks
    rw [wp_bind, wp_session, wp_bind]
    apply wp_seek
    · exact fun _ _ _ _ => trivial
    intro s1 _ m1 p1
    rw [wp_bind]
    apply wp_writeAll
    · rw [p1, m1.data]
      exact le_trans (Nat.le_add_right _ _) hstop
    · exact fun _ _ _ _ _ _ => trivial
    intro s2 _ a2 d2 _ _ _
    rw [p1] at d2
    have hvars : s2.vars = s.vars := a2.vars.trans m1.vars
    have hzero : e.extent.read (s2.host.data s.vars.fd) = e.zeros := by
      have hself := slice_patch_self (s1.host.data s.vars.fd) e.offset.toNat e.zeros
      rw [d2]
      unfold ChunkEntry.zeros at hself ⊢
      rw [List.length_replicate] at hself
      exact hself
    have hlen : (s2.host.data s.vars.fd).length = (s.host.data s.vars.fd).length := by
      have hagree := AgreeOff.patch (e := e.extent) (f := s1.host.data s.vars.fd)
        (b := List.replicate e.cipherLen.toNat 0) (by simp [ChunkEntry.extent])
        (by rw [m1.data]; exact hstop)
      rw [d2]
      exact hagree.length.trans (by rw [m1.data])
    have hin2 : ∀ x ∈ es, x.extent.stop ≤ (s2.host.data s2.vars.fd).length := by
      intro x hx
      rw [hvars, hlen]
      exact hin x (by simp [hx])
    have hrun : wp (zeroChunks es) (fun _ s' => Zeroed es s2 s') (fun _ _ => True) s2 := by
      apply wp_zeroChunks hin2
      · exact fun _ _ _ _ => trivial
      · exact fun _ hz _ => hz
    refine wp_mono (wp_and (ih hrest hin2) hrun) (fun _ s' h => ?_) fun _ _ _ => trivial
    obtain ⟨hzeros, hz⟩ := h
    have hagree := hz.agree
    rw [hvars] at hzeros hagree
    -- The later zeros are in other chunks.
    refine List.forall_mem_cons.mpr ⟨?_, hzeros⟩
    rw [hagree.read _ hfirst, hzero]

theorem eq_of_name {table : List FileIndex} (h : (table.map (·.vfsName)).Nodup) {f g : FileIndex}
    (hf : f ∈ table) (hg : g ∈ table) (hname : g.vfsName = f.vfsName) : g = f :=
  List.inj_on_of_nodup_map h hg hf hname

theorem wp_handleRm_zeros (hi : cr.Ideal) {s : Env Session} (hs : Sound H s) {f : FileIndex}
    (hf : f ∈ s.vars.metadata.fileTable) :
    wp (handleRm cr f.vfsName)
      (fun _ s' => ∀ e ∈ f.chunks, e.extent.read (s'.host.data s.vars.fd) = e.zeros)
      (fun _ _ => True) s := by
  have hsize : VAULT_HEADER_SIZE = 125 := rfl
  have hmem : ∀ e ∈ f.chunks, e.extent ∈ extents s.vars.metadata.fileTable :=
    fun e he => mem_extents hf he
  have hapart : (f.chunks.map (·.extent)).Pairwise Extent.Apart := by
    obtain ⟨i, hi'⟩ := List.getElem?_of_mem hf
    obtain ⟨hsplit, -⟩ := table_split hi'
    have hpair := hs.layout.packed.apart
    rw [hsplit, extents_append, List.pairwise_append] at hpair
    have hcons : extents (f :: s.vars.metadata.fileTable.drop (i + 1)) =
        f.chunks.map (·.extent) ++ extents (s.vars.metadata.fileTable.drop (i + 1)) := by
      simp [extents]
    rw [hcons, List.pairwise_append] at hpair
    exact hpair.2.1.1
  unfold handleRm rmPrepare
  rw [wp_bind, wp_bind, wp_session]
  split
  · exact trivial
  rename_i i hfind
  obtain ⟨g, hg, hname⟩ := findIdx_some hfind
  obtain rfl : g = f := eq_of_name hs.layout.names hf (List.mem_of_getElem? hg) hname
  rw [hg, Option.elim_some, wp_bind]
  have hin : ∀ e ∈ g.chunks, e.extent.stop ≤ (s.host.data s.vars.fd).length :=
    fun e he => (hs.layout.packed.le_hi _ (hmem e he)).trans hs.fits
  have hrun : wp (zeroChunks g.chunks) (fun _ s' => Zeroed g.chunks s s') (fun _ _ => True) s := by
    apply wp_zeroChunks hin
    · exact fun _ _ _ _ => trivial
    · exact fun _ hz _ => hz
  refine wp_mono (wp_and (wp_zeroChunks_zeros hapart hin) hrun) (fun _ s1 h1 => ?_)
    fun _ _ _ => trivial
  obtain ⟨hzeros1, hz1⟩ := h1
  have hvars1 := hz1.touches.vars
  rw [wp_bind]
  apply wp_probe
  · exact fun _ _ _ _ => trivial
  intro s2 a2
  rw [wp_bind, wp_update, wp_bind]
  apply wp_seek
  · exact fun _ _ _ _ => trivial
  intro s3 _ m3 _
  have hdata3 : s3.host.data s.vars.fd = s1.host.data s.vars.fd :=
    (m3.data _).trans (a2.data _)
  apply wp_setLen
  · exact fun _ _ _ _ => trivial
  intro s4 _ a4 d4 _ _ _
  have hfits1 : s.vars.currentPayloadOffset.toNat ≤ (s1.host.data s.vars.fd).length := by
    rw [hz1.agree.length]
    exact hs.fits
  have hdata4 : s4.host.data s.vars.fd =
      (s1.host.data s.vars.fd).take s.vars.currentPayloadOffset.toNat := by
    rw [d4, hdata3, resize_eq_take _ _ hfits1]
  have hvars4 : s4.vars = s.vars.setTable (s.vars.metadata.fileTable.eraseIdx i) := by
    rw [a4.vars, m3.vars]
    show s2.vars.setTable _ = _
    rw [a2.vars, hvars1]
  have hoff4 : s4.vars.currentPayloadOffset = s.vars.currentPayloadOffset := by rw [hvars4]; rfl
  have hfd4 : s4.vars.fd = s.vars.fd := by rw [hvars4]; rfl
  have hend4 : s.vars.currentPayloadOffset.toNat ≤ (s4.host.data s.vars.fd).length := by
    rw [hdata4, List.length_take, min_eq_left hfits1]
  apply wp_saveSession hi (by rw [hoff4, hfd4]; exact hend4)
  · exact fun _ _ _ _ => trivial
  intro blob s' hsave e he
  have hlo := hs.layout.packed.lo_le _ (hmem e he)
  have hhi := hs.layout.packed.le_hi _ (hmem e he)
  have hdata := hsave.data
  rw [hoff4, hfd4] at hdata
  rw [hdata]
  unfold Extent.read
  rw [slice_saved (by omega) hhi hend4, hdata4, slice_take _ _ _ _ hhi]
  exact hzeros1 e he

/-! ## A vault without the file -/

/-- Zeros in the chunks of `f`, and nothing else of the header and the payload is another. -/
structure Erased (off : Nat) (f : FileIndex) (F F' : Bytes) : Prop where
  zeros : ∀ e ∈ f.chunks, e.extent.read F' = e.zeros
  rest : ∀ p, 8 ≤ p → p < off →
    (∀ e ∈ f.chunks, ¬(e.extent.start ≤ p ∧ p < e.extent.stop)) → F'[p]? = F[p]?

theorem getElem?_of_slice {F F' : Bytes} {p : Nat} (h : slice F' p 1 = slice F p 1) :
    F'[p]? = F[p]? := by
  have hhead : ∀ G : Bytes, (slice G p 1).head? = G[p]? := by
    intro G
    rw [slice, List.head?_take, if_neg (by omega), List.head?_drop]
  rw [← hhead, h, hhead]

theorem Removed.rest {s s₁ s' : Env Session} {i : Nat} {f : FileIndex} {blob : Bytes}
    (hrem : Removed i f s s₁) (hsave : Saves cr blob s₁ s') (hs : Sound H s) {p : Nat} (h8 : 8 ≤ p)
    (hp : p < s.vars.currentPayloadOffset.toNat)
    (hout : ∀ e ∈ f.chunks, ¬(e.extent.start ≤ p ∧ p < e.extent.stop)) :
    (s'.host.data s.vars.fd)[p]? = (s.host.data s.vars.fd)[p]? := by
  obtain ⟨F, hagree, hdata₁⟩ := hrem.data
  have hdata := hsave.data
  have hvars : s₁.vars.fd = s.vars.fd ∧
      s₁.vars.currentPayloadOffset = s.vars.currentPayloadOffset := by
    rw [hrem.vars]
    exact ⟨rfl, rfl⟩
  have hlen : s.vars.currentPayloadOffset.toNat ≤ F.length := by
    rw [hagree.length]
    exact hs.fits
  rw [hvars.1, hvars.2, hdata₁] at hdata
  apply getElem?_of_slice
  rw [hdata, slice_saved h8 hp (by rw [List.length_take, min_eq_left hlen]), slice_take _ _ _ _ hp]
  refine hagree.read ⟨p, 1⟩ ?_
  intro x hx
  obtain ⟨e, he, rfl⟩ := List.mem_map.mp hx
  have hp' := hout e he
  simp only [Extent.Apart, Extent.stop] at hp' ⊢
  omega

theorem Removed.readFile_saved {s s₁ s' : Env Session} {i : Nat} {f g : FileIndex} {blob : Bytes}
    (hrem : Removed i f s s₁) (hsave : Saves cr blob s₁ s') (hs : Sound H s)
    (hf : s.vars.metadata.fileTable[i]? = some f) (hg : g ∈ s.vars.metadata.fileTable.eraseIdx i)
    (v : UnlockedVault) :
    AtomVault.readFile cr v (s'.host.data s.vars.fd) g.chunks =
      AtomVault.readFile cr v (s.host.data s.vars.fd) g.chunks := by
  have hs₁ := hrem.sound hs hf
  have hfits := hs₁.fits
  have hdata := hsave.data
  rw [hrem.vars] at hfits hdata
  rw [← hrem.readFile hs hf hg]
  show AtomVault.readFile cr v (s'.host.data s.vars.fd) g.chunks = _
  change s'.host.data s.vars.fd = saved (s₁.host.data s.vars.fd)
    s.vars.currentPayloadOffset.toNat blob at hdata
  rw [hdata]
  exact AtomVault.readFile_saved (hs.layout.eraseIdx i) hfits hg

/-! ## Reloading -/

/-- The same vault, loaded from the file that a saved session left at its path. -/
structure Reloaded (cr : Crates) (password : String) (H : Bytes) (s t : Env Session) : Prop where
  kept : Kept cr password H true t
  metadata : t.vars.metadata = s.vars.metadata
  vault : t.vars.unlockedVault = s.vars.unlockedVault
  data : t.host.data t.vars.fd = s.host.data s.vars.fd

theorem Kept.reloaded (hi : cr.Ideal) {s t : Env Session} (h : Kept cr password H true s)
    (henter : handleEnter cr s.vars.vaultPath password (s.setFault none) = .ok () t) :
    Reloaded cr password H s t ∧ Fits cr s.vars.metadata := by
  have hs : Sound H (s.setFault none) := h.sound.setFault none
  obtain ⟨hkept, hentered, hfits⟩ := Kept.of_enter hi hs.fresh hs.named h.onDisk henter
  exact ⟨⟨hkept, by rw [hentered.vars], by rw [hentered.vars], hentered.data⟩, hfits⟩

theorem Kept.reload (hi : cr.Ideal) {s : Env Session} (h : Kept cr password H true s)
    (hfits : Fits cr s.vars.metadata) :
    ∃ t, handleEnter cr s.vars.vaultPath password (s.setFault none) = .ok () t := by
  have hs : Sound H (s.setFault none) := h.sound.setFault none
  have hopen := h.onDisk.openBytes hi (Host.data_fits _ _) hfits
  have hspec : wp (handleEnter cr s.vars.vaultPath password) (fun _ _ => True)
      (fun _ _ => False) (s.setFault none) := by
    apply wp_handleEnter
    · rintro (hfault | hnone) _ _
      · exact hfault rfl
      · have hnone' : openBytes cr (s.host.data s.vars.fd) password = none := hnone _ hs.named
        rw [hopen] at hnone'
        cases hnone'
    · exact fun _ _ _ _ _ _ _ _ => trivial
  obtain ⟨⟨⟩, t, henter, -⟩ := ok_of_wp hspec
  exact ⟨t, henter⟩

/-- **Removal.** In every steady session a removal that returns leaves zeros in every chunk of the
removed file and every other byte between the pointer and the payload offset as it was. Reloading
gives the table without that entry, every file of which opens to what it did, exactly if the table
is within the reader's limit. -/
theorem rm_erases (hi : cr.Ideal) {s s' : Env Session} (h : Steady cr password H s)
    (hrun : handleRm cr name s = .ok () s') :
    ∃ l₁ f l₂ F', s.vars.metadata.fileTable = l₁ ++ f :: l₂ ∧ f.vfsName = name ∧
      s'.host.contents s.vars.vaultPath = some F' ∧
      s'.vars.metadata = { s.vars.metadata with fileTable := l₁ ++ l₂ } ∧
      Erased s.vars.currentPayloadOffset.toNat f (s.host.data s.vars.fd) F' ∧
      ((∃ t, handleEnter cr s.vars.vaultPath password (s'.setFault none) = .ok () t ∧
        t.vars.metadata = s'.vars.metadata ∧
        ∀ g ∈ l₁ ++ l₂, ∀ b, Decrypts cr t g.vfsName b ↔ Decrypts cr s g.vfsName b) ↔
      Fits cr s'.vars.metadata) := by
  have hkept := h.kept hi
  have hs := hkept.sound
  have hspec : wp (handleRm cr name) (fun _ s' => ∃ i f blob s₁,
      s.vars.metadata.fileTable[i]? = some f ∧ f.vfsName = name ∧ Removed i f s s₁ ∧
        Saves cr blob s₁ s') (fun _ _ => True) s := by
    apply wp_handleRm hi hs
    · exact fun _ => trivial
    · exact fun _ _ _ _ _ _ _ _ => trivial
    · exact fun _ _ _ _ _ _ _ _ _ _ => trivial
    · exact fun i f blob s₁ s' hf hname hrem hsave => ⟨i, f, blob, s₁, hf, hname, hrem, hsave⟩
  obtain ⟨i, f, blob, s₁, hf, rfl, hrem, hsave⟩ := wp_of_ok hspec hrun
  have hmem := List.mem_of_getElem? hf
  have hzeros := wp_of_ok (wp_handleRm_zeros hi hs hmem) hrun
  obtain ⟨hsplit, herase⟩ := table_split hf
  have hvars' : s'.vars = s.vars.setTable (s.vars.metadata.fileTable.eraseIdx i) :=
    hsave.touches.vars.trans hrem.vars
  have hkept' : Kept cr password H true s' :=
    hkept.saves (hrem.sound hs hf) (by rw [hrem.vars]; rfl) hsave
  have hnamed := hkept'.sound.named
  rw [hvars'] at hnamed
  have hmeta : s'.vars.metadata =
      { s.vars.metadata with fileTable := s.vars.metadata.fileTable.eraseIdx i } := by
    rw [hvars']
    rfl
  refine ⟨_, f, _, s'.host.data s.vars.fd, hsplit, rfl, Host.contents_of_names hnamed,
    by rw [← herase]; exact hmeta, ⟨hzeros, fun p h8 hp hout => hrem.rest hsave hs h8 hp hout⟩, ?_⟩
  have hpath : s.vars.vaultPath = s'.vars.vaultPath := by rw [hvars']; rfl
  rw [← herase, hpath]
  constructor
  · rintro ⟨t, henter, -, -⟩
    exact (hkept'.reloaded hi henter).2
  intro hfits
  obtain ⟨t, henter⟩ := hkept'.reload hi hfits
  obtain ⟨hloaded, -⟩ := hkept'.reloaded hi henter
  refine ⟨t, henter, hloaded.metadata, ?_⟩
  intro g hg b
  have hgnew : g ∈ t.vars.metadata.fileTable := by
    rw [hloaded.metadata, hmeta]
    exact hg
  rw [hloaded.kept.sound.decrypts_iff hgnew, hs.decrypts_iff (List.mem_of_mem_eraseIdx hg),
    hloaded.data, hloaded.vault, hvars']
  show readFile cr s.vars.unlockedVault (s'.host.data s.vars.fd) g.chunks = some b ↔ _
  rw [hrem.readFile_saved hsave hs hf hg]

/-! ## Runs -/

variable {Done Failed : Op → Env Session → Prop}

theorem sessions_createOwn {s₁ s₂ : Env Session} (hcreate : createOwn start = .ok () s₁)
    (henter : handleEnter standin ownPath "pw" s₁ = .ok () s₂) :
    ∃ H, ∀ Done Failed, Sessions standin "pw" H Done Failed s₂ := by
  have hfile : s₁.host.names ownPath = some start.host.nextIno := by
    rw [(created_of_ok standin_ideal hcreate).names, Function.update_self]
  exact ⟨_, fun _ _ => .created fresh_start hcreate hfile rfl henter⟩

/-- A file of three bytes in a new vault. -/
def importOne : Cmd Unit := do
  createOwn
  handleEnter standin ownPath "pw"
  handleImportFromBytes standin [1, 2, 3] "a"

def encodedLen (s : Env Session) : Nat := (Bincode.vaultMetadata.enc s.vars.metadata).length

set_option maxRecDepth 100000 in
theorem importOne_eval : (match (importOne >>= fun _ => handleRm standin "a") start with
    | .ok _ s => decide (encodedLen s + CHUNK_OVERHEAD ≤ METADATA_LIMIT)
    | .error _ _ => false) = true := by decide +kernel

theorem rm_erases_one : ∃ H s s' f F' t, Steady standin "pw" H s ∧
    handleRm standin "a" s = .ok () s' ∧ s'.host.contents s.vars.vaultPath = some F' ∧
    Erased s.vars.currentPayloadOffset.toNat f (s.host.data s.vars.fd) F' ∧
    handleEnter standin s.vars.vaultPath "pw" (s'.setFault none) = .ok () t ∧
    t.vars.metadata = s'.vars.metadata := by
  have heval := importOne_eval
  split at heval
  case h_2 => cases heval
  rename_i s' hrun
  obtain ⟨⟨⟩, s, hbefore, hrm⟩ := bind_eq_ok hrun
  obtain ⟨⟨⟩, s₁, hcreate, hbefore⟩ := bind_eq_ok hbefore
  obtain ⟨⟨⟩, s₂, henter, himport⟩ := bind_eq_ok hbefore
  obtain ⟨H, hcreated⟩ := sessions_createOwn hcreate henter
  have hstep : (Op.importBytes [1, 2, 3] "a").run standin s₂ = .ok true s := run_of_ok himport
  have hspares : (Op.importBytes [1, 2, 3] "a").Spares s₂ := trivial
  have hsteady : Steady standin "pw" H s := (hcreated _ _).done hspares hstep
  obtain ⟨l₁, f, l₂, F', -, -, hnamed, -, herased, hreload⟩ :=
    rm_erases standin_ideal hsteady hrm
  obtain ⟨t, hload, hmeta, -⟩ := hreload.mpr ⟨_, rfl, of_decide_eq_true heval⟩
  exact ⟨H, s, s', f, F', t, hsteady, hrm, hnamed, herased, hload, hmeta⟩

def importEmpty : Cmd Unit := do
  createOwn
  handleEnter standin ownPath "pw"
  handleImportFromBytes standin [] "a"

/-- The vacuum has renamed its file when it finds no descriptor left to open it with. -/
def outOfFiles : Option Fault := some ⟨15, 0, "Too many open files (os error 24)"⟩

def arm (g : Option Fault) : Cmd Unit := fun s => .ok () (s.setFault g)

/-- A command that is to fail. -/
def failing (x : Cmd Unit) : Cmd Unit := fun s =>
  match x s with
  | .ok _ s' => .error (.text "did not fail") s'
  | .error _ s' => .ok () s'

theorem failing_eq_ok {x : Cmd Unit} {s s' : Env Session} (h : failing x s = .ok () s') :
    ∃ e, x s = .error e s' := by
  unfold failing at h
  split at h
  · cases h
  · rename_i e _ hx
    cases h
    exact ⟨e, hx⟩

set_option maxRecDepth 100000 in
theorem importEmpty_eval : (match (do
      importEmpty
      arm outOfFiles
      failing (shellVacuum standin)
      arm none
      handleRm standin "a"
      handleEnter standin ownPath "pw" : Cmd Unit) start with
    | .ok _ s => hasName s.vars.metadata.fileTable "a"
    | .error _ _ => false) = true := by decide +kernel

theorem Sessions.setFault {cr : Crates} {s : Env Session} (h : Sessions cr password H Done Failed s)
    (hheld : Held s) (g : Option Fault) : Sessions cr password H Done Failed (s.setFault g) :=
  h.outside rfl rfl rfl rfl hheld.fresh hheld.fd_lt

/-- After a vacuum that could not open its result the session is on a file without a name, and a
removal goes there. -/
theorem rm_after_failed_vacuum : ¬∀ (H : Bytes) (s s' t : Env Session),
    Sessions standin "pw" H (fun _ _ => True) (fun _ _ => True) s →
    handleRm standin "a" s = .ok () s' →
    handleEnter standin ownPath "pw" s' = .ok () t →
    ¬hasName t.vars.metadata.fileTable "a" = true := by
  intro hall
  have heval := importEmpty_eval
  split at heval
  case h_2 => cases heval
  rename_i t hrun
  obtain ⟨⟨⟩, s₃, hbefore, hrun⟩ := bind_eq_ok hrun
  obtain ⟨⟨⟩, s₄, harm, hrun⟩ := bind_eq_ok hrun
  obtain ⟨⟨⟩, s₅, hfailing, hrun⟩ := bind_eq_ok hrun
  obtain ⟨⟨⟩, s, hdisarm, hrun⟩ := bind_eq_ok hrun
  obtain ⟨⟨⟩, s', hrm, hload⟩ := bind_eq_ok hrun
  obtain ⟨⟨⟩, s₁, hcreate, hbefore⟩ := bind_eq_ok hbefore
  obtain ⟨⟨⟩, s₂, henter, himport⟩ := bind_eq_ok hbefore
  cases harm
  cases hdisarm
  obtain ⟨H, hcreated⟩ := sessions_createOwn hcreate henter
  have hkept := Steady.kept standin_ideal (hcreated Op.Spares Op.Mild)
  have hheld₂ : Held s₂ := hkept.sound.held
  have hstep : (Op.importBytes [] "a").run standin s₂ = .ok true s₃ := run_of_ok himport
  have hheld₃ := wp_of_ok (hheld₂.run _) hstep
  obtain ⟨e, hvacuum⟩ := failing_eq_ok hfailing
  have hfailed : Op.vacuum.run standin (s₃.setFault outOfFiles) = .error e s₅ := by
    show EStateM.bind (shellVacuum standin) _ _ = _
    rw [EStateM.bind, hvacuum]
  have hheld₃' : Held (s₃.setFault outOfFiles) := ⟨hheld₃.fresh, hheld₃.fd_lt, hheld₃.ino_lt⟩
  have hheld₅ := wp_of_error (hheld₃'.run _) hfailed
  have h₃ : Sessions standin "pw" H (fun _ _ => True) (fun _ _ => True) s₃ :=
    (hcreated _ _).done trivial hstep
  have h₅ : Sessions standin "pw" H (fun _ _ => True) (fun _ _ => True) s₅ :=
    (h₃.setFault hheld₃ outOfFiles).failed trivial hfailed
  exact hall H _ _ _ (h₅.setFault hheld₅ none) hrm hload heval

end AtomVault
