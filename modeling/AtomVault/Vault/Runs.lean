import AtomVault.Vault.Import
import AtomVault.Vault.Remove
import AtomVault.Vault.Vacuum
import AtomVault.Vault.Open
import AtomVault.Vault.Instance

/-!
# Runs of a session

A session starts on a created or a loaded vault and goes on through any commands, also
through those that return an error before their metadata save begins.
-/

open Lib

namespace AtomVault

inductive Op
  | importBytes (data : Bytes) (vfsName : String)
  | importFile (env : PathEnv) (fromDisk vfsName : String)
  | rm (vfsName : String)
  | rename (oldName newName : String)
  | vacuum

namespace Op

/-- The command, and whether it saved. -/
def run (cr : Crates) : Op → Cmd Bool
  | importBytes data name => do handleImportFromBytes cr data name; return true
  | importFile env fromDisk name => do handleImport cr env fromDisk name; return true
  | rm name => do handleRm cr name; return true
  | rename oldName newName => handleRename cr oldName newName
  | vacuum => do shellVacuum cr; return true

/-- The command up to its metadata save. -/
def prepare (cr : Crates) : Op → Cmd Unit
  | importBytes data name => importBytesPrepare cr data name
  | importFile env fromDisk name => do let _ ← importPrepare cr env fromDisk name
  | rm name => rmPrepare name
  | rename oldName newName => do let _ ← renamePrepare oldName newName
  | vacuum => pure ()

/-- An import does not take the container itself out of the staging area. -/
def Spares : Op → Env Session → Prop
  | importFile env fromDisk _, s => ∀ path, env.stagedPath fromDisk = .ok path →
      s.host.names path ≠ some (s.host.ino s.vars.fd)
  | _, _ => True

end Op

/-- Inodes are given out in order. -/
def Fresh (h : Host) : Prop := ∀ path i, h.names path = some i → i < h.nextIno

def headerOf (F : Bytes) : Bytes := slice F 8 (VAULT_HEADER_SIZE - 8)

/-- The sessions of a vault created with the header `H`, with a mark on those that were just
saved. `Meets` is asked of every command. A vault is loaded from any copy of a file that a saved
session left. -/
inductive Reaches (cr : Crates) (password : String) (H : Bytes) (Meets : Op → Env Session → Prop) :
    Bool → Env Session → Prop
  | created {s s₁ s₂ : Env Session} {path : String} {settings : KdfSettings} {i : Nat}
      (fresh : Fresh s.host) (create : handleCreate cr path password settings s = .ok () s₁)
      (file : s₁.host.names path = some i) (header : headerOf (s₁.host.files i).bytes = H)
      (enter : handleEnter cr path password s₁ = .ok () s₂) : Reaches cr password H Meets true s₂
  | loaded {s₀ s s' : Env Session} {path : String} {i : Nat}
      (reached : Reaches cr password H Meets true s₀) (fresh : Fresh s.host)
      (file : s.host.names path = some i) (copy : (s.host.files i).bytes = s₀.host.data s₀.vars.fd)
      (enter : handleEnter cr path password s = .ok () s') : Reaches cr password H Meets true s'
  | done {s s' : Env Session} {b saved : Bool} {op : Op} (reached : Reaches cr password H Meets b s)
      (meets : Meets op s) (run : op.run cr s = .ok saved s') :
      Reaches cr password H Meets (saved || b) s'
  | failed {s s' : Env Session} {b : Bool} {op : Op} {e : VaultError}
      (reached : Reaches cr password H Meets b s) (meets : Meets op s)
      (run : op.prepare cr s = .error e s') : Reaches cr password H Meets false s'

/-- What every session of a vault keeps. -/
structure Kept (cr : Crates) (password : String) (H : Bytes) (b : Bool) (s : Env Session) : Prop where
  sound : Sound H s
  unlocks : unlock cr (s.host.data s.vars.fd) password = some s.vars.unlockedVault
  stored : b = true → Stored cr s

variable {cr : Crates} {password : String} {H : Bytes}

theorem unlock_of_sound {s s' : Env Session} (hs : Sound H s) (hs' : Sound H s')
    (hv : s'.vars.unlockedVault = s.vars.unlockedVault)
    (h : unlock cr (s.host.data s.vars.fd) password = some s.vars.unlockedVault) :
    unlock cr (s'.host.data s'.vars.fd) password = some s'.vars.unlockedVault := by
  rw [hv, ← h]
  exact unlock_congr (hs'.header.trans hs.header.symm)

theorem Kept.step {s s' : Env Session} {b b' : Bool} (h : Kept cr password H b s)
    (hs' : Sound H s') (hv : s'.vars.unlockedVault = s.vars.unlockedVault)
    (hstored : b' = true → Stored cr s') : Kept cr password H b' s' :=
  ⟨hs', unlock_of_sound h.sound hs' hv h.unlocks, hstored⟩

theorem Kept.saves {s s₁ s' : Env Session} {b b' : Bool} {blob : Bytes}
    (h : Kept cr password H b s) (hs₁ : Sound H s₁)
    (hv : s₁.vars.unlockedVault = s.vars.unlockedVault) (hsave : Saves cr blob s₁ s') :
    Kept cr password H b' s' := by
  obtain ⟨hs', hst⟩ := hs₁.of_saves hsave
  exact h.step hs' (by rw [hsave.touches.vars, hv]) fun _ => hst

/-! ## Where a session starts -/

/-- The bytes of a file that describes a vault. -/
structure OnDisk (cr : Crates) (password : String) (H F : Bytes) (m : VaultMetadata)
    (v : UnlockedVault) (off : UInt64) : Prop where
  header : headerOf F = H
  unlocks : unlock cr F password = some v
  layout : Layout m.fileTable off.toNat
  header_le : VAULT_HEADER_SIZE ≤ off.toNat
  fits : off.toNat ≤ F.length
  pointer : masterPointer F = off
  blob : ∃ blob, Seals cr v m blob ∧ F.drop off.toNat = blob ∧ F.length = off.toNat + blob.length

section OnDisk

variable {F : Bytes} {m : VaultMetadata} {v : UnlockedVault} {off : UInt64}

theorem OnDisk.openBytes_eq (h : OnDisk cr password H F m v off) (hF : F.length ≤ maxLen) :
    openBytes cr F password =
      (readMetadata cr v ((F.drop off.toNat).take METADATA_LIMIT)).map (·, v, off) := by
  rw [openBytes_of_unlock (h.header_le.trans h.fits) h.unlocks
    (by rw [h.pointer]; exact h.fits.trans hF), h.pointer]
  rfl

theorem OnDisk.openBytes (hi : cr.Ideal) (h : OnDisk cr password H F m v off)
    (hF : F.length ≤ maxLen) (hfits : Fits cr m) : openBytes cr F password = some (m, v, off) := by
  obtain ⟨blob, hseals, hdrop, -⟩ := h.blob
  rw [h.openBytes_eq hF, hdrop, hseals.readMetadata_take hi hfits]
  rfl

theorem OnDisk.fits_of_open (hi : cr.Ideal) (h : OnDisk cr password H F m v off)
    (hF : F.length ≤ maxLen) (hopen : AtomVault.openBytes cr F password ≠ none) : Fits cr m := by
  obtain ⟨blob, hseals, hdrop, -⟩ := h.blob
  apply hseals.fits_of_take hi
  intro hnone
  rw [h.openBytes_eq hF, hdrop, hnone] at hopen
  exact hopen rfl

end OnDisk

theorem Kept.onDisk {s : Env Session} (h : Kept cr password H true s) :
    OnDisk cr password H (s.host.data s.vars.fd) s.vars.metadata s.vars.unlockedVault
      s.vars.currentPayloadOffset :=
  ⟨h.sound.header, h.unlocks, h.sound.layout, h.sound.header_le, h.sound.fits,
    (h.stored rfl).pointer, (h.stored rfl).blob⟩

theorem OnDisk.of_created {F blob : Bytes} {m : VaultMetadata} {v : UnlockedVault}
    (hlen : F.length = VAULT_HEADER_SIZE) (hv : unlock cr F password = some v)
    (hm : m.fileTable = []) (hseals : Seals cr v m blob) :
    OnDisk cr password (headerOf (saved F VAULT_HEADER_SIZE blob)) (saved F VAULT_HEADER_SIZE blob)
      m v (UInt64.ofNat VAULT_HEADER_SIZE) := by
  have hsize : VAULT_HEADER_SIZE = 125 := rfl
  have hoff : (UInt64.ofNat VAULT_HEADER_SIZE).toNat = VAULT_HEADER_SIZE := rfl
  have hsaved : (saved F VAULT_HEADER_SIZE blob).length = VAULT_HEADER_SIZE + blob.length :=
    length_saved (by omega) (ge_of_eq hlen)
  have hptr := @masterPointer_saved F blob (UInt64.ofNat VAULT_HEADER_SIZE)
  rw [hoff] at hptr
  refine ⟨rfl, ?_, ?_, ge_of_eq hoff, ?_, hptr, blob, hseals, ?_, ?_⟩
  · rw [← hv]
    exact unlock_congr (slice_saved (by omega) (by omega) (ge_of_eq hlen))
  · rw [hm]
    exact Layout.nil _
  · rw [hoff, hsaved]
    omega
  · rw [hoff]
    exact drop_saved (by omega) (ge_of_eq hlen)
  · rw [hoff, hsaved]

theorem Kept.of_entered {s s' : Env Session} {path : String} {i : Nat} {m : VaultMetadata}
    {v : UnlockedVault} {off : UInt64} (hfresh : Fresh s.host) (hfile : s.host.names path = some i)
    (hdisk : OnDisk cr password H (s.host.files i).bytes m v off)
    (h : Entered path i m v off s s') : Kept cr password H true s' := by
  have hdata := h.data
  refine ⟨⟨?_, ?_, ?_, ?_, ?_, ?_, ?_⟩, ?_, fun _ => ⟨?_, ?_⟩⟩
  · rw [h.names, h.vars, h.ino]; exact hfile
  · rw [h.names, h.nextIno]; exact hfresh
  · rw [h.vars, h.nextFd]; exact Nat.lt_succ_self _
  · rw [h.vars]; exact hdisk.layout
  · rw [hdata]; exact hdisk.header
  · rw [h.vars]; exact hdisk.header_le
  · rw [hdata, h.vars]; exact hdisk.fits
  · rw [hdata, h.vars]; exact hdisk.unlocks
  · rw [hdata, h.vars]; exact hdisk.pointer
  · rw [hdata, h.vars]; exact hdisk.blob

theorem Kept.of_enter (hi : cr.Ideal) {s s' : Env Session} {path : String} {i : Nat}
    {m : VaultMetadata} {v : UnlockedVault} {off : UInt64} (hfresh : Fresh s.host)
    (hfile : s.host.names path = some i)
    (hdisk : OnDisk cr password H (s.host.files i).bytes m v off)
    (henter : handleEnter cr path password s = .ok () s') :
    Kept cr password H true s' ∧ Entered path i m v off s s' ∧ Fits cr m := by
  have hspec : wp (handleEnter cr path password)
      (fun _ s' => Entered path i m v off s s' ∧ Fits cr m) (fun _ _ => True) s := by
    apply wp_handleEnter
    · exact fun _ _ _ => trivial
    intro j m' v' off' s' hj hopen h
    obtain rfl : i = j := Option.some.inj (hfile.symm.trans hj)
    have hfits := hdisk.fits_of_open hi (s.host.files i).fits (by rw [hopen]; simp)
    rw [hdisk.openBytes hi (s.host.files i).fits hfits] at hopen
    obtain ⟨rfl, rfl, rfl⟩ : m = m' ∧ v = v' ∧ off = off' := by simpa using hopen
    exact ⟨h, hfits⟩
  obtain ⟨h, hfits⟩ := wp_of_ok hspec henter
  exact ⟨Kept.of_entered hfresh hfile hdisk h, h, hfits⟩

theorem Created.fresh {σ : Type} {path : String} {s s' : Env σ} (h : Created cr path password s s')
    (hfresh : Fresh s.host) : Fresh s'.host := by
  intro p i hp
  rw [h.names] at hp
  rw [h.nextIno]
  exact bounded_update hfresh path p i hp

theorem created_of_ok (hi : cr.Ideal) {path : String} {settings : KdfSettings} {σ : Type}
    {s s' : Env σ} (h : handleCreate cr path password settings s = .ok () s') :
    Created cr path password s s' := by
  have hspec : wp (handleCreate cr path password settings)
      (fun _ s' => Created cr path password s s') (fun _ _ => True) s :=
    wp_handleCreate hi fun _ h => h
  have hcreated := wp_of_ok hspec h
  exact hcreated

theorem Kept.of_create (hi : cr.Ideal) {s s₁ s₂ : Env Session} {path : String}
    {settings : KdfSettings} {i : Nat} (hfresh : Fresh s.host)
    (hcreate : handleCreate cr path password settings s = .ok () s₁)
    (hfile : s₁.host.names path = some i)
    (henter : handleEnter cr path password s₁ = .ok () s₂) :
    Kept cr password (headerOf (s₁.host.files i).bytes) true s₂ ∧
      s₂.vars.metadata.fileTable = [] ∧ Fits cr s₂.vars.metadata := by
  have hc := created_of_ok hi hcreate
  obtain ⟨F, v, m, blob, hlen, hv, hm, hseals, hbytes⟩ := hc.file
  obtain rfl : i = s.host.nextIno := by
    rw [hc.names, Function.update_self] at hfile
    exact (Option.some.inj hfile).symm
  have hdisk := OnDisk.of_created hlen hv hm hseals
  rw [← hbytes] at hdisk
  obtain ⟨hkept, h, hfits⟩ := Kept.of_enter hi (hc.fresh hfresh) hfile hdisk henter
  exact ⟨hkept, by rw [h.vars]; exact hm, by rw [h.vars]; exact hfits⟩

/-! ## Every command keeps it -/

theorem Prepared.vault {name : String} {data : Bytes} {f : FileIndex} {s s' : Env Session}
    (h : Prepared cr name data f s s') : s'.vars.unlockedVault = s.vars.unlockedVault := by
  rw [h.vars]
  rfl

theorem Kept.run (hi : cr.Ideal) {op : Op} {s : Env Session} {b : Bool}
    (h : Kept cr password H b s) (ha : op.Spares s) :
    wp (op.run cr)
      (fun saved s' => Kept cr password H (saved || b) s' ∧ GoesOn s.host.fault s'.host.fault)
      (fun _ _ => True) s := by
  have hs := h.sound
  cases op with
  | importBytes data name =>
    unfold Op.run
    rw [wp_bind]
    apply wp_handleImportFromBytes hi hs.fits
    · exact fun _ => trivial
    · exact fun _ _ _ _ => trivial
    · exact fun _ _ _ _ _ _ _ => trivial
    · intro f blob s₁ s' hprep hsave
      exact ⟨h.saves (hprep.sound hs) hprep.vault hsave, hprep.host.fault.trans hsave.touches.fault⟩
  | importFile env fromDisk name =>
    unfold Op.run
    rw [wp_bind]
    apply wp_handleImport hi hs.fd_lt hs.fits ha
    · exact fun _ _ => trivial
    · exact fun _ => trivial
    · exact fun _ _ _ _ => trivial
    · exact fun _ _ _ _ _ _ _ _ _ => trivial
    · intro data f blob path s₁ s₂ s' _ hprep hsave hshred hpath
      have h₂ : Kept cr password H true s₂ := h.saves (hprep.sound hs) hprep.vault hsave
      refine ⟨h₂.step (hshred.sound h₂.sound hpath) (by rw [hshred.vars])
        fun _ => hshred.stored (h₂.stored rfl), ?_⟩
      exact (hprep.host.fault.trans hsave.touches.fault).trans hshred.fault
  | rm name =>
    unfold Op.run
    rw [wp_bind]
    apply wp_handleRm hi hs
    · exact fun _ => trivial
    · exact fun _ _ _ _ _ _ _ _ => trivial
    · exact fun _ _ _ _ _ _ _ _ _ _ => trivial
    · intro i f blob s₁ s' hf _ hrem hsave
      exact ⟨h.saves (hrem.sound hs hf) (by rw [hrem.vars]; rfl) hsave,
        hrem.host.fault.trans hsave.touches.fault⟩
  | rename oldName newName =>
    unfold Op.run
    apply wp_handleRename hi hs.fits
    · exact fun _ _ => trivial
    · exact fun _ => ⟨h, GoesOn.refl _⟩
    · exact fun _ _ _ _ _ _ _ => trivial
    · intro blob s' _ hold hnew hsave
      exact ⟨h.saves (hs.renamed hold hnew) rfl hsave, hsave.touches.fault⟩
  | vacuum =>
    unfold Op.run
    rw [wp_bind]
    apply wp_shellVacuum hi hs
    · exact fun _ _ _ _ => trivial
    · intro s' hvac
      exact ⟨h.step hvac.sound hvac.vault fun _ => hvac.stored, hvac.fault⟩

theorem Kept.prepare (hi : cr.Ideal) {op : Op} {s : Env Session} {b : Bool}
    (h : Kept cr password H b s) (ha : op.Spares s) :
    wp (op.prepare cr) (fun _ _ => True) (fun _ s' => Kept cr password H false s') s := by
  have hs := h.sound
  have hpart : ∀ {n : Nat} {s' : Env Session}, Partial n s s' → Kept cr password H false s' :=
    fun hp => h.step (hp.sound hs) (by rw [hp.vars]) (by simp)
  have hsame : Kept cr password H false s := h.step hs rfl (by simp)
  cases op with
  | importBytes data name =>
    unfold Op.prepare
    apply wp_importBytesPrepare hi hs.fits
    · exact fun _ => hsame
    · exact fun _ _ _ hp => hpart hp
    · exact fun _ _ _ _ _ _ _ _ _ => trivial
  | importFile env fromDisk name =>
    unfold Op.prepare
    rw [wp_bind]
    apply wp_importPrepare hi hs.fd_lt hs.fits ha
    · exact fun _ _ => hsame
    · exact fun _ => hsame
    · exact fun _ _ _ hp => hpart hp
    · exact fun _ _ _ _ _ _ _ _ _ _ _ _ _ => trivial
  | rm name =>
    unfold Op.prepare
    apply wp_rmPrepare hs
    · exact fun _ => hsame
    · intro _ i f t s' hf _ hrem
      refine h.step (hrem.sound hs hf) ?_ (by simp)
      rcases hrem.vars with hv | hv <;> rw [hv]
      rfl
    · exact fun _ _ _ _ _ _ => trivial
  | rename oldName newName =>
    unfold Op.prepare
    rw [wp_bind]
    apply wp_renamePrepare
    · exact fun _ _ => hsame
    · exact fun _ => trivial
    · exact fun _ _ _ => trivial
  | vacuum => trivial

theorem Reaches.kept (hi : cr.Ideal) {b : Bool} {s : Env Session}
    (h : Reaches cr password H Op.Spares b s) : Kept cr password H b s := by
  induction h with
  | created fresh create file header enter =>
    rw [← header]
    exact (Kept.of_create hi fresh create file enter).1
  | loaded _ fresh file copy enter ih =>
    have hdisk := ih.onDisk
    rw [← copy] at hdisk
    exact (Kept.of_enter hi fresh file hdisk enter).1
  | done _ spares run ih =>
    obtain ⟨hkept, -⟩ := wp_of_ok (ih.run hi spares) run
    exact hkept
  | failed _ spares run ih =>
    have hkept := wp_of_error (ih.prepare hi spares) run
    exact hkept

/-- No vault yet, and a session that `handleEnter` replaces. -/
def start : Env Session := ⟨Host.blank, ⟨"", 0, ⟨[]⟩, ⟨[], ⟨List.replicate 32 0, rfl⟩⟩, 0⟩⟩

theorem fresh_start : Fresh start.host := by
  intro path i h
  cases h

def ownPath : String := "/r/atom_staging/v"

def createOwn : Cmd Unit := handleCreate standin ownPath "pw" ⟨.argon2id, 1, 1, 1⟩

theorem run_of_ok {x : Cmd Unit} {s s' : Env Session} (h : x s = .ok () s') :
    (do x; return true : Cmd Bool) s = .ok true s' := by
  show EStateM.bind x _ s = _
  rw [EStateM.bind, h]
  rfl

def ownEnv : PathEnv := ⟨some "/r", none, some⟩

/-- The vault imports its own container, up to the shredder. -/
def importOwn : Cmd (String × Nat) := do
  createOwn
  handleEnter standin ownPath "pw"
  let staged ← importPrepare standin ownEnv ownPath "copy"
  saveSession standin
  return staged

def ownOp : Op := .importFile ownEnv ownPath "copy"

def createdOwn (s : Env Session) : Bool :=
  s.host.names ownPath == some 0 && (headerOf (s.host.files 0).bytes).any (· != 0)

def importedOwn (file : Nat) (s : Env Session) : Bool :=
  s.host.fault.isNone && s.host.ino file == s.host.ino s.vars.fd &&
    decide ((Bincode.vaultMetadata.enc s.vars.metadata).length + CHUNK_OVERHEAD ≤ METADATA_LIMIT) &&
    (s.vars.metadata.fileTable.find? (·.vfsName == "copy")).any (!·.chunks.isEmpty)

set_option maxRecDepth 100000 in
theorem createOwn_eval : (match createOwn start with
    | .ok _ s => createdOwn s
    | .error _ _ => false) = true := by decide +kernel

set_option maxRecDepth 100000 in
theorem importOwn_eval : (match importOwn start with
    | .ok (_, file) s => importedOwn file s
    | .error _ _ => false) = true := by decide +kernel

/-- What the import leaves. -/
structure Shredded (s : Env Session) : Prop where
  zeros : ∃ n, s.host.data s.vars.fd = List.replicate n 0
  fits : Fits standin s.vars.metadata
  entry : ∃ f, s.vars.metadata.fileTable.find? (·.vfsName == "copy") = some f ∧ f.chunks ≠ []

theorem importOwn_shreds : ∃ s₁ s₂ s', createOwn start = .ok () s₁ ∧ createdOwn s₁ = true ∧
    handleEnter standin ownPath "pw" s₁ = .ok () s₂ ∧ ownOp.run standin s₂ = .ok true s' ∧
    Shredded s' := by
  have hcreated := createOwn_eval
  have himported := importOwn_eval
  split at himported
  case h_2 => cases himported
  rename_i staged file s₄ hrun
  obtain ⟨⟨⟩, s₁, hcreate, hrun⟩ := bind_eq_ok hrun
  obtain ⟨⟨⟩, s₂, henter, hrun⟩ := bind_eq_ok hrun
  obtain ⟨⟨path, file'⟩, s₃, hprepare, hrun⟩ := bind_eq_ok hrun
  obtain ⟨⟨⟩, s₄', hsave, hrun⟩ := bind_eq_ok hrun
  cases hrun
  rw [hcreate] at hcreated
  simp only [importedOwn, Bool.and_eq_true, Option.isNone_iff_eq_none, beq_iff_eq,
    decide_eq_true_eq, Option.any_eq_true] at himported
  obtain ⟨⟨⟨hfault, hino⟩, hfits⟩, f, hf, hchunks⟩ := himported
  have hspec : wp (handleImport standin ownEnv ownPath "copy") (fun _ s' => Shredded s')
      (fun _ _ => False) s₂ := by
    unfold handleImport
    rw [wp_bind]
    apply wp_of_eq_ok hprepare
    dsimp only
    rw [wp_bind]
    apply wp_of_eq_ok hsave
    apply wp_shred_zeros hfault
    intro s' hvars hino' hzeros
    have hdata : s'.host.data s'.vars.fd = s'.host.data file := by
      unfold Host.data
      rw [hino', hino', hvars, hino]
    refine ⟨⟨_, hdata.trans hzeros⟩, ?_, f, ?_, by simpa using hchunks⟩
    · rw [hvars]
      exact ⟨_, rfl, hfits⟩
    · rw [hvars]
      exact hf
  obtain ⟨⟨⟩, s', himport, hshredded⟩ := ok_of_wp hspec
  refine ⟨s₁, s₂, s', hcreate, hcreated, henter, ?_, hshredded⟩
  show EStateM.bind (handleImport standin ownEnv ownPath "copy") (fun _ => pure true) s₂ = _
  rw [EStateM.bind, himport]
  rfl

theorem createdOwn_iff {s : Env Session} : createdOwn s = true ↔
    s.host.names ownPath = some 0 ∧ ∃ x ∈ headerOf (s.host.files 0).bytes, x ≠ 0 := by
  simp [createdOwn]

end AtomVault
