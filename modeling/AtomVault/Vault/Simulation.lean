import AtomVault.Vault.Refinement

/-!
# Runs of a vault

Every run of commands on a host that serves them follows the map, with the vault closed and loaded
again at any point.
-/

open Lib

namespace AtomVault

/-- The runs from a created vault, and the map each of them stands for. `Meets` is asked of every
command. -/
inductive Runs (cr : Crates) (password : String) (Meets : Op → Env Session → Prop) :
    Env Session → Files → Prop
  | created {s s₁ s₂ : Env Session} {path : String} {settings : KdfSettings}
      (fresh : Fresh s.host) (noFault : s.host.fault = none)
      (create : handleCreate cr path password settings s = .ok () s₁)
      (enter : handleEnter cr path password s₁ = .ok () s₂) :
      Runs cr password Meets s₂ fun _ => none
  | step {s : Env Session} {M : Files} (op : Op) (run : Runs cr password Meets s M)
      (meets : Meets op s) (served : op.Served cr s)
      (fits : Fits cr (finalState (op.run cr s)).vars.metadata) :
      Runs cr password Meets (finalState (op.run cr s)) (op.apply s.host M)
  | reopen {s : Env Session} {M : Files} (run : Runs cr password Meets s M) :
      Runs cr password Meets (finalState (handleEnter cr s.vars.vaultPath password s)) M

variable {cr : Crates} {password : String} {H : Bytes}

theorem Runs.done {s s' : Env Session} {M : Files} {op : Op} {saved : Bool}
    {Meets : Op → Env Session → Prop} (h : Runs cr password Meets s M) (meets : Meets op s)
    (served : op.Served cr s) (run : op.run cr s = .ok saved s') (fits : Fits cr s'.vars.metadata) :
    Runs cr password Meets s' (op.apply s.host M) := by
  have hstep := h.step op meets served (by rw [run]; exact fits)
  rw [run] at hstep
  exact hstep

theorem Runs.refines (hi : cr.Ideal) {s : Env Session} {M : Files} (h : Runs cr password Op.Spares s M) :
    ∃ H, Refines cr password H s M := by
  induction h with
  | created fresh noFault create enter =>
    exact refines_of_created hi fresh noFault create enter
  | step op _ spares served fits ih =>
    obtain ⟨H, h⟩ := ih
    exact ⟨H, h.run hi spares served fits⟩
  | reopen _ ih =>
    obtain ⟨H, h⟩ := ih
    obtain ⟨s', henter, h'⟩ := h.enters hi
    rw [henter]
    exact ⟨H, h'⟩

/-- **The vault refines a finite map.** After every run the names in the table are the keys, every
live name reads back the bytes imported under it, every other name is not found, and the vault can
be closed and loaded again. -/
theorem vault_refines_map (hi : cr.Ideal) {s : Env Session} {M : Files}
    (h : Runs cr password Op.Spares s M) :
    (∀ name, (∃ f ∈ s.vars.metadata.fileTable, f.vfsName = name) ↔ M name ≠ none) ∧
    (∀ name b, M name = some b → ∃ s', decryptToBytes cr name s = .ok b s') ∧
    (∀ name, M name = none → decryptToBytes cr name s =
      .error (.text s!"Error: File '{name}' not found in vault.") s) ∧
    ∃ s', handleEnter cr s.vars.vaultPath password s = .ok () s' := by
  obtain ⟨H, hr⟩ := h.refines hi
  have hnames := hr.shows.hasName_iff
  refine ⟨?_, ?_, ?_, ?_⟩
  · intro name
    rw [← hnames name, hasName_iff]
  · intro name b hb
    obtain ⟨f, hf, rfl⟩ := hr.shows.only name b hb
    obtain ⟨b', hread, hb'⟩ := hr.shows.live f hf
    obtain rfl : b' = b := Option.some.inj (hb'.symm.trans hb)
    exact (decryptToBytes_eq_ok_iff hr.kept.sound hr.noFault hf).mpr hread
  · intro name hnone
    apply decryptToBytes_missing
    rw [hnames name]
    exact not_not.mpr hnone
  · obtain ⟨s', henter, -⟩ := hr.enters hi
    exact ⟨s', henter⟩

/-! ## A run of four commands -/

instance (cr : Crates) (m : VaultMetadata) : Decidable (Fits cr m) :=
  match h : cr.serialize m with
  | .ok b => decidable_of_iff (b.length + CHUNK_OVERHEAD ≤ METADATA_LIMIT) (by simp [Fits, h])
  | .error _ => .isFalse (by simp [Fits, h])

instance (op : Op) (s : Env Session) : Decidable (op.Spares s) :=
  match op with
  | .importFile env fromDisk _ => decidable_of_iff
      (∀ path ∈ (env.stagedPath fromDisk).toOption, s.host.names path ≠ some (s.host.ino s.vars.fd))
      (by cases hpath : env.stagedPath fromDisk <;> simp [Op.Spares, hpath, Except.toOption])
  | .importBytes _ _ => .isTrue trivial
  | .rm _ => .isTrue trivial
  | .rename _ _ => .isTrue trivial
  | .vacuum => .isTrue trivial

/-- The commands one after the other, as long as the host serves them. -/
def serve (cr : Crates) : List Op → Env Session → Files → Option (Env Session × Files)
  | [], s, M => some (s, M)
  | op :: ops, s, M =>
    let s' := finalState (op.run cr s)
    if op.Spares s ∧ op.Served cr s ∧ Fits cr s'.vars.metadata then
      serve cr ops s' (op.apply s.host M)
    else none

theorem Runs.serve {ops : List Op} : ∀ {s s' : Env Session} {M M' : Files},
    Runs cr password Op.Spares s M → AtomVault.serve cr ops s M = some (s', M') →
    Runs cr password Op.Spares s' M' := by
  induction ops with
  | nil =>
    intro s s' M M' h hserve
    cases hserve
    exact h
  | cons op ops ih =>
    intro s s' M M' h hserve
    unfold AtomVault.serve at hserve
    dsimp only at hserve
    split at hserve
    · rename_i hgo
      exact ih (h.step op hgo.1 hgo.2.1 hgo.2.2) hserve
    · cases hserve

def stagedFile : String := "/r/atom_staging/x"

/-- A file in the staging area, and no vault yet. -/
def stagedStart : Env Session :=
  { start with host :=
    { Host.blank.setFile 0 ⟨[7, 8], by decide⟩ with
      names := Function.update (fun _ => none) stagedFile (some 0)
      nextIno := 1 } }

theorem fresh_stagedStart : Fresh stagedStart.host :=
  bounded_update (fun _ _ h => by cases h) stagedFile

def fourOps : List Op :=
  [.importFile ownEnv stagedFile "a", .importBytes [4] "b", .rename "a" "c", .rm "b"]

def enterOwn : Cmd Unit := do
  createOwn
  handleEnter standin ownPath "pw"

def servesAll (s : Env Session) : Bool :=
  match serve standin fourOps s (fun _ => none) with
  | some (_, M) => decide (M "c" = some [7, 8]) && decide (M "b" = none)
  | none => false

set_option maxRecDepth 100000 in
theorem fourOps_eval : (match enterOwn stagedStart with
    | .ok _ s => servesAll s
    | .error _ _ => false) = true := by decide +kernel

/-- A staged file and another one are imported, the first is renamed and the second removed, and the
vault is closed and loaded. -/
theorem vault_refines_map_four : ∃ s M, Runs standin "pw" Op.Spares s M ∧ M "c" = some [7, 8] ∧
    (∃ s', decryptToBytes standin "c" s = .ok [7, 8] s') ∧
    decryptToBytes standin "b" s = .error (.text "Error: File 'b' not found in vault.") s := by
  have heval := fourOps_eval
  split at heval
  case h_2 => cases heval
  rename_i s₂ henter
  obtain ⟨⟨⟩, s₁, hcreate, henter⟩ := bind_eq_ok henter
  unfold servesAll at heval
  split at heval
  case h_2 => cases heval
  rename_i s M hserve
  simp only [Bool.and_eq_true, decide_eq_true_eq] at heval
  obtain ⟨hc, hb⟩ := heval
  have hcreated : Runs standin "pw" Op.Spares s₂ fun _ => none :=
    .created fresh_stagedStart rfl hcreate henter
  have hruns := (hcreated.serve hserve).reopen
  obtain ⟨-, hlive, hmissing, -⟩ := vault_refines_map standin_ideal hruns
  exact ⟨_, M, hruns, hc, hlive "c" _ hc, hmissing "b" hb⟩

/-! ## Two files -/

/-- The states of `importPair`. -/
structure Pair (s₁ s₂ s₃ s : Env Session) : Prop where
  create : createOwn start = .ok () s₁
  enter : handleEnter standin ownPath "pw" s₁ = .ok () s₂
  first : (Op.importBytes [1, 2, 3] "a").run standin s₂ = .ok true s₃
  second : (Op.importBytes [4] "b").run standin s₃ = .ok true s

def checkPair (check : Env Session → Env Session → Env Session → Bool) : Bool :=
  match enterOwn start with
  | .error _ _ => false
  | .ok _ s₂ => match handleImportFromBytes standin [1, 2, 3] "a" s₂ with
    | .error _ _ => false
    | .ok _ s₃ => match handleImportFromBytes standin [4] "b" s₃ with
      | .error _ _ => false
      | .ok _ s => check s₂ s₃ s

theorem Pair.of_check {check : Env Session → Env Session → Env Session → Bool}
    (h : checkPair check = true) : ∃ s₁ s₂ s₃ s, Pair s₁ s₂ s₃ s ∧ check s₂ s₃ s = true := by
  unfold checkPair at h
  split at h
  case h_1 => cases h
  rename_i s₂ henter
  obtain ⟨⟨⟩, s₁, hcreate, henter⟩ := bind_eq_ok henter
  split at h
  case h_1 => cases h
  rename_i s₃ hfirst
  split at h
  case h_1 => cases h
  rename_i s hsecond
  exact ⟨s₁, s₂, s₃, s, ⟨hcreate, henter, run_of_ok hfirst, run_of_ok hsecond⟩, h⟩

theorem Pair.unique {s₁ s₂ s₃ s t₁ t₂ t₃ t : Env Session} (h : Pair s₁ s₂ s₃ s)
    (h' : Pair t₁ t₂ t₃ t) : s = t := by
  cases h.create.symm.trans h'.create
  cases h.enter.symm.trans h'.enter
  cases h.first.symm.trans h'.first
  cases h.second.symm.trans h'.second
  rfl

def nameAndSizes (f : FileIndex) : String × List UInt64 := (f.vfsName, f.chunks.map (·.plainLen))

/-- What the host does for the two imports, and what they leave. -/
def pairFacts (s₂ s₃ s : Env Session) : Bool :=
  decide ((Op.importBytes [1, 2, 3] "a").Served standin s₂) &&
    decide ((Op.importBytes [4] "b").Served standin s₃) &&
    decide (Fits standin s₃.vars.metadata) && decide (Fits standin s.vars.metadata) &&
    s.vars.metadata.fileTable.map nameAndSizes == [("a", [3]), ("b", [1])] &&
    (s.host.names (tmpPath s.vars)).isNone && (s.host.names "/run/atom_staging/a").isNone

set_option maxRecDepth 100000 in
theorem pair_eval : checkPair pairFacts = true := by decide +kernel

def pairFiles : Files := (Files.add (fun _ => none) "a" [1, 2, 3]).add "b" [4]

theorem Pair.runs {s₁ s₂ s₃ s : Env Session} (h : Pair s₁ s₂ s₃ s)
    (hfirst : (Op.importBytes [1, 2, 3] "a").Served standin s₂)
    (hsecond : (Op.importBytes [4] "b").Served standin s₃) (hfits₃ : Fits standin s₃.vars.metadata)
    (hfits : Fits standin s.vars.metadata) : Runs standin "pw" Op.Spares s pairFiles := by
  have hcreated : Runs standin "pw" Op.Spares s₂ fun _ => none :=
    .created fresh_start rfl h.create h.enter
  have hruns := hcreated.done (by trivial) hfirst h.first hfits₃
  exact hruns.done (by trivial) hsecond h.second hfits

/-! ## An import of the container itself -/

theorem decryptToBytes_zeros {s : Env Session} {name : String} {f : FileIndex} {n : Nat}
    (hf : s.vars.metadata.fileTable.find? (·.vfsName == name) = some f) (hne : f.chunks ≠ [])
    (hzeros : s.host.data s.vars.fd = List.replicate n 0) :
    wp (decryptToBytes cr name) (fun _ _ => False) (fun _ _ => True) s := by
  obtain ⟨e, es, hes⟩ := List.exists_cons_of_ne_nil hne
  unfold decryptToBytes
  rw [wp_bind, wp_session, wp_bind, hf]
  show wp (decryptChunks cr f.chunks) _ _ s
  rw [hes]
  unfold decryptChunks
  rw [wp_bind]
  apply wp_plainChunk
  · exact fun _ _ _ _ => trivial
  intro p s1 hp _ _
  unfold openChunk readChunk Extent.read slice at hp
  rw [hzeros, List.drop_replicate, List.take_replicate,
    decryptChunk_of_head (head_replicate_zero _)] at hp
  split at hp <;> cases hp

theorem enterOwn_eval : (match enterOwn start with
    | .ok _ s => decide (ownOp.Served standin s)
    | .error _ _ => false) = true := by decide +kernel

/-- With every import let through, a file that was imported can be lost. -/
theorem own_import_loses_file : ¬∀ (s : Env Session) (M : Files),
    Runs standin "pw" (fun _ _ => True) s M → ∀ name b, M name = some b →
      ∃ s', decryptToBytes standin name s = .ok b s' := by
  intro hall
  obtain ⟨s₁, s₂, s₃, hcreate, -, henter, hrun, hshredded⟩ := importOwn_shreds
  have hruns : Runs standin "pw" (fun _ _ => True) s₂ fun _ => none :=
    .created fresh_start rfl hcreate henter
  have hentered : enterOwn start = .ok () s₂ := by
    show EStateM.bind createOwn _ start = _
    rw [EStateM.bind, hcreate]
    exact henter
  have hserved := enterOwn_eval
  rw [hentered] at hserved
  have hruns' := hruns.done (by trivial) (of_decide_eq_true hserved) hrun hshredded.fits
  -- The container was there to be imported.
  have hstaged : ∃ data, stagedBytes s₂.host ownEnv ownPath = some data := by
    have hpath : ownEnv.stagedPath ownPath = .ok ownPath := by decide
    have hspec : wp (handleEnter standin ownPath "pw")
        (fun _ s' => ∃ i, s'.host.names ownPath = some i) (fun _ _ => True) s₁ := by
      apply wp_handleEnter
      · exact fun _ _ _ => trivial
      · intro i m v off s' hi _ h
        exact ⟨i, by rw [h.names]; exact hi⟩
    obtain ⟨i, hi⟩ := wp_of_ok hspec henter
    exact ⟨_, by simp [stagedBytes, hpath, hi, Except.toOption]; rfl⟩
  obtain ⟨data, hdata⟩ := hstaged
  have hcopy : ownOp.apply s₂.host (fun _ => none) "copy" = some data := by
    simp only [ownOp, Op.apply, hdata, Files.add]
    rfl
  obtain ⟨s', hs'⟩ := hall _ _ hruns' "copy" data hcopy
  obtain ⟨n, hzeros⟩ := hshredded.zeros
  obtain ⟨f, hf, hne⟩ := hshredded.entry
  have hnever := wp_of_ok (decryptToBytes_zeros hf hne hzeros) hs'
  exact hnever

end AtomVault
