import AtomVault.Vault.Runs

/-!
# The vault is a map from names to bytes

`Files` is what a vault is for. Every command follows it, if the host serves the command.
-/

open Lib

namespace AtomVault

abbrev Files := String → Option Bytes

namespace Files

def add (M : Files) (name : String) (data : Bytes) : Files :=
  if M name = none then Function.update M name (some data) else M

def remove (M : Files) (name : String) : Files := Function.update M name none

/-- The file under `old` goes to `new`, if `new` is a free name. -/
def move (M : Files) (old new : String) : Files :=
  if isValidVfsFilename new = true ∧ M new = none then
    Function.update (Function.update M old none) new (M old)
  else M

theorem add_of_taken {M : Files} {name : String} (h : M name ≠ none) (data : Bytes) :
    M.add name data = M := if_neg h

theorem remove_of_missing {M : Files} {name : String} (h : M name = none) : M.remove name = M := by
  unfold remove
  rw [← h]
  exact Function.update_eq_self name M

theorem move_of_missing {M : Files} {old : String} (h : M old = none) (new : String) :
    M.move old new = M := by
  unfold move
  split
  · rename_i hnew
    have hold : Function.update M old none = M := by rw [← h]; exact Function.update_eq_self old M
    rw [hold, h, ← hnew.2]
    exact Function.update_eq_self new M
  · rfl

theorem move_of_refused {M : Files} {old new : String}
    (h : isValidVfsFilename new = false ∨ M new ≠ none) : M.move old new = M := by
  unfold move
  rw [if_neg]
  rintro ⟨hvalid, hnone⟩
  rcases h with h | h
  · rw [hvalid] at h
    cases h
  · exact h hnone

end Files

/-- What a command is for. An import reads the staged file as it was before. -/
def Op.apply (h : Host) : Op → Files → Files
  | importBytes data name, M => M.add name data
  | importFile env fromDisk name, M =>
    match stagedBytes h env fromDisk with
    | some data => M.add name data
    | none => M
  | rm name, M => M.remove name
  | rename oldName newName, M => M.move oldName newName
  | vacuum, M => M

namespace Op

/-- How many chunks a command writes behind the payload. -/
def chunks (cr : Crates) (h : Host) : Op → Nat
  | importBytes data _ => chunkCount cr data
  | importFile env fromDisk _ => chunkCount cr ((stagedBytes h env fromDisk).getD [])
  | _ => 0

/-- A staged path that resolves leads to a file. -/
def Staged (h : Host) : Op → Prop
  | importFile env fromDisk _ => ∀ path, env.stagedPath fromDisk = .ok path → h.names path ≠ none
  | _ => True

/-- The host gives the command no error: it has no fault in store, room for the command's chunks
and a table behind them, and the staged file. -/
structure Served (cr : Crates) (op : Op) (s : Env Session) : Prop where
  noFault : s.host.fault = none
  room : s.vars.currentPayloadOffset.toNat + op.chunks cr s.host * SEALED_CHUNK + METADATA_LIMIT ≤
    maxLen
  staged : op.Staged s.host

instance (h : Host) : DecidablePred (Staged h)
  | importFile env fromDisk _ => decidable_of_iff
      (∀ path ∈ (env.stagedPath fromDisk).toOption, h.names path ≠ none)
      (by cases hpath : env.stagedPath fromDisk <;> simp [Staged, hpath, Except.toOption])
  | importBytes _ _ => .isTrue trivial
  | rm _ => .isTrue trivial
  | rename _ _ => .isTrue trivial
  | vacuum => .isTrue trivial

instance (cr : Crates) (op : Op) (s : Env Session) : Decidable (op.Served cr s) :=
  decidable_of_iff (s.host.fault = none ∧ s.vars.currentPayloadOffset.toNat +
      op.chunks cr s.host * SEALED_CHUNK + METADATA_LIMIT ≤ maxLen ∧ op.Staged s.host)
    ⟨fun ⟨hf, hroom, hstaged⟩ => ⟨hf, hroom, hstaged⟩, fun h => ⟨h.noFault, h.room, h.staged⟩⟩

end Op

def finalState {α : Type} : EStateM.Result VaultError (Env Session) α → Env Session
  | .ok _ s => s
  | .error _ s => s

variable {cr : Crates} {password : String} {H : Bytes}

/-- The table and the file stand for the map `M`. -/
structure Shows (cr : Crates) (table : List FileIndex) (v : UnlockedVault) (F : Bytes) (M : Files) :
    Prop where
  live : ∀ f ∈ table, ∃ b, readFile cr v F f.chunks = some b ∧ M f.vfsName = some b
  only : ∀ name b, M name = some b → ∃ f ∈ table, f.vfsName = name

section Shows

variable {table table' : List FileIndex} {v : UnlockedVault} {F F' : Bytes} {M : Files}

theorem Shows.hasName_iff (h : Shows cr table v F M) (name : String) :
    hasName table name = true ↔ M name ≠ none := by
  rw [AtomVault.hasName_iff]
  constructor
  · rintro ⟨f, hf, rfl⟩
    obtain ⟨b, -, hb⟩ := h.live f hf
    simp [hb]
  · intro hne
    obtain ⟨b, hb⟩ := Option.ne_none_iff_exists'.mp hne
    exact h.only name b hb

theorem Shows.eq_none (h : Shows cr table v F M) {name : String}
    (hname : ¬hasName table name = true) : M name = none := by
  by_contra hne
  exact hname ((h.hasName_iff _).mpr hne)

theorem Shows.congr (h : Shows cr table v F M)
    (hread : ∀ f ∈ table, readFile cr v F' f.chunks = readFile cr v F f.chunks) :
    Shows cr table v F' M := by
  refine ⟨?_, h.only⟩
  intro f hf
  rw [hread f hf]
  exact h.live f hf

theorem Shows.push (h : Shows cr table v F M) {f : FileIndex} {data : Bytes}
    (hnew : ¬hasName table f.vfsName = true) (hf : readFile cr v F f.chunks = some data) :
    Shows cr (table ++ [f]) v F (M.add f.vfsName data) := by
  have hnone : M f.vfsName = none := h.eq_none hnew
  unfold Files.add
  rw [if_pos hnone]
  constructor
  · intro g hg
    rcases List.mem_append.mp hg with hg | hg
    · rw [Function.update_of_ne (hasName_eq_false hnew g hg)]
      exact h.live g hg
    · obtain rfl : g = f := by simpa using hg
      exact ⟨data, hf, Function.update_self ..⟩
  · intro name b hb
    by_cases hname : name = f.vfsName
    · exact ⟨f, by simp, hname.symm⟩
    · rw [Function.update_of_ne hname] at hb
      obtain ⟨g, hg, hgn⟩ := h.only name b hb
      exact ⟨g, by simp [hg], hgn⟩

theorem Shows.erase (h : Shows cr table v F M) {i off : Nat} {f : FileIndex}
    (hl : Layout table off) (hf : table[i]? = some f) :
    Shows cr (table.eraseIdx i) v F (M.remove f.vfsName) := by
  unfold Files.remove
  constructor
  · intro g hg
    rw [Function.update_of_ne (name_ne_of_mem_eraseIdx hl hf hg)]
    exact h.live g (List.mem_of_mem_eraseIdx hg)
  · intro name b hb
    by_cases hname : name = f.vfsName
    · rw [hname, Function.update_self] at hb
      cases hb
    · rw [Function.update_of_ne hname] at hb
      obtain ⟨g, hg, rfl⟩ := h.only name b hb
      exact ⟨g, mem_eraseIdx_of_name hf hg hname, rfl⟩

theorem Shows.rename (h : Shows cr table v F M) {old new : String} {off : Nat}
    (hl : Layout table off) (hvalid : isValidVfsFilename new = true)
    (hold : hasName table old = true) (hnew : ¬hasName table new = true) :
    Shows cr (renameFirst old new table) v F (M.move old new) := by
  have hnone : M new = none := h.eq_none hnew
  obtain ⟨l₁, f, l₂, hsplit, rfl, hren⟩ := renameFirst_split new hold
  have hne : f.vfsName ≠ new := hasName_eq_false hnew f (by simp [hsplit])
  -- Only the entry `f` has its name.
  have hother : ∀ g ∈ l₁ ++ l₂, g ∈ table ∧ g.vfsName ≠ f.vfsName := by
    intro g hg
    have hnames := hl.names
    rw [hsplit, List.map_append, List.map_cons, List.nodup_append, List.nodup_cons] at hnames
    obtain ⟨-, ⟨hright, -⟩, hleft⟩ := hnames
    rcases List.mem_append.mp hg with hg | hg
    · exact ⟨by simp [hsplit, hg], hleft _ (List.mem_map_of_mem hg) _ (by simp)⟩
    · refine ⟨by simp [hsplit, hg], fun heq => ?_⟩
      exact hright (heq ▸ List.mem_map_of_mem hg)
  have hold' : ∀ g ∈ l₁ ++ l₂, ∃ b, readFile cr v F g.chunks = some b ∧
      Function.update (Function.update M f.vfsName none) new (M f.vfsName) g.vfsName = some b := by
    intro g hg
    obtain ⟨hmem, hgf⟩ := hother g hg
    rw [Function.update_of_ne (hasName_eq_false hnew g hmem), Function.update_of_ne hgf]
    exact h.live g hmem
  unfold Files.move
  rw [if_pos ⟨hvalid, hnone⟩, hren]
  constructor
  · intro g hg
    rw [List.mem_append, List.mem_cons] at hg
    rcases hg with hg | rfl | hg
    · exact hold' g (by simp [hg])
    · rw [Function.update_self]
      exact h.live f (by simp [hsplit])
    · exact hold' g (by simp [hg])
  · intro name b hb
    by_cases hname : name = new
    · exact ⟨{ f with vfsName := new }, by simp, hname.symm⟩
    · rw [Function.update_of_ne hname] at hb
      by_cases hnf : name = f.vfsName
      · rw [hnf, Function.update_self] at hb
        cases hb
      · rw [Function.update_of_ne hnf] at hb
        obtain ⟨g, hg, rfl⟩ := h.only name b hb
        rw [hsplit, List.mem_append, List.mem_cons] at hg
        refine ⟨g, ?_, rfl⟩
        rcases hg with hg | rfl | hg
        · simp [hg]
        · exact absurd rfl hnf
        · simp [hg]

theorem Shows.vacuum (h : Shows cr table v F M)
    (hsame : List.Forall₂ (SameContent cr v F F') table table') : Shows cr table' v F' M := by
  have hnames := names_of_sameContent hsame
  constructor
  · intro g hg
    obtain ⟨f, hf, hname, hread⟩ : ∃ f ∈ table, SameContent cr v F F' f g := by
      clear h hnames
      induction hsame with
      | nil => cases hg
      | cons hfg _ ih =>
        rcases List.mem_cons.mp hg with rfl | hg
        · exact ⟨_, List.mem_cons_self, hfg⟩
        · obtain ⟨f, hf, hfg⟩ := ih hg
          exact ⟨f, List.mem_cons_of_mem _ hf, hfg⟩
    rw [hname, hread]
    exact h.live f hf
  · intro name b hb
    obtain ⟨f, hf, rfl⟩ := h.only name b hb
    have hmem : f.vfsName ∈ table'.map (·.vfsName) := by
      rw [hnames]
      exact List.mem_map_of_mem hf
    exact List.mem_map.mp hmem

end Shows

/-! ## One command -/

/-- What a run keeps. -/
structure Refines (cr : Crates) (password : String) (H : Bytes) (s : Env Session) (M : Files) :
    Prop where
  kept : Kept cr password H true s
  fits : Fits cr s.vars.metadata
  noFault : s.host.fault = none
  shows : Shows cr s.vars.metadata.fileTable s.vars.unlockedVault (s.host.data s.vars.fd) M

theorem Shows.saves {s s' : Env Session} {blob : Bytes} {M : Files} (hs : Sound H s)
    (h : Shows cr s.vars.metadata.fileTable s.vars.unlockedVault (s.host.data s.vars.fd) M)
    (hsave : Saves cr blob s s') :
    Shows cr s'.vars.metadata.fileTable s'.vars.unlockedVault (s'.host.data s'.vars.fd) M := by
  rw [hsave.touches.vars, hsave.data]
  exact h.congr fun f hf => readFile_saved hs.layout hs.fits hf

theorem Shows.prepared {s s' : Env Session} {name : String} {data : Bytes} {f : FileIndex}
    {M : Files} (hs : Sound H s)
    (h : Shows cr s.vars.metadata.fileTable s.vars.unlockedVault (s.host.data s.vars.fd) M)
    (hprep : Prepared cr name data f s s') :
    Shows cr s'.vars.metadata.fileTable s'.vars.unlockedVault (s'.host.data s'.vars.fd)
      (M.add name data) := by
  have hkeep := h.congr fun g hg => readFile_of_take hs.layout hprep.appended.keeps hg
  rw [hprep.vars]
  have hname := hprep.name_eq
  subst hname
  exact hkeep.push hprep.isNew hprep.appended.reads

theorem Shows.removed {s s' : Env Session} {i : Nat} {f : FileIndex} {M : Files} (hs : Sound H s)
    (h : Shows cr s.vars.metadata.fileTable s.vars.unlockedVault (s.host.data s.vars.fd) M)
    (hf : s.vars.metadata.fileTable[i]? = some f) (hrem : Removed i f s s') :
    Shows cr s'.vars.metadata.fileTable s'.vars.unlockedVault (s'.host.data s'.vars.fd)
      (M.remove f.vfsName) := by
  rw [hrem.vars]
  exact (h.erase hs.layout hf).congr fun g hg => hrem.readFile hs hf hg

theorem not_fits_of_large {m : VaultMetadata} {b : Bytes} (hb : cr.serialize m = .ok b)
    (hlarge : 2 ^ 32 ≤ b.length) : ¬Fits cr m := by
  rintro ⟨b', hb', hlen⟩
  rw [hb] at hb'
  cases hb'
  unfold METADATA_LIMIT at hlen
  omega

theorem fault_of_saveFails (hi : cr.Ideal) {v : UnlockedVault} {m : VaultMetadata} {off : Nat}
    {h : Host} {e : VaultError} (hwhy : SaveFails cr v m off h e) (hfits : Fits cr m)
    (hroom : off + METADATA_LIMIT ≤ maxLen) : h.fault ≠ none := by
  rcases hwhy with ⟨-, hf | ⟨blob, hseals, hfull⟩⟩ | ⟨b, hb, hlarge⟩
  · exact hf
  · have hlen := (fits_iff hi hseals).mp hfits
    omega
  · exact absurd hfits (not_fits_of_large hb hlarge)

section Step

variable {s s' : Env Session} {M : Files}

theorem Kept.of_still {b : Bool} (h : Kept cr password H b s) (a : Still s s') :
    Kept cr password H b s' := by
  refine h.step (h.sound.of_still a) (by rw [a.vars]) fun hb => ?_
  have hst := h.stored hb
  refine ⟨?_, ?_⟩
  · rw [a.vars, a.data]; exact hst.pointer
  · rw [a.vars, a.data]; exact hst.blob

theorem Refines.of_still (h : Refines cr password H s M) (a : Still s s') :
    Refines cr password H s' M := by
  refine ⟨h.kept.of_still a, ?_, a.fault.eq_none h.noFault, ?_⟩
  · rw [a.vars]; exact h.fits
  · rw [a.vars, a.data]; exact h.shows

theorem absurd_of_saveStops (hi : cr.Ideal) {s₁ : Env Session} {v : UnlockedVault} {off : Nat}
    {e : VaultError} {P : Prop} (hwhy : SaveFails cr v s₁.vars.metadata off s₁.host e)
    (hstop : SaveStops cr s₁ s') (hgoes : GoesOn s.host.fault s₁.host.fault)
    (hf : s.host.fault = none) (hroom : off + METADATA_LIMIT ≤ maxLen)
    (hfits : Fits cr s'.vars.metadata) : P := by
  rw [hstop.touches.vars] at hfits
  exact absurd (hgoes.eq_none hf) (fault_of_saveFails hi hwhy hfits hroom)

theorem Op.Served.not_cramped {op : Op} (h : op.Served cr s) : ¬Cramped (op.chunks cr s.host) s := by
  have hroom := h.room
  rintro (hf | hfull)
  · exact hf h.noFault
  · omega

theorem Op.Served.room_of_chunks {op : Op} (h : op.Served cr s) {off n : Nat}
    (hn : op.chunks cr s.host = n)
    (hoff : off = s.vars.currentPayloadOffset.toNat + n * SEALED_CHUNK) :
    off + METADATA_LIMIT ≤ maxLen := by
  rw [hoff, ← hn]
  exact h.room

theorem Op.Served.room_behind {op : Op} (h : op.Served cr s) :
    s.vars.currentPayloadOffset.toNat + METADATA_LIMIT ≤ maxLen := by
  have hroom := h.room
  omega

theorem Op.Served.not_lacks (hi : cr.Ideal) (h : Op.vacuum.Served cr s) (hs : Sound H s)
    (hfits : Fits cr s'.vars.metadata) : ¬VacuumLacks cr s s' := by
  have hroom := h.room_behind
  have hle := compactLen_le hs
  rintro (hf | hshort | ⟨f, hf, e, he, hout⟩ | hfull | ⟨blob, hseals, hfull⟩)
  · exact hf h.noFault
  · exact absurd (hs.header_le.trans hs.fits) (not_le.mpr hshort)
  · exact absurd ((hs.layout.packed.le_hi _ (mem_extents hf he)).trans hs.fits) (not_le.mpr hout)
  · omega
  · have hlen := (fits_iff hi hseals).mp hfits
    omega

theorem Shows.run (hi : cr.Ideal) {op : Op} (hs : Sound H s)
    (h : Shows cr s.vars.metadata.fileTable s.vars.unlockedVault (s.host.data s.vars.fd) M)
    (ha : op.Spares s) :
    wp (op.run cr)
      (fun _ s' => Shows cr s'.vars.metadata.fileTable s'.vars.unlockedVault
        (s'.host.data s'.vars.fd) (op.apply s.host M)) (fun _ _ => True) s := by
  cases op with
  | importBytes data name =>
    simp only [Op.run, Op.apply]
    rw [wp_bind]
    apply wp_handleImportFromBytes hi hs.fits
    · exact fun _ => trivial
    · exact fun _ _ _ _ => trivial
    · exact fun _ _ _ _ _ _ _ => trivial
    · intro f blob s₁ s' hprep hsave
      exact (h.prepared hs hprep).saves (hprep.sound hs) hsave
  | importFile env fromDisk name =>
    simp only [Op.run, Op.apply]
    rw [wp_bind]
    apply wp_handleImport hi hs.fd_lt hs.fits ha
    · exact fun _ _ => trivial
    · exact fun _ => trivial
    · exact fun _ _ _ _ => trivial
    · exact fun _ _ _ _ _ _ _ _ _ => trivial
    · intro data f blob path s₁ s₂ s' hdata hprep hsave hshred _
      rw [wp_pure, hdata, hshred.vars, hshred.data]
      exact (h.prepared hs hprep).saves (hprep.sound hs) hsave
  | rm name =>
    simp only [Op.run, Op.apply]
    rw [wp_bind]
    apply wp_handleRm hi hs
    · exact fun _ => trivial
    · exact fun _ _ _ _ _ _ _ _ => trivial
    · exact fun _ _ _ _ _ _ _ _ _ _ => trivial
    · rintro i f blob s₁ s' hf rfl hrem hsave
      exact (h.removed hs hf hrem).saves (hrem.sound hs hf) hsave
  | rename oldName newName =>
    simp only [Op.run, Op.apply]
    apply wp_handleRename hi hs.fits
    · exact fun _ _ => trivial
    · intro hnone
      rw [Files.move_of_missing (h.eq_none hnone)]
      exact h
    · exact fun _ _ _ _ _ _ _ => trivial
    · intro blob s' hvalid hold hnew hsave
      exact Shows.saves (hs.renamed hold hnew) (h.rename hs.layout hvalid hold hnew) hsave
  | vacuum =>
    simp only [Op.run, Op.apply]
    rw [wp_bind]
    apply wp_shellVacuum hi hs
    · exact fun _ _ _ _ => trivial
    · intro s' hvac
      rw [wp_pure, hvac.vault]
      exact h.vacuum hvac.same

/-- A command that refuses leaves the map as it was. On a host that serves it a command has no
other error. -/
theorem Refines.refused (hi : cr.Ideal) {op : Op} (h : Refines cr password H s M)
    (ha : op.Spares s) (hserved : op.Served cr s) :
    wp (op.run cr) (fun _ _ => True)
      (fun _ s' => Fits cr s'.vars.metadata → Refines cr password H s' (op.apply s.host M)) s := by
  have hs := h.kept.sound
  have htaken : ∀ {name : String} (data : Bytes), hasName s.vars.metadata.fileTable name = true →
      M.add name data = M :=
    fun data hname => Files.add_of_taken ((h.shows.hasName_iff _).mp hname) data
  cases op with
  | importBytes data name =>
    simp only [Op.run, Op.apply]
    rw [wp_bind]
    apply wp_handleImportFromBytes hi hs.fits
    · intro hdup _
      rw [htaken data hdup]
      exact h
    · exact fun hwhy => absurd hwhy hserved.not_cramped
    · exact fun f e s₁ s' hprep hwhy hstop => absurd_of_saveStops hi hwhy hstop hprep.host.fault
        hserved.noFault (hserved.room_of_chunks rfl hprep.grown)
    · exact fun _ _ _ _ _ _ => trivial
  | importFile env fromDisk name =>
    simp only [Op.run, Op.apply]
    rw [wp_bind]
    apply wp_handleImport hi hs.fd_lt hs.fits ha
    · intro msg hpath _
      have hnone : stagedBytes s.host env fromDisk = none := by
        simp [stagedBytes, hpath, Except.toOption]
      rw [hnone]
      exact h
    · intro hdup _
      split
      · rw [htaken _ hdup]
        exact h
      · exact h
    · rintro (hwhy | ⟨path, hpath, hnone⟩)
      · exact absurd hwhy hserved.not_cramped
      · exact absurd hnone (hserved.staged path hpath)
    · intro data f e s₁ s' hdata hprep hwhy hstop
      have hcount : chunkCount cr ((stagedBytes s.host env fromDisk).getD []) = chunkCount cr data := by
        rw [hdata, Option.getD_some]
      exact absurd_of_saveStops hi hwhy hstop hprep.host.fault hserved.noFault
        (hserved.room_of_chunks hcount hprep.grown)
    · exact fun _ _ _ _ _ _ _ _ _ _ _ _ => trivial
  | rm name =>
    simp only [Op.run, Op.apply]
    rw [wp_bind]
    apply wp_handleRm hi hs
    · intro hnone _
      rw [Files.remove_of_missing (h.shows.eq_none hnone)]
      exact h
    · exact fun hf => absurd hserved.noFault hf
    · intro i f e s₁ s' _ _ hrem hwhy hstop
      have hoff : s₁.vars.currentPayloadOffset = s.vars.currentPayloadOffset := by
        rw [hrem.vars]
        rfl
      exact absurd_of_saveStops hi hwhy hstop hrem.host.fault hserved.noFault
        (by rw [hoff]; exact hserved.room_behind)
    · exact fun _ _ _ _ _ _ _ _ _ => trivial
  | rename oldName newName =>
    simp only [Op.run, Op.apply]
    apply wp_handleRename hi hs.fits
    · intro msg hrefuse _
      rw [Files.move_of_refused (hrefuse.imp_right (h.shows.hasName_iff _).mp)]
      exact h
    · exact fun _ => trivial
    · exact fun e s' _ _ _ hwhy hstop => absurd_of_saveStops (s := s) hi hwhy hstop (GoesOn.refl _)
        hserved.noFault hserved.room_behind
    · exact fun _ _ _ _ _ _ => trivial
  | vacuum =>
    simp only [Op.run, Op.apply]
    rw [wp_bind]
    apply wp_shellVacuum hi hs
    · rintro e s' (hstill | ⟨-, hlacks⟩ | ⟨b, hb, hlarge⟩) - hfits
      · exact h.of_still hstill
      · exact absurd hlacks (hserved.not_lacks hi hs hfits)
      · exact absurd hfits (not_fits_of_large hb hlarge)
    · exact fun _ _ => trivial

theorem Refines.run (hi : cr.Ideal) {op : Op} (h : Refines cr password H s M) (ha : op.Spares s)
    (hserved : op.Served cr s) (hfits : Fits cr (finalState (op.run cr s)).vars.metadata) :
    Refines cr password H (finalState (op.run cr s)) (op.apply s.host M) := by
  cases hx : op.run cr s with
  | ok saved s' =>
    rw [hx] at hfits
    obtain ⟨hkept, hgoes⟩ := wp_of_ok (h.kept.run hi ha) hx
    rw [Bool.or_true] at hkept
    have hshows := wp_of_ok (h.shows.run hi h.kept.sound ha) hx
    exact ⟨hkept, hfits, hgoes.eq_none h.noFault, hshows⟩
  | error e s' =>
    rw [hx] at hfits
    have hrefused := wp_of_error (h.refused hi ha hserved) hx
    exact hrefused hfits

end Step

/-! ## A vault that was created or saved -/

theorem refines_of_created (hi : cr.Ideal) {s s₁ s₂ : Env Session} {path : String}
    {settings : KdfSettings} (hfresh : Fresh s.host) (hf : s.host.fault = none)
    (hcreate : handleCreate cr path password settings s = .ok () s₁)
    (henter : handleEnter cr path password s₁ = .ok () s₂) :
    ∃ H, Refines cr password H s₂ fun _ => none := by
  have hc := created_of_ok hi hcreate
  have hfile : s₁.host.names path = some s.host.nextIno := by
    rw [hc.names, Function.update_self]
  obtain ⟨hkept, htable, hfits⟩ := Kept.of_create hi hfresh hcreate hfile henter
  refine ⟨_, hkept, hfits, ?_, ?_⟩
  · have hspec : wp (handleEnter cr path password)
        (fun _ s' => GoesOn s₁.host.fault s'.host.fault) (fun _ _ => True) s₁ := by
      apply wp_handleEnter
      · exact fun _ _ _ => trivial
      · exact fun _ _ _ _ _ _ _ h => h.fault
    have hgoes := wp_of_ok hspec henter
    exact (hc.fault.trans hgoes).eq_none hf
  · rw [htable]
    exact ⟨by simp, by simp⟩

theorem Refines.enters (hi : cr.Ideal) {s : Env Session} {M : Files}
    (h : Refines cr password H s M) :
    ∃ s', handleEnter cr s.vars.vaultPath password s = .ok () s' ∧ Refines cr password H s' M := by
  have hs := h.kept.sound
  have hopen := h.kept.onDisk.openBytes hi (Host.data_fits _ _) h.fits
  have hspec : wp (handleEnter cr s.vars.vaultPath password) (fun _ _ => True) (fun _ _ => False)
      s := by
    apply wp_handleEnter
    · rintro (hf | hnone) e s'
      · exact hf h.noFault
      · rw [Host.data, hnone _ hs.named] at hopen
        cases hopen
    · exact fun _ _ _ _ _ _ _ _ => trivial
  obtain ⟨⟨⟩, s', henter, -⟩ := ok_of_wp hspec
  obtain ⟨hkept, he, -⟩ := Kept.of_enter hi hs.fresh hs.named h.kept.onDisk henter
  refine ⟨s', henter, hkept, ?_, he.fault.eq_none h.noFault, ?_⟩
  · rw [he.vars]; exact h.fits
  · rw [he.data, he.vars]; exact h.shows

/-! ## Bytes that are no chunk -/

theorem decryptChunk_of_head {v : UnlockedVault} {blob : Bytes} {fileId : FileId}
    (h : blob.head? ≠ some 0x41) : decryptChunk cr v blob fileId = .error .badFormat := by
  unfold decryptChunk
  rw [if_pos]
  intro htake
  cases blob with
  | nil => simp [CHUNK_MAGIC_V1] at htake
  | cons x rest =>
    obtain ⟨rfl, -⟩ : x = 0x41 ∧ _ := List.cons.inj htake
    exact h rfl

theorem head_replicate_zero (n : Nat) : (List.replicate n (0 : UInt8)).head? ≠ some 0x41 := by
  cases n <;> simp [List.replicate_succ]

end AtomVault
