import AtomVault.Vault.Compaction

/-!
# Exporting to the staging area (`commands/export.rs`)

The target is created, or emptied, before the first chunk is opened, and nothing is taken back when
a later one does not open.
-/

open Lib

namespace AtomVault

/-- `Path::file_name`: the last component, if that is a name. -/
def fileName (path : String) : Option String :=
  match ((path.toList.splitOn '/').filter fun c => c ≠ [] && c ≠ ['.']).getLast? with
  | some c => if c = ['.', '.'] then none else some (String.ofList c)
  | none => none

def hasNul (s : String) : Bool := s.toList.contains (Char.ofNat 0)

def exportTarget (env : PathEnv) (toDisk : String) : Except String String :=
  match env.stagingDir with
  | none =>
    .error "Security Error: Neither XDG_RUNTIME_DIR nor HOME environment variables are set."
  | some stagingDir =>
    match fileName toDisk with
    | none => .error "Error: Invalid target file name provided."
    | some safeFilename => .ok s!"{stagingDir}/{safeFilename}"

/-- `target_path.exists()`: no, if it cannot be told. -/
def pathExists (path : String) : Cmd Bool :=
  if hasNul path then pure false else
    tryCatch (do
      Call.stat .io path
      return true) fun _ => pure false

def openTarget (targetPath : String) (forceOverwrite : Bool) : Cmd Nat :=
  let onErr e := .text s!"Failed to create secure output file at '{targetPath}': {ioDebug e}"
  if hasNul targetPath then throw (onErr nulInPath) else
    if forceOverwrite then Call.openTruncate onErr targetPath else Call.createNew onErr targetPath

variable (cr : Crates)

def exportChunks (outputFile : Nat) : List ChunkEntry → Cmd Unit
  | [] => pure ()
  | chunk :: rest => do
    let content ← plainChunk cr .text chunk
    Call.writeAll .io outputFile content
    exportChunks outputFile rest

def handleExport (env : PathEnv) (vfsName toDisk : String) (forceOverwrite : Bool) : Cmd Unit := do
  let targetPath ← ofExcept .text (exportTarget env toDisk)
  let there ← pathExists targetPath
  if there && !forceOverwrite then throw (.text "ALREADY_EXISTS")
  let st ← session
  let targetFile ← ofOption (.text s!"Error: File '{vfsName}' not found in vault.")
    (st.metadata.fileTable.find? (·.vfsName == vfsName))
  let outputFile ← openTarget targetPath forceOverwrite
  exportChunks cr outputFile targetFile.chunks
  Call.sync .io outputFile

/-! ## How far an export comes -/

/-- The bytes in the target when the loop fails, `n` calls and `out` bytes after the start. Each
chunk is three calls and a write. `seen` is what the container reads. -/
def leftover (v : UnlockedVault) (seen : Bytes) (g : Option Fault) :
    Nat → Bytes → List ChunkEntry → Bytes
  | _, out, [] => out
  | n, out, e :: es =>
    match openChunk cr v seen e with
    | none => out
    | some p =>
      if Lasts (n + 3) g then
        if Lasts (n + 4) g then
          if out.length + p.length ≤ maxLen then leftover v seen g (n + 4) (out ++ p) es else out
        else extend out (p.take (torn g))
      else out

/-- The export stops before it opens its target. -/
def ExportStops (env : PathEnv) (vfsName toDisk : String) (force : Bool) (s : Env Session) : Prop :=
  ∀ path, exportTarget env toDisk = .ok path →
    hasNul path = true ∨ (force = false ∧ s.host.names path ≠ none) ∨
    s.vars.metadata.fileTable.find? (·.vfsName == vfsName) = none ∨ ¬Lasts 2 s.host.fault

variable {cr} {s : Env Session} {path : String}

theorem wp_pathExists {Q : Bool → Env Session → Prop} {E : VaultError → Env Session → Prop}
    (hyes : ∀ s', s.host.names path ≠ none → Spends 1 s s' → Still s s' → Q true s')
    (hno : ∀ s', hasNul path = true ∨ ¬Lasts 1 s.host.fault ∨
      s.host.names path = none ∧ Spends 1 s s' → Still s s' → Q false s') :
    wp (pathExists path) Q E s := by
  unfold pathExists
  split
  · rename_i hnul
    exact hno s (Or.inl hnul) (Still.refl s)
  · rw [wp_tryCatch, wp_bind]
    apply wp_stat
    · intro hf t
      exact hno s (Or.inr (Or.inl hf)) (Still.refl s)
    · intro hn t s' k a
      exact hno s' (Or.inr (Or.inr ⟨hn, k⟩)) a
    · intro hn s' k a
      exact hyes s' hn k a

theorem wp_openTarget {force : Bool} {Q : Nat → Env Session → Prop}
    {E : VaultError → Env Session → Prop}
    (herr : hasNul path = true ∨ ¬Lasts 1 s.host.fault ∨
      force = false ∧ s.host.names path ≠ none → ∀ t s', Still s s' → E t s')
    (hok : ∀ i s', hasNul path = false → (force = false → s.host.names path = none) →
      i = (s.host.names path).getD s.host.nextIno → OpenedEmpty i path s s' → Spends 1 s s' →
      Q s.host.nextFd s') :
    wp (openTarget path force) Q E s := by
  unfold openTarget
  dsimp only
  by_cases hnul : hasNul path = true
  · rw [if_pos hnul]
    exact herr (Or.inl hnul) _ s (Still.refl s)
  rw [if_neg hnul]
  have hnul' : hasNul path = false := by simpa using hnul
  cases force with
  | true =>
    rw [if_pos rfl]
    apply wp_counted counted_openTruncate
    apply wp_openTruncate
    · intro _ t s' a hf
      exact herr (Or.inr (Or.inl hf)) _ s' a
    · intro i s' hi o k
      exact hok i s' hnul' nofun hi o k
  | false =>
    rw [if_neg nofun]
    apply wp_counted counted_createNew
    apply wp_createNew
    · rintro - t s' a (hf | hn)
      · exact herr (Or.inr (Or.inl hf)) _ s' a
      · exact herr (Or.inr (Or.inr ⟨rfl, hn⟩)) _ s' a
    · intro s' hn o k
      exact hok s.host.nextIno s' hnul' (fun _ => hn) (by rw [hn]; rfl) o.openedEmpty k

theorem openChunk_nil {v : UnlockedVault} {e : ChunkEntry} : openChunk cr v [] e = none := by
  unfold openChunk readChunk
  split
  · have hread : e.extent.read [] = [] := by simp [Extent.read, slice]
    rw [hread, decryptChunk_of_head (by simp)]
  · rfl

/-- Why the loop fails: the host does, a chunk does not open, or there is no room. -/
def LoopFails (cr : Crates) (v : UnlockedVault) (seen : Bytes) (g : Option Fault) (w : Nat)
    (es : List ChunkEntry) : Prop :=
  g ≠ none ∨ ∀ p, openChunks cr v seen es = some p → maxLen < w + p.length

theorem LoopFails.cons {v : UnlockedVault} {seen p : Bytes} {g : Option Fault} {w : Nat}
    {e : ChunkEntry} {es : List ChunkEntry} (hp : openChunk cr v seen e = some p)
    (h : LoopFails cr v seen g (w + p.length) es) : LoopFails cr v seen g w (e :: es) := by
  rcases h with hg | h
  · exact Or.inl hg
  refine Or.inr fun q hq => ?_
  rw [openChunks_cons hp] at hq
  obtain ⟨r, hr, rfl⟩ := Option.map_eq_some_iff.mp hq
  have hlarge := h r hr
  rw [List.length_append]
  omega

theorem ne_none_of_not_lasts {g : Option Fault} {n : Nat} (h : ¬Lasts n g) : g ≠ none := by
  rintro rfl
  exact h trivial

/-- The loop writes what `leftover` says, and all of the file if it gets to the end. -/
theorem wp_exportChunks (v : UnlockedVault) (seen : Bytes) (g : Option Fault) {out : Nat}
    {Q : Unit → Env Session → Prop} {E : VaultError → Env Session → Prop} :
    ∀ {es : List ChunkEntry} {n : Nat} {s : Env Session}, s.vars.unlockedVault = v →
    s.host.data s.vars.fd = seen → (s.host.ino s.vars.fd = s.host.ino out → seen = []) →
    out ≠ s.vars.fd → s.host.pos out = (s.host.data out).length →
    (∀ k, Lasts k s.host.fault ↔ Lasts (k + n) g) → torn s.host.fault = torn g →
    (∀ t s', Confined out s.host s'.host →
      s'.host.data out = leftover cr v seen g n (s.host.data out) es →
      LoopFails cr v seen g (s.host.data out).length es → E t s') →
    (∀ p s', openChunks cr v seen es = some p → Confined out s.host s'.host →
      s'.host.data out = s.host.data out ++ p →
      leftover cr v seen g n (s.host.data out) es = s.host.data out ++ p → Q () s') →
    wp (exportChunks cr out es) Q E s := by
  intro es
  induction es with
  | nil =>
    intro n s _ _ _ _ _ _ _ _ hok
    exact hok [] s rfl (Confined.refl _ _) (by simp) (by simp [leftover])
  | cons e es ih =>
    intro n s hv hseen hino hout hpos hlasts htorn herr hok
    unfold exportChunks
    rw [wp_bind]
    apply wp_plainChunk
    · intro hwhy t s1 m1
      rw [hv, hseen, hlasts, Nat.add_comm] at hwhy
      refine herr t s1 (m1.confined out) ?_ ?_
      · rw [m1.data, leftover]
        rcases hwhy with hnone | hf
        · rw [hnone]
        · cases openChunk cr v seen e with
          | none => rfl
          | some p => exact (if_neg hf).symm
      · rcases hwhy with hnone | hf
        · exact Or.inr (by simp [openChunks, hnone])
        · exact Or.inl (ne_none_of_not_lasts hf)
    intro p s1 hp k1 m1
    rw [hv, hseen] at hp
    have h3 : Lasts (n + 3) g := by
      rw [Nat.add_comm]
      exact (hlasts 3).mp k1.lasts
    have hleft1 : ∀ k, Lasts k s1.host.fault ↔ Lasts (k + 3 + n) g := fun k => by
      rw [k1.left, hlasts]
    have h4 : Lasts 1 s1.host.fault ↔ Lasts (n + 4) g := by rw [hleft1, Nat.add_comm]
    -- A chunk that opens is in another file than the target.
    have hother : s.host.ino s.vars.fd ≠ s.host.ino out := by
      intro heq
      rw [hino heq, openChunk_nil] at hp
      cases hp
    have hdata1 : s1.host.data out = s.host.data out := m1.data out
    rw [wp_bind]
    apply wp_append_torn
    · rw [hdata1, m1.pos out hout]
      exact hpos
    · intro hf t s2 a2 hd2
      rw [h4] at hf
      refine herr _ s2 ((m1.confined out).trans a2.toConfined) ?_ ?_
      · rw [hd2, hdata1, m1.fault.torn_eq, htorn, leftover, hp]
        simp only [if_pos h3, if_neg hf]
      · exact Or.inl (ne_none_of_not_lasts hf)
    · intro hf hlarge t s2 a2
      rw [h4] at hf
      rw [hdata1] at hlarge
      refine herr _ s2 ((m1.confined out).trans (a2.moves out).toConfined) ?_ ?_
      · rw [a2.data, hdata1, leftover, hp]
        simp only [if_pos h3, if_pos hf]
        rw [if_neg (by omega)]
      · exact .cons hp (Or.inr fun q _ => by omega)
    intro s2 hfit k2 a2 hd2 hp2
    have hf : Lasts (n + 4) g := h4.mp k2.lasts
    have hconf := (m1.confined out).trans a2.toConfined
    have hvars : s2.vars = s.vars := a2.vars.trans m1.vars
    rw [hdata1] at hd2 hfit
    have hstep : leftover cr v seen g n (s.host.data out) (e :: es) =
        leftover cr v seen g (n + 4) (s2.host.data out) es := by
      rw [leftover, hp, hd2]
      simp only [if_pos h3, if_pos hf, if_pos hfit]
    apply ih (n := n + 4)
    · rw [hvars, hv]
    · rw [hvars, a2.toConfined.data_of_ne, m1.data, hseen]
      rw [m1.ino, m1.ino]
      exact hother
    · rw [hvars, hconf.ino, hconf.ino]
      exact hino
    · rw [hvars]
      exact hout
    · exact hp2
    · intro k
      rw [k2.left, hleft1]
      exact iff_of_eq (by congr 1; omega)
    · rw [a2.fault.torn_eq, m1.fault.torn_eq, htorn]
    · intro t s3 a3 hd3 hfails
      rw [hd2, List.length_append] at hfails
      refine herr t s3 (hconf.trans a3) ?_ (.cons hp hfails)
      rw [hd3, hstep]
    · intro q s3 hq a3 hd3 hleft
      rw [hd2, List.append_assoc] at hd3
      refine hok (p ++ q) s3 (by rw [openChunks_cons hp, hq]; rfl) (hconf.trans a3) hd3 ?_
      rw [hstep, hleft, hd2, List.append_assoc]

/-! ## The whole command -/

/-- What the container reads once inode `i` has been emptied. -/
def seenFrom (s : Env Session) (i : Nat) : Bytes :=
  if s.host.ino s.vars.fd = i then [] else s.host.data s.vars.fd

/-- The export of `f` has opened its target, on inode `i`, and only this file has changed. -/
structure Exported (env : PathEnv) (vfsName toDisk path : String) (force : Bool) (i : Nat)
    (f : FileIndex) (s s' : Env Session) : Prop where
  target : exportTarget env toDisk = .ok path
  runs : ¬ExportStops env vfsName toDisk force s
  found : s.vars.metadata.fileTable.find? (·.vfsName == vfsName) = some f
  inode : i = (s.host.names path).getD s.host.nextIno
  names : s'.host.names = Function.update s.host.names path (some i)
  files : ∀ j, j ≠ i → s'.host.files j = s.host.files j

variable {env : PathEnv} {vfsName toDisk : String} {force : Bool}

/-- The container is read as before, unless it is what the target's name led to. -/
theorem data_of_opened {i : Nat} {s1 s2 : Env Session} (a1 : Still s s1)
    (o2 : OpenedEmpty i path s1 s2) (hne : s.vars.fd ≠ s1.host.nextFd) :
    s2.host.data s.vars.fd = seenFrom s i := by
  have hino : s2.host.ino s.vars.fd = s.host.ino s.vars.fd :=
    (o2.ino_of_ne hne).trans (a1.ino _)
  unfold seenFrom Host.data
  rw [hino]
  split
  · rename_i heq
    rw [heq, o2.empty]
  · rename_i hother
    rw [o2.files _ hother, a1.files]

theorem exported_of_opened {i : Nat} {f : FileIndex} {s1 s2 s' : Env Session}
    (hpath : exportTarget env toDisk = .ok path)
    (hruns : ¬ExportStops env vfsName toDisk force s)
    (hfind : s.vars.metadata.fileTable.find? (·.vfsName == vfsName) = some f)
    (hi : i = (s.host.names path).getD s.host.nextIno) (a1 : Still s s1)
    (o2 : OpenedEmpty i path s1 s2) (a : Confined s1.host.nextFd s2.host s'.host) :
    Exported env vfsName toDisk path force i f s s' ∧
      (s'.host.files i).bytes = s'.host.data s1.host.nextFd := by
  have hiout := (a.ino s1.host.nextFd).trans o2.ino
  refine ⟨⟨hpath, hruns, hfind, hi, ?_, fun j hj => ?_⟩, ?_⟩
  · rw [a.names, o2.names, a1.names]
  · rw [a.files j (by rw [o2.ino]; exact hj), o2.files j hj, a1.files]
  · unfold Host.data
    rw [hiout]

theorem wp_exportOpened (h : Held s) {i : Nat} {f : FileIndex} {s1 s2 : Env Session}
    {Q : Unit → Env Session → Prop} {E : VaultError → Env Session → Prop}
    (hpath : exportTarget env toDisk = .ok path)
    (hruns : ¬ExportStops env vfsName toDisk force s)
    (hfind : s.vars.metadata.fileTable.find? (·.vfsName == vfsName) = some f)
    (hi : i = (s.host.names path).getD s.host.nextIno) (a1 : Still s s1)
    (o2 : OpenedEmpty i path s1 s2) (k : Spends 2 s s2)
    (herr : ∀ t s', Exported env vfsName toDisk path force i f s s' →
      (s'.host.files i).bytes =
        leftover cr s.vars.unlockedVault (seenFrom s i) s.host.fault 2 [] f.chunks →
      LoopFails cr s.vars.unlockedVault (seenFrom s i) s.host.fault 0 f.chunks → E t s')
    (hok : ∀ s', Exported env vfsName toDisk path force i f s s' →
      openChunks cr s.vars.unlockedVault (seenFrom s i) f.chunks = some (s'.host.files i).bytes →
      Q () s') :
    wp (do
      exportChunks cr s1.host.nextFd f.chunks
      Call.sync .io s1.host.nextFd) Q E s2 := by
  have hvars : s2.vars = s.vars := o2.vars.trans a1.vars
  have hne : s.vars.fd ≠ s1.host.nextFd := by
    rw [a1.nextFd]
    exact ne_of_lt h.fd_lt
  have hino : s2.host.ino s.vars.fd = s.host.ino s.vars.fd :=
    (o2.ino_of_ne hne).trans (a1.ino _)
  have hopened : ∀ {s'}, Confined s1.host.nextFd s2.host s'.host →
      Exported env vfsName toDisk path force i f s s' ∧
        (s'.host.files i).bytes = s'.host.data s1.host.nextFd :=
    exported_of_opened hpath hruns hfind hi a1 o2
  rw [wp_bind]
  apply wp_exportChunks s.vars.unlockedVault (seenFrom s i) s.host.fault (n := 2)
  · rw [hvars]
  · rw [hvars]
    exact data_of_opened a1 o2 hne
  · intro heq
    rw [hvars, hino, o2.ino] at heq
    exact if_pos heq
  · rw [hvars]
    exact hne.symm
  · rw [o2.pos, o2.data]
    rfl
  · exact k.left
  · exact (a1.fault.trans o2.fault).torn_eq
  · intro t s3 a3 hd3 hfails
    obtain ⟨hexp, hbytes⟩ := hopened a3
    rw [o2.data] at hd3 hfails
    exact herr t s3 hexp (by rw [hbytes, hd3]) hfails
  · intro p s3 hp a3 hd3 hleft
    rw [o2.data] at hd3 hleft
    apply wp_sync
    · intro hf t s4 a4
      obtain ⟨hexp, hbytes⟩ := hopened (a3.trans (a4.moves _).toConfined)
      refine herr _ s4 hexp ?_ (Or.inl ?_)
      · rw [hbytes, a4.data, hd3, hleft]
      · exact ((a1.fault.trans o2.fault).trans a3.fault).ne_none hf
    · intro s4 a4 hd4 _ _ _
      obtain ⟨hexp, hbytes⟩ := hopened (a3.trans a4.toConfined)
      refine hok s4 hexp ?_
      rw [hbytes, hd4, hd3, hp]
      rfl

theorem wp_exportFound (h : Held s) {Q : Unit → Env Session → Prop}
    {E : VaultError → Env Session → Prop} (hpath : exportTarget env toDisk = .ok path)
    (hstop : (hasNul path = true ∨ (force = false ∧ s.host.names path ≠ none) ∨
      s.vars.metadata.fileTable.find? (·.vfsName == vfsName) = none ∨ ¬Lasts 2 s.host.fault) →
      ∀ t s', Still s s' → E t s')
    (herr : ∀ i f t s', Exported env vfsName toDisk path force i f s s' →
      (s'.host.files i).bytes =
        leftover cr s.vars.unlockedVault (seenFrom s i) s.host.fault 2 [] f.chunks →
      LoopFails cr s.vars.unlockedVault (seenFrom s i) s.host.fault 0 f.chunks → E t s')
    (hok : ∀ i f s', Exported env vfsName toDisk path force i f s s' →
      openChunks cr s.vars.unlockedVault (seenFrom s i) f.chunks = some (s'.host.files i).bytes →
      Q () s') {s1 : Env Session} (a1 : Still s s1)
    (hfirst : hasNul path = true ∨ ¬Lasts 1 s.host.fault ∨ Spends 1 s s1) :
    wp (do
      let st ← session
      let targetFile ← ofOption (.text s!"Error: File '{vfsName}' not found in vault.")
        (st.metadata.fileTable.find? (·.vfsName == vfsName))
      let outputFile ← openTarget path force
      exportChunks cr outputFile targetFile.chunks
      Call.sync .io outputFile) Q E s1 := by
  rw [wp_bind, wp_session, wp_bind, a1.vars]
  apply wp_ofOption
  case herr => exact fun hnone => hstop (Or.inr (Or.inr (Or.inl hnone))) _ s1 a1
  intro f hfind
  rw [wp_bind]
  apply wp_openTarget
  · intro hwhy t s2 a2
    refine hstop ?_ t s2 (a1.trans a2)
    rw [a1.names] at hwhy
    rcases hwhy with hnul | hf | hthere
    · exact Or.inl hnul
    · rcases hfirst with hnul | hf1 | k1
      · exact Or.inl hnul
      · exact Or.inr (Or.inr (Or.inr fun h2 => hf1 (h2.mono (by omega))))
      · exact Or.inr (Or.inr (Or.inr (k1.not_lasts hf)))
    · exact Or.inr (Or.inl hthere)
  intro i s2 hnul hfree hi o2 k2
  rw [a1.names] at hfree hi
  rw [a1.nextIno] at hi
  have k1 : Spends 1 s s1 := by
    rcases hfirst with hnul' | hf1 | k1
    · rw [hnul] at hnul'
      cases hnul'
    · exact absurd (a1.fault.lasts k2.lasts) hf1
    · exact k1
  have k := k1.trans k2
  have hruns : ¬ExportStops env vfsName toDisk force s := by
    intro hstops
    rcases hstops path hpath with hn | ⟨hforce, hthere⟩ | hnone | hf
    · rw [hnul] at hn
      cases hn
    · exact hthere (hfree hforce)
    · rw [hfind] at hnone
      cases hnone
    · exact hf k.lasts
  exact wp_exportOpened h hpath hruns hfind hi a1 o2 k (herr i f) (hok i f)

theorem wp_handleExport (h : Held s) {Q : Unit → Env Session → Prop}
    {E : VaultError → Env Session → Prop}
    (hstops : ExportStops env vfsName toDisk force s → ∀ t s', Still s s' → E t s')
    (herr : ∀ path i f t s', Exported env vfsName toDisk path force i f s s' →
      (s'.host.files i).bytes =
        leftover cr s.vars.unlockedVault (seenFrom s i) s.host.fault 2 [] f.chunks →
      LoopFails cr s.vars.unlockedVault (seenFrom s i) s.host.fault 0 f.chunks → E t s')
    (hok : ∀ path i f s', Exported env vfsName toDisk path force i f s s' →
      openChunks cr s.vars.unlockedVault (seenFrom s i) f.chunks = some (s'.host.files i).bytes →
      Q () s') :
    wp (handleExport cr env vfsName toDisk force) Q E s := by
  unfold handleExport
  rw [wp_bind]
  apply wp_ofExcept
  case herr =>
    intro e he
    refine hstops ?_ _ s (Still.refl s)
    intro path hpath
    rw [he] at hpath
    cases hpath
  intro path hpath
  have hstop : (hasNul path = true ∨ (force = false ∧ s.host.names path ≠ none) ∨
      s.vars.metadata.fileTable.find? (·.vfsName == vfsName) = none ∨ ¬Lasts 2 s.host.fault) →
      ∀ t s', Still s s' → E t s' := by
    intro hwhy
    refine hstops fun path' hpath' => ?_
    rw [hpath] at hpath'
    cases hpath'
    exact hwhy
  rw [wp_bind]
  apply wp_pathExists
  · intro s1 hthere k1 a1
    cases force with
    | false => exact hstop (Or.inr (Or.inl ⟨rfl, hthere⟩)) _ s1 a1
    | true => exact wp_exportFound h hpath hstop (herr path) (hok path) a1 (Or.inr (Or.inr k1))
  · intro s1 hwhy a1
    refine wp_exportFound h hpath hstop (herr path) (hok path) a1 ?_
    rcases hwhy with hnul | hf | ⟨-, k1⟩
    · exact Or.inl hnul
    · exact Or.inr (Or.inl hf)
    · exact Or.inr (Or.inr k1)

/-! ## What a failed export leaves -/

/-- Only the target can read otherwise, and it reads as before if its file was there and holds the
same bytes. -/
theorem Exported.unchanged_iff {s s' : Env Session} {f : FileIndex} {i : Nat}
    (h : Exported env vfsName toDisk path force i f s s') :
    (∀ p, s'.host.contents p = s.host.contents p) ↔
      s.host.names path = some i ∧ (s.host.files i).bytes = (s'.host.files i).bytes := by
  constructor
  · intro hsame
    have hnow : s'.host.contents path = some (s'.host.files i).bytes := by
      apply Host.contents_of_names
      rw [h.names, Function.update_self]
    rw [hsame path] at hnow
    cases hn : s.host.names path with
    | none =>
      rw [Host.contents, hn] at hnow
      cases hnow
    | some j =>
      have hj : i = j := by
        rw [h.inode, hn]
        rfl
      rw [Host.contents_of_names hn] at hnow
      exact ⟨by rw [hj], by rw [hj] at hnow ⊢; exact Option.some.inj hnow⟩
  · rintro ⟨hn, hbytes⟩ p
    have hnames : s'.host.names = s.host.names := by
      rw [h.names, ← hn]
      exact Function.update_eq_self path s.host.names
    apply Host.contents_congr (congrFun hnames p)
    intro j _
    by_cases hj : j = i
    · rw [hj]
      exact File.ext hbytes.symm
    · exact h.files j hj

/-- The target was there and held what the failing export puts into it. -/
def AlreadyLeft (cr : Crates) (env : PathEnv) (vfsName toDisk : String) (s : Env Session) : Prop :=
  ∃ path i f, exportTarget env toDisk = .ok path ∧ s.host.names path = some i ∧
    s.vars.metadata.fileTable.find? (·.vfsName == vfsName) = some f ∧
    (s.host.files i).bytes =
      leftover cr s.vars.unlockedVault (seenFrom s i) s.host.fault 2 [] f.chunks

/-- **Failed export.** In every session, wherever an export fails, every file reads as before exactly
if the export stopped before it opened its target, or the target held just what the loop had written
when it failed. -/
theorem failed_export_unchanged_iff {s s' : Env Session} {e : VaultError} (h : Used cr s)
    (hrun : handleExport cr env vfsName toDisk force s = .error e s') :
    (∀ p, s'.host.contents p = s.host.contents p) ↔
      ExportStops env vfsName toDisk force s ∨ AlreadyLeft cr env vfsName toDisk s := by
  have hspec : wp (handleExport cr env vfsName toDisk force) (fun _ _ => True)
      (fun _ s' => (ExportStops env vfsName toDisk force s ∧ Still s s') ∨
        ∃ path i f, Exported env vfsName toDisk path force i f s s' ∧ (s'.host.files i).bytes =
          leftover cr s.vars.unlockedVault (seenFrom s i) s.host.fault 2 [] f.chunks) s := by
    apply wp_handleExport h.held
    · exact fun hstops _ _ a => Or.inl ⟨hstops, a⟩
    · exact fun path i f _ _ hexp hleft _ => Or.inr ⟨path, i, f, hexp, hleft⟩
    · exact fun _ _ _ _ _ _ => trivial
  rcases wp_of_error hspec hrun with ⟨hstops, a⟩ | ⟨path, i, f, hexp, hleft⟩
  · refine ⟨fun _ => Or.inl hstops, fun _ p => ?_⟩
    exact Host.contents_congr (congrFun a.names p) fun j _ => congrFun a.files j
  rw [hexp.unchanged_iff, hleft]
  constructor
  · rintro ⟨hn, hbytes⟩
    exact Or.inr ⟨path, i, f, hexp.target, hn, hexp.found, hbytes⟩
  · rintro (hstops | ⟨path', i', f', htarget, hn, hfound, hbytes⟩)
    · exact absurd hstops hexp.runs
    · obtain rfl : path = path' := by simpa [hexp.target] using htarget
      obtain rfl : f = f' := by simpa [hexp.found] using hfound
      obtain rfl : i = i' := by rw [hexp.inode, hn]; rfl
      exact ⟨hn, hbytes⟩

/-! ## A chunk that does not open -/

def stagingEnv : PathEnv := ⟨some "/run", none, fun _ => none⟩

set_option maxRecDepth 100000 in
theorem export_eval : (match handleEnter standin "v" "pw" deadZone with
    | .ok _ s => s.host.contents "/run/atom_staging/b.txt" == none &&
      match handleExport standin stagingEnv "b" "../b.txt" false s with
      | .ok _ _ => false
      | .error _ s' => s'.host.contents "/run/atom_staging/b.txt" == some []
    | .error _ _ => false) = true := by decide +kernel

theorem export_fails : ∃ s s' e, Used standin s ∧
    handleExport standin stagingEnv "b" "../b.txt" false s = .error e s' ∧
    s.host.contents "/run/atom_staging/b.txt" = none ∧
    s'.host.contents "/run/atom_staging/b.txt" = some [] := by
  have heval := export_eval
  split at heval
  case h_2 => cases heval
  rename_i s henter
  rw [Bool.and_eq_true] at heval
  obtain ⟨hbefore, heval⟩ := heval
  split at heval
  case h_1 => cases heval
  rename_i e s' hrun
  exact ⟨s, s', e, .entered fresh_deadZone henter, hrun, eq_of_beq hbefore, eq_of_beq heval⟩

theorem failed_export_unchanged_iff_dead_zone : ∃ s s' e, Used standin s ∧
    handleExport standin stagingEnv "b" "../b.txt" false s = .error e s' ∧
    ((∀ p, s'.host.contents p = s.host.contents p) ↔
      ExportStops stagingEnv "b" "../b.txt" false s ∨
        AlreadyLeft standin stagingEnv "b" "../b.txt" s) := by
  obtain ⟨s, s', e, hused, hrun, -, -⟩ := export_fails
  exact ⟨s, s', e, hused, hrun, failed_export_unchanged_iff hused hrun⟩

/-- The first chunk does not open, and an empty file stays in the staging area. -/
theorem failed_export_leaves_a_file : ¬∀ (s s' : Env Session) (env : PathEnv)
    (vfsName toDisk : String) (force : Bool) (e : VaultError), Used standin s →
    handleExport standin env vfsName toDisk force s = .error e s' →
    ∀ p, s'.host.contents p = s.host.contents p := by
  intro hall
  obtain ⟨s, s', e, hused, hrun, hbefore, hafter⟩ := export_fails
  have hsame := hall s s' _ _ _ _ e hused hrun "/run/atom_staging/b.txt"
  rw [hbefore, hafter] at hsame
  cases hsame

end AtomVault
