import AtomVault.Live.Response
import AtomVault.Vault.Readers
import AtomVault.Vault.Simulation

/-!
# The shell (`commands/shell.rs`)

One line after the other is read and obeyed. What a command returns as an error is printed, and the
shell goes on. An export asks back, and the answer is a line of the same input.
-/

open Lib

namespace AtomVault

variable {cr : Crates} {password : String} {H : Bytes}

theorem Refines.aside {s s' : Env Session} {M : Files} (h : Refines cr password H s M)
    (a : Aside (s.host.ino s.vars.fd) s s') : Refines cr password H s' M := by
  have hs := h.kept.sound
  have hvars : s'.vars = s.vars := a.vars
  have hino : s'.host.ino s.vars.fd = s.host.ino s.vars.fd := a.ino _ hs.fd_lt
  have hdata : s'.host.data s.vars.fd = s.host.data s.vars.fd := by
    unfold Host.data
    rw [hino, a.bytes]
  have hsound : Sound H s' :=
    { named := by rw [hvars, hino, a.names]; exact hs.named
      fresh := a.fresh hs.fresh
      fd_lt := by rw [hvars]; exact hs.fd_lt.trans_le a.fds
      layout := by rw [hvars]; exact hs.layout
      header := by rw [hvars, hdata]; exact hs.header
      header_le := by rw [hvars]; exact hs.header_le
      fits := by rw [hvars, hdata]; exact hs.fits }
  refine ⟨h.kept.step hsound (by rw [hvars]) fun hb => ?_, ?_, a.fault.eq_none h.noFault, ?_⟩
  · have hst := h.kept.stored hb
    refine ⟨?_, ?_⟩
    · rw [hvars, hdata]; exact hst.pointer
    · rw [hvars, hdata]; exact hst.blob
  · rw [hvars]; exact h.fits
  · rw [hvars, hdata]; exact h.shows

end AtomVault

namespace AtomVault.Shell

open Live (Text Unicode)

/-! ## Lines -/

inductive Command
  | blank
  | ls
  | importFile (fromDisk vfsName : String)
  | rm (vfsName : String)
  | export_ (vfsName toDisk : String)
  | cat (vfsName : String)
  | view (vfsName : String)
  | vacuum
  | help
  | exit
  | usage (lines : List String)
  | unknown (name : String)
  deriving DecidableEq

/-- `'?'` for every ASCII control character. -/
def sanitized (name : Text) : String :=
  String.ofList (name.map fun c => if c.toNat < 32 ∨ c.toNat = 127 then '?' else c)

/-- What is behind the words a command takes is dropped. -/
def parseWords : List Text → Command
  | [] => .blank
  | name :: args =>
    match String.ofList name, args with
    | "ls", _ => .ls
    | "import", fromDisk :: vfsName :: _ =>
      .importFile (String.ofList fromDisk) (String.ofList vfsName)
    | "import", _ =>
      .usage ["Error: Missing arguments.", "Usage: import <from_disk_path> <target_vfs_name>"]
    | "rm", vfsName :: _ => .rm (String.ofList vfsName)
    | "rm", _ => .usage ["Error: Missing argument.", "Usage: rm <vfs_name>"]
    | "export", vfsName :: toDisk :: _ => .export_ (String.ofList vfsName) (String.ofList toDisk)
    | "export", _ =>
      .usage ["Error: Missing arguments.", "Usage: export <vfs_name> <target_filename>"]
    | "cat", vfsName :: _ => .cat (String.ofList vfsName)
    | "cat", _ => .usage ["Error: Missing argument.", "Usage: cat <vfs_name>"]
    | "view", vfsName :: _ => .view (String.ofList vfsName)
    | "view", _ => .usage ["Error: Missing argument.", "Usage: view <vfs_name>"]
    | "vacuum", _ => .vacuum
    | "help", _ => .help
    | "exit", _ => .exit
    | _, _ => .unknown (sanitized name)

def parse (u : Unicode) (line : Text) : Command :=
  parseWords (Live.Response.splitWhitespace u (u.trim line))

/-- `eq_ignore_ascii_case("y")`, behind a `trim`. -/
def isYes (u : Unicode) (line : Text) : Bool := u.trim line = ['y'] ∨ u.trim line = ['Y']

/-! ## Commands -/

/-- What comes to the terminal, or to a viewer. -/
inductive Shown
  | lines (text : List String)
  | table (entries : List (String × Nat))
  | contents (vfsName : String) (b : Bytes)
  | notFound (vfsName : String)
  | handed (vfsName : String) (b : Bytes)
  | exported (vfsName toDisk : String)
  | failed (e : VaultError)
  deriving DecidableEq

structure State where
  env : Env Session
  /-- The lines that will be typed. Behind them the input is at its end. -/
  input : List Text
  shown : List Shown
  running : Bool

/-- A result and the state it leaves, also where it is an error. -/
def attempt {α : Type} (x : Cmd α) (s : Env Session) : Except VaultError α × Env Session :=
  match x s with
  | .ok a s' => (.ok a, s')
  | .error e s' => (.error e, s')

/-- `read_line`. At the end of the input it returns nothing, and no error. -/
def State.readLine (st : State) : Text × State := (st.input.headD [], { st with input := st.input.tail })

def State.show (st : State) (out : Shown) : State := { st with shown := st.shown ++ [out] }

/-! ## Texts -/

def keptTarget : String := "Export cancelled by user. Existing file was preserved."

def keptInVault : String := "Export operation cancelled by user. The vault remains secure."

def unknownLine (name : String) : String :=
  s!"Unknown command: '{name}'. Type 'help' for available commands."

def exitLines : List String :=
  ["[Wiping] Purging ephemeral keys from RAM...",
    "Locking vault and exiting secure shell. Goodbye!"]

/-- What `help` prints. -/
def helpLines : List String :=
  ["", "Available Commands inside the Secure Shell:",
    "  ls                                  - List all files inside the vault",
    "  cat <vfs_name>                      - Read and display a file securely in RAM",
    "  import <from_disk> <vfs_name>       - Encrypt and import a host file into the vault",
    "  export <vfs_name> <to_disk>         - Decrypt and export a file back to the host disk",
    "  rm <vfs_name>                       - Cryptographically shred a file reference from metadata",
    "  view <vfs_name>                     - Securely isolate and view a file inside the sandbox",
    "  vacuum                              - Defragment and shrink the physical .aegis container",
    "  help                                - Show this help menu",
    "  exit                                - Lock vault, purge cryptographic keys, and exit", ""]

/-! ## Obeying -/

section Model

variable (cr : Crates) (penv : PathEnv) (u : Unicode)

def Shown.ofExport (vfsName toDisk : String) : Except VaultError Unit → Shown
  | .ok () => .exported vfsName toDisk
  | .error e => .failed e

def State.tryExport (st : State) (vfsName toDisk : String) (force : Bool) :
    Except VaultError Unit × State :=
  let (r, env) := attempt (handleExport cr penv vfsName toDisk force) st.env
  (r, { st with env := env })

/-- Asks, and asks again where the target is there. -/
def State.export (st : State) (vfsName toDisk : String) : State :=
  let (answer, st) := st.readLine
  if isYes u answer then
    match st.tryExport cr penv vfsName toDisk false with
    | (.error (.text "ALREADY_EXISTS"), st) =>
      let (answer, st) := st.readLine
      if isYes u answer then
        let (r, st) := st.tryExport cr penv vfsName toDisk true
        st.show (.ofExport vfsName toDisk r)
      else st.show (.lines [keptTarget])
    | (r, st) => st.show (.ofExport vfsName toDisk r)
  else st.show (.lines [keptInVault])

def Shown.ofCat (vfsName : String) : Except VaultError (Option Bytes) → Shown
  | .ok (some b) => .contents vfsName b
  | .ok none => .notFound vfsName
  | .error e => .failed e

def State.cat (st : State) (vfsName : String) : State :=
  let (r, env) := attempt (handleCat cr vfsName) st.env
  { st with env := env, shown := st.shown ++ [.ofCat vfsName r] }

/-- The memory file that the viewer gets. -/
def viewFile (vfsName : String) : Cmd (Option Bytes) := do
  let st ← session
  match st.metadata.fileTable.find? (·.vfsName == vfsName) with
  | none => return none
  | some fileIndex =>
    ignoreErr (Call.sync .io st.fd)
    let memfile ← prepareDecryptedMemfd cr fileIndex
    return some memfile.bytes

def Shown.ofView (vfsName : String) : Except VaultError (Option Bytes) → Shown
  | .ok (some b) => .handed vfsName b
  | .ok none => .notFound vfsName
  | .error e => .failed e

def State.view (st : State) (vfsName : String) : State :=
  let (r, env) := attempt (viewFile cr vfsName) st.env
  { st with env := env, shown := st.shown ++ [.ofView vfsName r] }

def State.ls (st : State) : State :=
  st.show (.table (st.env.vars.metadata.fileTable.map fun f =>
    (sanitized f.vfsName.toList, f.chunks.length)))

/-- What a command that changes the vault stands for. -/
def Command.op : Command → Option Op
  | .importFile fromDisk vfsName => some (.importFile penv fromDisk vfsName)
  | .rm vfsName => some (.rm vfsName)
  | .vacuum => some .vacuum
  | _ => none

def State.change (st : State) (op : Op) : State :=
  let (r, env) := attempt (op.run cr) st.env
  { st with
    env := env
    shown := st.shown ++ (match r with
      | .ok _ => []
      | .error e => [.failed e]) }

def State.obey (st : State) (c : Command) : State :=
  match c.op penv with
  | some op => st.change cr op
  | none =>
    match c with
    | .ls => st.ls
    | .export_ vfsName toDisk => st.export cr penv u vfsName toDisk
    | .cat vfsName => st.cat cr vfsName
    | .view vfsName => st.view cr vfsName
    | .help => st.show (.lines helpLines)
    | .usage lines => st.show (.lines lines)
    | .unknown name => st.show (.lines [unknownLine name])
    | .exit => { st.show (.lines exitLines) with running := false }
    | _ => st

/-- The command that comes next. -/
def State.command (st : State) : Command := parse u st.readLine.1

/-- One turn of the loop. -/
def State.turn (st : State) : State := st.readLine.2.obey cr penv u (st.command u)

end Model

/-! ## What the readers leave as it is -/

section Readers

variable {cr : Crates} {keep : Nat} {penv : PathEnv} {vfsName toDisk : String} {force : Bool}

abbrev KeepsAside {α : Type} (keep : Nat) (x : Cmd α) : Prop := Keeps (Aside keep) x

theorem keeps_session : KeepsAside keep session := fun s => refl_of (Aside keep) s

theorem keeps_seek {fd n : Nat} : KeepsAside keep (Call.seek .io fd n) := by
  intro s
  apply wp_seek
  · exact fun _ _ _ a => .of_still a
  · exact fun _ _ a _ => .of_moves a

theorem keeps_plainChunk (onErr : String → VaultError) (e : ChunkEntry) :
    KeepsAside keep (plainChunk cr onErr e) := by
  intro s
  apply wp_plainChunk
  · exact fun _ _ _ a => .of_moves a
  · exact fun _ _ _ _ a => .of_moves a

theorem keeps_catChunks : ∀ {es : List ChunkEntry} {m : MemFile},
    KeepsAside keep (catChunks cr es m) := by
  intro es
  induction es with
  | nil => exact .pure _
  | cons e es ih =>
    intro m
    unfold catChunks
    refine .bind keeps_session fun _ => .bind keeps_seek fun _ => ?_
    exact .bind (.tryCatch (keeps_plainChunk _ _) fun _ => .throw _) fun _ => ih

theorem keeps_handleCat : KeepsAside keep (handleCat cr vfsName) := by
  unfold handleCat
  refine .bind keeps_session fun st => ?_
  split
  · exact .pure _
  · exact .bind (.ofExcept _ _) fun _ => .bind keeps_catChunks fun _ => .pure _

theorem keeps_memfdChunks : ∀ {es : List ChunkEntry} {m : MemFile},
    KeepsAside keep (memfdChunks cr es m) := by
  intro es
  induction es with
  | nil => exact .pure _
  | cons e es ih =>
    intro m
    exact .bind (keeps_plainChunk _ _) fun _ => .bind (.ofOption _ _) fun _ => ih

theorem keeps_viewFile : KeepsAside keep (viewFile cr vfsName) := by
  unfold viewFile
  refine .bind keeps_session fun st => ?_
  split
  · exact .pure _
  · refine .bind (.tryCatch keeps_syncAside fun _ => .pure _) fun _ => .bind ?_ fun _ => .pure _
    exact .bind (.ofExcept _ _) fun _ => .bind keeps_memfdChunks fun _ => .pure _

theorem keeps_exportChunks {out : Nat} : ∀ {es : List ChunkEntry},
    Keeps (AsideFrom keep out) (exportChunks cr out es) := by
  intro es
  induction es with
  | nil => exact .pure _
  | cons e es ih =>
    unfold exportChunks
    refine .bind (fun s => ?_) fun _ => .bind keeps_writeAside fun _ => ih
    exact wp_mono (keeps_plainChunk _ _ s) (fun _ _ a _ _ => a) fun _ _ a _ _ => a

theorem wp_openTarget_grows {path : String} {s : Env Session} : wp (openTarget path force)
    (fun out s' => out < s'.host.nextFd ∧ Grows id s s') (fun _ s' => Grows id s s') s := by
  unfold openTarget
  dsimp only
  split
  · exact refl_of (Grows id) s
  · split
    · exact wp_openTruncate_grows
    · apply wp_createNew
      · exact fun _ _ _ a => .of_still a
      · intro s' _ a
        exact ⟨by rw [a.nextFd]; omega, .of_new a⟩

variable (cr vfsName force) in
theorem wp_handleExport_aside {s : Env Session} (hkeep : keep < s.host.nextIno)
    (hother : ∀ path, exportTarget penv toDisk = .ok path → s.host.names path ≠ some keep) :
    wp (handleExport cr penv vfsName toDisk force) (fun _ s' => Aside keep s s')
      (fun _ s' => Aside keep s s') s := by
  unfold handleExport
  rw [wp_bind]
  apply wp_ofExcept
  case herr => exact fun _ _ => refl_of (Aside keep) s
  intro path hpath
  have hne := hother path hpath
  have hinode : (s.host.names path).getD s.host.nextIno ≠ keep := by
    cases hn : s.host.names path with
    | none => exact Nat.ne_of_gt hkeep
    | some i => exact fun h => hne (by rw [hn]; exact congrArg some h)
  -- From the table on.
  have hrest : ∀ s1, Still s s1 → wp (do
      let st ← session
      let targetFile ← ofOption (.text s!"Error: File '{vfsName}' not found in vault.")
        (st.metadata.fileTable.find? (·.vfsName == vfsName))
      let outputFile ← openTarget path force
      exportChunks cr outputFile targetFile.chunks
      Call.sync .io outputFile) (fun _ s' => Aside keep s s') (fun _ s' => Aside keep s s') s1 := by
    intro s1 a1
    have k1 : Aside keep s s1 := .of_still a1
    rw [wp_bind, wp_session, wp_bind]
    apply wp_ofOption
    case herr => exact fun _ => k1
    intro f _
    rw [wp_bind]
    refine wp_mono (wp_and wp_openTarget_grows (wp_openTarget
      (Q := fun out s2 => s2.host.ino out ≠ keep ∧ (Grows id s1 s2 → Aside keep s1 s2))
      (E := fun _ s2 => Aside keep s1 s2) ?_ ?_)) ?_ ?_
    · exact fun _ _ _ a2 => .of_still a2
    · intro i s2 _ _ hi o2 _
      rw [a1.names, a1.nextIno] at hi
      rw [← hi] at hinode
      refine ⟨by rw [o2.ino]; exact hinode, fun g => .of_empty o2 g hinode ?_⟩
      rw [a1.names]
      exact hne
    · rintro out s2 ⟨⟨hlt, g⟩, hout, haside⟩
      have k2 : Aside keep s s2 := trans_of (Aside keep) k1 (haside g)
      have hloop : Keeps (AsideFrom keep out) (do
          exportChunks cr out f.chunks
          Call.sync .io out) :=
        .bind keeps_exportChunks fun _ s3 =>
          wp_mono (keeps_syncAside s3) (fun _ _ a _ _ => a) fun _ _ a _ _ => a
      exact wp_mono (hloop s2) (fun _ _ a => trans_of (Aside keep) k2 (a hlt hout))
        fun _ _ a => trans_of (Aside keep) k2 (a hlt hout)
    · exact fun _ _ h => trans_of (Aside keep) k1 h.2
  rw [wp_bind]
  apply wp_pathExists
  · intro s1 _ _ a1
    cases force with
    | false => exact .of_still a1
    | true => exact hrest s1 a1
  · exact fun s1 _ a1 => hrest s1 a1

end Readers

/-! ## What the shell stands for -/

/-- What comes out for a command on a vault that stands for the map `M`. `host` is what it leaves
behind. -/
def Command.Answer (penv : PathEnv) (M : Files) (host : Host) : Command → List Shown → Prop
  | .blank, outs => outs = []
  | .help, outs => outs = [.lines helpLines]
  | .exit, outs => outs = [.lines exitLines]
  | .usage lines, outs => outs = [.lines lines]
  | .unknown name, outs => outs = [.lines [unknownLine name]]
  | .ls, outs => ∃ names : List String, names.Nodup ∧ (∀ name, name ∈ names ↔ M name ≠ none) ∧
      ∃ entries, outs = [.table entries] ∧
        entries.map Prod.fst = names.map fun name => sanitized name.toList
  | .cat vfsName, outs =>
    match M vfsName with
    | none => outs = [.notFound vfsName]
    | some b => outs = [.contents vfsName b] ∨ ∃ e, outs = [.failed e]
  | .view vfsName, outs =>
    match M vfsName with
    | none => outs = [.notFound vfsName]
    | some b => outs = [.handed vfsName b] ∨
        (¬MemfdName (memfdName vfsName) ∨ maxLen < b.length) ∧ ∃ e, outs = [.failed e]
  | .export_ vfsName toDisk, outs =>
      (outs = [.exported vfsName toDisk] ∧ ∃ path b, exportTarget penv toDisk = .ok path ∧
        M vfsName = some b ∧ host.contents path = some b) ∨
      (∃ e, outs = [.failed e]) ∨ outs = [.lines [keptTarget]] ∨ outs = [.lines [keptInVault]]
  | .importFile _ _, outs => outs = [] ∨ ∃ e, outs = [.failed e]
  | .rm _, outs => outs = [] ∨ ∃ e, outs = [.failed e]
  | .vacuum, outs => outs = [] ∨ ∃ e, outs = [.failed e]

variable {cr : Crates} {penv : PathEnv} {u : Unicode} {password : String} {H : Bytes}

theorem attempt_of_wp {α : Type} {x : Cmd α} {s : Env Session}
    {P : Except VaultError α → Env Session → Prop}
    (h : wp x (fun a s' => P (.ok a) s') (fun e s' => P (.error e) s') s) :
    P (attempt x s).1 (attempt x s).2 := by
  unfold attempt
  unfold wp at h
  cases hx : x s with
  | ok a s' =>
    rw [hx] at h
    exact h
  | error e s' =>
    rw [hx] at h
    exact h

/-! ## Answers -/

section Answers

variable {M : Files} {st : State} {vfsName toDisk : String} {force : Bool}

theorem refines_attempt {α : Type} {x : Cmd α} {s : Env Session} (h : Refines cr password H s M)
    (hx : KeepsAside (s.host.ino s.vars.fd) x) : Refines cr password H (attempt x s).2 M :=
  attempt_of_wp (P := fun _ s' => Refines cr password H s' M)
    (wp_mono (hx s) (fun _ _ a => h.aside a) fun _ _ a => h.aside a)

theorem wp_handleCat_missing {s : Env Session}
    (hfind : s.vars.metadata.fileTable.find? (·.vfsName == vfsName) = none) :
    wp (handleCat cr vfsName) (fun b _ => b = none) (fun _ _ => False) s := by
  unfold handleCat
  rw [wp_bind, wp_session, hfind]
  rfl

theorem answer_cat (ht : cr.Tagged) {s : Env Session} (h : Refines cr password H s M) (host : Host) :
    (Command.cat vfsName).Answer penv M host
      [.ofCat vfsName (attempt (handleCat cr vfsName) s).1] := by
  rcases h.find vfsName with ⟨hM, hfind⟩ | ⟨f, b, hM, hread, -, hfind⟩
  · simp only [Command.Answer, hM]
    refine attempt_of_wp (P := fun r _ => [Shown.ofCat vfsName r] = [.notFound vfsName])
      (wp_mono (wp_handleCat_missing hfind) ?_ fun _ _ h => h.elim)
    rintro _ _ rfl
    rfl
  · simp only [Command.Answer, hM]
    refine attempt_of_wp (P := fun r _ => [Shown.ofCat vfsName r] = [.contents vfsName b] ∨
      ∃ e, [Shown.ofCat vfsName r] = [.failed e])
      (wp_mono (wp_handleCat ht h.noFault hfind) ?_ fun e _ _ => Or.inr ⟨e, rfl⟩)
    rintro _ _ ⟨-, -, rfl⟩
    rw [hread]
    exact Or.inl rfl

variable (vfsName) in
theorem wp_viewFile {s : Env Session} (h : Refines cr password H s M) : wp (viewFile cr vfsName)
    (fun r _ => r = M vfsName) (fun _ _ => ∃ b, M vfsName = some b ∧
      (¬MemfdName (memfdName vfsName) ∨ maxLen < b.length)) s := by
  unfold viewFile
  rw [wp_bind, wp_session]
  rcases h.find vfsName with ⟨hM, hfind⟩ | ⟨f, b, hM, -, rfl, hfind⟩
  · rw [hfind, hM]
    rfl
  rw [hfind]
  dsimp only
  rw [wp_bind]
  -- The sync leaves the same file to read.
  have hrest : ∀ s1, Aside (s.host.ino s.vars.fd) s s1 → wp (do
      let memfile ← prepareDecryptedMemfd cr f
      return some memfile.bytes) (fun r _ => r = M f.vfsName) (fun _ _ => ∃ b, M f.vfsName = some b ∧
        (¬MemfdName (memfdName f.vfsName) ∨ maxLen < b.length)) s1 := by
    intro s1 a1
    have h1 := h.aside a1
    have hvars : s1.vars = s.vars := a1.vars
    rcases h1.find f.vfsName with ⟨hM1, -⟩ | ⟨f1, b1, hM1, hread, -, hfind1⟩
    · rw [hM] at hM1
      cases hM1
    obtain rfl : f = f1 := by
      rw [hvars, hfind] at hfind1
      exact Option.some.inj hfind1
    rw [wp_bind]
    refine wp_mono (wp_prepareDecryptedMemfd h1.noFault) ?_ ?_
    · rintro m s2 ⟨-, hm⟩
      rw [wp_pure, hM1]
      exact hm.symm.trans hread
    · intro _ _ hfails
      refine ⟨b1, hM1, or_iff_not_imp_left.mpr fun hname => ?_⟩
      exact hfails (not_not.mp hname) b1 hread
  apply wp_ignoreErr
  exact wp_mono (keeps_syncAside s) (fun _ s1 a => hrest s1 a) fun _ s1 a => hrest s1 a

theorem answer_view {s : Env Session} (h : Refines cr password H s M) (host : Host) :
    (Command.view vfsName).Answer penv M host
      [.ofView vfsName (attempt (viewFile cr vfsName) s).1] := by
  have hspec := wp_viewFile vfsName h
  cases hM : M vfsName with
  | none =>
    simp only [Command.Answer, hM]
    refine attempt_of_wp (P := fun r _ => [Shown.ofView vfsName r] = [.notFound vfsName])
      (wp_mono hspec ?_ ?_)
    · rintro _ _ rfl
      rw [hM]
      rfl
    · rintro _ _ ⟨b, hb, -⟩
      rw [hM] at hb
      cases hb
  | some b =>
    simp only [Command.Answer, hM]
    refine attempt_of_wp (P := fun r _ => [Shown.ofView vfsName r] = [.handed vfsName b] ∨
      (¬MemfdName (memfdName vfsName) ∨ maxLen < b.length) ∧
        ∃ e, [Shown.ofView vfsName r] = [.failed e]) (wp_mono hspec ?_ ?_)
    · rintro _ _ rfl
      rw [hM]
      exact Or.inl rfl
    · rintro e _ ⟨b', hb, hwhy⟩
      obtain rfl : b' = b := Option.some.inj (hb.symm.trans hM)
      exact Or.inr ⟨hwhy, e, rfl⟩

theorem answer_ls {s : Env Session} (h : Refines cr password H s M) (host : Host) :
    Command.ls.Answer penv M host [.table (s.vars.metadata.fileTable.map fun f =>
      (sanitized f.vfsName.toList, f.chunks.length))] := by
  refine ⟨s.vars.metadata.fileTable.map (·.vfsName), h.kept.sound.layout.names, ?_, _, rfl, ?_⟩
  · intro name
    rw [← h.shows.hasName_iff, hasName_iff, List.mem_map]
  · simp [List.map_map, Function.comp_def]

/-- No path of an export leads to the container. -/
def TargetSpares (penv : PathEnv) (toDisk : String) (s : Env Session) : Prop :=
  ∀ path, exportTarget penv toDisk = .ok path → s.host.names path ≠ some (s.host.ino s.vars.fd)

variable (vfsName force) in
theorem wp_export {s : Env Session} (h : Refines cr password H s M)
    (hother : TargetSpares penv toDisk s) : wp (handleExport cr penv vfsName toDisk force)
      (fun _ s' => ∃ path b, exportTarget penv toDisk = .ok path ∧ M vfsName = some b ∧
        s'.host.contents path = some b) (fun _ _ => True) s := by
  have hheld := h.kept.sound.held
  apply wp_handleExport hheld
  · exact fun _ _ _ _ => trivial
  · exact fun _ _ _ _ _ _ _ _ => trivial
  intro path i f s' hexp hread
  rcases h.find vfsName with ⟨-, hfind⟩ | ⟨g, b, hM, hstored, -, hfind⟩
  · rw [hexp.found] at hfind
    cases hfind
  obtain rfl : f = g := Option.some.inj (hexp.found.symm.trans hfind)
  rw [hexp.inode] at hread
  have hseen := seenFrom_of_other hheld (hother path hexp.target)
  unfold targetIno at hseen
  unfold stored at hstored
  rw [hseen, hstored, ← hexp.inode] at hread
  refine ⟨path, b, hexp.target, hM, ?_⟩
  rw [Option.some.inj hread]
  apply Host.contents_of_names
  rw [hexp.names, Function.update_self]

theorem TargetSpares.aside {s s' : Env Session} (h : TargetSpares penv toDisk s)
    (hlt : s.vars.fd < s.host.nextFd) (a : Aside (s.host.ino s.vars.fd) s s') : TargetSpares penv toDisk s' := by
  have hvars : s'.vars = s.vars := a.vars
  intro path hpath
  rw [hvars, a.ino _ hlt, Ne, a.names]
  exact h path hpath

variable (st vfsName force) in
theorem tryExport_answer (h : Refines cr password H st.env M)
    (hother : TargetSpares penv toDisk st.env) :
    (st.tryExport cr penv vfsName toDisk force).2 =
      { st with env := (st.tryExport cr penv vfsName toDisk force).2.env } ∧
    Refines cr password H (st.tryExport cr penv vfsName toDisk force).2.env M ∧
    TargetSpares penv toDisk (st.tryExport cr penv vfsName toDisk force).2.env ∧
    ((st.tryExport cr penv vfsName toDisk force).1 = .ok () → ∃ path b,
      exportTarget penv toDisk = .ok path ∧ M vfsName = some b ∧
      (st.tryExport cr penv vfsName toDisk force).2.env.host.contents path = some b) := by
  have hs := h.kept.sound
  have hspec := wp_and (wp_handleExport_aside cr vfsName force (hs.fresh _ _ hs.named) hother)
    (wp_export vfsName force h hother)
  refine ⟨rfl, attempt_of_wp (P := fun r s' => Refines cr password H s' M ∧
    TargetSpares penv toDisk s' ∧ (r = .ok () → ∃ path b, exportTarget penv toDisk = .ok path ∧
      M vfsName = some b ∧ s'.host.contents path = some b)) (wp_mono hspec ?_ ?_)⟩
  · exact fun _ _ hq => ⟨h.aside hq.1, hother.aside hs.fd_lt hq.1, fun _ => hq.2⟩
  · exact fun _ _ he => ⟨h.aside he.1, hother.aside hs.fd_lt he.1, fun hok => (by cases hok)⟩

/-- The vault stands for `M` as before, and what was shown is the answer. -/
structure Answers (cr : Crates) (penv : PathEnv) (password : String) (H : Bytes) (M : Files)
    (c : Command) (st st' : State) : Prop where
  refines : Refines cr password H st'.env M
  shown : ∃ outs, st'.shown = st.shown ++ outs ∧ c.Answer penv M st'.env.host outs

theorem Answers.ofExport {st₁ : State} {r : Except VaultError Unit}
    (hshown : st₁.shown = st.shown) (h : Refines cr password H st₁.env M)
    (hok : r = .ok () → ∃ path b, exportTarget penv toDisk = .ok path ∧ M vfsName = some b ∧
      st₁.env.host.contents path = some b) :
    Answers cr penv password H M (.export_ vfsName toDisk) st
      (st₁.show (.ofExport vfsName toDisk r)) := by
  refine ⟨h, _, congrArg (· ++ _) hshown, ?_⟩
  cases r with
  | ok a => exact Or.inl ⟨rfl, hok rfl⟩
  | error e => exact Or.inr (Or.inl ⟨e, rfl⟩)

theorem Answers.cancelled {st₁ : State} {text : String} (hshown : st₁.shown = st.shown)
    (h : Refines cr password H st₁.env M) (htext : text = keptTarget ∨ text = keptInVault) :
    Answers cr penv password H M (.export_ vfsName toDisk) st (st₁.show (.lines [text])) := by
  refine ⟨h, _, congrArg (· ++ _) hshown, Or.inr (Or.inr ?_)⟩
  rcases htext with rfl | rfl
  · exact Or.inl rfl
  · exact Or.inr rfl

theorem answers_export (h : Refines cr password H st.env M)
    (hother : TargetSpares penv toDisk st.env) :
    Answers cr penv password H M (.export_ vfsName toDisk) st
      (st.export cr penv u vfsName toDisk) := by
  unfold State.export State.readLine
  dsimp only
  split
  case isFalse => exact .cancelled rfl h (Or.inr rfl)
  obtain ⟨hst, h1, hother1, hok1⟩ := tryExport_answer { st with input := st.input.tail } vfsName false
    h hother
  split
  · rename_i st₁ heq
    rw [heq] at hst h1 hother1
    dsimp only at hst h1 hother1
    have hshown : st₁.shown = st.shown := by rw [hst]
    split
    · obtain ⟨hst2, h2, -, hok2⟩ := tryExport_answer { st₁ with input := st₁.input.tail } vfsName
        true h1 hother1
      refine .ofExport ?_ h2 hok2
      rw [hst2]
      exact hshown
    · exact .cancelled hshown h1 (Or.inl rfl)
  · rename_i r st₁ _ heq
    rw [heq] at hst h1 hok1
    dsimp only at hst h1 hok1
    exact .ofExport (by rw [hst]) h1 hok1

variable (st) in
theorem answers_obey (ht : cr.Tagged) (h : Refines cr password H st.env M) {c : Command}
    (hread : c.op penv = none)
    (hother : ∀ vfsName toDisk, c = .export_ vfsName toDisk → TargetSpares penv toDisk st.env) :
    Answers cr penv password H M c st (st.obey cr penv u c) := by
  unfold State.obey
  rw [hread]
  cases c with
  | blank => exact ⟨h, [], (List.append_nil _).symm, rfl⟩
  | ls => exact ⟨h, _, rfl, answer_ls h _⟩
  | importFile fromDisk vfsName => cases hread
  | rm vfsName => cases hread
  | export_ vfsName toDisk => exact answers_export h (hother vfsName toDisk rfl)
  | cat vfsName => exact ⟨refines_attempt h keeps_handleCat, _, rfl, answer_cat ht h _⟩
  | view vfsName => exact ⟨refines_attempt h keeps_viewFile, _, rfl, answer_view h _⟩
  | vacuum => cases hread
  | help => exact ⟨h, _, rfl, rfl⟩
  | exit => exact ⟨h, _, rfl, rfl⟩
  | usage lines => exact ⟨h, _, rfl, rfl⟩
  | unknown name => exact ⟨h, _, rfl, rfl⟩

end Answers

end AtomVault.Shell
