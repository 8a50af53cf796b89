import AtomVault.Gui.Landlock
import AtomVault.Lib.Machine
import AtomVault.Live.Record
import AtomVault.Vault.Export

/-!
# The GUI (`gui/{mod,home,login,explorer}.rs`)

One frame after the other polls what the file dialogs and the broker have left, and then does what
was clicked. A dialog and a request to the broker have a thread each, and can end at any time.
-/

open Lib

namespace AtomVault.Gui

inductive Screen
  | home | login | vaultExplorer | createVault | p2pDialog
  deriving DecidableEq

/-- A file dialog that is open, with the vault that was open when it came up. -/
inductive Dialog
  | pickVault
  | pickImport (vault : String)
  | saveExport (vault fileName : String)
  deriving DecidableEq

inductive BrokerRequest
  | readFile (path : String)
  | writeFile (path : String) (data : Bytes)
  | openViewer (data : Bytes) (filename : String)
  deriving DecidableEq

inductive Reply
  | read (result : Except String Bytes)
  | done (result : Except String Unit)

/-- What has been done, for the record. -/
inductive Effect
  | opened (h : Host) (path : String)
  | pickedImport (vault path : String)
  /-- The broker has read a file of `h`. -/
  | read (h : Host) (path : String) (data : Bytes)
  /-- The vault was given what had been read, and may still refuse it. -/
  | imported (vault vfsName : String) (data : Bytes)
  | pickedExport (vault vfsName path : String)
  /-- The broker was sent a plaintext of the vault. -/
  | exported (vault : String) (s : Env Session) (vfsName path : String) (data : Bytes)
  /-- The broker has written a file, which left `h`. -/
  | wrote (h : Host) (path : String) (data : Bytes)

/-- `AtomVaultApp`, without the lines of status. -/
structure App where
  screen : Screen
  selectedVaultPath : Option String
  password : String
  sandboxApplied : Bool
  pendingVaultPath : Option String
  pendingImportPath : Option String
  pendingExportPath : Option String
  /-- The handle of the broker's result. -/
  pendingImportBytes : Option Nat
  pendingImportVfsName : String
  pendingExportVfsName : Option String
  vaultSession : Option Session
  currentVaultPath : String
  /-- The old and the new name. -/
  renameDialog : Option (String × String)

/-- `AtomVaultApp::new`. -/
def App.new : App where
  screen := .home
  selectedVaultPath := none
  password := ""
  sandboxApplied := false
  pendingVaultPath := none
  pendingImportPath := none
  pendingExportPath := none
  pendingImportBytes := none
  pendingImportVfsName := ""
  pendingExportVfsName := none
  vaultSession := none
  currentVaultPath := ""
  renameDialog := none

structure World extends App where
  host : Host
  /-- The Landlock domain of the main thread. -/
  domain : Option Ruleset
  dialogs : List Dialog
  /-- All that the broker was sent. A handle is a place in this list. -/
  requests : List BrokerRequest
  /-- The handles whose threads are at work. -/
  todo : List Nat
  replies : Nat → Option Reply
  exited : Bool
  log : List Effect

def World.new (host : Host) : World where
  toApp := .new
  host := host
  domain := none
  dialogs := []
  requests := []
  todo := []
  replies _ := none
  exited := false
  log := []

/-- What is clicked or typed. `enforced` is the kernel's answer to a ruleset. -/
inductive Event
  | openEntry (path : String)
  | browse
  | createNew
  | typePassword (text : String)
  | unlock (enforced : Bool)
  | backToHome
  | cancelCreate
  | createVault (name password confirm : String) (settings : KdfSettings) (enforced : Bool)
  | lock
  | importFile
  | p2p
  | openFile (vfsName : String)
  | exportFile (vfsName : String)
  | renameFile (vfsName : String)
  | deleteFile (vfsName : String)
  | typeNewName (text : String)
  | saveRename
  | cancelRename
  | backToVault

namespace World

variable (cr : Crates) (u : Live.Unicode) (ll : Landlock) (env : GuiEnv) (w : World)

def note (e : Effect) : World := { w with log := w.log ++ [e] }

/-- `read_file`, `write_file` and `open_viewer`. The handle is the place behind all others. -/
def send (r : BrokerRequest) : World :=
  { w with requests := w.requests ++ [r], todo := w.todo ++ [w.requests.length] }

/-- A command on the session that is open. -/
def inVault {α : Type} (s : Session) (x : Cmd α) : Except VaultError α × World :=
  match x ⟨w.host, s⟩ with
  | .ok a s' => (.ok a, { w with host := s'.host, vaultSession := some s'.vars })
  | .error e s' => (.error e, { w with host := s'.host, vaultSession := some s'.vars })

/-! ## File operations -/

/-- The `sync_all` behind an import, whose error is ignored. -/
def syncSession : Cmd Unit := do
  let st ← session
  ignoreErr (Call.sync .io st.fd)

def doImportBytes (data : Bytes) : World :=
  let vfsName := w.pendingImportVfsName
  let w := { w with pendingImportVfsName := "" }
  match w.vaultSession with
  | none => w
  | some s =>
    (w.inVault s do
      handleImportFromBytes cr data vfsName
      syncSession).2.note (.imported w.currentVaultPath vfsName data)

def doOpen (vfsName : String) : World :=
  match w.vaultSession with
  | none => w
  | some s =>
    match w.inVault s (decryptToBytes cr vfsName) with
    | (.ok bytes, w) => w.send (.openViewer bytes vfsName)
    | (.error _, w) => w

def doExportFile (vfsName : String) : World :=
  { w with
    pendingExportVfsName := some vfsName
    dialogs := w.dialogs ++ [.saveExport w.currentVaultPath vfsName] }

def doExportViaBroker (path vfsName : String) : World :=
  match w.vaultSession with
  | none => w
  | some s =>
    match w.inVault s (decryptToBytes cr vfsName) with
    | (.ok bytes, w') =>
      (w'.send (.writeFile path bytes)).note
        (.exported w.currentVaultPath ⟨w.host, s⟩ vfsName path bytes)
    | (.error _, w') => w'

def doDelete (vfsName : String) : World :=
  match w.vaultSession with
  | none => w
  | some s => (w.inVault s (handleRm cr vfsName)).2

/-- The dialog is gone, also where the rename is refused. -/
def doRename : World :=
  match w.renameDialog with
  | none => w
  | some (oldName, newName) =>
    let w := { w with renameDialog := none }
    match w.vaultSession with
    | none => w
    | some s => (w.inVault s (handleRename cr oldName newName)).2

/-! ## Unlocking and creating -/

/-- The process is confined once. Where the kernel does not enforce the rules, it ends. -/
def confine (path : String) (enforced : Bool) : World :=
  if w.sandboxApplied then w
  else if enforced then
    { w with
      sandboxApplied := true
      domain := some (applyGuiVaultSandbox ll w.host env path) }
  else { w with exited := true }

def may (a : Access) (path : String) : Bool :=
  match w.domain with
  | none => true
  | some rules => ll.permits w.host rules a path

/-- `open` and `load_vault_metadata`. -/
def loadVault (path password : String) : Prog Unit VaultError Session := do
  let fd ← Call.openFile .io path
  let (metadata, unlockedVault, currentPayloadOffset) ← loadVaultMetadata cr fd password
  return { vaultPath := path, fd, unlockedVault, metadata, currentPayloadOffset }

def unlockAt (path : String) : World :=
  let password := w.password
  let w := { w with password := "" }
  if w.may ll .readFile path && w.may ll .writeFile path then
    match loadVault cr path password ⟨w.host, ()⟩ with
    | .ok s s' =>
      { w with
        host := s'.host
        currentVaultPath := path
        vaultSession := some s
        screen := .vaultExplorer
        log := w.log ++ [.opened w.host path] }
    | .error _ s' => { w with host := s'.host }
  else w

def tryUnlock (enforced : Bool) : World :=
  match w.selectedVaultPath with
  | none => w
  | some path =>
    if w.password = "" then w
    else
      let w := w.confine ll env path enforced
      if w.exited then w else w.unlockAt cr ll path

/-- A domain that does not let a file be made stops the creation at its `open`. -/
def createAt (path password : String) (settings : KdfSettings) : World :=
  if u.trim password.toList = [] then w
  else if w.may ll .makeReg path && w.may ll .readFile path && w.may ll .writeFile path then
    match (handleCreate cr path password settings : Prog Unit VaultError Unit) ⟨w.host, ()⟩ with
    | .ok _ s' => { w with host := s'.host, screen := .home }
    | .error _ s' => { w with host := s'.host }
  else w

/-- The rule for the name of a file in a vault. -/
def isValidVaultName (name : String) : Bool := isValidVfsFilename name

/-- The Create button, and `do_create_vault_at_path`. -/
def createVault (name password confirm : String) (settings : KdfSettings) (enforced : Bool) :
    World :=
  if isValidVaultName name = false ∨ password = "" ∨ password ≠ confirm then w
  else
    match env.homeDir with
    | none => w
    | some home =>
      let path := s!"{home}/.atom_vault/{name}.aegis"
      let w := w.confine ll env path enforced
      if w.exited then w else w.createAt cr u ll path password settings

/-! ## Frames -/

def pollVaultPath : World :=
  match w.pendingVaultPath with
  | none => w
  | some path =>
    { w with
      pendingVaultPath := none
      selectedVaultPath := some path
      screen := if w.screen = .home then .login else w.screen }

def pollImportPath : World :=
  match w.pendingImportPath with
  | none => w
  | some path =>
    ({ w with
      pendingImportPath := none
      pendingImportVfsName := (fileName path).getD ""
      pendingImportBytes := some w.requests.length } : World).send (.readFile path)

def pollExportPath : World :=
  match w.pendingExportPath with
  | none => w
  | some path =>
    match w.pendingExportVfsName with
    | none => { w with pendingExportPath := none }
    | some vfsName =>
      ({ w with pendingExportPath := none, pendingExportVfsName := none } : World).doExportViaBroker
        cr path vfsName

def pollImportBytes : World :=
  match w.pendingImportBytes with
  | none => w
  | some k =>
    match w.replies k with
    | some (.read result) =>
      let w := { w with pendingImportBytes := none, replies := Function.update w.replies k none }
      match result with
      | .ok data => w.doImportBytes cr data
      | .error _ => w
    | _ => w

/-- The names that have buttons. -/
def hasFile (vfsName : String) : Bool :=
  match w.vaultSession with
  | none => false
  | some s => hasName s.metadata.fileTable vfsName

def handleExplorer : Event → World
  | .lock => { w with vaultSession := none, screen := .home }
  | .importFile => { w with dialogs := w.dialogs ++ [.pickImport w.currentVaultPath] }
  | .p2p => { w with screen := .p2pDialog }
  | .openFile vfsName => if w.hasFile vfsName then w.doOpen cr vfsName else w
  | .exportFile vfsName => if w.hasFile vfsName then w.doExportFile vfsName else w
  | .renameFile vfsName =>
    if w.hasFile vfsName then { w with renameDialog := some (vfsName, vfsName) } else w
  | .deleteFile vfsName => if w.hasFile vfsName then w.doDelete cr vfsName else w
  | .typeNewName text => { w with renameDialog := w.renameDialog.map fun (old, _) => (old, text) }
  | .saveRename => w.doRename cr
  | .cancelRename => { w with renameDialog := none }
  | _ => w

/-- What has no place on the screen is not there to be clicked. -/
def handle (e : Event) : World :=
  match w.screen with
  | .home =>
    match e with
    | .openEntry path => { w with selectedVaultPath := some path, screen := .login }
    | .browse => { w with dialogs := w.dialogs ++ [.pickVault] }
    | .createNew => { w with screen := .createVault }
    | _ => w
  | .login =>
    match e with
    | .typePassword text => { w with password := text }
    | .unlock enforced => w.tryUnlock cr ll env enforced
    | .browse => { w with dialogs := w.dialogs ++ [.pickVault] }
    | .backToHome => { w with password := "", screen := .home }
    | _ => w
  | .createVault =>
    match e with
    | .cancelCreate => { w with screen := .home }
    | .createVault name password confirm settings enforced =>
      w.createVault cr u ll env name password confirm settings enforced
    | _ => w
  | .vaultExplorer => w.handleExplorer cr e
  | .p2pDialog =>
    match e with
    | .backToVault => { w with screen := .vaultExplorer }
    | _ => w

def poll : World := (w.pollVaultPath.pollImportPath.pollExportPath cr).pollImportBytes cr

/-- `update`. -/
def frame (e : Option Event) : World :=
  match e with
  | none => w.poll cr
  | some e => (w.poll cr).handle cr u ll env e

/-! ## The other threads -/

/-- The dialog is closed, with a path or without. -/
def answered (d : Dialog) (path : Option String) : World :=
  match path with
  | none => w
  | some path =>
    match d with
    | .pickVault => { w with pendingVaultPath := some path }
    | .pickImport vault =>
      ({ w with pendingImportPath := some path } : World).note (.pickedImport vault path)
    | .saveExport vault vfsName =>
      ({ w with pendingExportPath := some path } : World).note (.pickedExport vault vfsName path)

def reply (k : Nat) (r : Reply) : World :=
  { w with replies := Function.update w.replies k (some r) }

/-- `write_with_sandbox`, on the host. -/
def writeFile (path : String) (data : Bytes) : Prog Unit VaultError Unit := do
  let f ← Call.openTruncate .io path
  Call.writeAll .io f data
  Call.sync .io f

/-- The thread of a request: it does what it was sent for, or fails. -/
def serve (k : Nat) (r : BrokerRequest) (failure : Option String) : World :=
  match r with
  | .readFile path =>
    match failure, w.host.contents path with
    | some e, _ => w.reply k (.read (.error e))
    | none, none => w.reply k (.read (.error Call.noSuchFile))
    | none, some data => (w.reply k (.read (.ok data))).note (.read w.host path data)
  | .writeFile path data =>
    match failure with
    | some e => w.reply k (.done (.error e))
    | none =>
      match writeFile path data ⟨w.host, ()⟩ with
      | .ok _ s' => (({ w with host := s'.host } : World).reply k (.done (.ok ()))).note
          (.wrote s'.host path data)
      | .error _ s' => ({ w with host := s'.host } : World).reply k (.done (.error Call.shortRead))
  | .openViewer _ _ =>
    match failure with
    | some e => w.reply k (.done (.error e))
    | none => w.reply k (.done (.ok ()))

end World

/-- The main thread draws a frame, a dialog is closed, or a thread of the broker ends. -/
inductive Act
  | frame (e : Option Event)
  | answer (i : Nat) (path : Option String)
  | serve (k : Nat) (failure : Option String)

section Step

variable (cr : Crates) (u : Live.Unicode) (ll : Landlock) (env : GuiEnv)

def step (w : World) (a : Act) : Option World :=
  if w.exited then none
  else
    match a with
    | .frame e => some (w.frame cr u ll env e)
    | .answer i path =>
      (w.dialogs[i]?).map fun d =>
        ({ w with dialogs := w.dialogs.eraseIdx i } : World).answered d path
    | .serve k failure =>
      if k ∈ w.todo then
        (w.requests[k]?).map fun r =>
          ({ w with todo := w.todo.erase k } : World).serve k r failure
      else none

end Step

end AtomVault.Gui
