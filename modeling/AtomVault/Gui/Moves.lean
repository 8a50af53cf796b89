import AtomVault.Gui.App
import Mathlib.Logic.Relation

/-!
# What a step of the GUI does

A frame is made of moves, and so is what the other threads do. An invariant of the moves is one of
every run.
-/

open Lib Relation

namespace AtomVault.Gui

/-- The screens of an open vault. -/
def Screen.inside : Screen → Bool
  | .vaultExplorer => true
  | .p2pDialog => true
  | _ => false

def Dialog.isExport : Dialog → Bool
  | .saveExport _ _ => true
  | _ => false

/-- An export waits for its path. -/
def World.Exporting (w : World) : Prop :=
  (∃ d ∈ w.dialogs, d.isExport = true) ∨ w.pendingExportPath ≠ none

/-- Something that was begun in the open vault is not done. -/
def World.Busy (w : World) : Prop :=
  (∃ d ∈ w.dialogs, d ≠ .pickVault) ∨ w.pendingImportPath ≠ none ∨ w.pendingExportPath ≠ none ∨
    w.pendingImportBytes ≠ none

/-- Who is careful waits for an export before asking for another one, and for all that was begun
before locking the vault. -/
def Careful (w : World) : Act → Prop
  | .frame (some (.exportFile _)) => ¬w.Exporting
  | .frame (some .lock) => ¬w.Busy
  | _ => True

section Moves

variable (cr : Crates) (ll : Landlock) (env : GuiEnv) (care : Prop)

inductive Does : World → World → Prop
  | idle (w : World) (a b : Option String) (c : String) (d : Option (String × String)) (h : Host)
      (x : Bool) :
      Does w { w with
        selectedVaultPath := a
        pendingVaultPath := b
        password := c
        renameDialog := d
        host := h
        exited := x }
  | go (w : World) (s : Screen) (hs : s.inside = w.screen.inside) : Does w { w with screen := s }
  | lock (w : World) (hcare : care → ¬w.Busy) :
      Does w { w with vaultSession := none, screen := .home }
  | confine (w : World) (path : String) (hs : w.sandboxApplied = false) :
      Does w { w with
        sandboxApplied := true
        domain := some (applyGuiVaultSandbox ll w.host env path) }
  | enter (w : World) (path : String) (s : Session) (h : Host) (hs : w.sandboxApplied = true)
      (hout : w.screen.inside = false) (hmay : w.may ll .writeFile path = true) :
      Does w { w with
        host := h
        currentVaultPath := path
        vaultSession := some s
        screen := .vaultExplorer
        log := w.log ++ [.opened w.host path] }
  | vault (w : World) (s s' : Session) (h : Host) (hs : w.vaultSession = some s) :
      Does w { w with host := h, vaultSession := some s' }
  | view (w : World) (data : Bytes) (name : String) : Does w (w.send (.openViewer data name))
  | askVault (w : World) : Does w { w with dialogs := w.dialogs ++ [.pickVault] }
  | askImport (w : World) (hin : w.screen.inside = true) :
      Does w { w with dialogs := w.dialogs ++ [.pickImport w.currentVaultPath] }
  | askExport (w : World) (name : String) (hin : w.screen.inside = true)
      (hcare : care → ¬w.Exporting) : Does w (w.doExportFile name)
  | takeImport (w : World) (path : String) (hp : w.pendingImportPath = some path) :
      Does w w.pollImportPath
  | store (w : World) (k : Nat) (data : Bytes) (hk : w.pendingImportBytes = some k)
      (hr : w.replies k = some (.read (.ok data))) (hs : w.vaultSession.isSome = true) :
      Does w { w with
        pendingImportBytes := none
        replies := Function.update w.replies k none
        pendingImportVfsName := ""
        log := w.log ++ [.imported w.currentVaultPath w.pendingImportVfsName data] }
  | drop (w : World) (k : Nat) (name : String) :
      Does w { w with
        pendingImportBytes := none
        replies := Function.update w.replies k none
        pendingImportVfsName := name }
  | noExport (w : World) (path name : Option String) (hp : w.pendingExportPath = path)
      (hpath : path ≠ none) (hn : name = none ∨ name = w.pendingExportVfsName) :
      Does w { w with pendingExportPath := none, pendingExportVfsName := name }
  | sendExport (w : World) (path name : String) (data : Bytes) (s : Session) (s' : Env Session)
      (hp : w.pendingExportPath = some path) (hn : w.pendingExportVfsName = some name)
      (hs : w.vaultSession = some s) (hread : decryptToBytes cr name ⟨w.host, s⟩ = .ok data s') :
      Does w ((({ w with pendingExportPath := none, pendingExportVfsName := none } : World).send
        (.writeFile path data)).note (.exported w.currentVaultPath ⟨w.host, s⟩ name path data))
  | close (w : World) (i : Nat) : Does w { w with dialogs := w.dialogs.eraseIdx i }
  | pickImport (w : World) (i : Nat) (vault path : String)
      (hi : w.dialogs[i]? = some (.pickImport vault)) :
      Does w { w with
        dialogs := w.dialogs.eraseIdx i
        pendingImportPath := some path
        log := w.log ++ [.pickedImport vault path] }
  | pickExport (w : World) (i : Nat) (vault name path : String)
      (hi : w.dialogs[i]? = some (.saveExport vault name)) :
      Does w { w with
        dialogs := w.dialogs.eraseIdx i
        pendingExportPath := some path
        log := w.log ++ [.pickedExport vault name path] }
  | reply (w : World) (k : Nat) (r : Reply) (hr : ∀ data, r ≠ .read (.ok data)) :
      Does w (w.reply k r)
  | finish (w : World) (k : Nat) : Does w { w with todo := w.todo.erase k }
  | read (w : World) (k : Nat) (path : String) (data : Bytes)
      (hk : w.requests[k]? = some (.readFile path)) (hread : w.host.contents path = some data) :
      Does w ((w.reply k (.read (.ok data))).note (.read w.host path data))
  | write (w : World) (k : Nat) (path : String) (data : Bytes)
      (hk : w.requests[k]? = some (.writeFile path data))
      (hwrote : w.host.contents path = some data) : Does w (w.note (.wrote w.host path data))

variable {cr ll env care} {u : Live.Unicode} {w w' : World}

abbrev DoesAll (cr : Crates) (ll : Landlock) (env : GuiEnv) (care : Prop) : World → World → Prop :=
  ReflTransGen (Does cr ll env care)

theorem doesAll_host (h : Host) : DoesAll cr ll env care w { w with host := h } :=
  .single (.idle w w.selectedVaultPath w.pendingVaultPath w.password w.renameDialog h w.exited)

theorem doesAll_inVault {α : Type} {s : Session} (hs : w.vaultSession = some s) (x : Cmd α) :
    DoesAll cr ll env care w (w.inVault s x).2 := by
  unfold World.inVault
  cases x ⟨w.host, s⟩ with
  | ok a s' => exact .single (.vault w s s'.vars s'.host hs)
  | error e s' => exact .single (.vault w s s'.vars s'.host hs)

theorem doesAll_doOpen (name : String) : DoesAll cr ll env care w (w.doOpen cr name) := by
  unfold World.doOpen
  cases hs : w.vaultSession with
  | none => exact .refl
  | some s =>
    have hvault : DoesAll cr ll env care w (w.inVault s (decryptToBytes cr name)).2 :=
      doesAll_inVault hs _
    dsimp only
    split
    · rename_i b w' hx
      rw [hx] at hvault
      exact hvault.tail (.view w' b name)
    · rename_i e w' hx
      rw [hx] at hvault
      exact hvault

theorem doesAll_doDelete (name : String) : DoesAll cr ll env care w (w.doDelete cr name) := by
  unfold World.doDelete
  cases hs : w.vaultSession with
  | none => exact .refl
  | some s => exact doesAll_inVault hs _

theorem doesAll_doRename : DoesAll cr ll env care w (w.doRename cr) := by
  unfold World.doRename
  split
  · exact .refl
  · rename_i old new _
    have hclosed : DoesAll cr ll env care w { w with renameDialog := none } :=
      .single (.idle w w.selectedVaultPath w.pendingVaultPath w.password none w.host w.exited)
    dsimp only
    split
    · exact hclosed
    · rename_i s hs
      exact hclosed.trans (doesAll_inVault (w := { w with renameDialog := none }) hs _)

theorem doesAll_pollVaultPath : DoesAll cr ll env care w w.pollVaultPath := by
  unfold World.pollVaultPath
  split
  · exact .refl
  · rename_i path _
    have hidle : DoesAll cr ll env care w
        { w with selectedVaultPath := some path, pendingVaultPath := none } :=
      .single (.idle w _ _ w.password w.renameDialog w.host w.exited)
    refine hidle.tail (.go _ _ ?_)
    dsimp only
    split
    · rename_i hhome
      rw [hhome]
      rfl
    · rfl

theorem doesAll_pollImportPath : DoesAll cr ll env care w w.pollImportPath := by
  cases hp : w.pendingImportPath with
  | none =>
    unfold World.pollImportPath
    rw [hp]
  | some path => exact .single (.takeImport w path hp)

theorem doesAll_pollExportPath : DoesAll cr ll env care w (w.pollExportPath cr) := by
  unfold World.pollExportPath
  split
  · exact .refl
  rename_i path hp
  split
  · exact .single (.noExport w _ w.pendingExportVfsName hp (Option.some_ne_none _) (Or.inr rfl))
  rename_i name hn
  unfold World.doExportViaBroker
  dsimp only
  have hdropped : DoesAll cr ll env care w
      { w with pendingExportPath := none, pendingExportVfsName := none } :=
    .single (.noExport w _ none hp (Option.some_ne_none _) (Or.inl rfl))
  split
  · exact hdropped
  rename_i s hs
  dsimp only [World.inVault]
  cases hx : decryptToBytes cr name ⟨w.host, s⟩ with
  | ok data s' =>
    exact .tail (.single (.sendExport w path name data s s' hp hn hs hx))
      (.vault _ s s'.vars s'.host hs)
  | error e s' => exact hdropped.tail (.vault _ s s'.vars s'.host hs)

theorem doesAll_pollImportBytes : DoesAll cr ll env care w (w.pollImportBytes cr) := by
  unfold World.pollImportBytes
  split
  · exact .refl
  · rename_i k hk
    split
    · rename_i result hr
      cases result with
      | error e => exact .single (.drop w k w.pendingImportVfsName)
      | ok data =>
        dsimp only
        unfold World.doImportBytes
        dsimp only
        split
        · exact .single (.drop w k "")
        · rename_i s hs
          have hopen : w.vaultSession.isSome = true := Option.isSome_iff_exists.mpr ⟨s, hs⟩
          dsimp only [World.inVault]
          split
          · exact .tail (.single (.store w k data hk hr hopen)) (.vault _ s _ _ hs)
          · exact .tail (.single (.store w k data hk hr hopen)) (.vault _ s _ _ hs)
    · exact .refl

theorem doesAll_poll : DoesAll cr ll env care w (w.poll cr) :=
  ((doesAll_pollVaultPath.trans doesAll_pollImportPath).trans doesAll_pollExportPath).trans
    doesAll_pollImportBytes

/-! ## What was clicked -/

theorem doesAll_confine (path : String) (enforced : Bool) :
    DoesAll cr ll env care w (w.confine ll env path enforced) := by
  unfold World.confine
  split
  · exact .refl
  rename_i hs
  split
  · exact .single (.confine w path (by simpa using hs))
  · exact .single
      (.idle w w.selectedVaultPath w.pendingVaultPath w.password w.renameDialog w.host true)

theorem confine_applied {path : String} {enforced : Bool}
    (h : ¬(w.confine ll env path enforced).exited = true) :
    (w.confine ll env path enforced).sandboxApplied = true := by
  unfold World.confine at h ⊢
  split at h
  · rename_i hs
    rw [if_pos hs]
    exact hs
  · rename_i hs
    rw [if_neg hs]
    split at h
    · rename_i henf
      rw [if_pos henf]
    · exact absurd rfl h

theorem confine_screen (path : String) (enforced : Bool) :
    (w.confine ll env path enforced).screen = w.screen := by
  unfold World.confine
  split
  · rfl
  · split <;> rfl

theorem doesAll_unlockAt {path : String} (hs : w.sandboxApplied = true)
    (hout : w.screen.inside = false) : DoesAll cr ll env care w (w.unlockAt cr ll path) := by
  have htyped : DoesAll cr ll env care w { w with password := "" } :=
    .single (.idle w w.selectedVaultPath w.pendingVaultPath "" w.renameDialog w.host w.exited)
  unfold World.unlockAt
  dsimp only
  split
  · rename_i hmay
    rw [Bool.and_eq_true] at hmay
    split
    · exact htyped.tail (.enter _ path _ _ hs hout hmay.2)
    · exact htyped.trans (doesAll_host _)
  · exact htyped

theorem doesAll_tryUnlock (enforced : Bool) (hout : w.screen.inside = false) :
    DoesAll cr ll env care w (w.tryUnlock cr ll env enforced) := by
  unfold World.tryUnlock
  split
  · exact .refl
  rename_i path _
  split
  · exact .refl
  dsimp only
  split
  · exact doesAll_confine path enforced
  · rename_i hexit
    refine (doesAll_confine path enforced).trans (doesAll_unlockAt (confine_applied hexit) ?_)
    rw [confine_screen]
    exact hout

theorem doesAll_createAt (path password : String) (settings : KdfSettings)
    (hout : w.screen.inside = false) :
    DoesAll cr ll env care w (w.createAt cr u ll path password settings) := by
  unfold World.createAt
  split
  · exact .refl
  split
  · split
    · rename_i s' _
      exact (doesAll_host s'.host).tail (.go { w with host := s'.host } .home hout.symm)
    · exact doesAll_host _
  · exact .refl

theorem doesAll_createVault (name password confirm : String) (settings : KdfSettings)
    (enforced : Bool) (hout : w.screen.inside = false) : DoesAll cr ll env care w
      (w.createVault cr u ll env name password confirm settings enforced) := by
  unfold World.createVault
  split
  · exact .refl
  split
  · exact .refl
  dsimp only
  split
  · exact doesAll_confine _ _
  · refine (doesAll_confine _ _).trans (doesAll_createAt _ _ _ ?_)
    rw [confine_screen]
    exact hout

theorem doesAll_handleExplorer {e : Event} (hin : w.screen.inside = true)
    (hexport : ∀ name, e = .exportFile name → care → ¬w.Exporting)
    (hlock : e = .lock → care → ¬w.Busy) : DoesAll cr ll env care w (w.handleExplorer cr e) := by
  have hidle : ∀ d, DoesAll cr ll env care w { w with renameDialog := d } := fun d =>
    .single (.idle w w.selectedVaultPath w.pendingVaultPath w.password d w.host w.exited)
  unfold World.handleExplorer
  split
  · exact .single (.lock w (hlock rfl))
  · exact .single (.askImport w hin)
  · exact .single (.go w .p2pDialog hin.symm)
  · split
    · exact doesAll_doOpen _
    · exact .refl
  · rename_i name
    split
    · exact .single (.askExport w name hin (hexport name rfl))
    · exact .refl
  · split
    · exact hidle _
    · exact .refl
  · split
    · exact doesAll_doDelete _
    · exact .refl
  · exact hidle _
  · exact doesAll_doRename
  · exact hidle _
  · exact .refl

theorem doesAll_handle {e : Event}
    (hexport : ∀ name, e = .exportFile name → care → ¬w.Exporting)
    (hlock : e = .lock → care → ¬w.Busy) :
    DoesAll cr ll env care w (w.handle cr u ll env e) := by
  have hidle : ∀ a b, DoesAll cr ll env care w { w with selectedVaultPath := a, password := b } :=
    fun a b => .single (.idle w a w.pendingVaultPath b w.renameDialog w.host w.exited)
  unfold World.handle
  split
  case h_1 hs =>
    split
    · exact (hidle _ w.password).tail (.go _ .login (by rw [hs]; rfl))
    · exact .single (.askVault w)
    · exact .single (.go w .createVault (by rw [hs]; rfl))
    · exact .refl
  case h_2 hs =>
    split
    · exact hidle w.selectedVaultPath _
    · exact doesAll_tryUnlock _ (by rw [hs]; rfl)
    · exact .single (.askVault w)
    · exact (hidle w.selectedVaultPath "").tail (.go _ .home (by rw [hs]; rfl))
    · exact .refl
  case h_3 hs =>
    split
    · exact .single (.go w .home (by rw [hs]; rfl))
    · exact doesAll_createVault _ _ _ _ _ (by rw [hs]; rfl)
    · exact .refl
  case h_4 hs => exact doesAll_handleExplorer (by rw [hs]; rfl) hexport hlock
  case h_5 hs =>
    split
    · exact .single (.go w .vaultExplorer (by rw [hs]; rfl))
    · exact .refl

/-! ## Steps -/

variable (cr w) in
theorem doExportViaBroker_fields (path name : String) :
    (w.doExportViaBroker cr path name).dialogs = w.dialogs ∧
    (w.doExportViaBroker cr path name).pendingImportPath = w.pendingImportPath ∧
    (w.doExportViaBroker cr path name).pendingExportPath = w.pendingExportPath ∧
    (w.doExportViaBroker cr path name).pendingImportBytes = w.pendingImportBytes := by
  unfold World.doExportViaBroker
  split
  · exact ⟨rfl, rfl, rfl, rfl⟩
  · rename_i s _
    unfold World.inVault
    cases decryptToBytes cr name ⟨w.host, s⟩ with
    | ok data s' => exact ⟨rfl, rfl, rfl, rfl⟩
    | error e s' => exact ⟨rfl, rfl, rfl, rfl⟩

variable (cr w) in
theorem doImportBytes_fields (data : Bytes) :
    (w.doImportBytes cr data).dialogs = w.dialogs ∧
    (w.doImportBytes cr data).pendingImportPath = w.pendingImportPath ∧
    (w.doImportBytes cr data).pendingExportPath = w.pendingExportPath ∧
    (w.doImportBytes cr data).pendingImportBytes = w.pendingImportBytes := by
  unfold World.doImportBytes
  dsimp only
  split
  · exact ⟨rfl, rfl, rfl, rfl⟩
  · rename_i s _
    unfold World.inVault
    dsimp only
    split <;> exact ⟨rfl, rfl, rfl, rfl⟩

variable (cr w) in
theorem pollExportPath_fields :
    (w.pollExportPath cr).dialogs = w.dialogs ∧
    (w.pollExportPath cr).pendingImportPath = w.pendingImportPath ∧
    (w.pollExportPath cr).pendingExportPath = none ∧
    (w.pollExportPath cr).pendingImportBytes = w.pendingImportBytes := by
  unfold World.pollExportPath
  split
  · rename_i hnone
    exact ⟨rfl, rfl, hnone, rfl⟩
  split
  · exact ⟨rfl, rfl, rfl, rfl⟩
  · exact doExportViaBroker_fields cr _ _ _

variable (cr w) in
theorem pollImportBytes_fields :
    (w.pollImportBytes cr).dialogs = w.dialogs ∧
    (w.pollImportBytes cr).pendingImportPath = w.pendingImportPath ∧
    (w.pollImportBytes cr).pendingExportPath = w.pendingExportPath ∧
    ((w.pollImportBytes cr).pendingImportBytes ≠ none → w.pendingImportBytes ≠ none) := by
  unfold World.pollImportBytes
  split
  · exact ⟨rfl, rfl, rfl, id⟩
  rename_i k hk
  have hsome : w.pendingImportBytes ≠ none := by
    rw [hk]
    exact Option.some_ne_none k
  split
  · dsimp only
    split
    · obtain ⟨hdialogs, himport, hexport, -⟩ := doImportBytes_fields cr _ _
      exact ⟨hdialogs, himport, hexport, fun _ => hsome⟩
    · exact ⟨rfl, rfl, rfl, fun _ => hsome⟩
  · exact ⟨rfl, rfl, rfl, fun _ => hsome⟩

variable (cr w) in
/-- Polling opens no dialog and leaves no path behind. -/
theorem poll_fields : (w.poll cr).dialogs = w.dialogs ∧ (w.poll cr).pendingImportPath = none ∧
    (w.poll cr).pendingExportPath = none ∧
    ((w.poll cr).pendingImportBytes ≠ none →
      w.pendingImportPath ≠ none ∨ w.pendingImportBytes ≠ none) := by
  have hvault : w.pollVaultPath.dialogs = w.dialogs ∧
      w.pollVaultPath.pendingImportPath = w.pendingImportPath ∧
      w.pollVaultPath.pendingImportBytes = w.pendingImportBytes := by
    unfold World.pollVaultPath
    split <;> exact ⟨rfl, rfl, rfl⟩
  have himport : w.pollVaultPath.pollImportPath.dialogs = w.dialogs ∧
      w.pollVaultPath.pollImportPath.pendingImportPath = none ∧
      (w.pollVaultPath.pollImportPath.pendingImportBytes ≠ none →
        w.pendingImportPath ≠ none ∨ w.pendingImportBytes ≠ none) := by
    unfold World.pollImportPath
    split
    · rename_i hnone
      refine ⟨hvault.1, hnone, fun h => Or.inr ?_⟩
      rwa [hvault.2.2] at h
    · rename_i path hpath
      refine ⟨hvault.1, rfl, fun _ => Or.inl ?_⟩
      rw [← hvault.2.1, hpath]
      exact Option.some_ne_none path
  obtain ⟨hd1, hi1, he1, hb1⟩ := pollExportPath_fields cr w.pollVaultPath.pollImportPath
  obtain ⟨hd2, hi2, he2, hb2⟩ := pollImportBytes_fields cr
    (w.pollVaultPath.pollImportPath.pollExportPath cr)
  refine ⟨hd2.trans (hd1.trans himport.1), hi2.trans (hi1.trans himport.2.1), he2.trans he1, ?_⟩
  intro h
  have h1 := hb2 h
  rw [hb1] at h1
  exact himport.2.2 h1

theorem writeFile_contents {path : String} {data : Bytes} {s s' : Env Unit}
    (h : World.writeFile path data s = .ok () s') : s'.host.contents path = some data := by
  have hspec : wp (World.writeFile path data) (fun _ s' => s'.host.contents path = some data)
      (fun _ _ => True) s := by
    unfold World.writeFile
    rw [wp_bind]
    apply wp_openTruncate
    · exact fun _ _ _ _ => trivial
    intro i s1 _ o
    rw [wp_bind]
    refine wp_append (by rw [o.pos, o.data]; rfl) (fun _ _ => trivial) fun s2 t2 hd2 _ => ?_
    apply wp_sync
    · exact fun _ _ _ _ => trivial
    intro s3 t3 hd3 _ _ _
    have hname : s3.host.names path = some i := by
      rw [t3.names, t2.names, o.names, Function.update_self]
    have hino : s3.host.ino s.host.nextFd = i := by rw [t3.ino, t2.ino, o.ino]
    rw [Host.contents_of_names hname, ← hino]
    rw [hd2, o.data, List.nil_append] at hd3
    exact congrArg some hd3
  have hwritten := wp_of_ok hspec h
  exact hwritten

theorem step_doesAll {a : Act} (hcare : care → Careful w a) (h : step cr u ll env w a = some w') :
    DoesAll cr ll env care w w' := by
  unfold step at h
  split at h
  · cases h
  cases a with
  | frame e =>
    obtain rfl := Option.some.inj h
    cases e with
    | none => exact doesAll_poll
    | some e =>
      obtain ⟨hdialogs, himport, hexport, hbytes⟩ := poll_fields cr w
      refine doesAll_poll.trans (doesAll_handle ?_ ?_)
      · rintro name rfl hc hexporting
        refine hcare hc (hexporting.imp (fun h => ?_) fun h => absurd hexport h)
        rwa [hdialogs] at h
      · rintro rfl hc hbusy
        refine hcare hc ?_
        rcases hbusy with h | h | h | h
        · rw [hdialogs] at h
          exact Or.inl h
        · exact absurd himport h
        · exact absurd hexport h
        · rcases hbytes h with h | h
          · exact Or.inr (Or.inl h)
          · exact Or.inr (Or.inr (Or.inr h))
  | answer i path =>
    obtain ⟨d, hd, rfl⟩ := Option.map_eq_some_iff.mp h
    unfold World.answered
    cases path with
    | none => exact .single (.close w i)
    | some path =>
      cases d with
      | pickVault =>
        exact (ReflTransGen.single (.close w i)).tail
          (.idle _ w.selectedVaultPath (some path) w.password w.renameDialog w.host w.exited)
      | pickImport vault => exact .single (.pickImport w i vault path hd)
      | saveExport vault name => exact .single (.pickExport w i vault name path hd)
  | serve k failure =>
    dsimp only at h
    split at h
    case isFalse => cases h
    obtain ⟨r, hr, rfl⟩ := Option.map_eq_some_iff.mp h
    have hfinish : DoesAll cr ll env care w { w with todo := w.todo.erase k } :=
      .single (.finish w k)
    unfold World.serve
    cases r with
    | readFile path =>
      dsimp only
      split
      · exact hfinish.tail (.reply _ k _ (by intro _ h; cases h))
      · exact hfinish.tail (.reply _ k _ (by intro _ h; cases h))
      · rename_i data hread
        exact hfinish.tail (.read _ k path data hr hread)
    | writeFile path data =>
      dsimp only
      split
      · exact hfinish.tail (.reply _ k _ (by intro _ h; cases h))
      · split
        · rename_i s' hwrite
          have hserved := (hfinish.trans (doesAll_host s'.host)).tail
            (.reply _ k (.done (.ok ())) (by intro _ h; cases h))
          exact hserved.tail (.write _ k path data hr (writeFile_contents hwrite))
        · exact (hfinish.trans (doesAll_host _)).tail (.reply _ k (.done _) (by intro _ h; cases h))
    | openViewer data name =>
      dsimp only
      split
      · exact hfinish.tail (.reply _ k _ (by intro _ h; cases h))
      · exact hfinish.tail (.reply _ k _ (by intro _ h; cases h))

end Moves

end AtomVault.Gui
