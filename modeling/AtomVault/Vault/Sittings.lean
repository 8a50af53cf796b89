import AtomVault.Lib.Paths
import AtomVault.Vault.Shell

/-!
# Sittings at the shell (`commands/shell.rs`)

A vault that is worked on at the shell stands for a map, and what the shell shows is what this map
says. What the words of a line cannot name stays as it is.
-/

open Lib

namespace AtomVault.Shell

open Live (Text Unicode)

variable {cr : Crates} {penv : PathEnv} {u : Unicode} {password : String} {H : Bytes}

/-! ## Asking first -/

/-- Of the files that were there, only the one the target leads to is written, and that by force. -/
def Overwrites (penv : PathEnv) (toDisk : String) (force : Bool) (s s' : Env Session) : Prop :=
  ∀ i < s.host.nextIno, (s'.host.files i ≠ s.host.files i →
    force = true ∧ ∃ path, exportTarget penv toDisk = .ok path ∧ s.host.names path = some i) ∧
  ∀ path, s'.host.names path = some i → s.host.names path = some i

section Asking

variable {st : State} {vfsName toDisk : String} {force : Bool}

theorem Exported.overwrites {s s' : Env Session} {path : String} {i : Nat} {f : FileIndex}
    (h : Exported penv vfsName toDisk path force i f s s') : Overwrites penv toDisk force s s' := by
  intro j hj
  -- A new inode is not one of those that were there.
  have hthere : i = j → s.host.names path = some j := by
    rintro rfl
    have hi := h.inode
    cases hn : s.host.names path with
    | none =>
      rw [hn] at hi
      exact absurd hi (ne_of_lt hj)
    | some k =>
      rw [hn] at hi
      exact congrArg some hi.symm
  refine ⟨fun hchanged => ?_, fun p hp => ?_⟩
  · have hij : i = j := by
      by_contra hne
      exact hchanged (h.files j (Ne.symm hne))
    refine ⟨?_, path, h.target, hthere hij⟩
    by_contra hforce
    refine h.runs fun path' hpath' => Or.inr (Or.inl ⟨by simpa using hforce, ?_⟩)
    obtain rfl : path = path' := Except.ok.inj (h.target.symm.trans hpath')
    simp [hthere hij]
  · rw [h.names] at hp
    by_cases hpath : p = path
    · rw [hpath, Function.update_self] at hp
      rw [hpath]
      exact hthere (Option.some.inj hp)
    · rwa [Function.update_of_ne hpath] at hp

theorem Overwrites.of_still {s s' : Env Session} (a : Still s s') :
    Overwrites penv toDisk force s s' :=
  fun i _ => ⟨fun h => absurd (congrFun a.files i) h, fun path h => by rwa [a.names] at h⟩

variable (cr penv vfsName toDisk force) in
theorem wp_export_overwrites {s : Env Session} (h : Held s) :
    wp (handleExport cr penv vfsName toDisk force) (fun _ s' => Overwrites penv toDisk force s s')
      (fun _ s' => Overwrites penv toDisk force s s') s := by
  apply wp_handleExport h
  · exact fun _ _ _ a => .of_still a
  · exact fun _ _ _ _ _ hexp _ _ => Exported.overwrites hexp
  · exact fun _ _ _ _ hexp _ => Exported.overwrites hexp

theorem keepsFd_plainChunk {onErr : String → VaultError} {e : ChunkEntry} :
    KeepsFd (plainChunk cr onErr e) := by
  unfold plainChunk
  refine .bind keepsFd_session fun _ => .bind Lib.keeps_seek fun _ => .bind keeps_readExact fun _ => ?_
  exact .bind (.ofExcept _ _) fun _ => .bind keeps_probe fun _ => .ofOption _ _

theorem keepsFd_exportChunks {out : Nat} : ∀ {es : List ChunkEntry},
    KeepsFd (exportChunks cr out es) := by
  intro es
  induction es with
  | nil => exact .pure _
  | cons e es ih => exact .bind keepsFd_plainChunk fun _ => .bind keeps_writeAll fun _ => ih

theorem keepsFd_openTarget {path : String} : KeepsFd (openTarget path force) := by
  unfold openTarget
  dsimp only
  split
  · exact .throw _
  · split
    · exact fun s => wp_mono wp_openTruncate_grows (fun _ _ h => h.2) fun _ _ a => a
    · exact keeps_createNew

variable (cr penv vfsName toDisk force) in
theorem keepsFd_handleExport : KeepsFd (handleExport cr penv vfsName toDisk force) := by
  have hpath : ∀ path, KeepsFd (pathExists path) := fun path s => by
    apply wp_pathExists
    · exact fun _ _ _ a => .of_still a
    · exact fun _ _ a => .of_still a
  have hrest : ∀ path, KeepsFd (do
      let st ← session
      let targetFile ← ofOption (.text s!"Error: File '{vfsName}' not found in vault.")
        (st.metadata.fileTable.find? (·.vfsName == vfsName))
      let outputFile ← openTarget path force
      exportChunks cr outputFile targetFile.chunks
      Call.sync .io outputFile) := fun path =>
    .bind keepsFd_session fun _ => .bind (.ofOption _ _) fun _ => .bind keepsFd_openTarget fun _ =>
      .bind keepsFd_exportChunks fun _ => keeps_sync
  unfold handleExport
  refine .bind (.ofExcept _ _) fun path => .bind (hpath path) fun there => ?_
  split
  · exact .bind (.throw _) fun _ => hrest path
  · exact hrest path

variable (cr penv st vfsName toDisk force) in
theorem tryExport_overwrites (h : Held st.env) :
    Overwrites penv toDisk force st.env (st.tryExport cr penv vfsName toDisk force).2.env ∧
    st.env.host.nextIno ≤ (st.tryExport cr penv vfsName toDisk force).2.env.host.nextIno ∧
    Held (st.tryExport cr penv vfsName toDisk force).2.env := by
  have hspec := wp_and (wp_export_overwrites cr penv vfsName toDisk force h)
    (keepsFd_handleExport cr penv vfsName toDisk force st.env)
  exact attempt_of_wp (P := fun _ s' => Overwrites penv toDisk force st.env s' ∧
    st.env.host.nextIno ≤ s'.host.nextIno ∧ Held s')
    (wp_mono hspec (fun _ _ hq => ⟨hq.1, hq.2.inos, h.of_grows hq.2⟩)
      fun _ _ he => ⟨he.1, he.2.inos, h.of_grows he.2⟩)

/-- **An export asks.** A file that was there before an export is another one after it only if the
target's name leads to it, and both questions were answered with a yes. -/
theorem export_asks (h : Held st.env) {i : Nat} (hi : i < st.env.host.nextIno)
    (hchanged : (st.export cr penv u vfsName toDisk).env.host.files i ≠ st.env.host.files i) :
    isYes u (st.input.headD []) = true ∧ isYes u (st.input.tail.headD []) = true ∧
    ∃ path, exportTarget penv toDisk = .ok path ∧ st.env.host.names path = some i := by
  unfold State.export State.readLine at hchanged
  dsimp only at hchanged
  split at hchanged
  case isFalse => exact absurd rfl hchanged
  rename_i hyes
  obtain ⟨hover, hle, hheld⟩ := tryExport_overwrites cr penv
    { st with input := st.input.tail } vfsName toDisk false h
  -- The first attempt overwrites nothing.
  have hfirst : ((State.tryExport cr penv { st with input := st.input.tail } vfsName toDisk
      false).2.env.host.files i) = st.env.host.files i := by
    by_contra hne
    have hforce := ((hover i hi).1 hne).1
    cases hforce
  split at hchanged
  · rename_i st₁ heq
    have hinput : st₁.input = st.input.tail := (congrArg (fun x => x.2.input) heq).symm
    rw [heq] at hfirst hheld hle hover
    dsimp only at hfirst hheld hle hover
    split at hchanged
    · rename_i hyes2
      rw [hinput] at hyes2
      obtain ⟨hover2, -, -⟩ := tryExport_overwrites cr penv
        { st₁ with input := st₁.input.tail } vfsName toDisk true hheld
      rw [← hfirst] at hchanged
      obtain ⟨-, path, hpath, hname⟩ := (hover2 i (hi.trans_le hle)).1 hchanged
      exact ⟨hyes, hyes2, path, hpath, (hover i hi).2 path hname⟩
    · exact absurd hfirst hchanged
  · rename_i r st₁ _ heq
    rw [heq] at hfirst
    exact absurd hfirst hchanged

end Asking

/-! ## Sittings -/

/-- A sitting at the shell, from the state `st₀` on a vault that stands for `M₀`. A command that
changes the vault goes through or is refused, or fails before it has changed anything. Between two
turns anything can happen to the files that are not the container. -/
inductive Sitting (cr : Crates) (penv : PathEnv) (u : Unicode) (st₀ : State) (M₀ : Files) :
    State → Files → Prop
  | start : Sitting cr penv u st₀ M₀ st₀ M₀
  | change {st : State} {M : Files} {op : Op} (before : Sitting cr penv u st₀ M₀ st M)
      (running : st.running = true) (command : (st.command u).op penv = some op)
      (spares : op.Spares st.env) (served : op.Served cr st.env)
      (fits : Fits cr (finalState (op.run cr st.env)).vars.metadata) :
      Sitting cr penv u st₀ M₀ (st.turn cr penv u) (op.apply st.env.host M)
  | fail {st : State} {M : Files} {op : Op} (before : Sitting cr penv u st₀ M₀ st M)
      (running : st.running = true) (command : (st.command u).op penv = some op)
      (still : Still st.env (finalState (op.run cr st.env))) :
      Sitting cr penv u st₀ M₀ (st.turn cr penv u) M
  | read {st : State} {M : Files} (before : Sitting cr penv u st₀ M₀ st M)
      (running : st.running = true) (command : (st.command u).op penv = none)
      (spares : ∀ vfsName toDisk, st.command u = .export_ vfsName toDisk →
        TargetSpares penv toDisk st.env) :
      Sitting cr penv u st₀ M₀ (st.turn cr penv u) M
  | outside {st : State} {M : Files} {host : Host} (before : Sitting cr penv u st₀ M₀ st M)
      (aside : Aside (st.env.host.ino st.env.vars.fd) st.env { st.env with host := host }) :
      Sitting cr penv u st₀ M₀ { st with env := { st.env with host := host } } M

section Sittings

variable {st₀ st : State} {M₀ M : Files}

theorem change_input (op : Op) : (st.change cr op).input = st.input := by
  unfold State.change
  cases attempt (op.run cr) st.env
  rfl

theorem change_running (op : Op) : (st.change cr op).running = st.running := by
  unfold State.change
  cases attempt (op.run cr) st.env
  rfl

theorem turn_eq_change {op : Op} (h : (st.command u).op penv = some op) :
    (st.turn cr penv u).env = finalState (op.run cr st.env) := by
  unfold State.turn State.obey
  rw [h]
  dsimp only [State.change, State.readLine]
  unfold attempt finalState
  cases op.run cr st.env <;> rfl

theorem Sitting.refines (hi : cr.Ideal) (ht : cr.Tagged) (h₀ : Refines cr password H st₀.env M₀)
    (h : Sitting cr penv u st₀ M₀ st M) : Refines cr password H st.env M := by
  induction h with
  | start => exact h₀
  | change _ _ command spares served fits ih =>
    rw [turn_eq_change command]
    exact ih.run hi spares served fits
  | fail _ _ command still ih =>
    rw [turn_eq_change command]
    exact ih.of_still still
  | @read st M _ _ command spares ih =>
    exact (answers_obey st.readLine.2 ht ih command spares).refines
  | outside _ aside ih => exact ih.aside aside

/-- The words behind a command's name. -/
def Command.args : Command → List String
  | .importFile fromDisk vfsName => [fromDisk, vfsName]
  | .rm vfsName => [vfsName]
  | .export_ vfsName toDisk => [vfsName, toDisk]
  | .cat vfsName => [vfsName]
  | .view vfsName => [vfsName]
  | _ => []

/-- A name that can be one word of a line. -/
def IsWord (u : Unicode) (name : String) : Prop :=
  name.toList ≠ [] ∧ ∀ c ∈ name.toList, u.isWhitespace c = false

theorem mem_args_parseWords {ws : List Text} {name : String} (h : name ∈ (parseWords ws).args) :
    ∃ w ∈ ws, name = String.ofList w := by
  unfold parseWords at h
  split at h
  case h_1 => cases h
  split at h
  all_goals simp only [Command.args, List.mem_cons, List.not_mem_nil, or_false] at h
  all_goals rcases h with rfl | rfl <;> exact ⟨_, by simp, rfl⟩

theorem isWord_of_mem_args {line : Text} {name : String} (h : name ∈ (parse u line).args) :
    IsWord u name := by
  obtain ⟨w, hw, rfl⟩ := mem_args_parseWords h
  obtain ⟨hsplit, hne⟩ := List.mem_filter.mp hw
  rw [IsWord, String.toList_ofList]
  exact ⟨by simpa using hne, forall_of_mem_splitOnP hsplit⟩

theorem apply_of_not_arg {c : Command} {op : Op} (hop : c.op penv = some op) {name : String}
    (hname : name ∉ c.args) (host : Host) : op.apply host M name = M name := by
  have hadd : ∀ vfsName data, name ≠ vfsName → M.add vfsName data name = M name := by
    intro vfsName data hne
    unfold Files.add
    split
    · exact Function.update_of_ne hne _ _
    · rfl
  cases c with
  | importFile fromDisk vfsName =>
    cases hop
    have hne : name ≠ vfsName := fun heq => hname (by simp [Command.args, heq])
    dsimp only [Op.apply]
    cases stagedBytes host penv fromDisk with
    | some data => exact hadd vfsName data hne
    | none => rfl
  | rm vfsName =>
    cases hop
    exact Function.update_of_ne (fun heq => hname (by simp [Command.args, heq])) _ _
  | vacuum =>
    cases hop
    rfl
  | blank => cases hop
  | ls => cases hop
  | export_ vfsName toDisk => cases hop
  | cat vfsName => cases hop
  | view vfsName => cases hop
  | help => cases hop
  | exit => cases hop
  | usage lines => cases hop
  | unknown name => cases hop

theorem Sitting.apply_eq (h : Sitting cr penv u st₀ M₀ st M) {name : String}
    (hname : ¬IsWord u name) : M name = M₀ name := by
  induction h with
  | start => rfl
  | change _ _ command _ _ _ ih =>
    rw [apply_of_not_arg command fun harg => hname (isWord_of_mem_args harg)]
    exact ih
  | fail _ _ _ _ ih => exact ih
  | read _ _ _ _ ih => exact ih
  | outside _ _ ih => exact ih

/-- **Out of reach.** A file with whitespace in its name, or with no name, is in the vault after every
sitting as it was before it, and no line that could be typed names it. -/
theorem shell_leaves (hi : cr.Ideal) (ht : cr.Tagged)
    (hruns : Runs cr password Op.Spares st₀.env M₀) (h : Sitting cr penv u st₀ M₀ st M)
    {name : String} (hname : ¬IsWord u name) :
    decrypted cr name st.env = decrypted cr name st₀.env ∧ ∀ line, name ∉ (parse u line).args := by
  obtain ⟨H, h₀⟩ := hruns.refines hi
  refine ⟨?_, fun line harg => hname (isWord_of_mem_args harg)⟩
  rw [(h.refines hi ht h₀).decrypted, h₀.decrypted]
  exact h.apply_eq hname

end Sittings

/-! ## Three files -/

def threeImports : List Op :=
  [.importBytes [4] "a b", .importBytes [1, 2, 3] "a", .importBytes [5] "c"]

def threeFiles : Files :=
  ((Files.add (fun _ => none) "a b" [4]).add "a" [1, 2, 3]).add "c" [5]

/-- The host serves the imports, and then the removal. -/
def servesRemoval (s : Env Session) : Bool :=
  match serve standin threeImports s (fun _ => none) with
  | some (s, _) => decide ((Op.rm "a").Served standin s) &&
      decide (Fits standin (finalState ((Op.rm "a").run standin s)).vars.metadata)
  | none => false

set_option maxRecDepth 100000 in
theorem servesRemoval_eval : (match enterOwn start with
    | .ok _ s => servesRemoval s
    | .error _ _ => false) = true := by decide +kernel

theorem serve_threeImports {s s' : Env Session} {M : Files}
    (h : serve standin threeImports s (fun _ => none) = some (s', M)) : M = threeFiles := by
  simp only [threeImports, serve] at h
  split at h
  case isFalse => cases h
  split at h
  case isFalse => cases h
  split at h
  case isFalse => cases h
  exact (Prod.mk.inj (Option.some.inj h)).2.symm

theorem parse_rm : parse Live.sampleUnicode "rm  a b\n".toList = .rm "a" := by decide

theorem parse_cat : parse Live.sampleUnicode "cat a\n".toList = .cat "a" := by decide

def sampleLines : List Text := ["rm  a b\n".toList, "cat a\n".toList, " view c".toList]

def sampleStart (s : Env Session) : State := ⟨s, sampleLines, [], true⟩

section Sample

variable (s : Env Session)

/-- After the first line. -/
def sampleRemoved : State := (sampleStart s).turn standin stagingEnv Live.sampleUnicode

/-- After the second. -/
def sampleRead : State := (sampleRemoved s).turn standin stagingEnv Live.sampleUnicode

theorem sampleStart_command : (sampleStart s).command Live.sampleUnicode = .rm "a" := parse_rm

theorem sampleRemoved_eq :
    sampleRemoved s = State.change standin ⟨s, sampleLines.tail, [], true⟩ (.rm "a") := by
  unfold sampleRemoved State.turn
  rw [sampleStart_command]
  rfl

theorem sampleRemoved_input : (sampleRemoved s).input = sampleLines.tail := by
  rw [sampleRemoved_eq, change_input]

theorem sampleRemoved_command : (sampleRemoved s).command Live.sampleUnicode = .cat "a" := by
  unfold State.command State.readLine
  rw [sampleRemoved_input]
  exact parse_cat

theorem sampleRemoved_running : (sampleRemoved s).running = true := by
  rw [sampleRemoved_eq, change_running]

end Sample

/-- What is left behind the removal. -/
def leftFiles : Files := Function.update threeFiles "a" none

theorem sitting_removed : ∃ s, Runs standin "pw" Op.Spares s threeFiles ∧
    Sitting standin stagingEnv Live.sampleUnicode (sampleStart s) threeFiles (sampleRemoved s)
      leftFiles := by
  have heval := servesRemoval_eval
  split at heval
  case h_2 => cases heval
  rename_i s₂ henter
  obtain ⟨⟨⟩, s₁, hcreate, henter⟩ := bind_eq_ok henter
  unfold servesRemoval at heval
  split at heval
  case h_2 => cases heval
  rename_i s M hserve
  simp only [Bool.and_eq_true, decide_eq_true_eq] at heval
  have hcreated : Runs standin "pw" Op.Spares s₂ fun _ => none :=
    .created fresh_start rfl hcreate henter
  have hruns := hcreated.serve hserve
  rw [serve_threeImports hserve] at hruns
  have hcommand : ((sampleStart s).command Live.sampleUnicode).op stagingEnv = some (.rm "a") := by
    rw [sampleStart_command]
    rfl
  exact ⟨s, hruns, .change .start rfl hcommand trivial heval.1 heval.2⟩

theorem sitting_read {s : Env Session}
    (h : Sitting standin stagingEnv Live.sampleUnicode (sampleStart s) threeFiles (sampleRemoved s)
      leftFiles) :
    Sitting standin stagingEnv Live.sampleUnicode (sampleStart s) threeFiles (sampleRead s)
      leftFiles := by
  refine .read h (sampleRemoved_running s) (by rw [sampleRemoved_command]; rfl) fun _ _ heq => ?_
  rw [sampleRemoved_command] at heq
  cases heq

theorem shell_leaves_removed : ∃ s, Runs standin "pw" Op.Spares s threeFiles ∧
    decrypted standin "a b" s = some [4] ∧
    decrypted standin "a b" (sampleRead s).env = decrypted standin "a b" s := by
  obtain ⟨s, hruns, hsitting⟩ := sitting_removed
  have hname : ¬IsWord Live.sampleUnicode "a b" := fun h => absurd (h.2 ' ' (by decide)) (by decide)
  obtain ⟨H, hr⟩ := hruns.refines standin_ideal
  refine ⟨s, hruns, (hr.decrypted "a b").trans (by decide), ?_⟩
  exact (shell_leaves standin_ideal standin_tagged hruns (sitting_read hsitting) hname).1

/-! ## A file in the staging area -/

def stagedTarget : String := "/run/atom_staging/a"

def stageFile : Cmd Unit := do
  importEmpty
  let fd ← Call.createNew .io stagedTarget
  Call.writeAll .io fd [1]

/-- Both questions are answered with a yes. -/
def sampleAsked (s : Env Session) : State := ⟨s, ["y\n".toList, " Y\n".toList], [], true⟩

def sampleExport (s : Env Session) : State :=
  (sampleAsked s).export standin stagingEnv Live.sampleUnicode "a" "dir/a"

def overwritten (s : Env Session) : Bool :=
  s.host.names stagedTarget == some 1 && decide (1 < s.host.nextIno) &&
    ((sampleExport s).env.host.files 1).bytes != (s.host.files 1).bytes

def stagesFile : Bool :=
  match stageFile start with
  | .ok _ s => overwritten s
  | .error _ _ => false

set_option maxRecDepth 100000 in
theorem stageFile_eval : stagesFile = true := by decide +kernel

theorem held_stageFile {s : Env Session} (h : stageFile start = .ok () s) : Held s := by
  obtain ⟨⟨⟩, s₃, himport, hstage⟩ := bind_eq_ok h
  obtain ⟨⟨⟩, s₁, hcreate, hrun⟩ := bind_eq_ok himport
  obtain ⟨⟨⟩, s₂, henter, himport⟩ := bind_eq_ok hrun
  have hfresh := (created_of_ok standin_ideal hcreate).fresh fresh_start
  have hstep : (Op.importBytes [] "a").run standin s₂ = .ok true s₃ := run_of_ok himport
  have hused : Used standin s₃ := .done (.entered hfresh henter) hstep
  have hgrows : Keeps (Grows Session.fd) (do
      let fd ← Call.createNew .io stagedTarget
      Call.writeAll .io fd [1] : Cmd Unit) := .bind keeps_createNew fun _ => keeps_writeAll
  have a := wp_of_ok (hgrows s₃) hstage
  exact hused.held.of_grows a

theorem export_asks_sample : ∃ s, Held s ∧
    (sampleExport s).env.host.files 1 ≠ s.host.files 1 ∧ s.host.names stagedTarget = some 1 ∧
    isYes Live.sampleUnicode " Y\n".toList = true := by
  have heval := stageFile_eval
  unfold stagesFile at heval
  split at heval
  case h_2 => cases heval
  rename_i s hrun
  have hheld : Held (sampleAsked s).env := held_stageFile hrun
  simp only [overwritten, Bool.and_eq_true, beq_iff_eq, decide_eq_true_eq, bne_iff_ne] at heval
  obtain ⟨⟨hname, hlt⟩, hbytes⟩ := heval
  have hchanged : (sampleExport s).env.host.files 1 ≠ s.host.files 1 :=
    fun h => hbytes (congrArg _ h)
  obtain ⟨-, hyes, -⟩ := export_asks hheld hlt hchanged
  exact ⟨s, hheld, hchanged, hname, hyes⟩

end AtomVault.Shell
