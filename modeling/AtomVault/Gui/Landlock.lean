import AtomVault.Lib.Host

/-!
# The Landlock domain of the GUI (`sandbox.rs`)

A domain is a list of rules, each with the tree or the file it was made for. It is put on once, and
from then on the kernel refuses all that no rule grants.
-/

open Lib

namespace AtomVault.Gui

/-- `AccessFs`, as it is from ABI V5 on. -/
inductive Access
  | execute | writeFile | readFile | readDir | removeDir | removeFile | makeChar | makeDir | makeReg
  | makeSock | makeFifo | makeBlock | makeSym | refer | truncate | ioctlDev
  deriving DecidableEq

namespace Access

def dirRo : List Access := [readFile, readDir, execute]
def fileRo : List Access := [readFile, execute]

end Access

/-- The directories of the host, and the paths in the tree of each. -/
structure Dirs where
  isDir : String → Bool
  within : String → String → Bool

/-- What the descriptor of a rule is open on. -/
inductive Target
  | tree (dir : String)
  | file (ino : Nat)
  deriving DecidableEq

structure Rule where
  target : Target
  rights : List Access
  deriving DecidableEq

abbrev Ruleset := List Rule

def Target.covers (dirs : Dirs) (h : Host) (path : String) : Target → Bool
  | .tree dir => dirs.within dir path
  | .file i => h.names path = some i

/-- The kernel, and the crate that speaks to it. A domain grants no access that is not among the
rights of a rule, to what lies under the rule's path. -/
structure Landlock extends Dirs where
  fromAll : List Access
  fromFile : List Access
  permits : Host → Ruleset → Access → String → Bool
  exists_rule : ∀ h rules a path, permits h rules a path = true →
    ∃ r ∈ rules, a ∈ r.rights ∧ r.target.covers toDirs h path = true

section Rules

variable (ll : Landlock) (h : Host)

/-- `exists()`. -/
def pathExists (path : String) : Bool := ll.isDir path || (h.names path).isSome

/-- The rights follow from what `metadata` says of the path. One that is not there is left out. -/
def rule (ofDir ofFile : List Access) (path : String) : Option Rule :=
  if ll.isDir path then some ⟨.tree path, ofDir⟩
  else (h.names path).map fun i => ⟨.file i, ofFile⟩

/-- `apply_process_sandbox`, up to the rules it puts on. -/
def applyProcessSandbox (readOnlyPaths readWritePaths : List String) : Ruleset :=
  readOnlyPaths.filterMap (rule ll h Access.dirRo Access.fileRo) ++
    readWritePaths.filterMap (rule ll h ll.fromAll ll.fromFile)

/-- The parts of a path. A dot means nothing behind the first part. -/
def pathParts (path : String) : List (List Char) :=
  match path.toList.splitOn '/' with
  | ['.'] :: rest => ['.'] :: rest.filter fun c => c ≠ [] && c ≠ ['.']
  | parts => parts.filter fun c => c ≠ [] && c ≠ ['.']

/-- `Path::parent`. -/
def parentDir (path : String) : Option String :=
  if pathParts path = [] then none
  else
    let parts := String.ofList (List.intercalate ['/'] (pathParts path).dropLast)
    some (if path.toList.head? = some '/' then "/" ++ parts else parts)

structure GuiEnv where
  xdgRuntimeDir : Option String
  homeDir : Option String

namespace GuiEnv

variable (env : GuiEnv)

def runtime : String := env.xdgRuntimeDir.getD "/run/user/1000"
def staging : String := s!"{env.runtime}/atom_staging"

def atomDataDir : String :=
  match env.homeDir with
  | some home => s!"{home}/.atom_vault"
  | none => "/tmp/.atom_vault_fallback"

end GuiEnv

/-- The vault itself, or the directory it will be made in. -/
def effectiveVaultPath (vaultPath : String) : String :=
  if pathExists ll h vaultPath then vaultPath else (parentDir vaultPath).getD vaultPath

def guiReadOnly : List String := ["/usr", "/etc", "/sys", "/proc"]

def guiReadWrite (env : GuiEnv) (vaultPath : String) : List String :=
  ["/dev/dri", env.runtime, effectiveVaultPath ll h vaultPath, env.staging, env.atomDataDir]

/-- `apply_gui_vault_sandbox`. That the data directory was made is in `ll`. -/
def applyGuiVaultSandbox (env : GuiEnv) (vaultPath : String) : Ruleset :=
  applyProcessSandbox ll h guiReadOnly (guiReadWrite ll h env vaultPath)

end Rules

/-! ## What can be written -/

section Written

variable {ll : Landlock} {h h' : Host}

theorem rule_eq_some {ofDir ofFile : List Access} {path : String} {r : Rule}
    (hr : rule ll h ofDir ofFile path = some r) :
    (ll.isDir path = true ∧ r = ⟨.tree path, ofDir⟩) ∨
    ∃ i, h.names path = some i ∧ r = ⟨.file i, ofFile⟩ := by
  unfold rule at hr
  split at hr
  · rename_i hdir
    exact Or.inl ⟨hdir, (Option.some.inj hr).symm⟩
  · obtain ⟨i, hi, rfl⟩ := Option.map_eq_some_iff.mp hr
    exact Or.inr ⟨i, hi, rfl⟩

theorem writeFile_not_readOnly :
    Access.writeFile ∉ Access.dirRo ∧ Access.writeFile ∉ Access.fileRo := by decide

/-- A path that a domain lets write is in a tree or is a file that was to be written. -/
theorem permits_write {ro rw : List String} {path : String}
    (hp : ll.permits h' (applyProcessSandbox ll h ro rw) .writeFile path = true) :
    ∃ q ∈ rw, (ll.isDir q = true ∧ ll.within q path = true) ∨
      ∃ i, h.names q = some i ∧ h'.names path = some i := by
  obtain ⟨r, hr, ha, hcovers⟩ := ll.exists_rule h' _ _ path hp
  rcases List.mem_append.mp hr with hr | hr
  · obtain ⟨q, -, hq⟩ := List.mem_filterMap.mp hr
    rcases rule_eq_some hq with ⟨-, rfl⟩ | ⟨i, -, rfl⟩
    · exact absurd ha writeFile_not_readOnly.1
    · exact absurd ha writeFile_not_readOnly.2
  · obtain ⟨q, hq, hrule⟩ := List.mem_filterMap.mp hr
    refine ⟨q, hq, ?_⟩
    rcases rule_eq_some hrule with ⟨hdir, rfl⟩ | ⟨i, hi, rfl⟩
    · exact Or.inl ⟨hdir, hcovers⟩
    · exact Or.inr ⟨i, hi, by simpa [Target.covers] using hcovers⟩

end Written

end AtomVault.Gui
