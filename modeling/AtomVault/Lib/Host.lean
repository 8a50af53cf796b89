import AtomVault.Lib.Bytes
import AtomVault.Lib.Prog
import Mathlib.Data.Vector.Basic

/-!
# The host: files, descriptors, randomness and the faults of all three

Names point to inodes, descriptors are an inode and a cursor. Every call that can
return an I/O error counts down to a fault, so one run is a run with a fault at one
chosen call, and every call is some run's. A failing write may leave a prefix of its
bytes behind.
-/

namespace Lib

/-- The largest offset of a file: `off_t` is a signed 64-bit integer. -/
def maxLen : Nat := 2 ^ 63 - 1

/-- The content of one file. It cannot be longer than an offset can say. -/
@[ext]
structure File where
  bytes : Bytes
  fits : bytes.length ≤ maxLen

def File.empty : File := ⟨[], by simp⟩

def File.patch (f : File) (pos : Nat) (b : Bytes) : File :=
  if h : pos + b.length ≤ maxLen then
    ⟨Lib.patch f.bytes pos b, by rw [length_patch]; exact max_le f.fits h⟩
  else f

def File.resize (f : File) (n : Nat) : File :=
  if h : n ≤ maxLen then ⟨Lib.resize f.bytes n, by rw [length_resize]; exact h⟩ else f

theorem File.bytes_patch (f : File) {pos : Nat} {b : Bytes} (h : pos + b.length ≤ maxLen) :
    (f.patch pos b).bytes = Lib.patch f.bytes pos b := by
  rw [File.patch, dif_pos h]

theorem File.bytes_resize (f : File) {n : Nat} (h : n ≤ maxLen) :
    (f.resize n).bytes = Lib.resize f.bytes n := by
  rw [File.resize, dif_pos h]

section Names

variable {N : Type} [DecidableEq N] {names : N → Option Nat} {n m : N} {i k : Nat}

theorem of_update_none (h : Function.update names n none m = some i) : names m = some i := by
  by_cases hm : m = n
  · rw [hm, Function.update_self] at h
    cases h
  · rwa [Function.update_of_ne hm] at h

/-- One name goes to a new file, and the others to those that there were. -/
theorem bounded_update (h : ∀ m i, names m = some i → i < k) (n : N) :
    ∀ m i, Function.update names n (some k) m = some i → i < k + 1 := by
  intro m i hm
  by_cases hsame : m = n
  · rw [hsame, Function.update_self] at hm
    cases hm
    exact Nat.lt_succ_self _
  · rw [Function.update_of_ne hsame] at hm
    exact Nat.lt_succ_of_lt (h m i hm)

end Names

structure Fd where
  ino : Nat
  pos : Nat

/-- The fault of a run: `after` more calls succeed, then one fails. If that one is a
write, its first `written` bytes are in the file. -/
structure Fault where
  after : Nat
  written : Nat
  text : String

structure Host where
  names : String → Option Nat
  files : Nat → File
  /-- How many bytes of each file a crash cannot take back. -/
  durable : Nat → Nat
  fds : Nat → Fd
  nextIno : Nat
  nextFd : Nat
  /-- How many writes and truncations have completed. -/
  writes : Nat
  fault : Option Fault
  rng : Nat → UInt8
  drawn : Nat
  clock : Nat

namespace Host

variable (h : Host) (fd : Nat)

/-- A host without files, that never fails. -/
def blank : Host where
  names _ := none
  files _ := .empty
  durable _ := 0
  fds _ := ⟨0, 0⟩
  nextIno := 0
  nextFd := 0
  writes := 0
  fault := none
  rng := UInt8.ofNat
  drawn := 0
  clock := 0

def ino : Nat := (h.fds fd).ino
def pos : Nat := (h.fds fd).pos

/-- What a descriptor reads. -/
def data : Bytes := (h.files (h.ino fd)).bytes

/-- What a program finds under a name. -/
def contents (path : String) : Option Bytes := (h.names path).map fun i => (h.files i).bytes

def setFault (g : Option Fault) : Host := { h with fault := g }

def setPos (p : Nat) : Host := { h with fds := Function.update h.fds fd ⟨h.ino fd, p⟩ }

def setFile (i : Nat) (f : File) : Host := { h with files := Function.update h.files i f }

/-- A write at the cursor. Nothing happens for no bytes. -/
def write (b : Bytes) : Host :=
  if b = [] then h else
    { (h.setFile (h.ino fd) ((h.files (h.ino fd)).patch (h.pos fd) b)).setPos fd
        (h.pos fd + b.length) with
      durable := Function.update h.durable (h.ino fd) (min (h.durable (h.ino fd)) (h.pos fd)) }

def truncate (n : Nat) : Host :=
  { h.setFile (h.ino fd) ((h.files (h.ino fd)).resize n) with
    durable := Function.update h.durable (h.ino fd) (min (h.durable (h.ino fd)) n) }

def sync : Host :=
  { h with durable := Function.update h.durable (h.ino fd) (h.data fd).length }

def count : Host := { h with writes := h.writes + 1 }

/-- A new descriptor on inode `i`, at the start of the file. -/
def attach (i : Nat) : Nat × Host :=
  (h.nextFd, { h with fds := Function.update h.fds h.nextFd ⟨i, 0⟩, nextFd := h.nextFd + 1 })

/-- A new empty file under a name. -/
def create (path : String) : Nat × Host :=
  (h.nextIno, { h.setFile h.nextIno .empty with
    names := Function.update h.names path (some h.nextIno)
    durable := Function.update h.durable h.nextIno 0
    nextIno := h.nextIno + 1 })

def draw (n : Nat) : List.Vector UInt8 n × Host :=
  (⟨(List.range n).map (fun i => h.rng (h.drawn + i)), by simp⟩, { h with drawn := h.drawn + n })

end Host

/-! ## Programs on a host

`vars` is what the program shares with its caller by mutable reference.
-/

structure Env (σ : Type) where
  host : Host
  vars : σ

abbrev Prog (σ ε α : Type) := EStateM ε (Env σ) α

variable {σ ε α : Type}

namespace Env

def setFault (s : Env σ) (g : Option Fault) : Env σ := { s with host := s.host.setFault g }

def onHost (s : Env σ) (f : Host → Host) : Env σ := { s with host := f s.host }

end Env

/-- One call to the host. A fault leaves `damage` behind, an error of the call itself
nothing. -/
def call (onErr : String → ε) (damage : Nat → Host → Host)
    (act : Host → Except String (α × Host)) : Prog σ ε α := fun s =>
  let perform (g : Option Fault) : EStateM.Result ε (Env σ) α :=
    match act (s.host.setFault g) with
    | .ok (a, h) => .ok a { s with host := h }
    | .error text => .error (onErr text) (s.setFault g)
  match s.host.fault with
  | none => perform none
  | some ⟨0, k, text⟩ => .error (onErr text) { s with host := damage k s.host }
  | some ⟨n + 1, k, text⟩ => perform (some ⟨n, k, text⟩)

/-! ### The text of an error

A text is what `{}` prints of an `io::Error`.
-/

/-- `decode_error_kind`. -/
def errorKind : Nat → String
  | 1 | 13 => "PermissionDenied"
  | 2 => "NotFound"
  | 4 => "Interrupted"
  | 7 => "ArgumentListTooLong"
  | 11 => "WouldBlock"
  | 12 => "OutOfMemory"
  | 16 => "ResourceBusy"
  | 17 => "AlreadyExists"
  | 18 => "CrossesDevices"
  | 20 => "NotADirectory"
  | 21 => "IsADirectory"
  | 22 => "InvalidInput"
  | 26 => "ExecutableFileBusy"
  | 27 => "FileTooLarge"
  | 28 => "StorageFull"
  | 29 => "NotSeekable"
  | 30 => "ReadOnlyFilesystem"
  | 31 => "TooManyLinks"
  | 32 => "BrokenPipe"
  | 35 => "Deadlock"
  | 36 => "InvalidFilename"
  | 38 | 95 => "Unsupported"
  | 39 => "DirectoryNotEmpty"
  | 40 => "FilesystemLoop"
  | 110 => "TimedOut"
  | 116 => "StaleNetworkFileHandle"
  | 122 => "QuotaExceeded"
  | _ => "Uncategorized"

/-- The message and the number of an error of the system. -/
def osError (text : String) : Option (String × Nat) :=
  match text.toList.reverse with
  | ')' :: rest =>
    let digits := rest.takeWhile Char.isDigit
    let front := rest.dropWhile Char.isDigit
    let mark := " (os error ".toList.reverse
    if mark.isPrefixOf front then
      some (String.ofList (front.drop mark.length).reverse,
        digits.foldr (fun c n => 10 * n + (c.toNat - '0'.toNat)) 0)
    else none
  | _ => none

def nulInPath : String := "file name contained an unexpected NUL byte"

/-- What `{:?}` prints of the error of an `open`. The one error that is not the system's is for a
path with a NUL byte, and no message of either kind has a character to escape. -/
def ioDebug (text : String) : String :=
  match osError text with
  | some (message, code) =>
    s!"Os \x7b code: {code}, kind: {errorKind code}, message: \"{message}\" \x7d"
  | none => s!"Error \x7b kind: InvalidInput, message: \"{text}\" \x7d"

namespace Call

variable (onErr : String → ε)

def noSuchFile : String := "No such file or directory (os error 2)"
def fileExists : String := "File exists (os error 17)"
def invalidArgument : String := "Invalid argument (os error 22)"
def fileTooLarge : String := "File too large (os error 27)"
def shortRead : String := "failed to fill whole buffer"

/-- `OpenOptions::new().read(true).write(true).open(path)`. -/
def openFile (path : String) : Prog σ ε Nat :=
  call onErr (fun _ h => h) fun h =>
    match h.names path with
    | none => .error noSuchFile
    | some i => .ok (h.attach i)

/-- The same with `.create_new(true)`. -/
def createNew (path : String) : Prog σ ε Nat :=
  call onErr (fun _ h => h) fun h =>
    match h.names path with
    | some _ => .error fileExists
    | none => let (i, h') := h.create path; .ok (h'.attach i)

/-- The same with `.create(true).truncate(false)`. -/
def openOrCreate (path : String) : Prog σ ε Nat :=
  call onErr (fun _ h => h) fun h =>
    match h.names path with
    | some i => .ok (h.attach i)
    | none => let (i, h') := h.create path; .ok (h'.attach i)

/-- The same with `.create(true).truncate(true)`. -/
def openTruncate (path : String) : Prog σ ε Nat :=
  call onErr (fun _ h => h) fun h =>
    match h.names path with
    | some i => let (fd, h') := h.attach i; .ok (fd, (h'.truncate fd 0).count)
    | none => let (i, h') := h.create path; .ok (h'.attach i)

/-- `std::fs::metadata(path)`, where only its success counts. -/
def stat (path : String) : Prog σ ε Unit :=
  call onErr (fun _ h => h) fun h =>
    match h.names path with
    | some _ => .ok ((), h)
    | none => .error noSuchFile

/-- `file.metadata()?.len()`. -/
def fileLen (fd : Nat) : Prog σ ε Nat :=
  call onErr (fun _ h => h) fun h => .ok ((h.data fd).length, h)

/-- `file.seek(SeekFrom::Start(n))`. -/
def seek (fd n : Nat) : Prog σ ε Unit :=
  call onErr (fun _ h => h) fun h =>
    if n ≤ maxLen then .ok ((), h.setPos fd n) else .error invalidArgument

/-- `file.stream_position()`. -/
def position (fd : Nat) : Prog σ ε Nat :=
  call onErr (fun _ h => h) fun h => .ok (h.pos fd, h)

def readExact (fd n : Nat) : Prog σ ε Bytes :=
  call onErr (fun _ h => h) fun h =>
    if h.pos fd + n ≤ (h.data fd).length then
      .ok (slice (h.data fd) (h.pos fd) n, h.setPos fd (h.pos fd + n))
    else .error shortRead

/-- `file.take(limit).read_to_end(..)`. -/
def readToEnd (fd limit : Nat) : Prog σ ε Bytes :=
  call onErr (fun _ h => h) fun h =>
    let b := slice (h.data fd) (h.pos fd) limit
    .ok (b, h.setPos fd (h.pos fd + b.length))

def writeAll (fd : Nat) (b : Bytes) : Prog σ ε Unit :=
  call onErr (fun k h => h.write fd (b.take k)) fun h =>
    if h.pos fd + b.length ≤ maxLen then .ok ((), (h.write fd b).count) else .error fileTooLarge

def setLen (fd n : Nat) : Prog σ ε Unit :=
  call onErr (fun _ h => h) fun h =>
    if n ≤ maxLen then .ok ((), (h.truncate fd n).count) else .error invalidArgument

/-- `sync_data` and `sync_all`. -/
def sync (fd : Nat) : Prog σ ε Unit :=
  call onErr (fun _ h => h) fun h => .ok ((), h.sync fd)

/-- `std::fs::rename`. A name keeps its inode, and so do the descriptors on it. -/
def rename (old new : String) : Prog σ ε Unit :=
  call onErr (fun _ h => h) fun h =>
    match h.names old with
    | none => .error noSuchFile
    | some i =>
      .ok ((), { h with names := Function.update (Function.update h.names old none) new (some i) })

/-- `std::fs::remove_file`. The descriptors on the file stay. -/
def remove (path : String) : Prog σ ε Unit :=
  call onErr (fun _ h => h) fun h =>
    match h.names path with
    | none => .error noSuchFile
    | some _ => .ok ((), { h with names := Function.update h.names path none })

/-- A call that can fail and touches no file: `mlock`, `flush`. -/
def probe : Prog σ ε Unit := call onErr (fun _ h => h) fun h => .ok ((), h)

/-- `OsRng.fill_bytes`. -/
def draw (n : Nat) : Prog σ ε (List.Vector UInt8 n) := fun s =>
  let (b, h) := s.host.draw n
  .ok b { s with host := h }

/-- `SystemTime::now()` in seconds since the Unix epoch. -/
def now : Prog σ ε Nat := fun s => .ok s.host.clock s

end Call

end Lib
