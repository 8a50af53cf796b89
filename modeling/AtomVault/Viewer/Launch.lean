import AtomVault.Lib.Prog
import AtomVault.Viewer.Staging

/-!
# Failing launches (`gui/broker.rs`)

One call of `open_in_viewer`, with every answer the host can give to it, and the shredder that a
closing viewer and a failed launch go through.
-/

open Lib

namespace AtomVault.Viewer.Launch

open Staging

/-- What the host answers. A call without an error in its field goes through. -/
structure Answers where
  createDir : Option String
  resolve : Option String
  openFile : Option String
  /-- How many bytes `write_all` has written when it fails. -/
  write : Option (Nat × String)
  sync : Option String
  mlock : Option String
  spawn : Option String
  length : Option String
  seek : Option String
  /-- How many zeros are written when the zero-fill fails. -/
  zeroFill : Option Nat
  remove : Option String
  deriving DecidableEq

/-- Nothing fails. -/
def Answers.fine : Answers := ⟨none, none, none, none, none, none, none, none, none, none, none⟩

structure Tmpfs (Entry : Type) where
  files : Inodes Entry
  doneFlag : Bool

/-! ## The zero-fill -/

section ZeroFill

variable {Entry : Type} {fails : Option Nat} {ino len : Nat}

/-- `while written < len`, until a write fails. -/
def zeroLoop (fails : Option Nat) (ino len : Nat) : Nat → Nat → Inodes Entry → Inodes Entry
  | 0, _, d => d
  | fuel + 1, written, d =>
    if written < len then
      let n := min (len - written) 4096
      match fails.filter (· < written + n) with
      | some k => d.write ino written (List.replicate (k - written) 0)
      | none => zeroLoop fails ino len fuel (written + n) (d.write ino written (List.replicate n 0))
    else d

theorem zeroLoop_names : ∀ {fuel written : Nat} {d : Inodes Entry},
    (zeroLoop fails ino len fuel written d).names = d.names := by
  intro fuel
  induction fuel with
  | zero => exact rfl
  | succ fuel ih =>
    intro written d
    unfold zeroLoop
    split
    · dsimp only
      split
      · rfl
      · rw [ih, Inodes.write_names]
    · rfl

/-- Zeros in front of what was there. -/
def zeroed (k : Nat) (content : Bytes) : Bytes := List.replicate k 0 ++ content.drop k

theorem patch_zeroed {content : Bytes} {k n : Nat} :
    patch (zeroed k content) k (List.replicate n 0) = zeroed (k + n) content := by
  have hlen : (List.replicate k (0 : UInt8)).length = k := List.length_replicate
  have hgap : k - (zeroed k content).length = 0 := by
    simp [zeroed]
  unfold patch
  rw [hgap, zeroed, List.take_left' hlen, List.length_replicate, List.drop_append, hlen,
    List.drop_of_length_le (by rw [hlen]; omega), List.drop_drop]
  simp [zeroed, ← List.replicate_append_replicate]

theorem reached_eq {written : Nat} (hend : ¬written < len) (hle : written ≤ len)
    (hfails : ∀ k, fails = some k → written ≤ k) : min len (fails.getD len) = written := by
  cases fails with
  | none =>
    simp only [Option.getD_none, Nat.min_self]
    omega
  | some k =>
    have hk := hfails k rfl
    simp only [Option.getD_some]
    omega

theorem zeroLoop_files {content : Bytes} : ∀ {fuel written : Nat} {d : Inodes Entry},
    len - written ≤ fuel → written ≤ len → content.length = len →
    (∀ k, fails = some k → written ≤ k) → d.files ino = zeroed written content →
    (zeroLoop fails ino len fuel written d).files ino =
      zeroed (min len (fails.getD len)) content := by
  intro fuel
  induction fuel with
  | zero =>
    intro written d hfuel hle hlen hfails hd
    rw [reached_eq (by omega) hle hfails]
    exact hd
  | succ fuel ih =>
    intro written d hfuel hle hlen hfails hd
    unfold zeroLoop
    split
    · rename_i hlt
      dsimp only
      split
      · rename_i k hk
        obtain ⟨rfl, hkn⟩ := Option.filter_eq_some_iff.mp hk
        have hwk := hfails k rfl
        simp only [decide_eq_true_eq] at hkn
        rw [Inodes.write_files, hd, patch_zeroed]
        congr 1
        simp only [Option.getD_some]
        omega
      · rename_i hk
        apply ih (by omega) (by omega) hlen
        · intro k hfk
          subst hfk
          by_contra hlt'
          rw [Option.filter_some, if_pos (by simpa using hlt')] at hk
          cases hk
        · rw [Inodes.write_files, hd, patch_zeroed]
    · rename_i hend
      rw [reached_eq hend hle hfails]
      exact hd

end ZeroFill

/-! ## One call -/

section Model

variable {Entry : Type}

abbrev Stage (Entry : Type) := EStateM String (Tmpfs Entry)

def update (f : Inodes Entry → Inodes Entry) : Stage Entry Unit :=
  modify fun t => { t with files := f t.files }

def answer (o : Option String) (onErr : String → String) : Stage Entry Unit :=
  match o with
  | none => pure ()
  | some e => throw (onErr e)

section Rules

variable {t : Tmpfs Entry}

theorem wp_answer {r : Option String} {onErr : String → String} {Q : Unit → Tmpfs Entry → Prop}
    {E : String → Tmpfs Entry → Prop} (hok : r = none → Q () t)
    (herr : ∀ e, r = some e → E (onErr e) t) : wp (answer r onErr) Q E t := by
  cases r with
  | none => exact hok rfl
  | some e => exact herr e rfl

theorem wp_update {f : Inodes Entry → Inodes Entry} {Q : Unit → Tmpfs Entry → Prop}
    {E : String → Tmpfs Entry → Prop} :
    wp (update f) Q E t ↔ Q () { t with files := f t.files } := Iff.rfl

end Rules

variable [DecidableEq Entry]

def openTruncate (path : Entry) : Stage Entry Nat := do
  let t ← get
  let (ino, files) := t.files.openTruncate path
  set { t with files := files }
  return ino

def writeAll (o : Option (Nat × String)) (ino : Nat) (data : Bytes) : Stage Entry Unit :=
  match o with
  | none => update (·.write ino 0 data)
  | some (n, e) => do
    update (·.write ino 0 (data.take n))
    throw s!"tmpfs write failed: {e}"

def removeFile (o : Option String) (path : Entry) (d : Inodes Entry) : Inodes Entry :=
  match o with
  | none => d.unlink path
  | some _ => d

variable (o : Answers)

/-- `shred_tmpfs_job`, for a file that `ino` is the retained handle of. Its errors are printed. -/
def shredTmpfsJob (path : Entry) (ino : Nat) (t : Tmpfs Entry) : Tmpfs Entry :=
  let len := if o.length = none then (t.files.files ino).length else 0
  let files := if 0 < len ∧ o.seek = none then zeroLoop o.zeroFill ino len len 0 t.files else t.files
  { files := removeFile o.remove path files, doneFlag := true }

/-- `MlockedMap::new`: no bytes are not mapped. -/
def lockError (len : Nat) : Option String := if len = 0 then none else o.mlock

/-- `open_in_viewer` up to the running viewer, with the retained handle. `entry` is the directory
entry that a path leads to. -/
def openInViewer (entry : List Text → Entry) (staging : List Text) (filename : Text) (data : Bytes) :
    Stage Entry Nat := do
  let path := entry (Staging.tmpPath staging filename)
  answer o.createDir fun e => s!"Cannot create staging dir: {e}"
  answer o.resolve id
  answer o.openFile fun e => s!"Failed to write to tmpfs: {e}"
  let ino ← openTruncate path
  writeAll o.write ino data
  answer o.sync fun e => s!"tmpfs sync failed: {e}"
  match lockError o data.length with
  | some e => do
    update (removeFile o.remove path)
    throw s!"Failed to lock viewer plaintext into RAM: {e}"
  | none =>
    match o.spawn with
    | some e => do
      modify (shredTmpfsJob o path ino)
      throw s!"Failed to launch viewer: {e}"
    | none => return ino

/-- The path goes nowhere and the file is zeros, as a closed viewer leaves it. -/
structure Shredded (path : Entry) (ino : Nat) (t : Tmpfs Entry) : Prop where
  unlinked : t.files.names path = none
  zeros : ∀ b ∈ t.files.files ino, b = 0

/-- How many bytes of a document the shredder gets to. -/
def wiped (len : Nat) : Nat :=
  if o.length = none ∧ o.seek = none then min len (o.zeroFill.getD len) else 0

/-- The staging file is opened. -/
structure Opens : Prop where
  createDir : o.createDir = none
  resolve : o.resolve = none
  openFile : o.openFile = none

/-- What fails after the open is the launch, or the pin, and the cleanup there gets to every byte
that is not zero. -/
structure CleansUp (data : Bytes) : Prop where
  write : o.write = none
  sync : o.sync = none
  remove : o.remove = none
  wiped : ∀ b ∈ data.drop (if lockError o data.length = none then wiped o data.length else 0), b = 0

variable {o} {path : Entry} {entry : List Text → Entry} {staging : List Text} {filename : Text}
  {data : Bytes} {t t' : Tmpfs Entry}

theorem wp_openTruncate {Q : Nat → Tmpfs Entry → Prop} {E : String → Tmpfs Entry → Prop}
    (h : ∀ ino d, t.files.openTruncate path = (ino, d) → Q ino { t with files := d }) :
    wp (openTruncate path) Q E t := h _ _ rfl

theorem removeFile_files {r : Option String} {d : Inodes Entry} :
    (removeFile r path d).files = d.files := by
  cases r <;> rfl

theorem removeFile_eq_none_iff {r : Option String} {d : Inodes Entry} {i : Nat}
    (h : d.names path = some i) : (removeFile r path d).names path = none ↔ r = none := by
  cases r with
  | none => exact iff_of_true (Function.update_self ..) rfl
  | some e => simp [removeFile, h]

theorem mem_zeroed_iff {k : Nat} {content : Bytes} :
    (∀ b ∈ zeroed k content, b = 0) ↔ ∀ b ∈ content.drop k, b = 0 := by
  unfold zeroed
  constructor
  · exact fun h b hb => h b (List.mem_append_right _ hb)
  · intro h b hb
    rcases List.mem_append.mp hb with hb | hb
    · exact List.eq_of_mem_replicate hb
    · exact h b hb

theorem removed_iff {r : Option String} {ino : Nat} (hname : t.files.names path = some ino) :
    Shredded path ino { t with files := removeFile r path t.files } ↔
      r = none ∧ ∀ b ∈ t.files.files ino, b = 0 := by
  constructor
  · rintro ⟨hunlinked, hzeros⟩
    dsimp only at hunlinked hzeros
    rw [removeFile_files] at hzeros
    exact ⟨(removeFile_eq_none_iff hname).mp hunlinked, hzeros⟩
  · rintro ⟨hr, hzeros⟩
    refine ⟨(removeFile_eq_none_iff hname).mpr hr, ?_⟩
    dsimp only
    rw [removeFile_files]
    exact hzeros

theorem shredded_iff {ino : Nat} (hname : t.files.names path = some ino) :
    Shredded path ino (shredTmpfsJob o path ino t) ↔
      o.remove = none ∧ ∀ b ∈ (t.files.files ino).drop (wiped o (t.files.files ino).length), b = 0 := by
  have hzero : (shredTmpfsJob o path ino t).files.files ino =
      zeroed (wiped o (t.files.files ino).length) (t.files.files ino) := by
    have hnone : zeroed 0 (t.files.files ino) = t.files.files ino := by simp [zeroed]
    unfold shredTmpfsJob wiped
    dsimp only
    rw [removeFile_files]
    by_cases hlen : o.length = none
    · rw [if_pos hlen]
      split
      · rename_i h
        rw [if_pos ⟨hlen, h.2⟩]
        exact zeroLoop_files (by omega) (Nat.zero_le _) rfl (fun _ _ => Nat.zero_le _) hnone.symm
      · rename_i h
        split
        · rename_i hseek
          have hempty : (t.files.files ino).length = 0 := by
            by_contra hpos
            exact h ⟨Nat.pos_of_ne_zero hpos, hseek.2⟩
          rw [hempty, Nat.zero_min, hnone]
        · exact hnone.symm
    · rw [if_neg hlen, if_neg (by simp), if_neg (by simp [hlen]), hnone]
  have hremove : (shredTmpfsJob o path ino t).files.names path = none ↔ o.remove = none := by
    unfold shredTmpfsJob
    dsimp only
    generalize (if o.length = none then (t.files.files ino).length else 0) = len
    apply removeFile_eq_none_iff
    split
    · rw [zeroLoop_names]
      exact hname
    · exact hname
  constructor
  · rintro ⟨hunlinked, hzeros⟩
    rw [hzero] at hzeros
    exact ⟨hremove.mp hunlinked, mem_zeroed_iff.mp hzeros⟩
  · rintro ⟨hr, hrest⟩
    refine ⟨hremove.mpr hr, ?_⟩
    rw [hzero]
    exact mem_zeroed_iff.mpr hrest

/-- **Failed launches.** Once the staging file is open, an error leaves no file at the path and zeros
in the file exactly if nothing failed before the pin, the file was removed, and the shredder (which
only a failed launch calls) got to the last byte that is not zero. -/
theorem failed_launch_shreds_iff {e : String} (hopens : Opens o)
    (hrun : openInViewer o entry staging filename data t = .error e t') :
    Shredded (entry (Staging.tmpPath staging filename))
      (t.files.openTruncate (entry (Staging.tmpPath staging filename))).1 t' ↔ CleansUp o data := by
  have hspec : wp (openInViewer o entry staging filename data) (fun _ _ => True)
      (fun _ t' => Shredded (entry (Staging.tmpPath staging filename))
        (t.files.openTruncate (entry (Staging.tmpPath staging filename))).1 t' ↔ CleansUp o data) t := by
    unfold openInViewer
    generalize entry (Staging.tmpPath staging filename) = path
    rw [wp_bind]
    apply wp_answer
    case herr => intro e he; rw [hopens.createDir] at he; cases he
    intro _
    rw [wp_bind]
    apply wp_answer
    case herr => intro e he; rw [hopens.resolve] at he; cases he
    intro _
    rw [wp_bind]
    apply wp_answer
    case herr => intro e he; rw [hopens.openFile] at he; cases he
    intro _
    rw [wp_bind]
    apply wp_openTruncate
    intro ino d hopen
    have hname := Inodes.openTruncate_names (d := t.files) (n := path)
    have hempty := Inodes.openTruncate_files (d := t.files) (n := path)
    rw [hopen] at hname hempty ⊢
    dsimp only at hname hempty ⊢
    -- The path stays as long as nothing removes the file.
    have hstays : ∀ {t' : Tmpfs Entry}, t'.files.names path = some ino → ¬CleansUp o data →
        (Shredded path ino t' ↔ CleansUp o data) := by
      intro t' hn hnot
      refine iff_of_false (fun h => ?_) hnot
      rw [h.unlinked] at hn
      cases hn
    rw [wp_bind]
    unfold writeAll
    cases hwrite : o.write with
    | some r =>
      dsimp only
      rw [wp_bind, wp_update]
      exact hstays hname fun h => by simp [h.write] at hwrite
    | none =>
      have hdata : (d.write ino 0 data).files ino = data := by
        rw [Inodes.write_files, hempty]
        exact patch_at_end [] data
      dsimp only
      rw [wp_update, wp_bind]
      apply wp_answer
      case herr =>
        intro e hsync
        exact hstays hname fun h => by simp [h.sync] at hsync
      intro hsync
      cases hlock : lockError o data.length with
      | some e =>
        have hno : ¬lockError o data.length = none := by simp [hlock]
        dsimp only
        rw [wp_bind, wp_update, wp_throw, removed_iff hname]
        dsimp only
        rw [hdata]
        constructor
        · rintro ⟨hremove, hzeros⟩
          refine ⟨hwrite, hsync, hremove, ?_⟩
          rw [if_neg hno, List.drop_zero]
          exact hzeros
        · rintro ⟨-, -, hremove, hrest⟩
          rw [if_neg hno, List.drop_zero] at hrest
          exact ⟨hremove, hrest⟩
      | none =>
        dsimp only
        cases hspawn : o.spawn with
        | none => trivial
        | some e =>
          dsimp only
          rw [wp_bind, wp_modify, wp_throw, shredded_iff hname]
          dsimp only
          rw [hdata]
          constructor
          · rintro ⟨hremove, hrest⟩
            refine ⟨hwrite, hsync, hremove, ?_⟩
            rw [if_pos hlock]
            exact hrest
          · rintro ⟨-, -, hremove, hrest⟩
            rw [if_pos hlock] at hrest
            exact ⟨hremove, hrest⟩
  have hiff := wp_of_error hspec hrun
  exact hiff

end Model

/-! ### A full tmpfs -/

def samplePath : List Text := Staging.tmpPath sampleStaging ['a', '.', 't']

def spawnFails : Answers := { Answers.fine with spawn := some "No such file or directory" }

/-- There is room for two bytes. -/
def tmpfsFull : Answers := { Answers.fine with write := some (2, "No space left on device") }

theorem failed_launch_shreds_iff_spawn : ∃ e t', openInViewer spawnFails id sampleStaging
    ['a', '.', 't'] [1, 2, 3] ⟨.empty, false⟩ = .error e t' ∧
    Shredded samplePath (Inodes.empty.openTruncate samplePath).1 t' := by
  have hfails : ∃ e t', openInViewer spawnFails id sampleStaging ['a', '.', 't'] [1, 2, 3]
      ⟨.empty, false⟩ = .error e t' := ⟨_, _, rfl⟩
  obtain ⟨e, t', hrun⟩ := hfails
  have hiff := failed_launch_shreds_iff ⟨rfl, rfl, rfl⟩ hrun
  exact ⟨e, t', hrun, hiff.mpr ⟨rfl, rfl, rfl, by decide +kernel⟩⟩

theorem full_tmpfs_keeps_plaintext : ¬∀ (o : Answers) (filename : Text) (data : Bytes)
    (t t' : Tmpfs (List Text)) (e : String), Opens o →
    openInViewer o id sampleStaging filename data t = .error e t' →
    Shredded (Staging.tmpPath sampleStaging filename)
      (t.files.openTruncate (Staging.tmpPath sampleStaging filename)).1 t' := by
  intro hall
  have hshredded := hall tmpfsFull ['a', '.', 't'] [1, 2, 3] ⟨.empty, false⟩ _ _ ⟨rfl, rfl, rfl⟩ rfl
  have hnamed := Inodes.openTruncate_names (d := .empty) (n := samplePath)
  have hgone := hshredded.unlinked
  exact absurd (hnamed.symm.trans hgone) (by simp)

end AtomVault.Viewer.Launch
