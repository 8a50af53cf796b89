import Mathlib.Data.List.DropRight
import AtomVault.Lib.Inodes
import AtomVault.Lib.Machine
import AtomVault.Lib.Paths

/-!
# Staged viewer files (`gui/broker.rs`, `gui/explorer.rs`)

A document is decrypted into a file whose name is made from that of the document. Every call of
`open_in_viewer` has a thread of its own, and another one waits for the viewer to let go of the file.
-/

open Lib

namespace AtomVault.Viewer.Staging

abbrev Text := List Char

/-! ## The path -/

/-- The components of a path, without the ones that mean nothing. -/
def components (path : Text) : List Text :=
  (path.splitOnP (· = '/')).filter fun c => c ≠ [] ∧ c ≠ ['.']

def fileName (path : Text) : Option Text :=
  (components path).getLast?.filter fun c => c ≠ ['.', '.']

/-- The text before the last dot, and the one after it. -/
def rsplitFileAtDot (file : Text) : Option Text × Option Text :=
  let dotted := file.rdropWhile (· ≠ '.')
  if dotted = [] then (none, some file)
  else if dotted = ['.'] then (some file, none)
  else (some dotted.dropLast, some (file.rtakeWhile (· ≠ '.')))

def fileStem (path : Text) : Option Text :=
  (fileName path).bind fun file => (rsplitFileAtDot file).1.or (rsplitFileAtDot file).2

def extension (path : Text) : Option Text :=
  (fileName path).bind fun file => (rsplitFileAtDot file).1.bind fun _ => (rsplitFileAtDot file).2

def VIEW_TMP : Text := ['_', 'v', 'i', 'e', 'w', '_', 't', 'm', 'p']

def tmpName (filename : Text) : Text :=
  (fileStem filename).getD filename ++ VIEW_TMP ++ ((extension filename).map ('.' :: ·)).getD []

/-- `staging.join`: an absolute path takes the place of the directory. -/
def tmpPath (staging : List Text) (filename : Text) : List Text :=
  if (tmpName filename).head? = some '/' then components (tmpName filename)
  else staging ++ components (tmpName filename)

example : tmpPath ["run".toList] "x/report.v2.pdf".toList =
    ["run".toList, "report.v2_view_tmp.pdf".toList] := by decide +kernel

section Paths

variable {path path' file : Text} {staging : List Text}

theorem fileName_eq_some (h : fileName path = some file) : '/' ∉ file ∧ file ≠ [] := by
  unfold fileName at h
  obtain ⟨hlast, -⟩ := Option.filter_eq_some_iff.mp h
  obtain ⟨hsplit, hkept⟩ := List.mem_filter.mp (List.mem_of_getLast? hlast)
  simp only [decide_eq_true_eq] at hkept
  refine ⟨fun hslash => ?_, hkept.1⟩
  have hnot := forall_of_mem_splitOnP hsplit '/' hslash
  simp at hnot

theorem rsplitFileAtDot_cases (file : Text) :
    (rsplitFileAtDot file = (none, some file) ∧ '.' ∉ file) ∨
    (rsplitFileAtDot file = (some file, none) ∧ '.' ∉ file.drop 1) ∨
    ∃ stem after, rsplitFileAtDot file = (some stem, some after) ∧ file = stem ++ '.' :: after ∧
      '.' ∉ after ∧ stem ≠ [] := by
  have hafter : '.' ∉ file.rtakeWhile (· ≠ '.') := by
    intro hmem
    have hdot := List.mem_rtakeWhile_imp hmem
    simp at hdot
  have hfile : file.rdropWhile (· ≠ '.') ++ file.rtakeWhile (· ≠ '.') = file :=
    List.rdropWhile_append_rtakeWhile ..
  have hlast : ∀ hne : file.rdropWhile (· ≠ '.') ≠ [],
      (file.rdropWhile (· ≠ '.')).getLast hne = '.' := by
    intro hne
    simpa using List.rdropWhile_last_not (· ≠ '.') file hne
  unfold rsplitFileAtDot
  generalize file.rdropWhile (· ≠ '.') = dotted at hfile hlast ⊢
  generalize file.rtakeWhile (· ≠ '.') = after at hafter hfile ⊢
  subst hfile
  by_cases hnil : dotted = []
  · left
    simp [hnil, hafter]
  · right
    have hconcat := List.dropLast_append_getLast hnil
    rw [hlast hnil] at hconcat
    by_cases hone : dotted = ['.']
    · left
      simp [hone, hafter]
    · refine Or.inr ⟨dotted.dropLast, after, by simp [hnil, hone], ?_, hafter, fun hstem => ?_⟩
      · conv_lhs => rw [← hconcat]
        simp
      · rw [hstem] at hconcat
        exact hone hconcat.symm

theorem tmpName_eq (h : fileName path = some file) :
    ∃ stem ext, tmpName path = stem ++ VIEW_TMP ++ ext ∧ file = stem ++ ext ∧ stem ≠ [] ∧
      (ext = [] ∧ '.' ∉ stem.drop 1 ∨ ∃ after, ext = '.' :: after ∧ '.' ∉ after) := by
  have hne := (fileName_eq_some h).2
  unfold tmpName fileStem extension
  rw [h]
  rcases rsplitFileAtDot_cases file with ⟨hr, hdot⟩ | ⟨hr, hdot⟩ | ⟨stem, after, hr, hfile, hdot, hs⟩
  · refine ⟨file, [], by simp [hr], by simp, hne, Or.inl ⟨rfl, fun hmem => ?_⟩⟩
    exact hdot (List.mem_of_mem_drop hmem)
  · exact ⟨file, [], by simp [hr], by simp, hne, Or.inl ⟨rfl, hdot⟩⟩
  · exact ⟨stem, '.' :: after, by simp [hr], hfile, hs, Or.inr ⟨after, rfl, hdot⟩⟩

theorem append_dot_inj {a a' b b' : Text} (hb : '.' ∉ b) (hb' : '.' ∉ b')
    (h : a ++ '.' :: b = a' ++ '.' :: b') : a = a' ∧ b = b' := by
  rcases List.append_eq_append_iff.mp h with ⟨m, ha, hm⟩ | ⟨m, ha, hm⟩
  · cases m with
    | nil => exact ⟨by simpa using ha.symm, by simpa using hm⟩
    | cons x m =>
      have hrest : b = m ++ '.' :: b' := (List.cons.inj hm).2
      exact absurd (by simp [hrest]) hb
  · cases m with
    | nil => exact ⟨by simpa using ha, by simpa using hm.symm⟩
    | cons x m =>
      have hrest : b' = m ++ '.' :: b := (List.cons.inj hm).2
      exact absurd (by simp [hrest]) hb'

theorem stem_ne {stem stem' after : Text} (hdot : '.' ∉ stem.drop 1) (hstem : stem ≠ [])
    (hstem' : stem' ≠ []) : stem ++ VIEW_TMP ≠ stem' ++ VIEW_TMP ++ '.' :: after := by
  intro h
  obtain ⟨x, stem, rfl⟩ := List.exists_cons_of_ne_nil hstem
  obtain ⟨y, stem', rfl⟩ := List.exists_cons_of_ne_nil hstem'
  have hrest : stem ++ VIEW_TMP = stem' ++ VIEW_TMP ++ '.' :: after := (List.cons.inj h).2
  have hmem : '.' ∈ stem ++ VIEW_TMP := by simp [hrest]
  rcases List.mem_append.mp hmem with hmem | hmem
  · exact hdot hmem
  · exact absurd hmem (by decide)

theorem tmpName_inj {file' : Text} (h : fileName path = some file) (h' : fileName path' = some file')
    (heq : tmpName path = tmpName path') : file = file' := by
  obtain ⟨stem, ext, htmp, rfl, hstem, hext⟩ := tmpName_eq h
  obtain ⟨stem', ext', htmp', rfl, hstem', hext'⟩ := tmpName_eq h'
  rw [htmp, htmp'] at heq
  rcases hext with ⟨rfl, hdot⟩ | ⟨after, rfl, hdot⟩ <;>
    rcases hext' with ⟨rfl, hdot'⟩ | ⟨after', rfl, hdot'⟩
  · simpa using heq
  · rw [List.append_nil] at heq
    exact absurd heq (stem_ne hdot hstem hstem')
  · rw [List.append_nil] at heq
    exact absurd heq.symm (stem_ne hdot' hstem' hstem)
  · obtain ⟨hs, rfl⟩ := append_dot_inj hdot hdot' heq
    rw [List.append_cancel_right hs]

theorem components_tmpName (h : fileName path = some file) :
    '/' ∉ tmpName path ∧ components (tmpName path) = [tmpName path] := by
  obtain ⟨stem, ext, htmp, hfile, hstem, -⟩ := tmpName_eq h
  have hslash : '/' ∉ tmpName path := by
    have hnot := (fileName_eq_some h).1
    rw [hfile, List.mem_append, not_or] at hnot
    rw [htmp]
    simp [hnot.1, hnot.2, VIEW_TMP]
  refine ⟨hslash, ?_⟩
  have hsplit : (tmpName path).splitOnP (· = '/') = [tmpName path] := by
    refine List.splitOnP_eq_singleton fun x hx => ?_
    simp only [decide_eq_false_iff_not]
    rintro rfl
    exact hslash hx
  have hlen : 1 < (tmpName path).length := by
    rw [htmp]
    simp [VIEW_TMP]
    omega
  unfold components
  rw [hsplit, List.filter_cons_of_pos, List.filter_nil]
  rw [decide_eq_true_eq]
  refine ⟨fun hnil => ?_, fun hdot => ?_⟩
  · rw [hnil] at hlen
    simp at hlen
  · rw [hdot] at hlen
    simp at hlen

theorem tmpPath_eq_iff {file' : Text} (h : fileName path = some file)
    (h' : fileName path' = some file') :
    tmpPath staging path = tmpPath staging path' ↔ file = file' := by
  have hpath : ∀ path file, fileName path = some file →
      tmpPath staging path = staging ++ [tmpName path] := by
    intro path file h
    obtain ⟨hslash, hcomponents⟩ := components_tmpName h
    unfold tmpPath
    rw [if_neg (fun hhead => hslash (List.mem_of_head? hhead)), hcomponents]
  rw [hpath path file h, hpath path' file' h']
  constructor
  · intro heq
    exact tmpName_inj h h' (List.cons.inj (List.append_cancel_left heq)).1
  · rintro rfl
    have hstem : ((rsplitFileAtDot file).1.or (rsplitFileAtDot file).2).isSome = true := by
      rcases rsplitFileAtDot_cases file with ⟨hr, -⟩ | ⟨hr, -⟩ | ⟨_, _, hr, -⟩ <;> rw [hr] <;> rfl
    obtain ⟨stem, hstem⟩ := Option.isSome_iff_exists.mp hstem
    have hname : tmpName path = tmpName path' := by
      unfold tmpName fileStem extension
      simp only [h, h', Option.bind_some, hstem, Option.getD_some]
    rw [hname]

end Paths

/-! ## Viewers, side by side -/

/-- `ino` is the file that the retained handle has open. -/
inductive Phase
  | requested
  | writing (ino done : Nat)
  | staged (ino : Nat)
  | viewing (ino : Nat)
  /-- The child is gone, and another instance may take the document over. -/
  | settling (ino : Nat)
  | handedOff (ino : Nat)
  | zeroing (ino len written : Nat)
  | unlinking (ino : Nat)
  | finished
  deriving DecidableEq

/-- One call of `open_in_viewer`, for a document with that content. -/
structure View where
  filename : Text
  data : Bytes
  phase : Phase
  deriving DecidableEq

structure Desktop (Entry : Type) where
  files : Inodes Entry
  views : List View

/-- What a scan of `/proc` comes upon, apart from the handles of this process. -/
structure Scan where
  /-- The descriptors of this process can be listed. -/
  own : Bool
  /-- Another process has the file open. -/
  others : Bool

inductive Act
  | openViewer (filename : Text) (data : Bytes)
  | openFile (k : Nat)
  | write (k n : Nat)
  | sync (k : Nat)
  | pinFailed (k : Nat)
  | spawn (k : Nat)
  | spawnFailed (k : Nat)
  | fail (k : Nat)
  | exit (k : Nat)
  | poll (k : Nat) (scan : Scan)
  | settled (k : Nat)
  | page (k : Nat)
  | zeroed (k : Nat)
  | unlink (k : Nat)

section Model

-- `entry` is the directory entry that a path leads to, and `shown` its path in `/proc`
variable {Entry : Type} [DecidableEq Entry] (staging : List Text) (entry : List Text → Entry)
  (shown : Entry → List Text)

def View.path (v : View) : Entry := entry (tmpPath staging v.filename)

/-- The file of a view that has one. -/
def View.ino (v : View) : Option Nat :=
  match v.phase with
  | .requested => none
  | .writing ino _ => some ino
  | .staged ino => some ino
  | .viewing ino => some ino
  | .settling ino => some ino
  | .handedOff ino => some ino
  | .zeroing ino _ _ => some ino
  | .unlinking ino => some ino
  | .finished => none

/-- The handle is dropped before the file is removed. -/
def View.handle (v : View) : Option Nat :=
  match v.phase with
  | .unlinking _ => none
  | _ => v.ino

def DELETED : Text := " (deleted)".toList

def deletedPath (path : List Text) : List Text := path.modifyLast (· ++ DELETED)

/-- Where the link in `/proc/self/fd` of an open handle leads. -/
def Desktop.link (s : Desktop Entry) (v : View) : Option (List Text) :=
  v.handle.map fun i =>
    let path := shown (v.path staging entry)
    if s.files.names (v.path staging entry) = some i then path else deletedPath path

/-- `is_file_open`. This process is one of those in `/proc`. -/
def Desktop.isFileOpen (s : Desktop Entry) (path : List Text) (scan : Scan) : Bool :=
  scan.own && s.views.any (fun v => s.link staging entry shown v = some path) || scan.others

def Desktop.setView (s : Desktop Entry) (k : Nat) (v : View) (phase : Phase) : Desktop Entry :=
  { s with views := s.views.set k { v with phase := phase } }

def step (s : Desktop Entry) : Act → Option (Desktop Entry)
  | .openViewer filename data => some { s with views := s.views ++ [⟨filename, data, .requested⟩] }
  | .openFile k => do
    let v ← s.views[k]?
    match v.phase with
    | .requested =>
      let (ino, files) := s.files.openTruncate (v.path staging entry)
      some ({ s with files := files }.setView k v (.writing ino 0))
    | _ => none
  | .write k n => do
    let v ← s.views[k]?
    match v.phase with
    | .writing ino done =>
      if 0 < n ∧ done + n ≤ v.data.length then
        some ({ s with files := s.files.write ino done (slice v.data done n) }.setView k v
          (.writing ino (done + n)))
      else none
    | _ => none
  | .sync k => do
    let v ← s.views[k]?
    match v.phase with
    | .writing ino done => if done = v.data.length then some (s.setView k v (.staged ino)) else none
    | _ => none
  -- the file is removed, by its path
  | .pinFailed k => do
    let v ← s.views[k]?
    match v.phase with
    | .staged _ =>
      some ({ s with files := s.files.unlink (v.path staging entry) }.setView k v .finished)
    | _ => none
  | .spawn k => do
    let v ← s.views[k]?
    match v.phase with
    | .staged ino => some (s.setView k v (.viewing ino))
    | _ => none
  | .spawnFailed k => do
    let v ← s.views[k]?
    match v.phase with
    | .staged ino => some (s.setView k v (.zeroing ino (s.files.files ino).length 0))
    | _ => none
  -- no viewer for the file, or an error of the open, of a write or of the sync
  | .fail k => do
    let v ← s.views[k]?
    match v.phase with
    | .requested => some (s.setView k v .finished)
    | .writing _ _ => some (s.setView k v .finished)
    | _ => none
  | .exit k => do
    let v ← s.views[k]?
    match v.phase with
    | .viewing ino => some (s.setView k v (.settling ino))
    | _ => none
  | .poll k scan => do
    let v ← s.views[k]?
    let open_ := s.isFileOpen staging entry shown (tmpPath staging v.filename) scan
    match v.phase with
    | .settling ino => some (if open_ then s.setView k v (.handedOff ino) else s)
    | .handedOff ino =>
      some (if open_ then s else s.setView k v (.zeroing ino (s.files.files ino).length 0))
    | _ => none
  -- three seconds have passed
  | .settled k => do
    let v ← s.views[k]?
    match v.phase with
    | .settling ino => some (s.setView k v (.zeroing ino (s.files.files ino).length 0))
    | _ => none
  | .page k => do
    let v ← s.views[k]?
    match v.phase with
    | .zeroing ino len written =>
      if written < len then
        let n := min 4096 (len - written)
        some ({ s with files := s.files.write ino written (List.replicate n 0) }.setView k v
          (.zeroing ino len (written + n)))
      else none
    | _ => none
  -- after the last page, or after a write that failed
  | .zeroed k => do
    let v ← s.views[k]?
    match v.phase with
    | .zeroing ino _ _ => some (s.setView k v (.unlinking ino))
    | _ => none
  | .unlink k => do
    let v ← s.views[k]?
    match v.phase with
    | .unlinking _ =>
      some ({ s with files := s.files.unlink (v.path staging entry) }.setView k v .finished)
    | _ => none

/-! ## What is promised -/

/-- The viewer, or an instance that took the document over, may have the file open. -/
def View.isOpen (v : View) : Bool :=
  match v.phase with
  | .viewing _ => true
  | .settling _ => true
  | .handedOff _ => true
  | _ => false

/-- What is under the path of a view. -/
def Desktop.content (s : Desktop Entry) (v : View) : Option Bytes :=
  (s.files.names (v.path staging entry)).map s.files.files

/-- Under the path of every open viewer is the document it was opened for. -/
def Isolated (s : Desktop Entry) : Prop :=
  ∀ v ∈ s.views, v.isOpen = true → s.content staging entry v = some v.data

instance (s : Desktop Entry) : Decidable (Isolated staging entry s) :=
  inferInstanceAs (Decidable (∀ v ∈ s.views, v.isOpen = true → s.content staging entry v = some v.data))

/-- A file is only opened while no other view uses its path. -/
def Apart (s : Desktop Entry) : Act → Prop
  | .openFile k => ∀ v ∈ s.views[k]?, ∀ w ∈ s.views.eraseIdx k, w.ino.isSome = true →
      w.path staging entry ≠ v.path staging entry
  | _ => True

instance (s : Desktop Entry) (a : Act) : Decidable (Apart staging entry s a) := by
  cases a <;> unfold Apart <;> infer_instance

end Model

/-! ## Every run -/

section Runs

variable {Entry : Type} {staging : List Text} {entry : List Text → Entry}
  {shown : Entry → List Text} {s s' : Desktop Entry} {k : Nat} {v : View}

/-- What the file of a view has in it, as long as the view is not torn down. -/
def Content (v : View) (content : Bytes) : Prop :=
  match v.phase with
  | .writing _ done => content = v.data.take done
  | .staged _ => content = v.data
  | .viewing _ => content = v.data
  | .settling _ => content = v.data
  | .handedOff _ => content = v.data
  | _ => True

structure Inv (staging : List Text) (entry : List Text → Entry) (s : Desktop Entry) : Prop where
  named : ∀ (k : Nat) v i, s.views[k]? = some v → v.ino = some i →
    s.files.names (v.path staging entry) = some i
  content : ∀ (k : Nat) v i, s.views[k]? = some v → v.ino = some i → Content v (s.files.files i)
  apart : ∀ (j k : Nat) v w, s.views[j]? = some v → s.views[k]? = some w → v.ino.isSome = true →
    w.ino.isSome = true → j ≠ k → v.path staging entry ≠ w.path staging entry

theorem View.isOpen_cases (h : v.isOpen = true) : ∃ i, v.ino = some i ∧ v.handle = some i ∧
    ∀ content, Content v content → content = v.data := by
  unfold View.isOpen at h
  split at h
  case h_4 => cases h
  all_goals
    rename_i i hphase
    refine ⟨i, ?_, ?_, fun content hcontent => ?_⟩
    · simp [View.ino, hphase]
    · simp [View.handle, View.ino, hphase]
    · rwa [Content, hphase] at hcontent

theorem Inv.isolated (h : Inv staging entry s) : Isolated staging entry s := by
  intro v hv hopen
  obtain ⟨k, hk⟩ := List.getElem?_of_mem hv
  obtain ⟨i, hino, -, hdata⟩ := v.isOpen_cases hopen
  unfold Desktop.content
  rw [h.named k v i hk hino, Option.map_some, hdata _ (h.content k v i hk hino)]

/-- A scan that lists this process finds the handle that is kept for the shredding, where the path has
no link in it. -/
theorem Inv.isFileOpen (h : Inv staging entry s) (hk : s.views[k]? = some v) (hopen : v.isOpen = true)
    (hpath : shown (v.path staging entry) = tmpPath staging v.filename) {scan : Scan}
    (hown : scan.own = true) :
    s.isFileOpen staging entry shown (tmpPath staging v.filename) scan = true := by
  obtain ⟨i, hino, hhandle, -⟩ := v.isOpen_cases hopen
  have hlink : s.link staging entry shown v = some (tmpPath staging v.filename) := by
    unfold Desktop.link
    rw [hhandle, Option.map_some, if_pos (h.named k v i hk hino), hpath]
  have hany : s.views.any (fun v' => s.link staging entry shown v' =
      some (tmpPath staging v.filename)) = true :=
    List.any_eq_true.mpr ⟨v, List.mem_of_getElem? hk, decide_eq_true hlink⟩
  unfold Desktop.isFileOpen
  rw [hown, hany]
  rfl

theorem Inv.set (h : Inv staging entry s) (files : Inodes Entry) {phase : Phase}
    (hk : s.views[k]? = some v)
    (hothers : ∀ (j : Nat) w i, j ≠ k → s.views[j]? = some w → w.ino = some i →
      files.names (w.path staging entry) = some i ∧ files.files i = s.files.files i)
    (hself : ∀ i, ({ v with phase := phase } : View).ino = some i →
      files.names (v.path staging entry) = some i ∧
        Content { v with phase := phase } (files.files i))
    (hapart : ({ v with phase := phase } : View).ino.isSome = true →
      ∀ (j : Nat) w, j ≠ k → s.views[j]? = some w → w.ino.isSome = true →
        w.path staging entry ≠ v.path staging entry) :
    Inv staging entry ({ s with files := files }.setView k v phase) := by
  have hcases : ∀ (j : Nat) w, (s.views.set k { v with phase := phase })[j]? = some w →
      j = k ∧ w = { v with phase := phase } ∨ j ≠ k ∧ s.views[j]? = some w :=
    fun _ _ hj => getElem?_set_eq_some hj
  refine ⟨fun j w i hj hi => ?_, fun j w i hj hi => ?_, fun j j' w w' hj hj' hi hi' hne => ?_⟩
  · rcases hcases j w hj with ⟨rfl, rfl⟩ | ⟨hjk, hj⟩
    · exact (hself i hi).1
    · exact (hothers j w i hjk hj hi).1
  · rcases hcases j w hj with ⟨rfl, rfl⟩ | ⟨hjk, hj⟩
    · exact (hself i hi).2
    · show Content w (files.files i)
      rw [(hothers j w i hjk hj hi).2]
      exact h.content j w i hj hi
  · rcases hcases j w hj with ⟨rfl, rfl⟩ | ⟨hjk, hold⟩ <;>
      rcases hcases j' w' hj' with ⟨rfl, rfl⟩ | ⟨hjk', hold'⟩
    · exact absurd rfl hne
    · exact (hapart hi j' w' hjk' hold' hi').symm
    · exact hapart hi' j w hjk hold hi
    · exact h.apart j j' w w' hold hold' hi hi' hne

theorem Inv.ino_ne (h : Inv staging entry s) {j : Nat} {w : View} {i i' : Nat}
    (hj : s.views[j]? = some w) (hk : s.views[k]? = some v) (hi : w.ino = some i)
    (hi' : v.ino = some i') (hne : j ≠ k) : i ≠ i' := by
  rintro rfl
  refine h.apart j k w v hj hk (by simp [hi]) (by simp [hi']) hne ?_
  exact s.files.injective _ _ i (h.named j w i hj hi) (h.named k v i hk hi')

theorem Inv.others (h : Inv staging entry s) {i' : Nat} (hk : s.views[k]? = some v)
    (hi' : v.ino = some i') (j : Nat) (w : View) (hne : j ≠ k) (hj : s.views[j]? = some w)
    (hi : w.ino.isSome = true) : w.path staging entry ≠ v.path staging entry :=
  h.apart j k w v hj hk hi (by simp [hi']) hne

theorem Inv.next (h : Inv staging entry s) {phase : Phase} {i : Nat} (hk : s.views[k]? = some v)
    (hi : v.ino = some i) (hphase : ({ v with phase := phase } : View).ino = some i)
    (hcontent : ∀ c, Content v c → Content { v with phase := phase } c) :
    Inv staging entry (s.setView k v phase) := by
  refine h.set s.files hk ?_ ?_ ?_
  · intro j w i' _ hj hi'
    exact ⟨h.named j w i' hj hi', rfl⟩
  · intro i' hi'
    obtain rfl := Option.some.inj (hphase.symm.trans hi')
    exact ⟨h.named k v i hk hi, hcontent _ (h.content k v i hk hi)⟩
  · intro _ j w hne hj hsome
    exact h.others hk hi j w hne hj hsome

theorem Inv.finish (h : Inv staging entry s) (hk : s.views[k]? = some v) :
    Inv staging entry (s.setView k v .finished) := by
  refine h.set s.files hk ?_ (fun i hi => by cases hi) (fun hi => by cases hi)
  intro j w i _ hj hi
  exact ⟨h.named j w i hj hi, rfl⟩

theorem Inv.openViewer (h : Inv staging entry s) (filename : Text) (data : Bytes) :
    Inv staging entry { s with views := s.views ++ [⟨filename, data, .requested⟩] } := by
  refine ⟨fun j w i hj hi => ?_, fun j w i hj hi => ?_, fun j j' w w' hj hj' hi hi' hne => ?_⟩
  · rcases getElem?_concat_eq_some.mp hj with hj | ⟨-, rfl⟩
    · exact h.named j w i hj hi
    · cases hi
  · rcases getElem?_concat_eq_some.mp hj with hj | ⟨-, rfl⟩
    · exact h.content j w i hj hi
    · cases hi
  · rcases getElem?_concat_eq_some.mp hj with hj | ⟨-, rfl⟩
    · rcases getElem?_concat_eq_some.mp hj' with hj' | ⟨-, rfl⟩
      · exact h.apart j j' w w' hj hj' hi hi' hne
      · cases hi'
    · cases hi

theorem Inv.write (h : Inv staging entry s) {phase : Phase} {i pos : Nat} {b : Bytes}
    (hk : s.views[k]? = some v) (hi : v.ino = some i)
    (hphase : ({ v with phase := phase } : View).ino = some i)
    (hcontent : ∀ c, Content v c → Content { v with phase := phase } (patch c pos b)) :
    Inv staging entry ({ s with files := s.files.write i pos b }.setView k v phase) := by
  refine h.set _ hk ?_ ?_ ?_
  · intro j w i' hne hj hi'
    exact ⟨h.named j w i' hj hi', Inodes.write_other (h.ino_ne hj hk hi' hi hne)⟩
  · intro i' hi'
    obtain rfl := Option.some.inj (hphase.symm.trans hi')
    rw [Inodes.write_files]
    exact ⟨h.named k v i hk hi, hcontent _ (h.content k v i hk hi)⟩
  · intro _ j w hne hj hsome
    exact h.others hk hi j w hne hj hsome

variable [DecidableEq Entry]

theorem Inv.openFile (h : Inv staging entry s) (hk : s.views[k]? = some v)
    (hapart : ∀ w ∈ s.views.eraseIdx k, w.ino.isSome = true →
      w.path staging entry ≠ v.path staging entry) :
    Inv staging entry ({ s with files := (s.files.openTruncate (v.path staging entry)).2 }.setView k v
      (.writing (s.files.openTruncate (v.path staging entry)).1 0)) := by
  have hothers : ∀ (j : Nat) w, j ≠ k → s.views[j]? = some w → w.ino.isSome = true →
      w.path staging entry ≠ v.path staging entry := by
    intro j w hne hj hsome
    exact hapart w (List.mem_eraseIdx_iff_getElem?.mpr ⟨j, hne, hj⟩) hsome
  refine h.set _ hk ?_ ?_ fun _ => hothers
  · intro j w i hne hj hi
    exact Inodes.openTruncate_other (h.named j w i hj hi) (hothers j w hne hj (by simp [hi]))
  · intro i hi
    cases hi
    refine ⟨Inodes.openTruncate_names, ?_⟩
    show _ = v.data.take 0
    rw [Inodes.openTruncate_files, List.take_zero]

theorem Inv.unlink (h : Inv staging entry s) {i : Nat} (hk : s.views[k]? = some v)
    (hi : v.ino = some i) :
    Inv staging entry
      ({ s with files := s.files.unlink (v.path staging entry) }.setView k v .finished) := by
  refine h.set _ hk ?_ (fun i hi => by cases hi) (fun hi => by cases hi)
  intro j w i' hne hj hi'
  refine ⟨?_, rfl⟩
  rw [Inodes.unlink_other (h.others hk hi j w hne hj (by simp [hi'])), h.named j w i' hj hi']

theorem Inv.step (h : Inv staging entry s) {a : Act} (hapart : Apart staging entry s a)
    (hstep : step staging entry shown s a = some s') : Inv staging entry s' := by
  cases a with
  | openViewer filename data =>
    cases hstep
    exact h.openViewer filename data
  | openFile k =>
    obtain ⟨v, hk, hstep⟩ := Option.bind_eq_some_iff.mp hstep
    split at hstep
    · cases hstep
      exact h.openFile hk (hapart v hk)
    · cases hstep
  | write k n =>
    obtain ⟨v, hk, hstep⟩ := Option.bind_eq_some_iff.mp hstep
    split at hstep
    · rename_i ino done hphase
      split at hstep
      · rename_i hn
        cases hstep
        refine h.write hk (by simp [View.ino, hphase]) rfl fun c hc => ?_
        rw [Content, hphase] at hc
        subst hc
        exact patch_take hn.2
      · cases hstep
    · cases hstep
  | sync k =>
    obtain ⟨v, hk, hstep⟩ := Option.bind_eq_some_iff.mp hstep
    split at hstep
    · rename_i ino done hphase
      split at hstep
      · rename_i hdone
        cases hstep
        exact h.next hk (by simp [View.ino, hphase]) rfl (by simp [Content, hphase, hdone])
      · cases hstep
    · cases hstep
  | pinFailed k =>
    obtain ⟨v, hk, hstep⟩ := Option.bind_eq_some_iff.mp hstep
    split at hstep
    · rename_i ino hphase
      cases hstep
      exact h.unlink (i := ino) hk (by simp [View.ino, hphase])
    · cases hstep
  | spawn k =>
    obtain ⟨v, hk, hstep⟩ := Option.bind_eq_some_iff.mp hstep
    split at hstep
    · rename_i ino hphase
      cases hstep
      exact h.next hk (by simp [View.ino, hphase]) rfl (by simp [Content, hphase])
    · cases hstep
  | spawnFailed k =>
    obtain ⟨v, hk, hstep⟩ := Option.bind_eq_some_iff.mp hstep
    split at hstep
    · rename_i ino hphase
      cases hstep
      exact h.next hk (by simp [View.ino, hphase]) rfl fun _ _ => trivial
    · cases hstep
  | fail k =>
    obtain ⟨v, hk, hstep⟩ := Option.bind_eq_some_iff.mp hstep
    split at hstep
    · cases hstep
      exact h.finish hk
    · cases hstep
      exact h.finish hk
    · cases hstep
  | exit k =>
    obtain ⟨v, hk, hstep⟩ := Option.bind_eq_some_iff.mp hstep
    split at hstep
    · rename_i ino hphase
      cases hstep
      exact h.next hk (by simp [View.ino, hphase]) rfl (by simp [Content, hphase])
    · cases hstep
  | poll k scan =>
    obtain ⟨v, hk, hstep⟩ := Option.bind_eq_some_iff.mp hstep
    dsimp only at hstep
    split at hstep
    · rename_i ino hphase
      cases hstep
      split
      · exact h.next hk (by simp [View.ino, hphase]) rfl (by simp [Content, hphase])
      · exact h
    · rename_i ino hphase
      cases hstep
      split
      · exact h
      · exact h.next hk (by simp [View.ino, hphase]) rfl fun _ _ => trivial
    · cases hstep
  | settled k =>
    obtain ⟨v, hk, hstep⟩ := Option.bind_eq_some_iff.mp hstep
    split at hstep
    · rename_i ino hphase
      cases hstep
      exact h.next hk (by simp [View.ino, hphase]) rfl fun _ _ => trivial
    · cases hstep
  | page k =>
    obtain ⟨v, hk, hstep⟩ := Option.bind_eq_some_iff.mp hstep
    split at hstep
    · rename_i ino len written hphase
      split at hstep
      · cases hstep
        exact h.write hk (by simp [View.ino, hphase]) rfl fun _ _ => trivial
      · cases hstep
    · cases hstep
  | zeroed k =>
    obtain ⟨v, hk, hstep⟩ := Option.bind_eq_some_iff.mp hstep
    split at hstep
    · rename_i ino len written hphase
      cases hstep
      exact h.next hk (by simp [View.ino, hphase]) rfl fun _ _ => trivial
    · cases hstep
  | unlink k =>
    obtain ⟨v, hk, hstep⟩ := Option.bind_eq_some_iff.mp hstep
    split at hstep
    · rename_i ino hphase
      cases hstep
      exact h.unlink (i := ino) hk (by simp [View.ino, hphase])
    · cases hstep

/-- **Staged files.** Whatever viewers are opened and closed at once: while a staging file is only
opened when no other view uses its path, every open viewer has its own document under its path. -/
theorem staged_isolated (files : Inodes Entry) {as : List Act}
    (h : run (step staging entry shown) ⟨files, []⟩ as = some s)
    (hapart : Allowed (step staging entry shown) (Apart staging entry) ⟨files, []⟩ as) :
    Isolated staging entry s := by
  have hnone : ∀ (j : Nat) w, (⟨files, []⟩ : Desktop Entry).views[j]? ≠ some w := by
    intro j w hj
    cases hj
  have hinit : Inv staging entry ⟨files, []⟩ :=
    ⟨fun j w _ hj => absurd hj (hnone j w), fun j w _ hj => absurd hj (hnone j w),
      fun j _ w _ hj => absurd hj (hnone j w)⟩
  have hinv := run_allowed (fun _ _ _ hs hA hstep => Inv.step hs hA hstep) h hapart hinit
  exact hinv.isolated

/-! ### The watcher and its own handle -/

/-- The first poll takes the handle for another instance, -/
theorem Inv.poll_settling (h : Inv staging entry s) {i : Nat} (hk : s.views[k]? = some v)
    (hphase : v.phase = .settling i)
    (hpath : shown (v.path staging entry) = tmpPath staging v.filename) {scan : Scan}
    (hown : scan.own = true) :
    Staging.step staging entry shown s (.poll k scan) = some (s.setView k v (.handedOff i)) := by
  have hopen : v.isOpen = true := by simp [View.isOpen, hphase]
  simp [Staging.step, hk, hphase, h.isFileOpen hk hopen hpath hown]

/-- and no later one comes to an end. -/
theorem Inv.poll_handedOff (h : Inv staging entry s) {i : Nat} (hk : s.views[k]? = some v)
    (hphase : v.phase = .handedOff i)
    (hpath : shown (v.path staging entry) = tmpPath staging v.filename) {scan : Scan}
    (hown : scan.own = true) : Staging.step staging entry shown s (.poll k scan) = some s := by
  have hopen : v.isOpen = true := by simp [View.isOpen, hphase]
  simp [Staging.step, hk, hphase, h.isFileOpen hk hopen hpath hown]

end Runs

/-! ### Two documents of one name -/

def sampleStaging : List Text := [['r', 'u', 'n']]

abbrev sampleStep := step sampleStaging (id : List Text → List Text) id

def stages (k : Nat) (filename : Text) (data : Bytes) : List Act :=
  [.openViewer filename data, .openFile k, .write k data.length, .sync k]

def opens (k : Nat) (filename : Text) (data : Bytes) : List Act :=
  stages k filename data ++ [.spawn k]

/-- The viewer does not start, and its file is shredded. -/
def spawnFails (k : Nat) : List Act := [.spawnFailed k, .page k, .zeroed k, .unlink k]

/-- While a viewer is open, another one does not start, starts at the second try, and is closed. -/
def sampleApart : List Act :=
  opens 0 ['a', '.', 't'] [1, 2] ++ stages 1 ['b', '.', 't'] [3] ++ spawnFails 1 ++
    opens 2 ['b', '.', 't'] [3] ++ [.exit 2, .poll 2 ⟨true, false⟩, .poll 2 ⟨true, false⟩]

/-- Two documents whose names end the same. -/
def sampleOther : List Act :=
  opens 0 ['x', '/', 'a', '.', 't'] [1, 2] ++ opens 1 ['y', '/', 'a', '.', 't'] [3]

/-- A document that is opened once more, with no memory left to pin. -/
def sampleAgain : List Act :=
  opens 0 ['a', '.', 't'] [1, 2] ++ stages 1 ['a', '.', 't'] [1, 2] ++ [.pinFailed 1]

/-- The second viewer does not start. -/
def sampleShredded : List Act :=
  opens 0 ['a', '.', 't'] [1, 2] ++ stages 1 ['a', '.', 't'] [1, 2] ++ [.spawnFailed 1, .page 1]

theorem staged_isolated_apart : ∃ s, run sampleStep ⟨.empty, []⟩ sampleApart = some s ∧
    s.views.map (·.phase) = [.viewing 0, .finished, .handedOff 2] ∧ Isolated sampleStaging id s := by
  have hrun : (run sampleStep ⟨.empty, []⟩ sampleApart).any (fun s =>
      decide (s.views.map (·.phase) = [.viewing 0, .finished, .handedOff 2])) = true := by
    decide +kernel
  obtain ⟨s, hs, hphases⟩ := (Option.any_eq_true _ _).mp hrun
  have hapart : Allowed sampleStep (Apart sampleStaging id) ⟨.empty, []⟩ sampleApart := by
    decide +kernel
  exact ⟨s, hs, by simpa using hphases, staged_isolated .empty hs hapart⟩

/-- An open viewer gets the other document, no file at all, or zeros. -/
theorem viewers_collide :
    (∃ s, run sampleStep ⟨.empty, []⟩ sampleOther = some s ∧ ¬ Isolated sampleStaging id s ∧
      ∃ v ∈ s.views, v.isOpen = true ∧ v.data = [1, 2] ∧
        s.content sampleStaging id v = some [3]) ∧
    (∃ s, run sampleStep ⟨.empty, []⟩ sampleAgain = some s ∧ ¬ Isolated sampleStaging id s ∧
      ∃ v ∈ s.views, v.isOpen = true ∧ s.content sampleStaging id v = none) ∧
    ∃ s, run sampleStep ⟨.empty, []⟩ sampleShredded = some s ∧ ¬ Isolated sampleStaging id s ∧
      ∃ v ∈ s.views, v.isOpen = true ∧ v.data = [1, 2] ∧
        s.content sampleStaging id v = some [0, 0] := by
  refine ⟨?_, ?_, ?_⟩
  · have hrun : (run sampleStep ⟨.empty, []⟩ sampleOther).any (fun s => decide
        (¬ Isolated sampleStaging id s ∧ ∃ v ∈ s.views, v.isOpen = true ∧ v.data = [1, 2] ∧
          s.content sampleStaging id v = some [3])) = true := by
      decide +kernel
    simpa using (Option.any_eq_true _ _).mp hrun
  · have hrun : (run sampleStep ⟨.empty, []⟩ sampleAgain).any (fun s => decide
        (¬ Isolated sampleStaging id s ∧ ∃ v ∈ s.views, v.isOpen = true ∧
          s.content sampleStaging id v = none)) = true := by
      decide +kernel
    simpa using (Option.any_eq_true _ _).mp hrun
  · have hrun : (run sampleStep ⟨.empty, []⟩ sampleShredded).any (fun s => decide
        (¬ Isolated sampleStaging id s ∧ ∃ v ∈ s.views, v.isOpen = true ∧ v.data = [1, 2] ∧
          s.content sampleStaging id v = some [0, 0])) = true := by
      decide +kernel
    simpa using (Option.any_eq_true _ _).mp hrun

end AtomVault.Viewer.Staging
