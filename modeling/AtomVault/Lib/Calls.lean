import AtomVault.Lib.Host

/-!
# One rule for each call

Each rule has the state after the call, and the states an error can leave. `GoesOn`
is what is known of the fault afterwards: a run without one stays without one.
-/

namespace Lib

def GoesOn : Option Fault → Option Fault → Prop
  | none, g => g = none
  | some f, g => ∃ n ≤ f.after, g = some { f with after := n }

@[refl]
theorem GoesOn.refl (f : Option Fault) : GoesOn f f := by
  cases f with
  | none => rfl
  | some f => exact ⟨f.after, le_refl _, rfl⟩

theorem GoesOn.trans {f g k : Option Fault} (h : GoesOn f g) (h' : GoesOn g k) : GoesOn f k := by
  cases f with
  | none =>
    cases h
    exact h'
  | some f =>
    obtain ⟨n, hn, rfl⟩ := h
    obtain ⟨m, hm, rfl⟩ := h'
    exact ⟨m, le_trans hm hn, rfl⟩

theorem GoesOn.ne_none {f g : Option Fault} (h : GoesOn f g) (hg : g ≠ none) : f ≠ none := by
  rintro rfl
  exact hg h

theorem GoesOn.eq_none {f g : Option Fault} (h : GoesOn f g) (hf : f = none) : g = none := by
  subst hf
  exact h

/-- How much of a failing write can reach the file. -/
def torn : Option Fault → Nat
  | none => 0
  | some f => f.written

theorem GoesOn.torn_eq {f g : Option Fault} (h : GoesOn f g) : torn g = torn f := by
  cases f with
  | none =>
    cases h
    rfl
  | some f =>
    obtain ⟨n, -, rfl⟩ := h
    rfl

/-! ## What a call leaves alone

`Still` is a call that moves nothing, `Moves` one that moves the cursor of `fd`, and
`Touches` one that may write the file behind `fd`. `Confined` is what is left of them
after many calls, on several descriptors.
-/

section Relations

structure Confined (fd : Nat) (h h' : Host) : Prop where
  names : h'.names = h.names
  ino : ∀ fd', h'.ino fd' = h.ino fd'
  files : ∀ j, j ≠ h.ino fd → h'.files j = h.files j
  durable : ∀ j, j ≠ h.ino fd → h'.durable j = h.durable j
  nextIno : h'.nextIno = h.nextIno
  nextFd : h'.nextFd = h.nextFd
  writes_le : h.writes ≤ h'.writes
  fault : GoesOn h.fault h'.fault

variable {σ : Type}

structure Touches (fd : Nat) (s s' : Env σ) : Prop extends Confined fd s.host s'.host where
  vars : s'.vars = s.vars
  pos : ∀ fd', fd' ≠ fd → s'.host.pos fd' = s.host.pos fd'

structure Moves (fd : Nat) (s s' : Env σ) : Prop extends Touches fd s s' where
  allFiles : s'.host.files = s.host.files
  allDurable : s'.host.durable = s.host.durable
  writes : s'.host.writes = s.host.writes

structure Still (s s' : Env σ) : Prop where
  vars : s'.vars = s.vars
  names : s'.host.names = s.host.names
  fds : s'.host.fds = s.host.fds
  files : s'.host.files = s.host.files
  durable : s'.host.durable = s.host.durable
  writes : s'.host.writes = s.host.writes
  nextIno : s'.host.nextIno = s.host.nextIno
  nextFd : s'.host.nextFd = s.host.nextFd
  fault : GoesOn s.host.fault s'.host.fault

variable {fd : Nat} {s s' s'' : Env σ} {h h' h'' : Host}

theorem Confined.refl (fd : Nat) (h : Host) : Confined fd h h :=
  ⟨rfl, fun _ => rfl, fun _ _ => rfl, fun _ _ => rfl, rfl, rfl, le_refl _, GoesOn.refl _⟩

theorem Confined.trans (a : Confined fd h h') (b : Confined fd h' h'') : Confined fd h h'' where
  names := b.names.trans a.names
  ino fd' := (b.ino fd').trans (a.ino fd')
  files j hj := (b.files j (by rwa [a.ino])).trans (a.files j hj)
  durable j hj := (b.durable j (by rwa [a.ino])).trans (a.durable j hj)
  nextIno := b.nextIno.trans a.nextIno
  nextFd := b.nextFd.trans a.nextFd
  writes_le := a.writes_le.trans b.writes_le
  fault := a.fault.trans b.fault

/-- A descriptor on another file reads what it read before. -/
theorem Confined.data_of_ne (a : Confined fd h h') {fd' : Nat} (hi : h.ino fd' ≠ h.ino fd) :
    h'.data fd' = h.data fd' := by
  unfold Host.data
  rw [a.ino, a.files _ hi]

theorem Host.contents_of_names {path : String} {i : Nat} (hn : h.names path = some i) :
    h.contents path = some (h.files i).bytes := by
  rw [Host.contents, hn]
  rfl

theorem Host.contents_congr {path : String} (hn : h'.names path = h.names path)
    (hf : ∀ i, h.names path = some i → h'.files i = h.files i) :
    h'.contents path = h.contents path := by
  unfold Host.contents
  rw [hn]
  cases hi : h.names path with
  | none => rfl
  | some i => simp [hf i hi]

/-- A name of another file keeps its content. -/
theorem Confined.contents_of_ne (a : Confined fd h h') {path : String}
    (hne : h.names path ≠ some (h.ino fd)) : h'.contents path = h.contents path := by
  apply Host.contents_congr (congrFun a.names path)
  intro i hi
  apply a.files
  rintro rfl
  exact hne hi

/-- What is left when descriptors are opened as well: `fd` is on the same file, under the
same names. -/
structure SameFile (fd : Nat) (h h' : Host) : Prop where
  names : h'.names = h.names
  ino : h'.ino fd = h.ino fd
  nextIno : h'.nextIno = h.nextIno
  nextFd : h.nextFd ≤ h'.nextFd
  fault : GoesOn h.fault h'.fault

theorem SameFile.trans (a : SameFile fd h h') (b : SameFile fd h' h'') : SameFile fd h h'' where
  names := b.names.trans a.names
  ino := b.ino.trans a.ino
  nextIno := b.nextIno.trans a.nextIno
  nextFd := le_trans a.nextFd b.nextFd
  fault := a.fault.trans b.fault

theorem Confined.sameFile {fd' : Nat} (a : Confined fd' h h') (fd : Nat) : SameFile fd h h' :=
  ⟨a.names, a.ino fd, a.nextIno, le_of_eq a.nextFd.symm, a.fault⟩

theorem Still.refl (s : Env σ) : Still s s :=
  ⟨rfl, rfl, rfl, rfl, rfl, rfl, rfl, rfl, GoesOn.refl _⟩

theorem Still.setFault {g : Option Fault} (hg : GoesOn s.host.fault g) : Still s (s.setFault g) :=
  ⟨rfl, rfl, rfl, rfl, rfl, rfl, rfl, rfl, hg⟩

theorem Still.trans (a : Still s s') (b : Still s' s'') : Still s s'' where
  vars := b.vars.trans a.vars
  names := b.names.trans a.names
  fds := b.fds.trans a.fds
  files := b.files.trans a.files
  durable := b.durable.trans a.durable
  writes := b.writes.trans a.writes
  nextIno := b.nextIno.trans a.nextIno
  nextFd := b.nextFd.trans a.nextFd
  fault := a.fault.trans b.fault

theorem Still.pos (a : Still s s') (fd : Nat) : s'.host.pos fd = s.host.pos fd := by
  unfold Host.pos
  rw [a.fds]

theorem Still.ino (a : Still s s') (fd : Nat) : s'.host.ino fd = s.host.ino fd := by
  unfold Host.ino
  rw [a.fds]

theorem Still.moves (a : Still s s') (fd : Nat) : Moves fd s s' where
  vars := a.vars
  names := a.names
  ino := a.ino
  pos fd' _ := a.pos fd'
  files j _ := by rw [a.files]
  durable j _ := by rw [a.durable]
  nextIno := a.nextIno
  nextFd := a.nextFd
  writes_le := ge_of_eq a.writes
  fault := a.fault
  allFiles := a.files
  allDurable := a.durable
  writes := a.writes

theorem Still.touches (a : Still s s') (fd : Nat) : Touches fd s s' := (a.moves fd).toTouches

theorem Touches.trans (a : Touches fd s s') (b : Touches fd s' s'') : Touches fd s s'' where
  toConfined := a.toConfined.trans b.toConfined
  vars := b.vars.trans a.vars
  pos fd' hfd := (b.pos fd' hfd).trans (a.pos fd' hfd)

theorem Moves.refl (fd : Nat) (s : Env σ) : Moves fd s s := (Still.refl s).moves fd

theorem Moves.trans (a : Moves fd s s') (b : Moves fd s' s'') : Moves fd s s'' where
  toTouches := a.toTouches.trans b.toTouches
  allFiles := b.allFiles.trans a.allFiles
  allDurable := b.allDurable.trans a.allDurable
  writes := b.writes.trans a.writes

theorem Moves.data (a : Moves fd s s') (fd' : Nat) : s'.host.data fd' = s.host.data fd' := by
  unfold Host.data
  rw [a.ino, a.allFiles]

theorem Still.data (a : Still s s') (fd' : Nat) : s'.host.data fd' = s.host.data fd' :=
  (a.moves fd').data fd'

/-- Moving one cursor touches no file, whichever one is asked about. -/
theorem Moves.confined (a : Moves fd s s') (fd' : Nat) : Confined fd' s.host s'.host where
  names := a.names
  ino := a.ino
  files j _ := by rw [a.allFiles]
  durable j _ := by rw [a.allDurable]
  nextIno := a.nextIno
  nextFd := a.nextFd
  writes_le := a.writes_le
  fault := a.fault

/-- A new descriptor on inode `i`, at the start of the file. -/
structure Opened (i : Nat) (s s' : Env σ) : Prop where
  vars : s'.vars = s.vars
  ino : s'.host.ino s.host.nextFd = i
  pos : s'.host.pos s.host.nextFd = 0
  fds : ∀ fd', fd' ≠ s.host.nextFd → s'.host.fds fd' = s.host.fds fd'
  writes : s'.host.writes = s.host.writes
  nextFd : s'.host.nextFd = s.host.nextFd + 1
  fault : GoesOn s.host.fault s'.host.fault

structure OpenedOld (i : Nat) (s s' : Env σ) : Prop extends Opened i s s' where
  names : s'.host.names = s.host.names
  files : s'.host.files = s.host.files
  durable : s'.host.durable = s.host.durable
  nextIno : s'.host.nextIno = s.host.nextIno

structure OpenedNew (path : String) (s s' : Env σ) : Prop extends Opened s.host.nextIno s s' where
  names : s'.host.names = Function.update s.host.names path (some s.host.nextIno)
  empty : (s'.host.files s.host.nextIno).bytes = []
  files : ∀ j, j ≠ s.host.nextIno → s'.host.files j = s.host.files j
  durable : ∀ j, j ≠ s.host.nextIno → s'.host.durable j = s.host.durable j
  durableNew : s'.host.durable s.host.nextIno = 0
  nextIno : s'.host.nextIno = s.host.nextIno + 1

/-- A new descriptor on inode `i`, which `path` goes to and which is empty now. -/
structure OpenedEmpty (i : Nat) (path : String) (s s' : Env σ) : Prop where
  vars : s'.vars = s.vars
  names : s'.host.names = Function.update s.host.names path (some i)
  ino : s'.host.ino s.host.nextFd = i
  pos : s'.host.pos s.host.nextFd = 0
  fds : ∀ fd', fd' ≠ s.host.nextFd → s'.host.fds fd' = s.host.fds fd'
  empty : (s'.host.files i).bytes = []
  files : ∀ j, j ≠ i → s'.host.files j = s.host.files j
  fault : GoesOn s.host.fault s'.host.fault

theorem OpenedNew.openedEmpty {path : String} (a : OpenedNew path s s') :
    OpenedEmpty s.host.nextIno path s s' :=
  ⟨a.vars, a.names, a.ino, a.pos, a.fds, a.empty, a.files, a.fault⟩

theorem OpenedEmpty.data {i : Nat} {path : String} (a : OpenedEmpty i path s s') :
    s'.host.data s.host.nextFd = [] := by
  unfold Host.data
  rw [a.ino, a.empty]

theorem OpenedEmpty.ino_of_ne {i : Nat} {path : String} (a : OpenedEmpty i path s s') {fd' : Nat}
    (h : fd' ≠ s.host.nextFd) : s'.host.ino fd' = s.host.ino fd' := by
  unfold Host.ino
  rw [a.fds fd' h]

theorem Opened.ino_of_ne {i : Nat} (a : Opened i s s') {fd' : Nat} (h : fd' ≠ s.host.nextFd) :
    s'.host.ino fd' = s.host.ino fd' := by
  unfold Host.ino
  rw [a.fds fd' h]

theorem OpenedOld.sameFile {i : Nat} (a : OpenedOld i s s') (h : fd ≠ s.host.nextFd) :
    SameFile fd s.host s'.host :=
  ⟨a.names, a.ino_of_ne h, a.nextIno, by rw [a.nextFd]; omega, a.fault⟩

theorem OpenedOld.data_of_ne {i : Nat} (a : OpenedOld i s s') {fd' : Nat}
    (h : fd' ≠ s.host.nextFd) : s'.host.data fd' = s.host.data fd' := by
  unfold Host.data
  rw [a.ino_of_ne h, a.files]

theorem OpenedOld.data {i : Nat} (a : OpenedOld i s s') :
    s'.host.data s.host.nextFd = (s.host.files i).bytes := by
  unfold Host.data
  rw [a.ino, a.files]

theorem OpenedNew.data {path : String} (a : OpenedNew path s s') :
    s'.host.data s.host.nextFd = [] := by
  unfold Host.data
  rw [a.ino, a.empty]

theorem OpenedNew.data_of_ne {path : String} (a : OpenedNew path s s') {fd' : Nat}
    (h : fd' ≠ s.host.nextFd) (hi : s.host.ino fd' ≠ s.host.nextIno) :
    s'.host.data fd' = s.host.data fd' := by
  unfold Host.data
  rw [a.ino_of_ne h, a.files _ hi]

end Relations

theorem Host.data_fits (h : Host) (fd : Nat) : (h.data fd).length ≤ maxLen :=
  (h.files (h.ino fd)).fits

/-! ## What the calls do to a host -/

namespace Host

variable (h : Host) (fd : Nat)

theorem setPos_ino (p fd') : (h.setPos fd p).ino fd' = h.ino fd' := by
  unfold setPos ino
  by_cases hfd : fd' = fd
  · subst hfd
    simp
  · simp [Function.update_of_ne hfd]

theorem setPos_pos_of_ne (p) {fd' : Nat} (hne : fd' ≠ fd) : (h.setPos fd p).pos fd' = h.pos fd' := by
  simp [setPos, pos, Function.update_of_ne hne]

theorem setPos_pos (p) : (h.setPos fd p).pos fd = p := by simp [setPos, pos]

variable {h fd}

theorem write_ino (b fd') : (h.write fd b).ino fd' = h.ino fd' := by
  unfold write
  split
  · rfl
  · exact setPos_ino (h.setFile _ _) fd _ fd'

theorem write_pos (b) : (h.write fd b).pos fd = h.pos fd + b.length := by
  unfold write
  split
  · rename_i hb; simp [hb]
  · exact setPos_pos (h.setFile _ _) fd _

theorem write_data {b : Bytes} (hfit : h.pos fd + b.length ≤ maxLen)
    (hpos : h.pos fd ≤ (h.data fd).length) :
    (h.write fd b).data fd = Lib.patch (h.data fd) (h.pos fd) b := by
  by_cases hb : b = []
  · subst hb
    exact (patch_nil hpos).symm
  · have hfile : (h.write fd b).files (h.ino fd) = (h.files (h.ino fd)).patch (h.pos fd) b := by
      rw [write, if_neg hb]
      exact Function.update_self ..
    rw [data, write_ino, hfile, File.bytes_patch _ hfit]
    rfl

theorem write_data_of_large {b : Bytes} (hlarge : maxLen < h.pos fd + b.length) :
    (h.write fd b).data fd = h.data fd := by
  by_cases hb : b = []
  · subst hb
    rfl
  · have hfile : (h.write fd b).files (h.ino fd) = h.files (h.ino fd) := by
      rw [write, if_neg hb, File.patch, dif_neg (by omega)]
      exact Function.update_self ..
    rw [data, write_ino, hfile]
    rfl

theorem write_writes (b) : (h.write fd b).writes = h.writes := by
  unfold write
  split <;> rfl

theorem write_durable {b : Bytes} (hb : b ≠ []) :
    (h.write fd b).durable (h.ino fd) = min (h.durable (h.ino fd)) (h.pos fd) := by
  rw [write, if_neg hb]
  exact Function.update_self ..

theorem truncate_data {n : Nat} (hn : n ≤ maxLen) :
    (h.truncate fd n).data fd = Lib.resize (h.data fd) n := by
  have hfile : (h.truncate fd n).files (h.ino fd) = (h.files (h.ino fd)).resize n :=
    Function.update_self ..
  show ((h.truncate fd n).files (h.ino fd)).bytes = _
  rw [hfile, File.bytes_resize _ hn]
  rfl

end Host

section Effects

variable {σ : Type} {s : Env σ} {fd : Nat} {g : Option Fault}

theorem touches_write (hg : GoesOn s.host.fault g) (b : Bytes) :
    Touches fd s (s.onHost fun h => (h.setFault g).write fd b) := by
  by_cases hb : b = []
  · subst hb
    exact ((Still.setFault hg).moves fd).toTouches
  have hw : (s.host.setFault g).write fd b = _ := if_neg hb
  refine ⟨⟨?_, fun fd' => Host.write_ino b fd', fun j hj => ?_, fun j hj => ?_, ?_, ?_, ?_, ?_⟩,
    rfl, fun fd' hne => ?_⟩
  all_goals simp only [Env.onHost, hw]
  · rfl
  · exact Function.update_of_ne hj ..
  · exact Function.update_of_ne hj ..
  · rfl
  · rfl
  · exact le_refl _
  · exact hg
  · exact Host.setPos_pos_of_ne _ _ _ hne

theorem touches_count {s' : Env σ} (a : Touches fd s s') : Touches fd s (s'.onHost Host.count) :=
  { a with writes_le := a.writes_le.trans (Nat.le_succ _) }

theorem touches_truncate (hg : GoesOn s.host.fault g) (n : Nat) :
    Touches fd s (s.onHost fun h => (h.setFault g).truncate fd n) where
  vars := rfl
  names := rfl
  ino _ := rfl
  pos _ _ := rfl
  files _ hj := Function.update_of_ne hj ..
  durable _ hj := Function.update_of_ne hj ..
  nextIno := rfl
  nextFd := rfl
  writes_le := le_refl _
  fault := hg

theorem touches_sync (hg : GoesOn s.host.fault g) :
    Touches fd s (s.onHost fun h => (h.setFault g).sync fd) where
  vars := rfl
  names := rfl
  ino _ := rfl
  pos _ _ := rfl
  files _ _ := rfl
  durable _ hj := Function.update_of_ne hj ..
  nextIno := rfl
  nextFd := rfl
  writes_le := le_refl _
  fault := hg

theorem moves_setPos (hg : GoesOn s.host.fault g) (p : Nat) :
    Moves fd s (s.onHost fun h => (h.setFault g).setPos fd p) where
  vars := rfl
  names := rfl
  ino _ := Host.setPos_ino ..
  pos _ hne := Host.setPos_pos_of_ne _ _ _ hne
  files _ _ := rfl
  durable _ _ := rfl
  nextIno := rfl
  nextFd := rfl
  writes_le := le_refl _
  fault := hg
  allFiles := rfl
  allDurable := rfl
  writes := rfl

theorem opened_attach (hg : GoesOn s.host.fault g) (i : Nat) :
    OpenedOld i s (s.onHost fun h => ((h.setFault g).attach i).2) where
  vars := rfl
  ino := by simp [Env.onHost, Host.ino, Host.attach, Host.setFault]
  pos := by simp [Env.onHost, Host.pos, Host.attach, Host.setFault]
  fds _ hne := Function.update_of_ne hne ..
  writes := rfl
  nextFd := rfl
  fault := hg
  names := rfl
  files := rfl
  durable := rfl
  nextIno := rfl

theorem opened_truncate (hg : GoesOn s.host.fault g) {path : String} {i : Nat}
    (hn : s.host.names path = some i) :
    OpenedEmpty i path s (s.onHost fun h =>
      (((h.setFault g).attach i).2.truncate h.nextFd 0).count) := by
  have a := opened_attach hg i
  have hfiles : (((s.host.setFault g).attach i).2.truncate s.host.nextFd 0).files =
      Function.update s.host.files i ((s.host.files i).resize 0) := by
    have hino : ((s.host.setFault g).attach i).2.ino s.host.nextFd = i := a.ino
    show Function.update s.host.files (((s.host.setFault g).attach i).2.ino s.host.nextFd)
      ((s.host.files (((s.host.setFault g).attach i).2.ino s.host.nextFd)).resize 0) = _
    rw [hino]
  refine ⟨rfl, ?_, a.ino, a.pos, fun _ hne => a.fds _ hne, ?_, fun j hj => ?_, hg⟩
  · rw [← hn]
    exact (Function.update_eq_self path s.host.names).symm
  · show ((((s.host.setFault g).attach i).2.truncate s.host.nextFd 0).files i).bytes = []
    rw [hfiles, Function.update_self, File.bytes_resize _ (Nat.zero_le _)]
    exact List.eq_nil_of_length_eq_zero (length_resize _ _)
  · show (((s.host.setFault g).attach i).2.truncate s.host.nextFd 0).files j = _
    rw [hfiles, Function.update_of_ne hj]

theorem opened_create (hg : GoesOn s.host.fault g) (path : String) :
    OpenedNew path s
      (s.onHost fun h => (((h.setFault g).create path).2.attach h.nextIno).2) where
  vars := rfl
  ino := by simp [Env.onHost, Host.ino, Host.attach, Host.create, Host.setFault, Host.setFile]
  pos := by simp [Env.onHost, Host.pos, Host.attach, Host.create, Host.setFault, Host.setFile]
  fds _ hne := Function.update_of_ne hne ..
  writes := rfl
  nextFd := rfl
  fault := hg
  names := rfl
  empty := by simp [Env.onHost, Host.attach, Host.create, Host.setFault, Host.setFile, File.empty]
  files _ hj := Function.update_of_ne hj ..
  durable _ hj := Function.update_of_ne hj ..
  durableNew := Function.update_self ..
  nextIno := rfl

end Effects

/-! ## The rules -/

section Rules

variable {σ ε α : Type} {s : Env σ} {onErr : String → ε} {E : ε → Env σ → Prop}

theorem wp_call {damage : Nat → Host → Host} {act : Host → Except String (α × Host)}
    {Q : α → Env σ → Prop}
    (hfault : s.host.fault ≠ none →
      ∀ text, E (onErr text) (s.onHost (damage (torn s.host.fault))))
    (hact : ∀ g, GoesOn s.host.fault g →
      match act (s.host.setFault g) with
      | .ok (a, h) => Q a (s.onHost fun _ => h)
      | .error text => E (onErr text) (s.setFault g)) :
    wp (call onErr damage act) Q E s := by
  unfold wp call
  match hf : s.host.fault with
  | none =>
    have := hact none (by rw [hf])
    simp only
    split at this <;> simp_all [Env.onHost]
  | some ⟨0, k, text⟩ =>
    have := hfault (by simp [hf]) text
    rw [hf] at this
    exact this
  | some ⟨n + 1, k, text⟩ =>
    have := hact (some ⟨n, k, text⟩) (by rw [hf]; exact ⟨n, by simp, rfl⟩)
    simp only
    split at this <;> simp_all [Env.onHost]

theorem wp_openFile {path : String} {Q : Nat → Env σ → Prop}
    (herr : s.host.fault ≠ none ∨ s.host.names path = none → ∀ t s', Still s s' → E (onErr t) s')
    (hok : ∀ i s', s.host.names path = some i → OpenedOld i s s' → Q s.host.nextFd s') :
    wp (Call.openFile onErr path) Q E s := by
  apply wp_call
  · intro hf t
    exact herr (Or.inl hf) t s (Still.refl s)
  · intro g hg
    cases hn : s.host.names path with
    | none =>
      simp only [Host.setFault, hn]
      exact herr (Or.inr hn) _ _ (Still.setFault hg)
    | some i =>
      simp only [Host.setFault, hn]
      exact hok i _ hn (opened_attach hg i)

theorem wp_createNew {path : String} {Q : Nat → Env σ → Prop}
    (herr : s.host.fault ≠ none ∨ s.host.names path ≠ none → ∀ t s', Still s s' → E (onErr t) s')
    (hok : ∀ s', s.host.names path = none → OpenedNew path s s' → Q s.host.nextFd s') :
    wp (Call.createNew onErr path) Q E s := by
  apply wp_call
  · intro hf t
    exact herr (Or.inl hf) t s (Still.refl s)
  · intro g hg
    cases hn : s.host.names path with
    | none =>
      simp only [Host.setFault, hn]
      exact hok _ hn (opened_create hg path)
    | some i =>
      simp only [Host.setFault, hn]
      exact herr (Or.inr (by simp [hn])) _ _ (Still.setFault hg)

theorem wp_openOrCreate {path : String} {Q : Nat → Env σ → Prop}
    (herr : s.host.fault ≠ none → ∀ t s', Still s s' → E (onErr t) s')
    (hold : ∀ i s', s.host.names path = some i → OpenedOld i s s' → Q s.host.nextFd s')
    (hnew : ∀ s', s.host.names path = none → OpenedNew path s s' → Q s.host.nextFd s') :
    wp (Call.openOrCreate onErr path) Q E s := by
  apply wp_call
  · intro hf t
    exact herr hf t s (Still.refl s)
  · intro g hg
    cases hn : s.host.names path with
    | none =>
      simp only [Host.setFault, hn]
      exact hnew _ hn (opened_create hg path)
    | some i =>
      simp only [Host.setFault, hn]
      exact hold i _ hn (opened_attach hg i)

/-- Whatever the name went to is empty, and so is the file it goes to if it went to none. -/
theorem wp_openTruncate {path : String} {Q : Nat → Env σ → Prop}
    (herr : s.host.fault ≠ none → ∀ t s', Still s s' → E (onErr t) s')
    (hok : ∀ i s', i = (s.host.names path).getD s.host.nextIno → OpenedEmpty i path s s' →
      Q s.host.nextFd s') :
    wp (Call.openTruncate onErr path) Q E s := by
  apply wp_call
  · intro hf t
    exact herr hf t s (Still.refl s)
  · intro g hg
    cases hn : s.host.names path with
    | none =>
      simp only [Host.setFault, hn]
      exact hok _ _ (by rw [hn]; rfl) (opened_create hg path).openedEmpty
    | some i =>
      simp only [Host.setFault, hn]
      exact hok i _ (by rw [hn]; rfl) (opened_truncate hg hn)

theorem wp_fileLen {fd : Nat} {Q : Nat → Env σ → Prop}
    (herr : s.host.fault ≠ none → ∀ t s', Still s s' → E (onErr t) s')
    (hok : ∀ s', Still s s' → Q (s.host.data fd).length s') :
    wp (Call.fileLen onErr fd) Q E s := by
  apply wp_call
  · intro hf t
    exact herr hf t s (Still.refl s)
  · intro g hg
    exact hok _ (Still.setFault hg)

theorem wp_position {fd : Nat} {Q : Nat → Env σ → Prop}
    (herr : s.host.fault ≠ none → ∀ t s', Still s s' → E (onErr t) s')
    (hok : ∀ s', Still s s' → Q (s.host.pos fd) s') :
    wp (Call.position onErr fd) Q E s := by
  apply wp_call
  · intro hf t
    exact herr hf t s (Still.refl s)
  · intro g hg
    exact hok _ (Still.setFault hg)

theorem wp_probe {Q : Unit → Env σ → Prop}
    (herr : s.host.fault ≠ none → ∀ t s', Still s s' → E (onErr t) s')
    (hok : ∀ s', Still s s' → Q () s') :
    wp (Call.probe onErr) Q E s := by
  apply wp_call
  · intro hf t
    exact herr hf t s (Still.refl s)
  · intro g hg
    exact hok _ (Still.setFault hg)

theorem wp_seek {fd n : Nat} {Q : Unit → Env σ → Prop}
    (herr : s.host.fault ≠ none ∨ maxLen < n → ∀ t s', Still s s' → E (onErr t) s')
    (hok : ∀ s', n ≤ maxLen → Moves fd s s' → s'.host.pos fd = n → Q () s') :
    wp (Call.seek onErr fd n) Q E s := by
  apply wp_call
  · intro hf t
    exact herr (Or.inl hf) t s (Still.refl s)
  · intro g hg
    by_cases hn : n ≤ maxLen
    · simp only [hn, if_true]
      exact hok _ hn (moves_setPos hg n) (Host.setPos_pos ..)
    · simp only [hn, if_false]
      exact herr (Or.inr (by omega)) _ _ (Still.setFault hg)

theorem wp_readExact {fd n : Nat} {Q : Bytes → Env σ → Prop}
    (herr : s.host.fault ≠ none ∨ (s.host.data fd).length < s.host.pos fd + n →
      ∀ t s', Still s s' → E (onErr t) s')
    (hok : ∀ s', s.host.pos fd + n ≤ (s.host.data fd).length → Moves fd s s' →
      s'.host.pos fd = s.host.pos fd + n → Q (slice (s.host.data fd) (s.host.pos fd) n) s') :
    wp (Call.readExact onErr fd n) Q E s := by
  apply wp_call
  · intro hf t
    exact herr (Or.inl hf) t s (Still.refl s)
  · intro g hg
    by_cases hn : s.host.pos fd + n ≤ (s.host.data fd).length
    · have hn' : (s.host.setFault g).pos fd + n ≤ ((s.host.setFault g).data fd).length := hn
      simp only [hn', if_true]
      exact hok _ hn (moves_setPos hg _) (Host.setPos_pos ..)
    · have hn' : ¬(s.host.setFault g).pos fd + n ≤ ((s.host.setFault g).data fd).length := hn
      simp only [hn', if_false]
      exact herr (Or.inr (by omega)) _ _ (Still.setFault hg)

theorem wp_readToEnd {fd limit : Nat} {Q : Bytes → Env σ → Prop}
    (herr : s.host.fault ≠ none → ∀ t s', Still s s' → E (onErr t) s')
    (hok : ∀ s', Moves fd s s' → Q (slice (s.host.data fd) (s.host.pos fd) limit) s') :
    wp (Call.readToEnd onErr fd limit) Q E s := by
  apply wp_call
  · intro hf t
    exact herr hf t s (Still.refl s)
  · intro g hg
    exact hok _ (moves_setPos hg _)

/-- A failing write leaves a prefix of its bytes, as long as the fault lets through. -/
theorem wp_writeAll {fd : Nat} {b : Bytes} {Q : Unit → Env σ → Prop}
    (hpos : s.host.pos fd ≤ (s.host.data fd).length)
    (herr : s.host.fault ≠ none ∨ maxLen < s.host.pos fd + b.length →
      ∀ t s', Touches fd s s' →
        (∃ k ≤ torn s.host.fault, s'.host.data fd =
          patch (s.host.data fd) (s.host.pos fd) (b.take k) ∧
          s.host.pos fd + (b.take k).length ≤ maxLen) →
        s'.host.writes = s.host.writes → E (onErr t) s')
    (hok : ∀ s', s.host.pos fd + b.length ≤ maxLen → Touches fd s s' →
      s'.host.data fd = patch (s.host.data fd) (s.host.pos fd) b →
      s'.host.pos fd = s.host.pos fd + b.length →
      (b ≠ [] → s'.host.durable (s.host.ino fd) =
        min (s.host.durable (s.host.ino fd)) (s.host.pos fd)) →
      s'.host.writes = s.host.writes + 1 → Q () s') :
    wp (Call.writeAll onErr fd b) Q E s := by
  have hnil : ∃ k ≤ torn s.host.fault,
      s.host.data fd = patch (s.host.data fd) (s.host.pos fd) (b.take k) ∧
      s.host.pos fd + (b.take k).length ≤ maxLen :=
    ⟨0, by omega, by simp [patch_nil hpos], by simpa using hpos.trans (Host.data_fits _ _)⟩
  apply wp_call
  · intro hf t
    by_cases hk : s.host.pos fd + (b.take (torn s.host.fault)).length ≤ maxLen
    · exact herr (Or.inl hf) t _ (touches_write (GoesOn.refl _) _)
        ⟨_, le_refl _, Host.write_data hk hpos, hk⟩ (Host.write_writes _)
    · have hdata : (s.host.write fd (b.take (torn s.host.fault))).data fd = s.host.data fd :=
        Host.write_data_of_large (by omega)
      refine herr (Or.inl hf) t _ (touches_write (GoesOn.refl _) _) ?_ (Host.write_writes _)
      show ∃ k ≤ _, (s.host.write fd _).data fd = _ ∧ _
      rw [hdata]
      exact hnil
  · intro g hg
    by_cases hn : s.host.pos fd + b.length ≤ maxLen
    · have hn' : (s.host.setFault g).pos fd + b.length ≤ maxLen := hn
      simp only [hn', if_true]
      exact hok _ hn (touches_count (touches_write hg b)) (Host.write_data hn hpos)
        (Host.write_pos b) Host.write_durable (congrArg (· + 1) (Host.write_writes b))
    · have hn' : ¬(s.host.setFault g).pos fd + b.length ≤ maxLen := hn
      simp only [hn', if_false]
      exact herr (Or.inr (by omega)) _ _ ((Still.setFault hg).moves fd).toTouches hnil rfl

/-- A write at the end of a file. -/
theorem wp_append {fd : Nat} {b : Bytes} {Q : Unit → Env σ → Prop}
    (hend : s.host.pos fd = (s.host.data fd).length)
    (herr : ∀ t s', E (onErr t) s')
    (hok : ∀ s', Touches fd s s' → s'.host.data fd = s.host.data fd ++ b →
      s'.host.pos fd = (s'.host.data fd).length → Q () s') :
    wp (Call.writeAll onErr fd b) Q E s := by
  apply wp_writeAll (le_of_eq hend)
  · intro _ t s' _ _ _
    exact herr t s'
  intro s' _ a hd hp _ _
  rw [hend, patch_at_end] at hd
  refine hok s' a hd ?_
  rw [hp, hd, List.length_append, hend]

/-- A write wherever the cursor is. -/
theorem wp_writeAll_touches {fd : Nat} {b : Bytes} {Q : Unit → Env σ → Prop}
    (herr : ∀ t s', Touches fd s s' → E (onErr t) s') (hok : ∀ s', Touches fd s s' → Q () s') :
    wp (Call.writeAll onErr fd b) Q E s := by
  apply wp_call
  · intro _ t
    exact herr t _ (touches_write (GoesOn.refl _) _)
  · intro g hg
    by_cases hn : (s.host.setFault g).pos fd + b.length ≤ maxLen
    · simp only [hn, if_true]
      exact hok _ (touches_count (touches_write hg b))
    · simp only [hn, if_false]
      exact herr _ _ ((Still.setFault hg).touches fd)

theorem wp_setLen {fd n : Nat} {Q : Unit → Env σ → Prop}
    (herr : s.host.fault ≠ none ∨ maxLen < n → ∀ t s', Still s s' → E (onErr t) s')
    (hok : ∀ s', n ≤ maxLen → Touches fd s s' → s'.host.data fd = resize (s.host.data fd) n →
      s'.host.pos fd = s.host.pos fd →
      s'.host.durable (s.host.ino fd) = min (s.host.durable (s.host.ino fd)) n →
      s'.host.writes = s.host.writes + 1 → Q () s') :
    wp (Call.setLen onErr fd n) Q E s := by
  apply wp_call
  · intro hf t
    exact herr (Or.inl hf) t s (Still.refl s)
  · intro g hg
    by_cases hn : n ≤ maxLen
    · simp only [hn, if_true]
      exact hok _ hn (touches_count (touches_truncate hg n)) (Host.truncate_data hn) rfl
        (Function.update_self ..) rfl
    · simp only [hn, if_false]
      exact herr (Or.inr (by omega)) _ _ (Still.setFault hg)

theorem wp_sync {fd : Nat} {Q : Unit → Env σ → Prop}
    (herr : s.host.fault ≠ none → ∀ t s', Still s s' → E (onErr t) s')
    (hok : ∀ s', Touches fd s s' → s'.host.data fd = s.host.data fd →
      s'.host.pos fd = s.host.pos fd →
      s'.host.durable (s.host.ino fd) = (s.host.data fd).length →
      s'.host.writes = s.host.writes → Q () s') :
    wp (Call.sync onErr fd) Q E s := by
  apply wp_call
  · intro hf t
    exact herr hf t s (Still.refl s)
  · intro g hg
    exact hok _ (touches_sync hg) rfl rfl (Function.update_self ..) rfl

theorem wp_remove {path : String} {Q : Unit → Env σ → Prop}
    (herr : s.host.fault ≠ none ∨ s.host.names path = none → ∀ t s', Still s s' → E (onErr t) s')
    (hok : ∀ s', s'.host.names = Function.update s.host.names path none →
      Still { s with host := { s.host with names := s'.host.names } } s' → Q () s') :
    wp (Call.remove onErr path) Q E s := by
  apply wp_call
  · intro hf t
    exact herr (Or.inl hf) t s (Still.refl s)
  · intro g hg
    cases hn : s.host.names path with
    | none =>
      simp only [Host.setFault, hn]
      exact herr (Or.inr hn) _ _ (Still.setFault hg)
    | some i =>
      simp only [Host.setFault, hn]
      exact hok _ rfl ⟨rfl, rfl, rfl, rfl, rfl, rfl, rfl, rfl, hg⟩

/-- A rename touches names only. -/
theorem wp_rename {old new : String} {Q : Unit → Env σ → Prop}
    (herr : s.host.fault ≠ none ∨ s.host.names old = none → ∀ t s', Still s s' → E (onErr t) s')
    (hok : ∀ i s', s.host.names old = some i →
      s'.host.names = Function.update (Function.update s.host.names old none) new (some i) →
      Still { s with host := { s.host with names := s'.host.names } } s' → Q () s') :
    wp (Call.rename onErr old new) Q E s := by
  apply wp_call
  · intro hf t
    exact herr (Or.inl hf) t s (Still.refl s)
  · intro g hg
    cases hn : s.host.names old with
    | none =>
      simp only [Host.setFault, hn]
      exact herr (Or.inr hn) _ _ (Still.setFault hg)
    | some i =>
      simp only [Host.setFault, hn]
      exact hok i _ hn rfl ⟨rfl, rfl, rfl, rfl, rfl, rfl, rfl, rfl, hg⟩

theorem wp_draw {n : Nat} {Q : List.Vector UInt8 n → Env σ → Prop}
    (hok : ∀ b s', Still s s' → Q b s') : wp (Call.draw n) Q E s :=
  hok _ _ ⟨rfl, rfl, rfl, rfl, rfl, rfl, rfl, rfl, GoesOn.refl _⟩

theorem wp_now {Q : Nat → Env σ → Prop} (hok : Q s.host.clock s) : wp Call.now Q E s := hok

end Rules

end Lib
