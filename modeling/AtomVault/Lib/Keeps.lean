import AtomVault.Lib.Calls
import Mathlib.Order.Defs.Unbundled

/-!
# What every program keeps

`Keeps R x` says that `R` relates the state before `x` to the one after it, whether `x` returned
or failed. A relation that every call keeps is kept by every program.
-/

namespace Lib

variable {σ ε α β κ : Type}

def Keeps (R : Env σ → Env σ → Prop) (x : Prog σ ε α) : Prop :=
  ∀ s, wp x (fun _ s' => R s s') (fun _ s' => R s s') s

section Programs

variable {R : Env σ → Env σ → Prop} [IsPreorder (Env σ) R]

theorem Keeps.pure (a : α) : Keeps R (pure a : Prog σ ε α) := refl_of R

theorem Keeps.throw (e : ε) : Keeps R (throw e : Prog σ ε α) := refl_of R

theorem Keeps.bind {x : Prog σ ε α} {f : α → Prog σ ε β} (hx : Keeps R x)
    (hf : ∀ a, Keeps R (f a)) : Keeps R (x >>= f) := by
  intro s
  rw [wp_bind]
  refine wp_mono (hx s) (fun a s' h => ?_) fun _ _ h => h
  exact wp_mono (hf a s') (fun _ _ h' => trans_of R h h') fun _ _ h' => trans_of R h h'

theorem Keeps.tryCatch {x : Prog σ ε α} {f : ε → Prog σ ε α} (hx : Keeps R x)
    (hf : ∀ e, Keeps R (f e)) : Keeps R (tryCatch x f) := by
  intro s
  rw [wp_tryCatch]
  refine wp_mono (hx s) (fun _ _ h => h) fun e s' h => ?_
  exact wp_mono (hf e s') (fun _ _ h' => trans_of R h h') fun _ _ h' => trans_of R h h'

theorem Keeps.ofExcept {ε' : Type} (f : ε' → ε) (x : Except ε' α) :
    Keeps R (ofExcept f x : Prog σ ε α) := by
  cases x with
  | ok a => exact Keeps.pure a
  | error e => exact Keeps.throw (f e)

theorem Keeps.ofOption (e : ε) (x : Option α) : Keeps R (ofOption e x : Prog σ ε α) := by
  cases x with
  | some a => exact Keeps.pure a
  | none => exact Keeps.throw e

end Programs

/-! ## Descriptors and files are only added -/

/-- Descriptors stay where they are and names go to files that there are, and `k` of the variables
is the same. -/
structure Grows (k : σ → κ) (s s' : Env σ) : Prop where
  fds : s.host.nextFd ≤ s'.host.nextFd
  inos : s.host.nextIno ≤ s'.host.nextIno
  ino : ∀ fd < s.host.nextFd, s'.host.ino fd = s.host.ino fd
  fresh : (∀ path i, s.host.names path = some i → i < s.host.nextIno) →
    ∀ path i, s'.host.names path = some i → i < s'.host.nextIno
  vars : k s'.vars = k s.vars

instance (k : σ → κ) : IsPreorder (Env σ) (Grows k) where
  refl _ := ⟨le_refl _, le_refl _, fun _ _ => rfl, id, rfl⟩
  trans _ _ _ a b := ⟨a.fds.trans b.fds, a.inos.trans b.inos,
    fun fd h => (b.ino fd (h.trans_le a.fds)).trans (a.ino fd h), fun h => b.fresh (a.fresh h),
    b.vars.trans a.vars⟩

section Grows

variable {k : σ → κ} {s s' : Env σ} {fd : Nat} {path : String}

theorem Grows.of_touches (a : Touches fd s s') : Grows k s s' where
  fds := ge_of_eq a.nextFd
  inos := ge_of_eq a.nextIno
  ino fd' _ := a.ino fd'
  fresh h := by
    rw [a.names, a.nextIno]
    exact h
  vars := congrArg k a.vars

theorem Grows.of_still (a : Still s s') : Grows k s s' := .of_touches (a.touches 0)

theorem Grows.of_old {i : Nat} (a : OpenedOld i s s') : Grows k s s' where
  fds := by rw [a.nextFd]; omega
  inos := ge_of_eq a.nextIno
  ino _ hlt := a.ino_of_ne (ne_of_lt hlt)
  fresh h := by
    rw [a.names, a.nextIno]
    exact h
  vars := congrArg k a.vars

theorem Grows.of_new (a : OpenedNew path s s') : Grows k s s' where
  fds := by rw [a.nextFd]; omega
  inos := by rw [a.nextIno]; omega
  ino _ hlt := a.ino_of_ne (ne_of_lt hlt)
  fresh h := by
    intro p i hp
    rw [a.names] at hp
    rw [a.nextIno]
    exact bounded_update h path p i hp
  vars := congrArg k a.vars

theorem Grows.of_names {names : String → Option Nat}
    (hn : ∀ p i, names p = some i → ∃ p', s.host.names p' = some i)
    (a : Still { s with host := { s.host with names := names } } s') : Grows k s s' where
  fds := ge_of_eq a.nextFd
  inos := ge_of_eq a.nextIno
  ino fd' _ := a.ino fd'
  fresh h := by
    intro p i hp
    rw [a.names] at hp
    rw [a.nextIno]
    obtain ⟨p', hp'⟩ := hn p i hp
    exact h p' i hp'
  vars := congrArg k a.vars

end Grows

/-! ## The calls -/

section Calls

variable {k : σ → κ} {onErr : String → ε} {fd n : Nat} {path : String}

theorem keeps_openFile : Keeps (Grows k) (Call.openFile onErr path) := by
  intro s
  apply wp_openFile
  · exact fun _ _ _ a => .of_still a
  · exact fun _ _ _ a => .of_old a

theorem keeps_createNew : Keeps (Grows k) (Call.createNew onErr path) := by
  intro s
  apply wp_createNew
  · exact fun _ _ _ a => .of_still a
  · exact fun _ _ a => .of_new a

theorem keeps_fileLen : Keeps (Grows k) (Call.fileLen onErr fd) := by
  intro s
  apply wp_fileLen
  · exact fun _ _ _ a => .of_still a
  · exact fun _ a => .of_still a

theorem keeps_seek : Keeps (Grows k) (Call.seek onErr fd n) := by
  intro s
  apply wp_seek
  · exact fun _ _ _ a => .of_still a
  · exact fun _ _ a _ => .of_touches a.toTouches

theorem keeps_position : Keeps (Grows k) (Call.position onErr fd) := by
  intro s
  apply wp_position
  · exact fun _ _ _ a => .of_still a
  · exact fun _ a => .of_still a

theorem keeps_readExact : Keeps (Grows k) (Call.readExact onErr fd n) := by
  intro s
  apply wp_readExact
  · exact fun _ _ _ a => .of_still a
  · exact fun _ _ a _ => .of_touches a.toTouches

theorem keeps_readToEnd : Keeps (Grows k) (Call.readToEnd onErr fd n) := by
  intro s
  apply wp_readToEnd
  · exact fun _ _ _ a => .of_still a
  · exact fun _ a => .of_touches a.toTouches

theorem keeps_writeAll {b : Bytes} : Keeps (Grows k) (Call.writeAll onErr fd b) := by
  intro s
  apply wp_writeAll_touches
  · exact fun _ _ a => .of_touches a
  · exact fun _ a => .of_touches a

theorem keeps_setLen : Keeps (Grows k) (Call.setLen onErr fd n) := by
  intro s
  apply wp_setLen
  · exact fun _ _ _ a => .of_still a
  · exact fun _ _ a _ _ _ _ => .of_touches a

theorem keeps_sync : Keeps (Grows k) (Call.sync onErr fd) := by
  intro s
  apply wp_sync
  · exact fun _ _ _ a => .of_still a
  · exact fun _ a _ _ _ _ => .of_touches a

theorem keeps_probe : Keeps (Grows k) (Call.probe onErr) := by
  intro s
  apply wp_probe
  · exact fun _ _ _ a => .of_still a
  · exact fun _ a => .of_still a

theorem keeps_draw : Keeps (Grows k) (Call.draw n : Prog σ ε _) := by
  intro s
  apply wp_draw
  exact fun _ _ a => .of_still a

theorem keeps_now : Keeps (Grows k) (Call.now : Prog σ ε Nat) :=
  fun s => wp_now (refl_of (Grows k) s)

theorem keeps_remove : Keeps (Grows k) (Call.remove onErr path) := by
  intro s
  apply wp_remove
  · exact fun _ _ _ a => .of_still a
  intro s' hnames a
  refine .of_names (fun p i hp => ?_) a
  rw [hnames] at hp
  exact ⟨p, of_update_none hp⟩

theorem keeps_rename {new : String} : Keeps (Grows k) (Call.rename onErr path new) := by
  intro s
  apply wp_rename
  · exact fun _ _ _ a => .of_still a
  intro i s' hi hnames a
  refine .of_names (fun p j hp => ?_) a
  rw [hnames] at hp
  by_cases hnew : p = new
  · rw [hnew, Function.update_self] at hp
    exact ⟨path, by rw [hi]; exact hp⟩
  rw [Function.update_of_ne hnew] at hp
  exact ⟨p, of_update_none hp⟩

end Calls

/-! ## One file is left aside -/

/-- Inode `keep` has its bytes and its names and no others, and the variables are the same. -/
structure Aside (keep : Nat) (s s' : Env σ) : Prop extends Grows id s s' where
  bytes : (s'.host.files keep).bytes = (s.host.files keep).bytes
  names : ∀ path, s'.host.names path = some keep ↔ s.host.names path = some keep
  fault : GoesOn s.host.fault s'.host.fault

instance (keep : Nat) : IsPreorder (Env σ) (Aside keep) where
  refl s := ⟨refl_of (Grows id) s, rfl, fun _ => Iff.rfl, .refl _⟩
  trans _ _ _ a b := ⟨trans_of (Grows id) a.toGrows b.toGrows, b.bytes.trans a.bytes,
    fun path => (b.names path).trans (a.names path), a.fault.trans b.fault⟩

/-- The same, if `out` is open on another file. -/
def AsideFrom (keep out : Nat) (s s' : Env σ) : Prop :=
  out < s.host.nextFd → s.host.ino out ≠ keep → Aside keep s s'

instance (keep out : Nat) : IsPreorder (Env σ) (AsideFrom keep out) where
  refl s _ _ := refl_of (Aside keep) s
  trans s s' s'' a b hlt hne := by
    have a := a hlt hne
    refine trans_of (Aside keep) a (b (hlt.trans_le a.fds) ?_)
    rwa [a.ino out hlt]

section Aside

variable {keep out fd : Nat} {s s' : Env σ} {onErr : String → ε} {path : String}

theorem Aside.of_moves (a : Moves fd s s') : Aside keep s s' :=
  ⟨.of_touches a.toTouches, by rw [a.allFiles], fun path => by rw [a.names], a.fault⟩

theorem Aside.of_still (a : Still s s') : Aside keep s s' := .of_moves (a.moves 0)

theorem Aside.of_touches (a : Touches fd s s') (hne : s.host.ino fd ≠ keep) : Aside keep s s' :=
  ⟨.of_touches a, by rw [a.files keep (Ne.symm hne)], fun path => by rw [a.names], a.fault⟩

/-- A sync writes nothing. -/
theorem Aside.of_same (a : Touches fd s s') (hdata : s'.host.data fd = s.host.data fd) :
    Aside keep s s' := by
  refine ⟨.of_touches a, ?_, fun path => by rw [a.names], a.fault⟩
  by_cases hkeep : keep = s.host.ino fd
  · have hino := a.ino fd
    unfold Host.data at hdata
    rw [hkeep, ← hdata, hino]
  · rw [a.files keep hkeep]

/-- A file that was emptied or made new is another one. -/
theorem Aside.of_empty {i : Nat} (a : OpenedEmpty i path s s') (g : Grows id s s')
    (hi : i ≠ keep) (hpath : s.host.names path ≠ some keep) : Aside keep s s' := by
  refine ⟨g, by rw [a.files keep (Ne.symm hi)], fun path' => ?_, a.fault⟩
  rw [a.names]
  by_cases hp : path' = path
  · rw [hp, Function.update_self]
    exact iff_of_false (fun h => hi (Option.some.inj h)) hpath
  · rw [Function.update_of_ne hp]

theorem wp_openTruncate_grows {κ : Type} {k : σ → κ} : wp (Call.openTruncate onErr path)
    (fun out s' => out < s'.host.nextFd ∧ Grows k s s') (fun _ s' => Grows k s s') s := by
  apply wp_call
  · exact fun _ _ => refl_of (Grows k) s
  · intro g hg
    cases hn : s.host.names path with
    | none =>
      simp only [Host.setFault, hn]
      exact ⟨Nat.lt_succ_self _, .of_new (opened_create hg path)⟩
    | some i =>
      simp only [Host.setFault, hn]
      have a : Grows k s _ := .of_old (opened_attach hg i)
      exact ⟨Nat.lt_succ_self _, a.fds, a.inos, a.ino, a.fresh, rfl⟩

theorem keeps_writeAside {b : Bytes} :
    Keeps (AsideFrom keep out) (Call.writeAll onErr out b : Prog σ ε Unit) := by
  intro s
  apply wp_writeAll_touches
  · exact fun _ _ a _ hne => .of_touches a hne
  · exact fun _ a _ hne => .of_touches a hne

theorem keeps_syncAside : Keeps (Aside keep) (Call.sync onErr fd : Prog σ ε Unit) := by
  intro s
  apply wp_sync
  · exact fun _ _ _ a => .of_still a
  · exact fun _ a hdata _ _ _ => .of_same a hdata

end Aside

end Lib
