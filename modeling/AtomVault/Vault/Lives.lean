import AtomVault.Vault.FailedImport
import AtomVault.Vault.Simulation

/-!
# Failed commands in a session

From any session that a vault can be in, a failed command either leaves it as it was or not,
and which of the two is known before the command starts.
-/

open Lib

namespace AtomVault

variable {cr : Crates} {password : String} {H : Bytes}

/-! ## Any command -/

theorem Op.stops (hi : cr.Ideal) {op : Op} {s : Env Session} (hs : Sound H s) (hread : Readable cr s) :
    wp (op.run cr) (fun _ _ => True) (fun _ s' => AsBefore cr H s s' ↔ op.Early s) s := by
  by_cases hrefused : op.Refused s
  · refine wp_mono hrefused.stops (fun _ _ h => h.elim) fun _ s' a => ?_
    have hsame : Harmless s s' := .of_moves (a.moves s.vars.fd) hs.fits
    exact iff_of_true (hsame.asBefore hs hread) (Or.inl hrefused)
  have hearly : op.Early s ↔ op.StopsEarly s := or_iff_right hrefused
  rw [hearly]
  cases op with
  | importBytes data name =>
    unfold Op.run
    rw [wp_bind]
    exact importBytes_stops hi hs hread hrefused
  | importFile env fromDisk name =>
    unfold Op.run
    rw [wp_bind]
    exact importFile_stops hi hs hread hrefused
  | rm name =>
    unfold Op.run
    rw [wp_bind]
    exact rm_stops hi hs hread hrefused
  | rename oldName newName =>
    unfold Op.run
    refine wp_mono (rename_stops hi hs hrefused) (fun _ _ _ => trivial) fun _ s' hlate => ?_
    exact iff_of_false hlate id
  | vacuum =>
    unfold Op.run
    rw [wp_bind]
    exact vacuum_stops hi hs hread hrefused

/-! ## Any session -/

/-- The sessions of a vault created with the header `H`. Commands that fail do so early. A vault
is loaded from any copy of a file that describes one of these sessions, and between the commands
the rest of the system does what it likes with anything but the vault. -/
inductive Lives (cr : Crates) (password : String) (H : Bytes) : Env Session → Prop
  | created {s s₁ s₂ : Env Session} {path : String} {settings : KdfSettings} {i : Nat}
      (fresh : Fresh s.host) (create : handleCreate cr path password settings s = .ok () s₁)
      (file : s₁.host.names path = some i) (header : headerOf (s₁.host.files i).bytes = H)
      (enter : handleEnter cr path password s₁ = .ok () s₂) : Lives cr password H s₂
  | loaded {s₀ s s' : Env Session} {path : String} {i : Nat} (lives : Lives cr password H s₀)
      (stored : Stored cr s₀) (fresh : Fresh s.host) (file : s.host.names path = some i)
      (copy : (s.host.files i).bytes = s₀.host.data s₀.vars.fd)
      (enter : handleEnter cr path password s = .ok () s') : Lives cr password H s'
  | outside {s s' : Env Session} (lives : Lives cr password H s) (vars : s'.vars = s.vars)
      (name : s'.host.names s.vars.vaultPath = s.host.names s.vars.vaultPath)
      (ino : s'.host.ino s.vars.fd = s.host.ino s.vars.fd)
      (data : s'.host.data s.vars.fd = s.host.data s.vars.fd) (fresh : Fresh s'.host)
      (fd_lt : s.vars.fd < s'.host.nextFd) : Lives cr password H s'
  | done {s s' : Env Session} {saved : Bool} {op : Op} (lives : Lives cr password H s)
      (spares : op.Spares s) (run : op.run cr s = .ok saved s') : Lives cr password H s'
  | failed {s s' : Env Session} {op : Op} {e : VaultError} (lives : Lives cr password H s)
      (early : op.Early s) (run : op.run cr s = .error e s') : Lives cr password H s'

/-- What every session keeps, with the map it shows. -/
structure Alive (cr : Crates) (password : String) (H : Bytes) (s : Env Session) : Prop where
  kept : Kept cr password H false s
  shows : ∃ M, Shows cr s.vars.metadata.fileTable s.vars.unlockedVault (s.host.data s.vars.fd) M

theorem Alive.readable {s : Env Session} (h : Alive cr password H s) : Readable cr s := by
  obtain ⟨M, hshows⟩ := h.shows
  intro f hf
  obtain ⟨b, hb, -⟩ := hshows.live f hf
  exact ⟨b, hb⟩

theorem Kept.saved_false {s : Env Session} {b : Bool} (h : Kept cr password H b s) :
    Kept cr password H false s := ⟨h.sound, h.unlocks, by simp⟩

theorem Alive.of_enter (hi : cr.Ideal) {s₀ s s' : Env Session} {path : String} {i : Nat}
    (h : Alive cr password H s₀) (hstored : Stored cr s₀) (hfresh : Fresh s.host)
    (hfile : s.host.names path = some i)
    (hcopy : (s.host.files i).bytes = s₀.host.data s₀.vars.fd)
    (henter : handleEnter cr path password s = .ok () s') : Alive cr password H s' := by
  have hkept : Kept cr password H true s₀ := ⟨h.kept.sound, h.kept.unlocks, fun _ => hstored⟩
  have hdisk := hkept.onDisk
  rw [← hcopy] at hdisk
  obtain ⟨hkept', hentered, -⟩ := Kept.of_enter hi hfresh hfile hdisk henter
  refine ⟨hkept'.saved_false, ?_⟩
  rw [hentered.data, hentered.vars, hcopy]
  exact h.shows

theorem Kept.outside {s s' : Env Session} (h : Kept cr password H false s) (hvars : s'.vars = s.vars)
    (hname : s'.host.names s.vars.vaultPath = s.host.names s.vars.vaultPath)
    (hino : s'.host.ino s.vars.fd = s.host.ino s.vars.fd)
    (hdata : s'.host.data s.vars.fd = s.host.data s.vars.fd) (hfresh : Fresh s'.host)
    (hlt : s.vars.fd < s'.host.nextFd) : Kept cr password H false s' := by
  have hs := h.sound
  refine ⟨⟨?_, hfresh, ?_, ?_, ?_, ?_, ?_⟩, ?_, by simp⟩
  · rw [hvars, hname, hino]; exact hs.named
  · rw [hvars]; exact hlt
  · rw [hvars]; exact hs.layout
  · rw [hvars, hdata]; exact hs.header
  · rw [hvars]; exact hs.header_le
  · rw [hvars, hdata]; exact hs.fits
  · rw [hvars, hdata]; exact h.unlocks

theorem Alive.outside {s s' : Env Session} (h : Alive cr password H s) (hvars : s'.vars = s.vars)
    (hname : s'.host.names s.vars.vaultPath = s.host.names s.vars.vaultPath)
    (hino : s'.host.ino s.vars.fd = s.host.ino s.vars.fd)
    (hdata : s'.host.data s.vars.fd = s.host.data s.vars.fd) (hfresh : Fresh s'.host)
    (hlt : s.vars.fd < s'.host.nextFd) : Alive cr password H s' := by
  refine ⟨h.kept.outside hvars hname hino hdata hfresh hlt, ?_⟩
  rw [hvars, hdata]
  exact h.shows

theorem Alive.done (hi : cr.Ideal) {s s' : Env Session} {op : Op} {saved : Bool}
    (h : Alive cr password H s) (hspares : op.Spares s) (hrun : op.run cr s = .ok saved s') :
    Alive cr password H s' := by
  obtain ⟨M, hshows⟩ := h.shows
  obtain ⟨hkept, -⟩ := wp_of_ok (h.kept.run hi hspares) hrun
  have hshows' := wp_of_ok (hshows.run hi h.kept.sound hspares) hrun
  exact ⟨hkept.saved_false, _, hshows'⟩

theorem Alive.of_asBefore {s s' : Env Session} (h : Alive cr password H s)
    (hbefore : AsBefore cr H s s') : Alive cr password H s' := by
  obtain ⟨M, hshows⟩ := h.shows
  refine ⟨h.kept.step hbefore.describes (by rw [hbefore.session]) (by simp), M, ?_⟩
  rw [hbefore.session]
  apply hshows.congr
  intro f hf
  obtain ⟨b, hb, hb'⟩ := hbefore.decrypts f hf
  have hf' : f ∈ s'.vars.metadata.fileTable := by rw [hbefore.session]; exact hf
  rw [h.kept.sound.decrypts_iff hf] at hb
  rw [hbefore.describes.decrypts_iff hf', hbefore.session] at hb'
  rw [hb, hb']

theorem Lives.alive (hi : cr.Ideal) {s : Env Session} (h : Lives cr password H s) :
    Alive cr password H s := by
  induction h with
  | created fresh create file header enter =>
    obtain ⟨hkept, htable, -⟩ := Kept.of_create hi fresh create file enter
    rw [header] at hkept
    refine ⟨hkept.saved_false, fun _ => none, ?_⟩
    rw [htable]
    exact ⟨by simp, by simp⟩
  | loaded _ stored fresh file copy enter ih => exact ih.of_enter hi stored fresh file copy enter
  | outside _ vars name ino data fresh fd_lt ih => exact ih.outside vars name ino data fresh fd_lt
  | done _ spares run ih => exact ih.done hi spares run
  | failed _ early run ih =>
    have hiff := wp_of_error (Op.stops hi ih.kept.sound ih.readable) run
    exact ih.of_asBefore (hiff.mpr early)

/-- **Failed commands.** In every session a failed command leaves everything as it was exactly when
it stopped before its first change. -/
theorem failed_ops_undone (hi : cr.Ideal) {s s' : Env Session} {op : Op} {e : VaultError}
    (h : Lives cr password H s) (hrun : op.run cr s = .error e s') :
    AsBefore cr H s s' ↔ op.Early s := by
  have ha := h.alive hi
  have hiff := wp_of_error (Op.stops hi ha.kept.sound ha.readable) hrun
  exact hiff

/-- A session of the vault that was created first, before anything else happened to it. -/
theorem lives_created : ∃ H s, (∀ g, Lives standin "pw" H (s.setFault g)) ∧
    ¬Op.vacuum.Refused s := by
  obtain ⟨s₁, s₂, -, hcreate, hcreated, henter, -, -⟩ := importOwn_shreds
  have hfile := (createdOwn_iff.mp hcreated).1
  have hlives : Lives standin "pw" _ s₂ := .created fresh_start hcreate hfile rfl henter
  have hspec : wp (handleEnter standin ownPath "pw")
      (fun _ s' => s'.host.names = s₁.host.names ∧ s'.vars.vaultPath = ownPath)
      (fun _ _ => True) s₁ := by
    apply wp_handleEnter
    · exact fun _ _ _ => trivial
    · intro i m v off s' _ _ h
      exact ⟨h.names, by rw [h.vars]⟩
  obtain ⟨hnames, hpath⟩ := wp_of_ok hspec henter
  have hs := (hlives.alive standin_ideal).kept.sound
  refine ⟨_, s₂, fun g => hlives.outside rfl rfl rfl rfl hs.fresh hs.fd_lt, ?_⟩
  have hfree : s₂.host.names (tmpPath s₂.vars) = none := by
    rw [hnames, tmpPath, hpath, (created_of_ok standin_ideal hcreate).names,
      Function.update_of_ne (by decide)]
    rfl
  exact not_not.mpr hfree

theorem wp_shellVacuum_torn {s : Env Session} {k : Nat} {t : String}
    (hfault : s.host.fault = some ⟨1, k, t⟩) (hfree : s.host.names (tmpPath s.vars) = none) :
    wp (shellVacuum cr) (fun _ _ => False)
      (fun _ s' => s'.vars = s.vars ∧ s'.host.names (tmpPath s.vars) ≠ none) s := by
  unfold shellVacuum handleVacuum copyHeader
  rw [wp_bind, wp_bind, wp_session]
  dsimp only
  rw [wp_bind]
  apply wp_counted counted_createNew
  apply wp_createNew
  · intro _ t s' _ hwhy
    rcases hwhy with hlast | htaken
    · rw [hfault] at hlast
      exact absurd (le_refl 1) hlast
    · exact absurd hfree htaken
  intro s1 _ o1 hspent1
  rw [wp_bind, wp_bind]
  apply wp_counted counted_writeAll
  apply wp_writeAll_touches
  · intro t s' a _
    refine ⟨a.vars.trans o1.vars, ?_⟩
    rw [a.names, o1.names, tmpPath, Function.update_self]
    exact Option.some_ne_none _
  · intro s' _ hspent2
    have hlasts := (hspent1.trans hspent2).lasts
    rw [hfault] at hlasts
    exact absurd hlasts (Nat.not_succ_le_self 1)

theorem lives_pair : ∃ (H : Bytes) (s : Env Session) (f : FileIndex),
    (∀ g, Lives standin "pw" H (s.setFault g)) ∧ ¬Op.vacuum.Refused s ∧
    f ∈ s.vars.metadata.fileTable ∧ f.vfsName = "a" ∧ f.chunks ≠ [] := by
  obtain ⟨s₁, s₂, s₃, s, hpair, hfacts⟩ := Pair.of_check pair_eval
  simp only [pairFacts, Bool.and_eq_true, decide_eq_true_eq, beq_iff_eq,
    Option.isNone_iff_eq_none] at hfacts
  obtain ⟨⟨⟨-, htable⟩, hfree⟩, -⟩ := hfacts
  have hfile : s₁.host.names ownPath = some start.host.nextIno := by
    rw [(created_of_ok standin_ideal hpair.create).names]
    exact Function.update_self ..
  have hcreated : Lives standin "pw" _ s₂ := .created fresh_start hpair.create hfile rfl hpair.enter
  have hfirst := hcreated.done (by trivial) hpair.first
  have hlives := hfirst.done (by trivial) hpair.second
  have hs := (hlives.alive standin_ideal).kept.sound
  obtain ⟨f, l, hf, hname, -⟩ := List.map_eq_cons_iff.mp htable
  rw [nameAndSizes, Prod.mk.injEq] at hname
  refine ⟨_, s, f, fun g => hlives.outside rfl rfl rfl rfl hs.fresh hs.fd_lt, not_not.mpr hfree,
    by rw [hf]; simp, hname.1, ?_⟩
  rintro hnone
  rw [hnone] at hname
  cases hname.2

theorem failed_ops_undone_pair : ∃ (H : Bytes) (s : Env Session) (f : FileIndex),
    (∀ g, Lives standin "pw" H (s.setFault g)) ∧
    f ∈ s.vars.metadata.fileTable ∧ f.vfsName = "a" ∧ f.chunks ≠ [] ∧
    (∃ g e s', Op.vacuum.run standin (s.setFault (some g)) = .error e s' ∧
      AsBefore standin H (s.setFault (some g)) s' ∧ ∃ b, Decrypts standin s' "a" b) ∧
    ∃ g e s', Op.vacuum.run standin (s.setFault (some g)) = .error e s' ∧
      ¬AsBefore standin H (s.setFault (some g)) s' := by
  obtain ⟨H, s, f, hlives, hallowed, hf, hname, hchunks⟩ := lives_pair
  refine ⟨H, s, f, hlives, hf, hname, hchunks, ?_, ?_⟩
  · have hrun : Op.vacuum.run standin (s.setFault (some ⟨0, 0, "No space left on device"⟩)) =
        .error _ _ := rfl
    have hearly : Op.vacuum.Early (s.setFault (some ⟨0, 0, "No space left on device"⟩)) :=
      Or.inr (Nat.not_succ_le_zero 0)
    have hbefore := (failed_ops_undone standin_ideal (hlives _) hrun).mpr hearly
    obtain ⟨b, -, hb⟩ := hbefore.decrypts f hf
    rw [hname] at hb
    exact ⟨_, _, _, hrun, hbefore, b, hb⟩
  · have hspec : wp (Op.vacuum.run standin) (fun _ _ => False) (fun _ _ => True)
        (s.setFault (some ⟨1, 0, "No space left on device"⟩)) := by
      unfold Op.run
      rw [wp_bind]
      exact wp_mono (wp_shellVacuum_torn rfl (not_not.mp hallowed)) (fun _ _ h => h.elim)
        fun _ _ _ => trivial
    obtain ⟨e, s', hrun, -⟩ := error_of_wp hspec
    refine ⟨_, e, s', hrun, fun hbefore => ?_⟩
    rcases (failed_ops_undone standin_ideal (hlives _) hrun).mp hbefore with hrefused | hlast
    · exact hallowed hrefused
    · exact hlast (le_refl 1)

/-- A vacuum that failed once fails ever after, whatever the reason was. -/
theorem failed_vacuum_stays : ∃ H s e s', Lives standin "pw" H s ∧
    Op.vacuum.run standin s = .error e s' ∧ ¬AsBefore standin H s s' ∧
    ∀ g, ∃ e' s'', Op.vacuum.run standin (s'.setFault g) = .error e' s'' := by
  obtain ⟨H, s, hlives, hallowed⟩ := lives_created
  have hspec : wp (Op.vacuum.run standin) (fun _ _ => False) (fun _ s' =>
      s'.vars = s.vars ∧ s'.host.names (tmpPath s.vars) ≠ none)
      (s.setFault (some ⟨1, 0, "No space left on device"⟩)) := by
    unfold Op.run
    rw [wp_bind]
    exact wp_mono (wp_shellVacuum_torn rfl (not_not.mp hallowed)) (fun _ _ h => h.elim) fun _ _ h => h
  obtain ⟨e, s', hrun, hvars, hleft⟩ := error_of_wp hspec
  have hrefused : Op.vacuum.Refused s' := by
    unfold Op.Refused
    rw [hvars]
    exact hleft
  refine ⟨H, _, e, s', hlives _, hrun, ?_, fun g => ?_⟩
  · intro hbefore
    exact hallowed ((hbefore.retry .vacuum).mp hrefused)
  · have hrefused' : Op.vacuum.Refused (s'.setFault g) := hrefused
    obtain ⟨e', s'', hrun', -⟩ := error_of_wp hrefused'.stops
    exact ⟨e', s'', hrun'⟩

end AtomVault
