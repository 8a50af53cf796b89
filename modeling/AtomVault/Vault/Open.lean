import AtomVault.Lib.Countdown
import AtomVault.Vault.Invariant

/-!
# Creating, entering and reading a vault
-/

open Lib

namespace AtomVault

variable {cr : Crates} {σ : Type}

/-! ## Creating -/

/-- The header `handleCreate` writes. -/
def headerBytes (settings : KdfSettings) (salt dekNonce wrappedDek : Bytes) : Bytes :=
  leBytes 8 VAULT_HEADER_SIZE ++ settings.toBytes ++ salt ++ dekNonce ++ wrappedDek

section Header

variable {settings : KdfSettings} {salt dekNonce wrappedDek kek : Bytes} {password : String}
  {v : UnlockedVault}

theorem length_headerBytes (hs : salt.length = SALT_LEN) (hn : dekNonce.length = XNONCE_LEN)
    (hw : wrappedDek.length = WRAPPED_DEK_LEN) :
    (headerBytes settings salt dekNonce wrappedDek).length = VAULT_HEADER_SIZE := by
  simp only [headerBytes, List.length_append, length_leBytes, KdfSettings.length_toBytes, hs, hn, hw]
  rfl

theorem unlock_headerBytes (hs : salt.length = SALT_LEN) (hn : dekNonce.length = XNONCE_LEN)
    (hw : wrappedDek.length = WRAPPED_DEK_LEN) (hkek : deriveKek cr password salt settings = .ok kek)
    (hdek : unwrapDek cr kek wrappedDek dekNonce = some v) :
    unlock cr (headerBytes settings salt dekNonce wrappedDek) password = some v := by
  have hk := settings.length_toBytes
  have h8 : (leBytes 8 VAULT_HEADER_SIZE).length = 8 := length_leBytes 8 _
  have hset : slice (headerBytes settings salt dekNonce wrappedDek) 8 KDF_SIZE =
      settings.toBytes := by
    have := slice_field (leBytes 8 VAULT_HEADER_SIZE) settings.toBytes
      (salt ++ dekNonce ++ wrappedDek) h8 hk
    simpa [headerBytes] using this
  have hsalt : slice (headerBytes settings salt dekNonce wrappedDek) 21 SALT_LEN = salt := by
    have := slice_field (leBytes 8 VAULT_HEADER_SIZE ++ settings.toBytes) salt
      (dekNonce ++ wrappedDek) (p := 21) (by rw [List.length_append, h8, hk]; rfl) hs
    simpa [headerBytes] using this
  have hnonce : slice (headerBytes settings salt dekNonce wrappedDek) 53 XNONCE_LEN = dekNonce := by
    have := slice_field (leBytes 8 VAULT_HEADER_SIZE ++ settings.toBytes ++ salt) dekNonce
      wrappedDek (p := 53) (by simp only [List.length_append, h8, hk, hs]; rfl) hn
    simpa [headerBytes] using this
  have hwrapped : slice (headerBytes settings salt dekNonce wrappedDek) 77 WRAPPED_DEK_LEN =
      wrappedDek := by
    have := slice_field (leBytes 8 VAULT_HEADER_SIZE ++ settings.toBytes ++ salt ++ dekNonce)
      wrappedDek [] (p := 77) (by simp only [List.length_append, h8, hk, hs, hn]; rfl) hw
    simpa [headerBytes] using this
  unfold unlock
  rw [hset, hsalt, hnonce, hwrapped, KdfSettings.fromBytes_toBytes]
  simp [Except.toOption, hkek, hdek]

end Header

/-- A vault with an empty table is at `path`. -/
structure Created (cr : Crates) (path password : String) (s s' : Env σ) : Prop where
  names : s'.host.names = Function.update s.host.names path (some s.host.nextIno)
  nextIno : s'.host.nextIno = s.host.nextIno + 1
  fault : GoesOn s.host.fault s'.host.fault
  file : ∃ F v m blob, F.length = VAULT_HEADER_SIZE ∧ unlock cr F password = some v ∧
    m.fileTable = [] ∧ Seals cr v m blob ∧
    (s'.host.files s.host.nextIno).bytes = saved F VAULT_HEADER_SIZE blob

theorem wp_handleCreate (hi : cr.Ideal) {path password : String} {settings : KdfSettings}
    {s : Env σ} {Q : Unit → Env σ → Prop}
    (hok : ∀ s', Created cr path password s s' → Q () s') :
    wp (handleCreate cr path password settings) Q (fun _ _ => True) s := by
  unfold handleCreate wrapDek
  rw [wp_bind]
  apply wp_draw
  intro salt s1 a1
  rw [wp_bind]
  apply wp_draw
  intro dek s2 a2
  rw [wp_bind]
  apply wp_ofExcept
  case herr => exact fun _ _ => trivial
  intro kek hkek
  rw [wp_bind, wp_bind]
  apply wp_draw
  intro nonce s3 a3
  rw [wp_pure, wp_bind]
  apply wp_ofOption
  case herr => exact fun _ => trivial
  rintro ⟨wrapped, dekNonce⟩ hwrap
  obtain ⟨c, hc, hpair⟩ := Option.map_eq_some_iff.mp hwrap
  obtain ⟨rfl, rfl⟩ : c = wrapped ∧ nonce.toList = dekNonce := by simpa using hpair
  dsimp only
  rw [wp_bind]
  apply wp_ofOption
  case herr => exact fun _ => trivial
  intro v hdek
  rw [wp_bind]
  apply wp_createNew
  · exact fun _ _ _ _ => trivial
  intro s4 _ o4
  have a13 := (a1.trans a2).trans a3
  rw [wp_bind]
  apply wp_append (by rw [o4.pos, o4.data]; rfl)
  · exact fun _ _ => trivial
  intro s5 a5 d5 p5
  rw [wp_bind]
  apply wp_append p5
  · exact fun _ _ => trivial
  intro s6 a6 d6 p6
  rw [wp_bind]
  apply wp_append p6
  · exact fun _ _ => trivial
  intro s7 a7 d7 p7
  rw [wp_bind]
  apply wp_append p7
  · exact fun _ _ => trivial
  intro s8 a8 d8 p8
  rw [wp_bind]
  apply wp_append p8
  · exact fun _ _ => trivial
  intro s9 a9 d9 p9
  have hconf : Touches s3.host.nextFd s4 s9 := (((a5.trans a6).trans a7).trans a8).trans a9
  have hdata : s9.host.data s3.host.nextFd =
      headerBytes settings salt.toList nonce.toList c := by
    rw [d9, d8, d7, d6, d5, o4.data]
    rfl
  have hlen : (headerBytes settings salt.toList nonce.toList c).length = VAULT_HEADER_SIZE :=
    length_headerBytes salt.toList_length nonce.toList_length
      (by rw [hi.encrypt_length hc, dek.toList_length]; rfl)
  have hunlock : unlock cr (headerBytes settings salt.toList nonce.toList c) password = some v :=
    unlock_headerBytes salt.toList_length nonce.toList_length
      (by rw [hi.encrypt_length hc, dek.toList_length]; rfl) hkek hdek
  rw [wp_bind]
  apply wp_draw
  intro cdcSalt s10 a10
  have hdata10 : s10.host.data s3.host.nextFd =
      headerBytes settings salt.toList nonce.toList c := by rw [a10.data, hdata]
  rw [wp_bind]
  apply wp_save hi (by rw [hdata10, hlen]; decide)
  · exact fun _ _ _ _ _ => trivial
  intro blob s11 hseals a11 d11 _
  apply wp_sync
  · exact fun _ _ _ _ => trivial
  intro s12 a12 d12 _ _ _
  have hall : Touches s3.host.nextFd s4 s12 :=
    ((hconf.trans (a10.touches _)).trans a11).trans a12
  refine hok s12 ⟨?_, ?_, ?_, ⟨_, v, _, blob, hlen, hunlock, rfl, hseals, ?_⟩⟩
  · rw [hall.names, o4.names, a13.names, a13.nextIno]
  · rw [hall.nextIno, o4.nextIno, a13.nextIno]
  · exact (a13.fault.trans o4.fault).trans hall.fault
  · have hino : s12.host.ino s3.host.nextFd = s.host.nextIno := by
      rw [hall.ino, o4.ino, a13.nextIno]
    rw [← hino]
    show s12.host.data s3.host.nextFd = _
    rw [d12, d11, hdata10]
    rfl

/-! ## Entering -/

/-- The session on the file `i`, with what was loaded from it. -/
structure Entered (path : String) (i : Nat) (m : VaultMetadata) (v : UnlockedVault) (off : UInt64)
    (s s' : Env Session) : Prop where
  vars : s'.vars = ⟨path, s.host.nextFd, v, m, off⟩
  ino : s'.host.ino s.host.nextFd = i
  names : s'.host.names = s.host.names
  files : s'.host.files = s.host.files
  nextIno : s'.host.nextIno = s.host.nextIno
  nextFd : s'.host.nextFd = s.host.nextFd + 1
  fault : GoesOn s.host.fault s'.host.fault

theorem wp_handleEnter {path password : String} {s : Env Session} {Q : Unit → Env Session → Prop}
    {E : VaultError → Env Session → Prop}
    (herr : (s.host.fault ≠ none ∨ ∀ i, s.host.names path = some i →
      openBytes cr (s.host.files i).bytes password = none) → ∀ e s', E e s')
    (hok : ∀ i m v off s', s.host.names path = some i →
      openBytes cr (s.host.files i).bytes password = some (m, v, off) →
      Entered path i m v off s s' → Q () s') :
    wp (handleEnter cr path password) Q E s := by
  unfold handleEnter
  rw [wp_bind]
  apply wp_openFile
  · rintro (hf | hf) t s' _
    · exact herr (Or.inl hf) _ _
    · exact herr (Or.inr (by simp [hf])) _ _
  intro i s1 hi1 o1
  rw [wp_bind]
  apply wp_load
  · rintro (hf | hf) e s' _
    · exact herr (Or.inl (o1.fault.ne_none hf)) _ _
    · rw [o1.data] at hf
      refine herr (Or.inr ?_) _ _
      intro j hj
      obtain rfl : i = j := by simpa [hi1] using hj
      exact hf
  rintro ⟨m, v, off⟩ s2 hopen m2
  rw [o1.data] at hopen
  dsimp only
  rw [wp_update]
  refine hok i m v off _ hi1 hopen ⟨rfl, ?_, ?_, ?_, ?_, ?_, ?_⟩
  · exact (m2.ino _).trans o1.ino
  · exact m2.names.trans o1.names
  · exact m2.allFiles.trans o1.files
  · exact m2.nextIno.trans o1.nextIno
  · exact m2.nextFd.trans o1.nextFd
  · exact o1.fault.trans m2.fault

theorem Entered.data {path : String} {i : Nat} {m : VaultMetadata} {v : UnlockedVault} {off : UInt64}
    {s s' : Env Session} (h : Entered path i m v off s s') :
    s'.host.data s'.vars.fd = (s.host.files i).bytes := by
  unfold Host.data
  rw [h.vars, h.ino, h.files]

/-! ## Reading -/

theorem wp_plainChunk {onErr : String → VaultError} {e : ChunkEntry} {s : Env Session}
    {Q : Bytes → Env Session → Prop} {E : VaultError → Env Session → Prop}
    (herr : openChunk cr s.vars.unlockedVault (s.host.data s.vars.fd) e = none ∨
      ¬Lasts 3 s.host.fault → ∀ t s', Moves s.vars.fd s s' → E t s')
    (hok : ∀ p s', openChunk cr s.vars.unlockedVault (s.host.data s.vars.fd) e = some p →
      Spends 3 s s' → Moves s.vars.fd s s' → Q p s') :
    wp (plainChunk cr onErr e) Q E s := by
  have hshort : ∀ {n s₁}, Spends n s s₁ → n ≤ 2 → ¬Lasts 1 s₁.host.fault → ¬Lasts 3 s.host.fault :=
    fun a hn h h3 => a.not_lasts h (h3.mono (by omega))
  have hfit := Host.data_fits s.host s.vars.fd
  have hrange : (s.host.data s.vars.fd).length < e.offset.toNat + e.cipherLen.toNat →
      openChunk cr s.vars.unlockedVault (s.host.data s.vars.fd) e = none :=
    fun h => if_neg (not_le.mpr h)
  unfold plainChunk
  rw [wp_bind, wp_session, wp_bind]
  apply wp_counted counted_seek
  apply wp_seek
  · rintro - t s' a (h | h)
    · exact herr (Or.inr fun h3 => h (h3.mono (by omega))) _ s' (a.moves _)
    · exact herr (Or.inl (hrange (by omega))) _ s' (a.moves _)
  intro s1 _ m1 p1 k1
  rw [wp_bind]
  apply wp_counted counted_readExact
  apply wp_readExact
  · rintro - t s' a (h | h)
    · exact herr (Or.inr (hshort k1 (by omega) h)) _ s' (m1.trans (a.moves _))
    · rw [m1.data, p1] at h
      exact herr (Or.inl (hrange h)) _ s' (m1.trans (a.moves _))
  intro s2 hin m2 _ k2
  rw [m1.data, p1] at hin ⊢
  replace m2 := m1.trans m2
  replace k2 := k1.trans k2
  have hopen : openChunk cr s.vars.unlockedVault (s.host.data s.vars.fd) e =
      readChunk cr s.vars.unlockedVault (s.host.data s.vars.fd) e := if_pos hin
  unfold readChunk Extent.read ChunkEntry.extent at hopen
  rw [wp_bind]
  apply wp_ofExcept
  case herr =>
    intro t hdec
    rw [hdec] at hopen
    exact herr (Or.inl hopen) _ _ m2
  intro decrypted hdec
  rw [hdec] at hopen
  rw [wp_bind]
  apply wp_counted counted_probe
  apply wp_probe
  · intro _ t s' a h
    exact herr (Or.inr (hshort k2 (le_refl _) h)) _ s' (m2.trans (a.moves _))
  intro s3 a3 k3
  apply wp_ofOption
  · exact fun p hp => hok p s3 (hopen.trans hp) (k2.trans k3) (m2.trans (a3.moves _))
  · exact fun hnone => herr (Or.inl (hopen.trans hnone)) _ _ (m2.trans (a3.moves _))

theorem wp_decryptChunks : ∀ {es : List ChunkEntry} {s : Env Session}, s.host.fault = none →
    wp (decryptChunks cr es)
      (fun out _ => openChunks cr s.vars.unlockedVault (s.host.data s.vars.fd) es = some out)
      (fun _ _ => openChunks cr s.vars.unlockedVault (s.host.data s.vars.fd) es = none) s := by
  intro es
  induction es with
  | nil => exact fun _ => rfl
  | cons e es ih =>
    intro s hf
    unfold decryptChunks
    rw [wp_bind]
    apply wp_plainChunk
    · rintro (hnone | hfault) t s' -
      · simp [openChunks, hnone]
      · exact absurd (by rw [hf]; trivial) hfault
    intro p s1 hp _ m1
    have hrest := ih (m1.fault.eq_none hf)
    rw [m1.vars, m1.data] at hrest
    rw [wp_bind]
    refine wp_mono hrest ?_ ?_
    · intro out s' hout
      rw [wp_pure]
      simp [openChunks, hp, hout]
    · intro _ _ hnone
      simp [openChunks, hp, hnone]

theorem decryptToBytes_eq_ok_iff {H : Bytes} {s : Env Session} (hs : Sound H s)
    (hf : s.host.fault = none) {f : FileIndex} (hmem : f ∈ s.vars.metadata.fileTable) {b : Bytes} :
    (∃ s', decryptToBytes cr f.vfsName s = .ok b s') ↔
      readFile cr s.vars.unlockedVault (s.host.data s.vars.fd) f.chunks = some b := by
  have hspec : wp (decryptToBytes cr f.vfsName)
      (fun out _ => readFile cr s.vars.unlockedVault (s.host.data s.vars.fd) f.chunks = some out)
      (fun _ _ => readFile cr s.vars.unlockedVault (s.host.data s.vars.fd) f.chunks = none) s := by
    have hin : ∀ e ∈ f.chunks, e.extent.stop ≤ (s.host.data s.vars.fd).length := fun e he =>
      le_trans (hs.layout.packed.le_hi _ (mem_extents hmem he)) hs.fits
    unfold decryptToBytes
    rw [wp_bind, wp_session, wp_bind, find_of_mem hs.layout.names hmem, ← openChunks_eq_readFile hin]
    exact wp_decryptChunks hf
  constructor
  · rintro ⟨s', hs'⟩
    have hread := wp_of_ok hspec hs'
    exact hread
  · intro hread
    cases hx : decryptToBytes cr f.vfsName s with
    | ok out s' =>
      have hout := wp_of_ok hspec hx
      rw [hread] at hout
      exact ⟨s', by rw [Option.some.inj hout]⟩
    | error e s' =>
      have hnone := wp_of_error hspec hx
      rw [hread] at hnone
      cases hnone

theorem decryptToBytes_missing {s : Env Session} {name : String}
    (h : ¬hasName s.vars.metadata.fileTable name = true) :
    decryptToBytes cr name s =
      .error (.text s!"Error: File '{name}' not found in vault.") s := by
  have hfind : s.vars.metadata.fileTable.find? (·.vfsName == name) = none := by
    rw [List.find?_eq_none]
    intro f hf
    simpa using hasName_eq_false h f hf
  show (ofOption _ _ >>= _) s = _
  rw [hfind]
  rfl

end AtomVault
