import AtomVault.Vault.Instance

/-!
# Loading and saving the metadata (`storage.rs`)

A vault file is a header of 125 bytes, the payload, and one metadata blob after it.
The first eight bytes of the header point to the blob.
-/

open Lib

namespace AtomVault

variable (cr : Crates) {σ : Type}

/-- How much of the file `loadVaultMetadata` reads from the master pointer on. -/
def METADATA_LIMIT : Nat := 10 * 1024 * 1024

def loadVaultMetadata (fd : Nat) (password : String) :
    Prog σ VaultError (VaultMetadata × UnlockedVault × UInt64) := do
  Call.seek .io fd 0
  let masterPtrBytes ← Call.readExact .io fd 8
  let masterPointer := UInt64.ofNat (ofLe masterPtrBytes)
  let kdfBytes ← Call.readExact .io fd KDF_SIZE
  let kdfSettings ← ofExcept .text (KdfSettings.fromBytes kdfBytes)
  let salt ← Call.readExact .io fd SALT_LEN
  let dekNonce ← Call.readExact .io fd XNONCE_LEN
  let wrappedDek ← Call.readExact .io fd WRAPPED_DEK_LEN
  let kek ← ofExcept (fun e => .text s!"KDF error: {e.quote}") (deriveKek cr password salt kdfSettings)
  let unlockedVault ← ofOption (.text "DEK unwrap error: Error")
    (unwrapDek cr kek wrappedDek dekNonce)
  Call.seek .io fd masterPointer.toNat
  let encryptedMetadata ← Call.readToEnd .io fd METADATA_LIMIT
  let decrypted ← ofExcept (fun e => .text s!"Metadata decrypt error: {e.debug}")
    (decryptChunk cr unlockedVault encryptedMetadata METADATA_FILE_ID)
  let metadata ← ofExcept .text (cr.deserialize decrypted)
  return (metadata, unlockedVault, masterPointer)

def saveVaultMetadata (fd : Nat) (metadata : VaultMetadata) (v : UnlockedVault)
    (currentPayloadOffset : UInt64) : Prog σ VaultError Unit := do
  let serialized ← ofExcept .text (cr.serialize metadata)
  let encrypted ← encryptChunk cr v serialized METADATA_FILE_ID
  let encryptedMetadata ← ofExcept (fun e => .text s!"Metadata encrypt error: {e.debug}") encrypted
  Call.seek .io fd currentPayloadOffset.toNat
  Call.writeAll .io fd encryptedMetadata
  let endPos ← Call.position .io fd
  Call.setLen .io fd endPos
  Call.sync .io fd
  Call.seek .io fd 0
  Call.writeAll .io fd (leBytes 8 currentPayloadOffset.toNat)
  Call.sync .io fd

/-! ## Loading -/

/-- What the header gives for a password. -/
def unlock (F : Bytes) (password : String) : Option UnlockedVault := do
  let settings ← (KdfSettings.fromBytes (slice F 8 KDF_SIZE)).toOption
  let kek ← (deriveKek cr password (slice F 21 SALT_LEN) settings).toOption
  unwrapDek cr kek (slice F 77 WRAPPED_DEK_LEN) (slice F 53 XNONCE_LEN)

def masterPointer (F : Bytes) : UInt64 := UInt64.ofNat (ofLe (slice F 0 8))

def readMetadata (v : UnlockedVault) (tail : Bytes) : Option VaultMetadata := do
  let b ← (decryptChunk cr v tail METADATA_FILE_ID).toOption
  (cr.deserialize b).toOption

/-- What `loadVaultMetadata` makes of the bytes of a file. -/
def openBytes (F : Bytes) (password : String) : Option (VaultMetadata × UnlockedVault × UInt64) :=
  if F.length < VAULT_HEADER_SIZE ∨ maxLen < (masterPointer F).toNat then none else do
    let v ← unlock cr F password
    let m ← readMetadata cr v (slice F (masterPointer F).toNat METADATA_LIMIT)
    return (m, v, masterPointer F)

variable {cr} {s : Env σ} {fd : Nat} {password : String} {v : UnlockedVault}

theorem openBytes_of_short {F : Bytes} (h : F.length < VAULT_HEADER_SIZE) :
    openBytes cr F password = none := by
  rw [openBytes, if_pos (Or.inl h)]

theorem openBytes_of_far {F : Bytes} (h : maxLen < (masterPointer F).toNat) :
    openBytes cr F password = none := by
  rw [openBytes, if_pos (Or.inr h)]

theorem openBytes_of_locked {F : Bytes} (h : unlock cr F password = none) :
    openBytes cr F password = none := by
  rw [openBytes]
  split
  · rfl
  · simp [h]

theorem openBytes_of_unlock {F : Bytes} (hlen : VAULT_HEADER_SIZE ≤ F.length)
    (hv : unlock cr F password = some v) (hp : (masterPointer F).toNat ≤ maxLen) :
    openBytes cr F password =
      (readMetadata cr v (slice F (masterPointer F).toNat METADATA_LIMIT)).map
        (·, v, masterPointer F) := by
  rw [openBytes, if_neg (by omega), hv]
  simp only [Option.bind_eq_bind, Option.bind_some]
  cases readMetadata cr v (slice F (masterPointer F).toNat METADATA_LIMIT) <;> rfl

/-- Reading the next `n` bytes of the header, in a run of `loadVaultMetadata` from `s`. -/
theorem wp_readField {E : VaultError → Env σ → Prop} {Q : Bytes → Env σ → Prop} {s' : Env σ}
    (herr : s.host.fault ≠ none ∨ openBytes cr (s.host.data fd) password = none →
      ∀ e s', Moves fd s s' → E e s')
    {p n : Nat} (m : Moves fd s s') (hp : s'.host.pos fd = p) (hn : p + n ≤ VAULT_HEADER_SIZE)
    (hok : ∀ s'', Moves fd s s'' → s''.host.pos fd = p + n → p + n ≤ (s.host.data fd).length →
      Q (slice (s.host.data fd) p n) s'') :
    wp (Call.readExact .io fd n) Q E s' := by
  apply wp_readExact
  · rintro (hf | hf) t s'' a
    · exact herr (Or.inl (m.fault.ne_none hf)) _ _ (m.trans (a.moves fd))
    · rw [m.data, hp] at hf
      exact herr (Or.inr (openBytes_of_short (by omega))) _ _ (m.trans (a.moves fd))
  · intro s'' hfit m' hpos
    rw [m.data, hp] at hfit
    rw [m.data, hp]
    exact hok s'' (m.trans m') (by rw [hpos, hp]) hfit

/-- A run without a fault loads what the file holds, and one that fails changes nothing. -/
theorem wp_load {Q : VaultMetadata × UnlockedVault × UInt64 → Env σ → Prop}
    {E : VaultError → Env σ → Prop}
    (herr : s.host.fault ≠ none ∨ openBytes cr (s.host.data fd) password = none →
      ∀ e s', Moves fd s s' → E e s')
    (hok : ∀ r s', openBytes cr (s.host.data fd) password = some r → Moves fd s s' → Q r s') :
    wp (loadVaultMetadata cr fd password) Q E s := by
  have hfault : ∀ {s' : Env σ}, Moves fd s s' → s'.host.fault ≠ none →
      ∀ e s'', Still s' s'' → E e s'' :=
    fun m hf e s'' a => herr (Or.inl (m.fault.ne_none hf)) e s'' (m.trans (a.moves fd))
  unfold loadVaultMetadata
  rw [wp_bind]
  apply wp_seek
  · rintro (hf | hf) t s' a
    · exact hfault (Moves.refl fd s) hf _ _ a
    · simp [maxLen] at hf
  intro s1 _ m1 p1
  rw [wp_bind]
  apply wp_readField herr m1 p1 (by decide)
  intro s2 m2 p2 _
  dsimp only
  rw [wp_bind]
  apply wp_readField herr m2 p2 (by decide)
  intro s3 m3 p3 _
  rw [wp_bind]
  apply wp_ofExcept
  case herr =>
    intro e he
    refine herr (Or.inr (openBytes_of_locked ?_)) _ _ m3
    simp_all [unlock, Except.toOption]
  intro settings hset
  rw [wp_bind]
  apply wp_readField herr m3 p3 (by decide)
  intro s4 m4 p4 _
  rw [wp_bind]
  apply wp_readField herr m4 p4 (by decide)
  intro s5 m5 p5 _
  rw [wp_bind]
  apply wp_readField herr m5 p5 (by decide)
  intro s6 m6 p6 hlen
  rw [wp_bind]
  apply wp_ofExcept
  case herr =>
    intro e he
    refine herr (Or.inr (openBytes_of_locked ?_)) _ _ m6
    simp_all [unlock, Except.toOption, KDF_SIZE]
  intro kek hkek
  rw [wp_bind]
  have hunlock : unlock cr (s.host.data fd) password = unwrapDek cr kek
      (slice (s.host.data fd) 77 WRAPPED_DEK_LEN) (slice (s.host.data fd) 53 XNONCE_LEN) := by
    simp_all [unlock, Except.toOption, KDF_SIZE]
  apply wp_ofOption
  case herr =>
    intro hdek
    exact herr (Or.inr (openBytes_of_locked (hunlock.trans hdek))) _ _ m6
  intro v hdek
  have hbytes := fun hp => openBytes_of_unlock (hlen : VAULT_HEADER_SIZE ≤ _) (hunlock.trans hdek) hp
  rw [wp_bind]
  apply wp_seek
  · rintro (hf | hf) t s' a
    · exact hfault m6 hf _ _ a
    · exact herr (Or.inr (openBytes_of_far hf)) _ _ (m6.trans (a.moves fd))
  intro s7 hp m7 p7
  replace m7 := m6.trans m7
  replace hbytes := hbytes hp
  rw [wp_bind]
  apply wp_readToEnd
  · intro hf t s' a
    exact hfault m7 hf _ _ a
  intro s8 m8
  replace m8 := m7.trans m8
  rw [m7.data, p7]
  rw [readMetadata] at hbytes
  rw [wp_bind]
  apply wp_ofExcept
  case herr =>
    intro e he
    refine herr (Or.inr (hbytes.trans ?_)) _ _ m8
    simp_all [masterPointer, Except.toOption]
  intro b hb
  rw [wp_bind]
  apply wp_ofExcept
  case herr =>
    intro e he
    refine herr (Or.inr (hbytes.trans ?_)) _ _ m8
    simp_all [masterPointer, Except.toOption]
  intro m hm
  refine hok _ _ (hbytes.trans ?_) m8
  simp_all [masterPointer, Except.toOption]

theorem load_eq_ok_iff (hf : s.host.fault = none) {r : VaultMetadata × UnlockedVault × UInt64} :
    (∃ s', loadVaultMetadata cr fd password s = .ok r s') ↔
      openBytes cr (s.host.data fd) password = some r := by
  have hspec : wp (loadVaultMetadata cr fd password)
      (fun r _ => openBytes cr (s.host.data fd) password = some r)
      (fun _ _ => openBytes cr (s.host.data fd) password = none) s := by
    apply wp_load
    · rintro (h | h) e s' _
      · exact absurd hf h
      · exact h
    · exact fun r s' h _ => h
  constructor
  · rintro ⟨s', hs'⟩
    have hr := wp_of_ok hspec hs'
    exact hr
  · intro hr
    cases hx : loadVaultMetadata cr fd password s with
    | ok r' s' =>
      have hr' := wp_of_ok hspec hx
      rw [hr] at hr'
      exact ⟨s', by rw [Option.some.inj hr']⟩
    | error e s' =>
      have hr' := wp_of_error hspec hx
      rw [hr] at hr'
      cases hr'

/-! ## Saving -/

/-- `blob` is a sealed encoding of the table. -/
def Seals (cr : Crates) (v : UnlockedVault) (m : VaultMetadata) (blob : Bytes) : Prop :=
  ∃ b salt nonce, cr.serialize m = .ok b ∧ salt.length = FILE_SALT_LEN ∧ nonce.length = XNONCE_LEN ∧
    sealChunk cr v b METADATA_FILE_ID salt nonce = .ok blob

/-- The blob of `m` is within what `loadVaultMetadata` reads. -/
def Fits (cr : Crates) (m : VaultMetadata) : Prop :=
  ∃ b, cr.serialize m = .ok b ∧ b.length + CHUNK_OVERHEAD ≤ METADATA_LIMIT

/-- Why a save can fail: a fault, a full disk, or a table too large to seal. -/
def SaveFails (cr : Crates) (v : UnlockedVault) (m : VaultMetadata) (off : Nat) (h : Host)
    (e : VaultError) : Prop :=
  (∃ t, e = .io t) ∧ (h.fault ≠ none ∨ ∃ blob, Seals cr v m blob ∧ maxLen < off + blob.length) ∨
    ∃ b, cr.serialize m = .ok b ∧ 2 ^ 32 ≤ b.length

/-- The file a save leaves. -/
def saved (F : Bytes) (off : Nat) (blob : Bytes) : Bytes :=
  patch (F.take off ++ blob) 0 (leBytes 8 off)

/-- The file after `j` of the writes of `saveVaultMetadata`. -/
def saveStage (F : Bytes) (off : Nat) (blob : Bytes) : Nat → Bytes
  | 0 => F
  | 1 => patch F off blob
  | 2 => F.take off ++ blob
  | _ => saved F off blob

/-! ### The three parts of a save -/

/-- The blob of the table. -/
def sealMetadata (cr : Crates) (metadata : VaultMetadata) (v : UnlockedVault) : Prog σ VaultError Bytes := do
  let serialized ← ofExcept .text (cr.serialize metadata)
  let encrypted ← encryptChunk cr v serialized METADATA_FILE_ID
  ofExcept (fun e => .text s!"Metadata encrypt error: {e.debug}") encrypted

/-- The blob at the end of the payload, and nothing behind it. -/
def putBlob (fd : Nat) (currentPayloadOffset : UInt64) (blob : Bytes) : Prog σ VaultError Unit := do
  Call.seek .io fd currentPayloadOffset.toNat
  Call.writeAll .io fd blob
  let endPos ← Call.position .io fd
  Call.setLen .io fd endPos
  Call.sync .io fd

def putPointer (fd : Nat) (currentPayloadOffset : UInt64) : Prog σ VaultError Unit := do
  Call.seek .io fd 0
  Call.writeAll .io fd (leBytes 8 currentPayloadOffset.toNat)
  Call.sync .io fd

theorem saveVaultMetadata_eq {m : VaultMetadata} {off : UInt64} :
    (saveVaultMetadata cr fd m v off : Prog σ VaultError Unit) =
      sealMetadata cr m v >>= fun blob => putBlob fd off blob >>= fun _ => putPointer fd off := by
  simp [saveVaultMetadata, sealMetadata, putBlob, putPointer]

theorem wp_sealMetadata (hi : cr.Ideal) {m : VaultMetadata} {Q : Bytes → Env σ → Prop}
    {E : VaultError → Env σ → Prop}
    (herr : ∀ e s', (∃ b, cr.serialize m = .ok b ∧ 2 ^ 32 ≤ b.length) → Still s s' → E e s')
    (hok : ∀ blob s', Seals cr v m blob → Still s s' → Q blob s') :
    wp (sealMetadata cr m v) Q E s := by
  unfold sealMetadata
  rw [wp_bind]
  apply wp_ofExcept
  case herr =>
    intro e he
    obtain ⟨b, hb⟩ := hi.serialize_total m
    rw [hb] at he
    cases he
  intro b hb
  rw [wp_bind]
  apply wp_encryptChunk
  intro salt nonce s1 hsalt hnonce a1
  apply wp_ofExcept
  case herr =>
    intro e he
    refine herr _ s1 ⟨b, hb, ?_⟩ a1
    by_contra hlen
    obtain ⟨blob, hblob⟩ := sealChunk_total hi v METADATA_FILE_ID salt nonce (not_le.mp hlen)
    rw [hblob] at he
    cases he
  intro blob hblob
  exact hok blob s1 ⟨b, salt, nonce, hb, hsalt, hnonce, hblob⟩ a1

theorem wp_putBlob {off : UInt64} {blob : Bytes} {Q : Unit → Env σ → Prop}
    {E : VaultError → Env σ → Prop} (hoff : off.toNat ≤ (s.host.data fd).length)
    (herr : ∀ t s', s.host.fault ≠ none ∨ maxLen < off.toNat + blob.length → Touches fd s s' →
      (torn s.host.fault = 0 → ∃ j ≤ 2, s'.host.writes = s.host.writes + j ∧
        s'.host.data fd = saveStage (s.host.data fd) off.toNat blob j) → E (.io t) s')
    (hok : ∀ s', Touches fd s s' → s'.host.data fd = saveStage (s.host.data fd) off.toNat blob 2 →
      s'.host.writes = s.host.writes + 2 → Q () s') :
    wp (putBlob fd off blob) Q E s := by
  set F := s.host.data fd with hF
  -- From the first write on a stop leaves one of the stages.
  have hstage : ∀ {s' : Env σ} {j : Nat}, j ≤ 2 → Touches fd s s' →
      s'.host.writes = s.host.writes + j → s'.host.data fd = saveStage F off.toNat blob j →
      s'.host.fault ≠ none → ∀ t s'', Still s' s'' → E (.io t) s'' := by
    intro s' j hj t' hw hd hf t s'' a
    refine herr _ s'' (Or.inl (t'.fault.ne_none hf)) (t'.trans (a.touches fd)) fun _ => ?_
    exact ⟨j, hj, by rw [a.writes, hw], by rw [a.data, hd]⟩
  have hsmall : off.toNat ≤ maxLen := hoff.trans (Host.data_fits _ _)
  unfold putBlob
  rw [wp_bind]
  apply wp_seek
  · rintro (hf | hf) t s' a
    · exact hstage (j := 0) (by omega) (Moves.refl fd s).toTouches rfl rfl hf _ _ a
    · omega
  intro s1 _ m1 p1
  rw [wp_bind]
  apply wp_writeAll (by rw [m1.data, p1]; exact hoff)
  case herr =>
    rintro hf t s' a ⟨k, hk, hdata, -⟩ hw
    have hwhy : s.host.fault ≠ none ∨ maxLen < off.toNat + blob.length := by
      rw [p1] at hf
      exact hf.imp_left m1.fault.ne_none
    refine herr _ _ hwhy (m1.toTouches.trans a) fun htorn => ⟨0, by omega, by rw [hw, m1.writes]; rfl, ?_⟩
    rw [m1.fault.torn_eq, htorn] at hk
    obtain rfl : k = 0 := by omega
    rw [hdata, m1.data, p1, List.take_zero, patch_nil hoff]
    rfl
  intro s2 _ t2 d2 p2 _ w2
  replace t2 := m1.toTouches.trans t2
  rw [m1.data, p1] at d2
  rw [p1] at p2
  rw [m1.writes] at w2
  rw [wp_bind]
  apply wp_position
  · intro hf t s' a
    exact hstage (j := 1) (by omega) t2 w2 d2 hf _ _ a
  intro s3 a3
  rw [p2, wp_bind]
  have t3 := t2.trans (a3.touches fd)
  have w3 := a3.writes.trans w2
  have d3 := (a3.data fd).trans d2
  apply wp_setLen
  · rintro (hf | hf) t s' a
    · exact hstage (j := 1) (by omega) t3 w3 d3 hf _ _ a
    · have hfit := Host.data_fits s2.host fd
      rw [d2, length_patch] at hfit
      omega
  intro s4 _ t4 d4 _ _ w4
  replace t4 := t3.trans t4
  rw [w3] at w4
  rw [d3, resize_patch hoff] at d4
  apply wp_sync
  · intro hf t s' a
    exact hstage (j := 2) (by omega) t4 w4 d4 hf _ _ a
  intro s5 t5 d5 _ _ w5
  exact hok s5 (t4.trans t5) (d5.trans d4) (w5.trans w4)

theorem wp_putPointer {off : UInt64} {Q : Unit → Env σ → Prop} {E : VaultError → Env σ → Prop}
    (herr : ∀ t s', s.host.fault ≠ none → Touches fd s s' →
      (torn s.host.fault = 0 →
        s'.host.writes = s.host.writes ∧ s'.host.data fd = s.host.data fd ∨
        s'.host.writes = s.host.writes + 1 ∧
          s'.host.data fd = patch (s.host.data fd) 0 (leBytes 8 off.toNat)) → E (.io t) s')
    (hok : ∀ s', Touches fd s s' →
      s'.host.data fd = patch (s.host.data fd) 0 (leBytes 8 off.toNat) →
      s'.host.writes = s.host.writes + 1 → Q () s') :
    wp (putPointer fd off) Q E s := by
  unfold putPointer
  rw [wp_bind]
  apply wp_seek
  · rintro (hf | hf) t s' a
    · exact herr _ s' hf (a.touches fd) fun _ => Or.inl ⟨a.writes, a.data fd⟩
    · simp [maxLen] at hf
  intro s1 _ m1 p1
  rw [wp_bind]
  apply wp_writeAll (by rw [p1]; omega)
  case herr =>
    rintro hf t s' a ⟨k, hk, hdata, -⟩ hw
    have hfault : s1.host.fault ≠ none := by
      rcases hf with hf | hf
      · exact hf
      · rw [p1, length_leBytes] at hf
        simp [maxLen] at hf
    refine herr _ s' (m1.fault.ne_none hfault) (m1.toTouches.trans a) fun htorn => Or.inl ?_
    rw [m1.fault.torn_eq, htorn] at hk
    obtain rfl : k = 0 := by omega
    rw [hw, m1.writes, hdata, List.take_zero, p1, patch_nil (by omega), m1.data]
    exact ⟨rfl, rfl⟩
  intro s2 _ t2 d2 _ _ w2
  replace t2 := m1.toTouches.trans t2
  rw [m1.data, p1] at d2
  rw [m1.writes] at w2
  apply wp_sync
  · intro hf t s' a
    refine herr _ s' (t2.fault.ne_none hf) (t2.trans (a.touches fd)) fun _ => Or.inr ?_
    exact ⟨by rw [a.writes, w2], by rw [a.data, d2]⟩
  intro s3 t3 d3 _ _ w3
  exact hok s3 (t2.trans t3) (d3.trans d2) (w3.trans w2)

theorem wp_save (hi : cr.Ideal) {m : VaultMetadata} {off : UInt64} {Q : Unit → Env σ → Prop}
    {E : VaultError → Env σ → Prop} (hoff : off.toNat ≤ (s.host.data fd).length)
    (herr : ∀ e s', SaveFails cr v m off.toNat s.host e → Touches fd s s' →
      (torn s.host.fault = 0 → ∃ j ≤ 3, s'.host.writes = s.host.writes + j ∧
        (j = 0 ∧ s'.host.data fd = s.host.data fd ∨
          ∃ blob, Seals cr v m blob ∧ s'.host.data fd = saveStage (s.host.data fd) off.toNat blob j)) →
      E e s')
    (hok : ∀ blob s', Seals cr v m blob → Touches fd s s' →
      s'.host.data fd = saved (s.host.data fd) off.toNat blob →
      s'.host.writes = s.host.writes + 3 → Q () s') :
    wp (saveVaultMetadata cr fd m v off) Q E s := by
  rw [saveVaultMetadata_eq, wp_bind]
  apply wp_sealMetadata hi
  · intro e s' hlarge a
    exact herr e s' (Or.inr hlarge) (a.touches fd) fun _ =>
      ⟨0, by omega, a.writes, Or.inl ⟨rfl, a.data fd⟩⟩
  intro blob s1 hseals a1
  rw [wp_bind]
  apply wp_putBlob (by rw [a1.data]; exact hoff)
  · intro t s' hf t' hstage
    have hwhy : SaveFails cr v m off.toNat s.host (.io t) :=
      Or.inl ⟨⟨t, rfl⟩, hf.imp a1.fault.ne_none fun hlarge => ⟨blob, hseals, hlarge⟩⟩
    refine herr _ s' hwhy ((a1.touches fd).trans t') fun htorn => ?_
    obtain ⟨j, hj, hw, hd⟩ := hstage (a1.fault.torn_eq.trans htorn)
    rw [a1.writes] at hw
    rw [a1.data] at hd
    exact ⟨j, by omega, hw, Or.inr ⟨blob, hseals, hd⟩⟩
  intro s2 t2 d2 w2
  replace t2 := (a1.touches fd).trans t2
  rw [a1.data] at d2
  rw [a1.writes] at w2
  apply wp_putPointer
  · intro t s' hf t' hstage
    refine herr _ s' (Or.inl ⟨⟨t, rfl⟩, Or.inl (t2.fault.ne_none hf)⟩) (t2.trans t') fun htorn => ?_
    rcases hstage (t2.fault.torn_eq.trans htorn) with ⟨hw, hd⟩ | ⟨hw, hd⟩
    · exact ⟨2, by omega, hw.trans w2, Or.inr ⟨blob, hseals, hd.trans d2⟩⟩
    · refine ⟨3, le_refl 3, by rw [hw, w2], Or.inr ⟨blob, hseals, ?_⟩⟩
      rw [hd, d2]
      rfl
  intro s3 t3 d3 w3
  rw [d2] at d3
  exact hok blob s3 hseals (t2.trans t3) d3 (by rw [w3, w2])

/-! ## The saved file -/

section Saved

variable {F blob : Bytes} {m : VaultMetadata} {off : UInt64}

theorem length_saved {off : Nat} (h8 : 8 ≤ off) (hoff : off ≤ F.length) :
    (saved F off blob).length = off + blob.length := by
  simp only [saved, length_patch, List.length_append, List.length_take, length_leBytes]
  omega

/-- A save leaves everything between the pointer and the payload offset alone. -/
theorem slice_saved {off p n : Nat} (h8 : 8 ≤ p) (hn : p + n ≤ off) (hoff : off ≤ F.length) :
    slice (saved F off blob) p n = slice F p n := by
  have hlen : (F.take off).length = off := by simp [hoff]
  rw [saved, slice_patch_of_disjoint _ _ _ _ _ (by rw [length_leBytes]; omega),
    slice_append_left _ _ _ _ (by omega), slice_take _ _ _ _ hn]

theorem drop_saved {off : Nat} (h8 : 8 ≤ off) (hoff : off ≤ F.length) :
    (saved F off blob).drop off = blob := by
  have hlen : (F.take off).length = off := by simp [hoff]
  have hslice := slice_patch_of_disjoint (F.take off ++ blob) 0 (leBytes 8 off) off blob.length
    (by rw [length_leBytes]; omega)
  have htail : (saved F off blob).drop off = slice (saved F off blob) off blob.length := by
    rw [slice, List.take_of_length_le (by rw [List.length_drop, length_saved h8 hoff]; omega)]
  rw [htail, saved, hslice, slice]
  nth_rewrite 1 [← hlen]
  rw [List.drop_left, List.take_length]

theorem masterPointer_saved : masterPointer (saved F off.toNat blob) = off := by
  unfold masterPointer saved
  have hlen : (leBytes 8 off.toNat).length = 8 := length_leBytes 8 off.toNat
  have hslice := slice_patch_self (F.take off.toNat ++ blob) 0 (leBytes 8 off.toNat)
  rw [hlen] at hslice
  rw [hslice, ofLe_leBytes 8 off.toNat (by simpa using off.toNat_lt), UInt64.ofNat_toNat]

theorem unlock_congr {F F' : Bytes} (h : slice F' 8 (VAULT_HEADER_SIZE - 8) =
    slice F 8 (VAULT_HEADER_SIZE - 8)) : unlock cr F' password = unlock cr F password := by
  have hcut : ∀ p n, p + n ≤ VAULT_HEADER_SIZE - 8 → slice F' (8 + p) n = slice F (8 + p) n := by
    intro p n hpn
    have hsub : ∀ G : Bytes, slice G (8 + p) n = slice (slice G 8 (VAULT_HEADER_SIZE - 8)) p n := by
      intro G
      unfold slice
      rw [← List.drop_drop, List.drop_take, List.take_take, min_eq_left (by omega)]
    rw [hsub F', hsub F, h]
  unfold unlock
  rw [hcut 0 KDF_SIZE (by decide), hcut 13 SALT_LEN (by decide), hcut 69 WRAPPED_DEK_LEN (by decide),
    hcut 45 XNONCE_LEN (by decide)]

theorem openBytes_saved (hoff : VAULT_HEADER_SIZE ≤ off.toNat) (hend : off.toNat ≤ F.length)
    (hfit : off.toNat ≤ maxLen) (hv : unlock cr F password = some v) :
    openBytes cr (saved F off.toNat blob) password =
      (readMetadata cr v (blob.take METADATA_LIMIT)).map (·, v, off) := by
  have hsize : VAULT_HEADER_SIZE = 125 := rfl
  have hv' : unlock cr (saved F off.toNat blob) password = some v := by
    rw [← hv]
    exact unlock_congr (slice_saved (by omega) (by omega) hend)
  rw [openBytes_of_unlock (by rw [length_saved (by omega) hend]; omega) hv'
    (by rw [masterPointer_saved]; exact hfit), masterPointer_saved,
    slice, drop_saved (by omega) hend]

theorem Seals.length (hi : cr.Ideal) (h : Seals cr v m blob) :
    ∃ b, cr.serialize m = .ok b ∧ blob.length = b.length + CHUNK_OVERHEAD := by
  obtain ⟨b, salt, nonce, hb, hs, hn, hblob⟩ := h
  exact ⟨b, hb, length_sealChunk hi hs hn hblob⟩

theorem Seals.readMetadata (hi : cr.Ideal) (h : Seals cr v m blob) :
    readMetadata cr v blob = some m := by
  obtain ⟨b, salt, nonce, hb, hs, hn, hblob⟩ := h
  simp [AtomVault.readMetadata, decryptChunk_sealChunk hi hs hn hblob, hi.deserialize_serialize hb,
    Except.toOption]

theorem fits_iff (hi : cr.Ideal) (h : Seals cr v m blob) :
    Fits cr m ↔ blob.length ≤ METADATA_LIMIT := by
  obtain ⟨b, hb, hlen⟩ := h.length hi
  constructor
  · rintro ⟨b', hb', hle⟩
    obtain rfl : b = b' := by rw [hb] at hb'; exact Except.ok.inj hb'
    omega
  · intro hle
    exact ⟨b, hb, by omega⟩

theorem Seals.fits_of_take (hi : cr.Ideal) (h : Seals cr v m blob)
    (hread : AtomVault.readMetadata cr v (blob.take METADATA_LIMIT) ≠ none) : Fits cr m := by
  by_contra hbig
  rw [fits_iff hi h] at hbig
  obtain ⟨b, salt, nonce, hb, hs, hn, hblob⟩ := h
  obtain ⟨e, he⟩ := decryptChunk_take hi hs hn hblob (not_le.mp hbig)
  apply hread
  simp [AtomVault.readMetadata, he, Except.toOption]

theorem Seals.readMetadata_take (hi : cr.Ideal) (h : Seals cr v m blob) (hfits : Fits cr m) :
    AtomVault.readMetadata cr v (blob.take METADATA_LIMIT) = some m := by
  rw [List.take_of_length_le ((fits_iff hi h).mp hfits)]
  exact h.readMetadata hi

end Saved

theorem save_total (hi : cr.Ideal) {m : VaultMetadata} {off : UInt64} {b : Bytes}
    (hf : s.host.fault = none) (hend : off.toNat ≤ (s.host.data fd).length)
    (hb : cr.serialize m = .ok b) (hsmall : b.length < 2 ^ 32)
    (hfit : off.toNat + (b.length + CHUNK_OVERHEAD) ≤ maxLen) :
    ∃ s', saveVaultMetadata cr fd m v off s = .ok () s' := by
  have hspec : wp (saveVaultMetadata cr fd m v off) (fun _ _ => True) (fun _ _ => False) s := by
    apply wp_save hi hend
    · rintro e s' (⟨-, hfault | ⟨blob, hseals, hfull⟩⟩ | ⟨b', hb', hbig⟩) _ _
      · exact hfault hf
      · obtain ⟨b', hb', hlen⟩ := hseals.length hi
        rw [hb] at hb'
        cases hb'
        omega
      · rw [hb] at hb'
        cases hb'
        omega
    · exact fun _ _ _ _ _ _ => trivial
  obtain ⟨⟨⟩, s', hs', -⟩ := ok_of_wp hspec
  exact ⟨s', hs'⟩

theorem openBytes_after_save (hi : cr.Ideal) {s s' : Env σ} {m : VaultMetadata} {off : UInt64}
    (hv : unlock cr (s.host.data fd) password = some v) (hoff : VAULT_HEADER_SIZE ≤ off.toNat)
    (hend : off.toNat ≤ (s.host.data fd).length)
    (hsave : saveVaultMetadata cr fd m v off s = .ok () s') :
    openBytes cr (s'.host.data fd) password = some (m, v, off) ↔ Fits cr m := by
  have hspec : wp (saveVaultMetadata cr fd m v off) (fun _ s' => ∃ blob, Seals cr v m blob ∧
      s'.host.data fd = saved (s.host.data fd) off.toNat blob) (fun _ _ => True) s := by
    apply wp_save hi hend
    · exact fun _ _ _ _ _ => trivial
    · intro blob s' hseals _ hdata _
      exact ⟨blob, hseals, hdata⟩
  obtain ⟨blob, hseals, hdata⟩ := wp_of_ok hspec hsave
  rw [hdata, openBytes_saved hoff hend (hend.trans (Host.data_fits _ _)) hv]
  constructor
  · intro h
    apply hseals.fits_of_take hi
    intro hnone
    simp [hnone] at h
  · intro hfits
    rw [hseals.readMetadata_take hi hfits]
    rfl

/-- **Save then load.** What was saved loads back, with the key and the offset, exactly if its
blob is within the reader's limit. -/
theorem load_after_save (hi : cr.Ideal) {s s' : Env σ} {m : VaultMetadata} {off : UInt64}
    (hv : unlock cr (s.host.data fd) password = some v) (hoff : VAULT_HEADER_SIZE ≤ off.toNat)
    (hend : off.toNat ≤ (s.host.data fd).length)
    (hsave : saveVaultMetadata cr fd m v off s = .ok () s') :
    (∃ s'', loadVaultMetadata cr fd password (s'.setFault none) = .ok (m, v, off) s'') ↔
      ∃ b, cr.serialize m = .ok b ∧ b.length + CHUNK_OVERHEAD ≤ METADATA_LIMIT := by
  have hopen := openBytes_after_save hi hv hoff hend hsave
  rw [load_eq_ok_iff rfl]
  exact hopen

section Sample

def sampleVault : UnlockedVault := ⟨List.replicate 32 7⟩

/-- The header of a vault with the password `pw`. -/
def sampleHeader : Bytes :=
  let salt := List.replicate SALT_LEN 1
  let nonce := List.replicate XNONCE_LEN 2
  let kek := Standin.pad32 (ascii "pw" ++ salt)
  leBytes 8 VAULT_HEADER_SIZE ++ KdfSettings.toBytes ⟨.argon2id, 1, 1, 1⟩ ++ salt ++ nonce ++
    (Standin.tag kek nonce [] sampleVault.dek ++ sampleVault.dek)

def sampleHost : Env Unit := ⟨Host.blank.setFile 0 ⟨sampleHeader, by decide +kernel⟩, ()⟩

/-- A table of one file with `k` chunks. -/
def sampleTable (k : Nat) : VaultMetadata :=
  ⟨[⟨"f", List.replicate k ⟨0, 0, METADATA_FILE_ID, 0⟩, 0⟩], List.Vector.replicate 32 0⟩

theorem unlock_sample : unlock standin (sampleHost.host.data 0) "pw" = some sampleVault := by
  decide +kernel

theorem length_sample : UInt64.toNat 125 ≤ (sampleHost.host.data 0).length := by decide +kernel

theorem length_sampleTable {k : Nat} (h : k < 2 ^ 20) :
    (Bincode.vaultMetadata.enc (sampleTable k)).length = 65 + k * 40 := by
  have hname : "f".toUTF8.data.toList.length = 1 := by decide
  have hcount : (List.replicate k (⟨0, 0, METADATA_FILE_ID, 0⟩ : ChunkEntry)).length = k :=
    List.length_replicate
  unfold sampleTable
  rw [Bincode.length_vaultMetadata, hname, hcount]
  · rw [hname]; decide
  · rw [hcount, Bincode.marker]; omega

theorem save_sampleTable {k : Nat} (h : k < 2 ^ 20) :
    ∃ s', saveVaultMetadata standin 0 (sampleTable k) sampleVault 125 sampleHost = .ok () s' := by
  have hlen := length_sampleTable h
  have hoff : UInt64.toNat 125 = 125 := rfl
  have hover : CHUNK_OVERHEAD = 59 := rfl
  apply save_total standin_ideal rfl length_sample rfl
  · rw [hlen]; omega
  · rw [hlen, hoff, hover, maxLen]; omega

theorem load_after_save_small : ∃ s' s'',
    saveVaultMetadata standin 0 (sampleTable 3) sampleVault 125 sampleHost = .ok () s' ∧
    loadVaultMetadata standin 0 "pw" (s'.setFault none) = .ok (sampleTable 3, sampleVault, 125) s'' := by
  obtain ⟨s', hsave⟩ := save_sampleTable (k := 3) (by decide)
  have hfits : (Bincode.vaultMetadata.enc (sampleTable 3)).length + CHUNK_OVERHEAD ≤
      METADATA_LIMIT := by
    rw [length_sampleTable (by decide)]
    decide
  obtain ⟨s'', hload⟩ := (load_after_save standin_ideal unlock_sample (by decide)
    length_sample hsave).mpr ⟨_, rfl, hfits⟩
  exact ⟨s', s'', hsave, hload⟩

/-- A table of 262144 chunks, 2 GiB of payload, is saved and cannot be loaded. -/
theorem load_after_save_large : ¬∀ (s s' : Env Unit) (m : VaultMetadata) (off : UInt64),
    unlock standin (s.host.data 0) "pw" = some sampleVault → VAULT_HEADER_SIZE ≤ off.toNat →
    off.toNat ≤ (s.host.data 0).length →
    saveVaultMetadata standin 0 m sampleVault off s = .ok () s' →
    ∃ s'', loadVaultMetadata standin 0 "pw" (s'.setFault none) = .ok (m, sampleVault, off) s'' := by
  intro hall
  obtain ⟨s', hsave⟩ := save_sampleTable (k := 262144) (by decide)
  have hload := hall _ s' _ 125 unlock_sample (by decide) length_sample hsave
  rw [load_eq_ok_iff rfl] at hload
  obtain ⟨b, hb, hle⟩ := (openBytes_after_save standin_ideal unlock_sample (by decide)
    length_sample hsave).mp hload
  cases hb
  rw [length_sampleTable (by decide)] at hle
  exact absurd hle (by decide)

end Sample

end AtomVault
