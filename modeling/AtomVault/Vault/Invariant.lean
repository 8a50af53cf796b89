import AtomVault.Vault.Layout

/-!
# The invariant of a session

`Sound` holds at every moment a command can leave the session in. `Stored` holds after a
save, when the file describes the session.
-/

open Lib

namespace AtomVault

@[simp]
theorem wp_session (Q : Session → Env Session → Prop) (E : VaultError → Env Session → Prop)
    (s : Env Session) : wp session Q E s ↔ Q s.vars s := Iff.rfl

@[simp]
theorem wp_update (f : Session → Session) (Q : Unit → Env Session → Prop)
    (E : VaultError → Env Session → Prop) (s : Env Session) :
    wp (update f) Q E s ↔ Q () { s with vars := f s.vars } := Iff.rfl

/-- The session's file is the one at its path, the chunks are packed behind the header `H`, and
the payload is in the file. -/
structure Sound (H : Bytes) (s : Env Session) : Prop where
  named : s.host.names s.vars.vaultPath = some (s.host.ino s.vars.fd)
  fresh : ∀ path i, s.host.names path = some i → i < s.host.nextIno
  fd_lt : s.vars.fd < s.host.nextFd
  layout : Layout s.vars.metadata.fileTable s.vars.currentPayloadOffset.toNat
  header : slice (s.host.data s.vars.fd) 8 (VAULT_HEADER_SIZE - 8) = H
  header_le : VAULT_HEADER_SIZE ≤ s.vars.currentPayloadOffset.toNat
  fits : s.vars.currentPayloadOffset.toNat ≤ (s.host.data s.vars.fd).length

/-- The pointer is the payload offset, and a blob of the table fills the file from there on. -/
structure Stored (cr : Crates) (s : Env Session) : Prop where
  pointer : masterPointer (s.host.data s.vars.fd) = s.vars.currentPayloadOffset
  blob : ∃ blob, Seals cr s.vars.unlockedVault s.vars.metadata blob ∧
    (s.host.data s.vars.fd).drop s.vars.currentPayloadOffset.toNat = blob ∧
    (s.host.data s.vars.fd).length = s.vars.currentPayloadOffset.toNat + blob.length

variable {cr : Crates} {H : Bytes} {s s' : Env Session} {password : String}

theorem Sound.of_sameFile (hs : Sound H s) (h : SameFile s.vars.fd s.host s'.host)
    (hpath : s'.vars.vaultPath = s.vars.vaultPath) (hfd : s'.vars.fd = s.vars.fd)
    (hlayout : Layout s'.vars.metadata.fileTable s'.vars.currentPayloadOffset.toNat)
    (hoff : VAULT_HEADER_SIZE ≤ s'.vars.currentPayloadOffset.toNat)
    (hfits : s'.vars.currentPayloadOffset.toNat ≤ (s'.host.data s.vars.fd).length)
    (hheader : slice (s'.host.data s.vars.fd) 8 (VAULT_HEADER_SIZE - 8) =
      slice (s.host.data s.vars.fd) 8 (VAULT_HEADER_SIZE - 8)) : Sound H s' where
  named := by rw [hpath, hfd, h.names, h.ino]; exact hs.named
  fresh := by rw [h.names, h.nextIno]; exact hs.fresh
  fd_lt := by rw [hfd]; exact lt_of_lt_of_le hs.fd_lt h.nextFd
  layout := hlayout
  header := by rw [hfd, hheader]; exact hs.header
  header_le := hoff
  fits := by rw [hfd]; exact hfits

theorem header_of_take {F F' : Bytes} {off : Nat} (hoff : VAULT_HEADER_SIZE ≤ off)
    (h : F'.take off = F.take off) :
    slice F' 8 (VAULT_HEADER_SIZE - 8) = slice F 8 (VAULT_HEADER_SIZE - 8) := by
  have hsize : VAULT_HEADER_SIZE = 125 := rfl
  rw [← slice_take F' _ _ off (by omega), ← slice_take F _ _ off (by omega), h]

theorem Sound.of_still (hs : Sound H s) (a : Still s s') : Sound H s' := by
  refine hs.of_sameFile ((a.moves s.vars.fd).toConfined.sameFile _) (by rw [a.vars])
    (by rw [a.vars]) ?_ ?_ ?_ (by rw [a.data])
  · rw [a.vars]; exact hs.layout
  · rw [a.vars]; exact hs.header_le
  · rw [a.vars, a.data]; exact hs.fits

/-- A save of the session that went through. -/
structure Saves (cr : Crates) (blob : Bytes) (s s' : Env Session) : Prop where
  seals : Seals cr s.vars.unlockedVault s.vars.metadata blob
  touches : Touches s.vars.fd s s'
  data : s'.host.data s.vars.fd =
    saved (s.host.data s.vars.fd) s.vars.currentPayloadOffset.toNat blob
  writes : s'.host.writes = s.host.writes + 3

/-- A save of the session that stopped after `j` of its writes. -/
structure SaveStops (cr : Crates) (s s' : Env Session) : Prop where
  touches : Touches s.vars.fd s s'
  stage : torn s.host.fault = 0 → ∃ j ≤ 3, s'.host.writes = s.host.writes + j ∧
    (j = 0 ∧ s'.host.data s.vars.fd = s.host.data s.vars.fd ∨
      ∃ blob, Seals cr s.vars.unlockedVault s.vars.metadata blob ∧ s'.host.data s.vars.fd =
        saveStage (s.host.data s.vars.fd) s.vars.currentPayloadOffset.toNat blob j)

theorem wp_saveSession (hi : cr.Ideal) {Q : Unit → Env Session → Prop}
    {E : VaultError → Env Session → Prop}
    (hoff : s.vars.currentPayloadOffset.toNat ≤ (s.host.data s.vars.fd).length)
    (herr : ∀ e s', SaveFails cr s.vars.unlockedVault s.vars.metadata
      s.vars.currentPayloadOffset.toNat s.host e → SaveStops cr s s' → E e s')
    (hok : ∀ blob s', Saves cr blob s s' → Q () s') :
    wp (saveSession cr) Q E s := by
  unfold saveSession
  rw [wp_bind, wp_session, wp_bind]
  apply wp_save hi hoff
  · intro e s' hwhy a hstage
    exact herr e s' hwhy ⟨a, hstage⟩
  intro blob s1 hseals a1 d1 w1
  apply wp_sync
  · intro hf t s' a
    refine herr _ s' (Or.inl ⟨⟨t, rfl⟩, Or.inl (a1.fault.ne_none hf)⟩) ⟨a1.trans (a.touches _), ?_⟩
    intro _
    exact ⟨3, le_refl 3, by rw [a.writes, w1], Or.inr ⟨blob, hseals, by rw [a.data, d1]; rfl⟩⟩
  intro s2 a2 d2 _ _ w2
  exact hok blob s2 ⟨hseals, a1.trans a2, d2.trans d1, w2.trans w1⟩

theorem Sound.of_saves (hs : Sound H s) {blob : Bytes} (h : Saves cr blob s s') :
    Sound H s' ∧ Stored cr s' := by
  obtain ⟨hseals, a, hdata, -⟩ := h
  have hsize : VAULT_HEADER_SIZE = 125 := rfl
  have hle := hs.header_le
  have hlen : (s'.host.data s.vars.fd).length = s.vars.currentPayloadOffset.toNat + blob.length := by
    rw [hdata]
    exact length_saved (by omega) hs.fits
  refine ⟨hs.of_sameFile (a.toConfined.sameFile _) (by rw [a.vars]) (by rw [a.vars]) ?_ ?_ ?_ ?_,
    ⟨?_, blob, ?_, ?_, ?_⟩⟩
  · rw [a.vars]; exact hs.layout
  · rw [a.vars]; exact hle
  · rw [a.vars, hlen]; omega
  · rw [hdata]
    exact slice_saved (by omega) (by omega) hs.fits
  · rw [a.vars, hdata]
    exact masterPointer_saved
  · rw [a.vars]; exact hseals
  · rw [a.vars, hdata]
    exact drop_saved (by omega) hs.fits
  · rw [a.vars]; exact hlen

theorem readFile_saved {v : UnlockedVault} {F blob : Bytes} {table : List FileIndex} {off : Nat}
    (hl : Layout table off) (hoff : off ≤ F.length) {f : FileIndex} (hf : f ∈ table) :
    readFile cr v (saved F off blob) f.chunks = readFile cr v F f.chunks := by
  apply readFile_congr
  intro e he
  have hlo := hl.packed.lo_le _ (mem_extents hf he)
  have hsize : VAULT_HEADER_SIZE = 125 := rfl
  exact slice_saved (by omega) (hl.packed.le_hi _ (mem_extents hf he)) hoff

end AtomVault
