import AtomVault.Vault.Invariant

/-!
# What an import does

The chunk loop appends sealed chunks at the payload offset. Whether it finishes or stops
half way, every byte below the offset it started at is what it was.
-/

open Lib

namespace AtomVault

/-- `fetch` reads `data`, from memory or from the descriptor `src`. -/
structure Fetches (fd src : Nat) (data : Bytes) (P : Host → Prop)
    (fetch : ChunkData → Cmd Bytes) : Prop where
  apart : src ≠ fd
  stable : ∀ {h h'}, P h → Confined fd h h' → P h'
  spec : ∀ {s : Env Session} {c : ChunkData} {Q E}, P s.host → c.offset + c.length ≤ data.length →
    (s.host.fault ≠ none → ∀ t s', Moves src s s' → E (.io t) s') →
    (∀ s', Moves src s s' → Q (slice data c.offset c.length) s') → wp (fetch c) Q E s

/-- An import between `s` and `s'` that has not reached the table: at most `n` chunks are
written, past the old payload offset. -/
structure Partial (n : Nat) (s s' : Env Session) : Prop where
  host : SameFile s.vars.fd s.host s'.host
  vars : s'.vars = { s.vars with currentPayloadOffset := s'.vars.currentPayloadOffset }
  grows : s.vars.currentPayloadOffset.toNat ≤ s'.vars.currentPayloadOffset.toNat
  fits : s'.vars.currentPayloadOffset.toNat ≤ (s'.host.data s.vars.fd).length
  keeps : (s'.host.data s.vars.fd).take s.vars.currentPayloadOffset.toNat =
    (s.host.data s.vars.fd).take s.vars.currentPayloadOffset.toNat
  writes_le : s.host.writes ≤ s'.host.writes
  le_writes : s'.host.writes ≤ s.host.writes + n
  untouched : torn s.host.fault = 0 → s'.host.writes = s.host.writes →
    s'.host.data s.vars.fd = s.host.data s.vars.fd

theorem Partial.fd {n : Nat} {s s' : Env Session} (a : Partial n s s') : s'.vars.fd = s.vars.fd := by
  rw [a.vars]

theorem take_eq_of_take_eq {f g : Bytes} {m n : Nat} (h : f.take n = g.take n) (hle : m ≤ n) :
    f.take m = g.take m := by
  rw [← min_eq_left hle, ← List.take_take, h, List.take_take]

theorem Partial.trans {n k : Nat} {s s' s'' : Env Session} (a : Partial n s s')
    (b : Partial k s' s'') : Partial (n + k) s s'' := by
  have hfd := a.fd
  have hb := b.host
  rw [hfd] at hb
  have bkeeps := b.keeps
  have bfits := b.fits
  have buntouched := b.untouched
  rw [hfd] at bkeeps bfits buntouched
  have := a.writes_le
  have := a.le_writes
  have := b.writes_le
  have := b.le_writes
  refine ⟨a.host.trans hb, ?_, le_trans a.grows b.grows, bfits, ?_, by omega, by omega, ?_⟩
  · rw [b.vars, a.vars]
  · exact (take_eq_of_take_eq bkeeps a.grows).trans a.keeps
  · intro ht hw
    rw [buntouched (by rw [a.host.fault.torn_eq, ht]) (by omega), a.untouched ht (by omega)]

theorem Partial.mono {n k : Nat} {s s' : Env Session} (a : Partial n s s') (h : n ≤ k) :
    Partial k s s' :=
  { a with le_writes := le_trans a.le_writes (by omega) }

theorem Partial.of_moves {fd : Nat} {s s' : Env Session} (a : Moves fd s s')
    (hoff : s.vars.currentPayloadOffset.toNat ≤ (s.host.data s.vars.fd).length) :
    Partial 0 s s' where
  host := (a.confined fd).sameFile _
  vars := by rw [a.vars]
  grows := by rw [a.vars]
  fits := by rw [a.vars, a.data]; exact hoff
  keeps := by rw [a.data]
  writes_le := le_of_eq a.writes.symm
  le_writes := le_of_eq a.writes
  untouched _ _ := a.data _

theorem Partial.of_torn {s s' : Env Session} {b : Bytes}
    (a : Touches s.vars.fd s s')
    (hoff : s.vars.currentPayloadOffset.toNat ≤ (s.host.data s.vars.fd).length)
    (hdata : ∃ k ≤ torn s.host.fault, s'.host.data s.vars.fd =
      patch (s.host.data s.vars.fd) s.vars.currentPayloadOffset.toNat (b.take k))
    (hw : s'.host.writes = s.host.writes) : Partial 0 s s' := by
  obtain ⟨k, hk, hdata⟩ := hdata
  refine ⟨a.toConfined.sameFile _, by rw [a.vars], by rw [a.vars], ?_, ?_, by omega, by omega, ?_⟩
  · rw [a.vars, hdata, length_patch]
    omega
  · rw [hdata, take_patch _ _ _ _ (le_refl _) hoff]
  · intro ht _
    obtain rfl : k = 0 := by omega
    rw [hdata, List.take_zero, patch_nil hoff]

theorem Partial.of_written {s s' : Env Session} {b : Bytes}
    (a : Touches s.vars.fd s s')
    (hoff : s.vars.currentPayloadOffset.toNat ≤ (s.host.data s.vars.fd).length)
    (hfit : s.vars.currentPayloadOffset.toNat + b.length ≤ maxLen)
    (hdata : s'.host.data s.vars.fd =
      patch (s.host.data s.vars.fd) s.vars.currentPayloadOffset.toNat b)
    (hw : s'.host.writes = s.host.writes + 1) :
    Partial 1 s { s' with vars := s'.vars.advance b.length } ∧
      (s'.vars.advance b.length).currentPayloadOffset.toNat =
        s.vars.currentPayloadOffset.toNat + b.length := by
  have hadd : (s'.vars.advance b.length).currentPayloadOffset.toNat =
      s.vars.currentPayloadOffset.toNat + b.length := by
    unfold maxLen at hfit
    unfold Session.advance
    rw [a.vars]
    simp only [UInt64.toNat_add, UInt64.toNat_ofNat']
    omega
  refine ⟨⟨a.toConfined.sameFile _, ?_, ?_, ?_, ?_, ?_, ?_, ?_⟩, hadd⟩ <;> dsimp only
  · rw [Session.advance, a.vars]
  · omega
  · rw [hadd, hdata, length_patch]
    omega
  · rw [hdata, take_patch _ _ _ _ (le_refl _) hoff]
  · omega
  · omega
  · omega

/-- `es` are new chunks between `off` and `off'`, and they hold `plain`. -/
structure Appended (cr : Crates) (v : UnlockedVault) (F : Bytes) (off : Nat) (plain : Bytes)
    (es : List ChunkEntry) (F' : Bytes) (off' : Nat) : Prop where
  chain : Chain off (es.map (·.extent)) off'
  reads : readFile cr v F' es = some plain
  keeps : F'.take off = F.take off

theorem Appended.cons {cr : Crates} {v : UnlockedVault} {F F₁ F' : Bytes} {off off₁ off' : Nat}
    {plain rest : Bytes} {e : ChunkEntry} {es : List ChunkEntry} (hstart : e.extent.start = off)
    (hstop : e.extent.stop = off₁) (hread : readChunk cr v F₁ e = some plain)
    (hkeeps : F₁.take off = F.take off) (h : Appended cr v F₁ off₁ rest es F' off') :
    Appended cr v F off (plain ++ rest) (e :: es) F' off' := by
  have hoff : off ≤ off₁ := by rw [← hstart, ← hstop]; simp [Extent.stop]
  refine ⟨⟨hstart, by rw [hstop]; exact h.chain⟩, ?_, ?_⟩
  · have hext : e.extent.read F' = e.extent.read F₁ := by
      unfold Extent.read
      rw [← slice_take F' _ _ off₁ (by rw [← hstop]; rfl),
        ← slice_take F₁ _ _ off₁ (by rw [← hstop]; rfl), h.keeps]
    simp [readFile, readChunk_congr hext rfl rfl, hread, h.reads]
  · exact (take_eq_of_take_eq h.keeps hoff).trans hkeeps

theorem readChunk_sealed {cr : Crates} {v : UnlockedVault} (hi : cr.Ideal)
    {plain noise blob : Bytes} {fileId : FileId} {salt nonce : Bytes} (F : Bytes) (off : UInt64)
    (hs : salt.length = FILE_SALT_LEN) (hn : nonce.length = XNONCE_LEN) (hpos : 0 < plain.length)
    (hplain : plain.length ≤ MAX_CHUNK_SIZE) (hblob : blob.length < 2 ^ 64)
    (h : sealChunk cr v (plain ++ noise) fileId salt nonce = .ok blob) :
    readChunk cr v (patch F off.toNat blob)
      ⟨UInt64.ofNat blob.length, off, fileId, UInt64.ofNat plain.length⟩ = some plain := by
  have hlen : (UInt64.ofNat blob.length).toNat = blob.length := UInt64.toNat_ofNat_of_lt hblob
  have hplen : (UInt64.ofNat plain.length).toNat = plain.length :=
    UInt64.toNat_ofNat_of_lt (by unfold MAX_CHUNK_SIZE at hplain; simp [UInt64.size]; omega)
  have hgt : UInt64.ofNat plain.length > 0 := by
    rw [gt_iff_lt, UInt64.lt_iff_toNat_lt, hplen]
    exact hpos
  have hfits : plain.length ≤ (plain ++ noise).length := by simp
  unfold readChunk
  simp only [ChunkEntry.extent, Extent.read, hlen, slice_patch_self,
    decryptChunk_sealChunk hi hs hn h, stripPadding, hgt, if_true, hplen, hfits, List.take_left]

variable {cr : Crates} {fd src : Nat} {data : Bytes} {P : Host → Prop} {fetch : ChunkData → Cmd Bytes}

theorem Tiles.end_le {cs : List ChunkData} : ∀ {p n : Nat}, Tiles p cs n → p ≤ n := by
  induction cs with
  | nil => intro p n h; exact le_of_eq h
  | cons c cs ih =>
    rintro p n ⟨-, -, -, h⟩
    exact le_trans (by omega) (ih h)

theorem drop_eq_slice_append (f : Bytes) (p n : Nat) : f.drop p = slice f p n ++ f.drop (p + n) := by
  rw [slice, ← List.drop_drop, List.take_append_drop]

/-- What `encryptChunk` makes of a padded chunk. -/
def SEALED_CHUNK : Nat := MAX_CHUNK_SIZE + CHUNK_OVERHEAD

/-- The host has a fault in store, or no room for `n` more chunks. -/
def Cramped (n : Nat) (s : Env Session) : Prop :=
  s.host.fault ≠ none ∨ maxLen < s.vars.currentPayloadOffset.toNat + n * SEALED_CHUNK

theorem Cramped.before {n : Nat} {s s' : Env Session} (h : Cramped n s')
    (hfault : GoesOn s.host.fault s'.host.fault) (hvars : s'.vars = s.vars) : Cramped n s := by
  unfold Cramped at h
  rw [hvars] at h
  exact h.imp_left hfault.ne_none

theorem wp_importChunk (hi : cr.Ideal) (hf : Fetches fd src data P fetch) {c : ChunkData}
    {s : Env Session} {Q : ChunkEntry → Env Session → Prop} {E : VaultError → Env Session → Prop}
    (hpos : 0 < c.length) (hmax : c.length ≤ MAX_CHUNK_SIZE)
    (hend : c.offset + c.length ≤ data.length) (hfd : s.vars.fd = fd) (hP : P s.host)
    (hcur : s.host.pos fd = s.vars.currentPayloadOffset.toNat)
    (hoff : s.vars.currentPayloadOffset.toNat ≤ (s.host.data fd).length)
    (herr : s.host.fault ≠ none ∨ maxLen < s.vars.currentPayloadOffset.toNat + SEALED_CHUNK →
      ∀ t s', Partial 0 s s' → E (.io t) s')
    (hok : ∀ e s', Partial 1 s s' → Confined fd s.host s'.host →
      s'.host.writes = s.host.writes + 1 → s'.host.pos fd = s'.vars.currentPayloadOffset.toNat →
      s'.vars.currentPayloadOffset.toNat = s.vars.currentPayloadOffset.toNat + SEALED_CHUNK →
      e.extent.start = s.vars.currentPayloadOffset.toNat →
      e.extent.stop = s'.vars.currentPayloadOffset.toNat →
      readChunk cr s.vars.unlockedVault (s'.host.data fd) e = some (slice data c.offset c.length) →
      Q e s') :
    wp (importChunk cr fetch c) Q E s := by
  subst hfd
  have hmoved : ∀ {s₁ : Env Session}, Moves src s s₁ → s₁.host.fault ≠ none → ∀ t s', Still s₁ s' →
      E (.io t) s' := by
    intro s₁ m hfault t s' a
    exact herr (Or.inl (m.fault.ne_none hfault)) t s' (Partial.of_moves (m.trans (a.moves src)) hoff)
  unfold importChunk
  rw [wp_bind]
  apply hf.spec hP hend
  · intro hfault t s' m
    exact herr (Or.inl hfault) t s' (Partial.of_moves m hoff)
  intro s1 m1
  rw [wp_bind]
  apply wp_draw
  intro noise s2 a2
  replace m1 := m1.trans (a2.moves src)
  rw [wp_bind]
  apply wp_probe
  · exact hmoved m1
  intro s3 a3
  replace m1 := m1.trans (a3.moves src)
  rw [wp_bind]
  apply wp_draw
  intro fileId s4 a4
  replace m1 := m1.trans (a4.moves src)
  rw [wp_bind, wp_session, wp_bind]
  apply wp_encryptChunk
  intro salt nonce s5 hsalt hnonce a5
  have hvars : s4.vars = s.vars := m1.vars
  replace m1 := m1.trans (a5.moves src)
  have hplain : (slice data c.offset c.length).length = c.length := length_slice _ _ _ hend
  have hpadded : (slice data c.offset c.length ++ noise.toList).length = MAX_CHUNK_SIZE := by
    rw [List.length_append, hplain, noise.toList_length]
    omega
  rw [wp_bind]
  apply wp_ofExcept
  case herr =>
    -- A padded chunk is short enough to seal.
    intro e he
    obtain ⟨blob, hblob⟩ := sealChunk_total hi s4.vars.unlockedVault fileId salt nonce
      (hpadded.trans_lt (by decide))
    rw [hblob] at he
    cases he
  intro blob hblob
  have hlen := length_sealChunk hi hsalt hnonce hblob
  rw [hpadded] at hlen
  have hblen : blob.length < 2 ^ 64 := by rw [hlen]; decide
  rw [hvars] at hblob
  have hfd5 : s4.vars.fd = s5.vars.fd := by rw [hvars, m1.vars]
  have hoff5 : s5.vars.currentPayloadOffset.toNat ≤ (s5.host.data s5.vars.fd).length := by
    rw [m1.data, m1.vars]
    exact hoff
  have hcur5 : s5.host.pos s5.vars.fd = s5.vars.currentPayloadOffset.toNat := by
    rw [m1.vars, m1.pos _ hf.apart.symm, hcur]
  have hpart := Partial.of_moves m1 hoff
  rw [hfd5, wp_bind]
  apply wp_writeAll (by rw [hcur5]; exact hoff5)
  case herr =>
    rintro hwhy t s' a ⟨k, hk, hdata, -⟩ hw
    rw [hcur5] at hdata hwhy
    rw [hlen, m1.vars] at hwhy
    exact herr (hwhy.imp_left m1.fault.ne_none) t s'
      (hpart.trans (Partial.of_torn a hoff5 ⟨k, hk, hdata⟩ hw))
  intro s6 hfit t6 d6 p6 _ w6
  rw [hcur5] at hfit d6 p6
  obtain ⟨hpart6, hadd⟩ := Partial.of_written t6 hoff5 hfit d6 w6
  rw [wp_bind, wp_update]
  have hvars5 : s5.vars = s.vars := m1.vars
  rw [hvars5] at hadd p6 d6
  have hconf : Confined s.vars.fd s.host s6.host := by
    rw [← hvars5]
    exact (m1.confined _).trans t6.toConfined
  refine hok _ _ ((hpart.trans hpart6).mono (by simp)) hconf ?_ ?_ ?_ ?_ ?_ ?_
  · exact w6.trans (congrArg (· + 1) m1.writes)
  · show s6.host.pos s.vars.fd = _
    rw [hadd]
    exact p6
  · exact hadd.trans (congrArg _ hlen)
  · show s4.vars.currentPayloadOffset.toNat = _
    rw [hvars]
  · show s4.vars.currentPayloadOffset.toNat + (UInt64.ofNat blob.length).toNat = _
    rw [hadd, hvars]
    exact congrArg _ (UInt64.toNat_ofNat_of_lt hblen)
  · show readChunk cr _ (s6.host.data s.vars.fd) _ = _
    have hread := readChunk_sealed hi (s.host.data s.vars.fd) s.vars.currentPayloadOffset
      hsalt hnonce (by omega) (by omega) hblen hblob
    rw [hplain] at hread
    rw [d6, m1.data, hvars]
    exact hread

theorem wp_importChunks (hi : cr.Ideal) (hf : Fetches fd src data P fetch) :
    ∀ {cs : List ChunkData} {s : Env Session} {p : Nat} {acc : List ChunkEntry}
      {Q : List ChunkEntry → Env Session → Prop} {E : VaultError → Env Session → Prop},
    Tiles p cs data.length → s.vars.fd = fd → P s.host →
    s.host.pos fd = s.vars.currentPayloadOffset.toNat →
    s.vars.currentPayloadOffset.toNat ≤ (s.host.data fd).length →
    (Cramped cs.length s → ∀ t s', Partial cs.length s s' → E (.io t) s') →
    (∀ es s', Partial cs.length s s' → Confined fd s.host s'.host →
      s'.host.writes = s.host.writes + cs.length → es.length = cs.length →
      s'.vars.currentPayloadOffset.toNat =
        s.vars.currentPayloadOffset.toNat + cs.length * SEALED_CHUNK →
      Appended cr s.vars.unlockedVault (s.host.data fd) s.vars.currentPayloadOffset.toNat
        (data.drop p) es (s'.host.data fd) s'.vars.currentPayloadOffset.toNat →
      Q (acc ++ es) s') →
    wp (importChunks cr fetch cs acc) Q E s := by
  intro cs
  induction cs with
  | nil =>
    intro s p acc Q E ht hfd _ _ hoff _ hok
    unfold importChunks
    rw [wp_pure, ← List.append_nil acc]
    have hdrop : data.drop p = [] := List.drop_eq_nil_of_le (ge_of_eq ht)
    refine hok [] s (Partial.of_moves (Moves.refl fd s) (by rwa [hfd])) (Confined.refl _ _) rfl rfl
      (by simp) ⟨rfl, ?_, rfl⟩
    rw [hdrop]
    rfl
  | cons c cs ih =>
    rintro s p acc Q E ⟨rfl, hpos, hmax, ht⟩ hfd hP hcur hoff herr hok
    unfold importChunks
    rw [wp_bind]
    apply wp_importChunk hi hf hpos hmax (Tiles.end_le ht) hfd hP hcur hoff
    · intro hwhy t s' a
      refine herr (hwhy.imp_right fun hfull => ?_) t s' (a.mono (by simp))
      rw [List.length_cons, Nat.add_mul]
      omega
    intro e s1 a1 hhost w1 hcur1 hgrown hstart hstop hread
    have hfd1 : s1.vars.fd = fd := a1.fd.trans hfd
    have hv1 : s1.vars.unlockedVault = s.vars.unlockedVault := by rw [a1.vars]
    have hfits := a1.fits
    have hkeeps := a1.keeps
    rw [hfd] at hfits hkeeps
    apply ih ht hfd1 (hf.stable hP hhost) hcur1 hfits
    · intro hwhy t s' a
      refine herr (hwhy.imp a1.host.fault.ne_none fun hfull => ?_) t s'
        ((a1.trans a).mono (by simp; omega))
      rw [hgrown] at hfull
      rw [List.length_cons, Nat.add_mul]
      omega
    intro es s' a hhost' w hcount hgrown' happ
    rw [List.append_assoc, List.singleton_append]
    rw [hv1] at happ
    refine hok (e :: es) s' ((a1.trans a).mono (by simp; omega)) (hhost.trans hhost')
      (by simp; omega) (by simp [hcount]) ?_ ?_
    · rw [hgrown', hgrown, List.length_cons, Nat.add_mul]
      omega
    rw [drop_eq_slice_append data c.offset c.length]
    exact happ.cons hstart hstop hread hkeeps

def chunkCount (cr : Crates) (data : Bytes) : Nat := (cr.chunkData data).toOption.elim 0 (·.length)

/-- The part of an import before its save. The new entry is in the table at the end. -/
theorem wp_importPayload (hi : cr.Ideal) (hf : Fetches fd src data P fetch) {s : Env Session}
    {name : String} {Q : Unit → Env Session → Prop} {E : VaultError → Env Session → Prop}
    (hfd : s.vars.fd = fd) (hP : P s.host)
    (hoff : s.vars.currentPayloadOffset.toNat ≤ (s.host.data fd).length)
    (herr : Cramped (chunkCount cr data) s → ∀ t s', Partial (chunkCount cr data) s s' →
      E (.io t) s')
    (hok : ∀ f s', Partial (chunkCount cr data) s s' → Confined fd s.host s'.host →
      s'.host.writes = s.host.writes + chunkCount cr data →
      f.vfsName = name ∧ f.chunks.length = chunkCount cr data →
      s'.vars.currentPayloadOffset.toNat =
        s.vars.currentPayloadOffset.toNat + chunkCount cr data * SEALED_CHUNK →
      Appended cr s.vars.unlockedVault (s.host.data fd) s.vars.currentPayloadOffset.toNat data
        f.chunks (s'.host.data fd) s'.vars.currentPayloadOffset.toNat →
      Q () { s' with vars := s'.vars.setTable (s.vars.metadata.fileTable ++ [f]) }) :
    wp (importPayload cr fetch data name) Q E s := by
  obtain ⟨cs, hcs, ht⟩ := hi.chunkData_tiles data
  have hcount : chunkCount cr data = cs.length := by simp [chunkCount, hcs, Except.toOption]
  rw [hcount] at herr hok
  unfold importPayload
  rw [wp_bind]
  apply wp_ofExcept
  case herr =>
    intro e he
    rw [hcs] at he
    cases he
  intro cs' hcs'
  obtain rfl : cs = cs' := by rw [hcs] at hcs'; exact Except.ok.inj hcs'
  rw [wp_bind, wp_session, wp_bind, hfd]
  apply wp_seek
  · intro hwhy t s' a
    refine herr (hwhy.imp_right fun hfar => ?_) t s'
      ((Partial.of_moves (a.moves fd) (by rwa [hfd])).mono (by simp))
    exact absurd hfar (not_lt.mpr (hoff.trans (Host.data_fits _ _)))
  intro s1 _ m1 p1
  have hpart1 := Partial.of_moves m1 (by rwa [hfd])
  have hvars1 : s1.vars = s.vars := m1.vars
  rw [wp_bind]
  apply wp_importChunks hi hf ht (by rw [hvars1, hfd]) (hf.stable hP m1.toConfined)
    (by rw [p1, hvars1]) (by rw [m1.data, hvars1]; exact hoff)
  · intro hwhy t s' a
    exact herr (hwhy.before m1.fault hvars1) t s' ((hpart1.trans a).mono (by simp))
  intro es s2 a2 hhost w2 hentries hgrown happ
  rw [wp_bind]
  apply wp_now
  rw [wp_bind, wp_session, wp_update, List.nil_append]
  have hpart2 := (hpart1.trans a2).mono (show 0 + cs.length ≤ cs.length by simp)
  have htable : s2.vars.metadata = s.vars.metadata := by rw [hpart2.vars]
  rw [htable]
  rw [hvars1, m1.data] at happ
  rw [hvars1] at hgrown
  rw [m1.writes] at w2
  exact hok _ s2 hpart2 (m1.toConfined.trans hhost) w2 ⟨rfl, hentries⟩ hgrown happ

/-! ## The two commands up to their save -/

section Prepare

variable {s : Env Session} {name : String}

theorem fetches_bytes (fd : Nat) (data : Bytes) :
    Fetches fd (fd + 1) data (fun _ => True) fun c => pure (slice data c.offset c.length) where
  apart := by omega
  stable _ _ := trivial
  spec _ _ _ hok := hok _ (Moves.refl _ _)

theorem fetches_file {src : Nat} (data : Bytes) (h : src ≠ fd) :
    Fetches fd src data (fun h => h.data src = data ∧ h.ino src ≠ h.ino fd) fun c => do
      Call.seek .io src c.offset
      Call.readExact .io src c.length where
  apart := h
  stable := by
    rintro h h' ⟨hd, hi⟩ a
    exact ⟨(a.data_of_ne hi).trans hd, by rw [a.ino, a.ino]; exact hi⟩
  spec := by
    rintro s c Q E ⟨hd, -⟩ hend herr hok
    have hfits := Host.data_fits s.host src
    rw [hd] at hfits
    rw [wp_bind]
    apply wp_seek
    · intro hwhy t s' a
      exact herr (hwhy.resolve_right (by omega)) t s' (a.moves src)
    intro s1 _ m1 p1
    apply wp_readExact
    · intro hwhy t s' a
      rw [m1.data, hd, p1] at hwhy
      exact herr (m1.fault.ne_none (hwhy.resolve_right (by omega))) t s' (m1.trans (a.moves src))
    intro s2 _ m2 _
    rw [p1, m1.data, hd]
    exact hok s2 (m1.trans m2)

theorem wp_importBytesPrepare (hi : cr.Ideal) {Q : Unit → Env Session → Prop}
    {E : VaultError → Env Session → Prop}
    (hoff : s.vars.currentPayloadOffset.toNat ≤ (s.host.data s.vars.fd).length)
    (hdup : hasName s.vars.metadata.fileTable name = true → E (alreadyExists name) s)
    (herr : Cramped (chunkCount cr data) s → ∀ t s', Partial (chunkCount cr data) s s' →
      E (.io t) s')
    (hok : ¬hasName s.vars.metadata.fileTable name = true → ∀ f s',
      Partial (chunkCount cr data) s s' → Confined s.vars.fd s.host s'.host →
      s'.host.writes = s.host.writes + chunkCount cr data →
      f.vfsName = name ∧ f.chunks.length = chunkCount cr data →
      s'.vars.currentPayloadOffset.toNat =
        s.vars.currentPayloadOffset.toNat + chunkCount cr data * SEALED_CHUNK →
      Appended cr s.vars.unlockedVault (s.host.data s.vars.fd) s.vars.currentPayloadOffset.toNat
        data f.chunks (s'.host.data s.vars.fd) s'.vars.currentPayloadOffset.toNat →
      Q () { s' with vars := s'.vars.setTable (s.vars.metadata.fileTable ++ [f]) }) :
    wp (importBytesPrepare cr data name) Q E s := by
  unfold importBytesPrepare
  rw [wp_bind, wp_session]
  split
  · rename_i h
    exact hdup h
  · rename_i h
    exact wp_importPayload hi (fetches_bytes _ data) rfl trivial hoff herr (hok h)

/-- What `handle_import` finds at the staged path. -/
def stagedBytes (h : Host) (env : PathEnv) (fromDisk : String) : Option Bytes := do
  let targetPath ← (env.stagedPath fromDisk).toOption
  let i ← h.names targetPath
  return (h.files i).bytes

theorem stagedBytes_of_path {h : Host} {env : PathEnv} {fromDisk path : String}
    (hpath : env.stagedPath fromDisk = .ok path) : stagedBytes h env fromDisk = h.contents path := by
  unfold stagedBytes Host.contents
  cases hi : h.names path <;> simp [hpath, hi, Except.toOption]

theorem Partial.of_opened {i : Nat} {s' : Env Session} (a : OpenedOld i s s')
    (hlt : s.vars.fd < s.host.nextFd)
    (hoff : s.vars.currentPayloadOffset.toNat ≤ (s.host.data s.vars.fd).length) :
    Partial 0 s s' := by
  have hne : s.vars.fd ≠ s.host.nextFd := by omega
  have hdata : s'.host.data s.vars.fd = s.host.data s.vars.fd := a.data_of_ne hne
  have hw : s'.host.writes = s.host.writes := a.writes
  refine ⟨a.sameFile hne, by rw [a.vars], by rw [a.vars], ?_, by rw [hdata], by omega, by omega,
    fun _ _ => hdata⟩
  rw [a.vars, hdata]
  exact hoff

theorem wp_importPrepare (hi : cr.Ideal) {env : PathEnv} {fromDisk : String}
    {Q : String × Nat → Env Session → Prop} {E : VaultError → Env Session → Prop}
    (hlt : s.vars.fd < s.host.nextFd)
    (hoff : s.vars.currentPayloadOffset.toNat ≤ (s.host.data s.vars.fd).length)
    (hother : ∀ path, env.stagedPath fromDisk = .ok path →
      s.host.names path ≠ some (s.host.ino s.vars.fd))
    (hpath : ∀ msg, env.stagedPath fromDisk = .error msg → E (.text msg) s)
    (hdup : hasName s.vars.metadata.fileTable name = true → E (alreadyExists name) s)
    (herr : Cramped (chunkCount cr ((stagedBytes s.host env fromDisk).getD [])) s ∨
        (∃ path, env.stagedPath fromDisk = .ok path ∧ s.host.names path = none) → ∀ t s',
      Partial (chunkCount cr ((stagedBytes s.host env fromDisk).getD [])) s s' → E (.io t) s')
    (hok : ∀ path data f s', ¬hasName s.vars.metadata.fileTable name = true →
      env.stagedPath fromDisk = .ok path → stagedBytes s.host env fromDisk = some data →
      s'.host.ino s.host.nextFd ≠ s'.host.ino s.vars.fd →
      Partial (chunkCount cr data) s s' →
      s'.host.writes = s.host.writes + chunkCount cr data →
      f.vfsName = name ∧ f.chunks.length = chunkCount cr data →
      s'.vars.currentPayloadOffset.toNat =
        s.vars.currentPayloadOffset.toNat + chunkCount cr data * SEALED_CHUNK →
      Appended cr s.vars.unlockedVault (s.host.data s.vars.fd) s.vars.currentPayloadOffset.toNat
        data f.chunks (s'.host.data s.vars.fd) s'.vars.currentPayloadOffset.toNat →
      Q (path, s.host.nextFd)
        { s' with vars := s'.vars.setTable (s.vars.metadata.fileTable ++ [f]) }) :
    wp (importPrepare cr env fromDisk name) Q E s := by
  have hne : s.vars.fd ≠ s.host.nextFd := by omega
  unfold importPrepare
  rw [wp_bind]
  apply wp_ofExcept
  case herr => exact hpath
  intro path hstaged
  rw [wp_bind, wp_session]
  split
  · rename_i h
    exact hdup h
  rename_i hnew
  rw [wp_bind]
  apply wp_openFile
  · intro hwhy t s' a
    exact herr (hwhy.imp Or.inl fun hnone => ⟨path, hstaged, hnone⟩) t s'
      ((Partial.of_moves (a.moves 0) hoff).mono (by simp))
  intro i s1 hi1 o1
  have hdata : stagedBytes s.host env fromDisk = some (s.host.files i).bytes := by
    rw [stagedBytes_of_path hstaged, Host.contents_of_names hi1]
  rw [hdata, Option.getD_some] at herr
  have hpart1 := Partial.of_opened o1 hlt hoff
  rw [wp_bind]
  apply wp_readToEnd
  · intro hfault t s' a
    have hoff1 : s1.vars.currentPayloadOffset.toNat ≤ (s1.host.data s1.vars.fd).length := by
      rw [o1.vars, o1.data_of_ne hne]
      exact hoff
    exact herr (Or.inl (Or.inl (o1.fault.ne_none hfault))) t s'
      ((hpart1.trans (Partial.of_moves (a.moves 0) hoff1)).mono (by simp))
  intro s2 m2
  have hvars2 : s2.vars = s.vars := m2.vars.trans o1.vars
  have hvault2 : s2.host.data s.vars.fd = s.host.data s.vars.fd := by
    rw [m2.data, o1.data_of_ne hne]
  have hpart2 : Partial 0 s s2 :=
    hpart1.trans (Partial.of_moves m2 (by rw [o1.vars, o1.data_of_ne hne]; exact hoff))
  -- The chunker read the whole file.
  have hread : slice (s1.host.data s.host.nextFd) (s1.host.pos s.host.nextFd) maxLen =
      (s.host.files i).bytes := by
    rw [o1.data, o1.pos, slice_from_zero, List.take_of_length_le (s.host.files i).fits]
  have hino : s2.host.ino s.host.nextFd ≠ s2.host.ino s.vars.fd := by
    rw [m2.ino, m2.ino, o1.ino, o1.ino_of_ne hne]
    rintro rfl
    exact hother path hstaged hi1
  rw [hread, wp_bind]
  apply wp_importPayload hi (fetches_file _ hne.symm) (by rw [hvars2])
    ⟨by rw [m2.data, o1.data], hino⟩ (by rw [hvars2, hvault2]; exact hoff)
  · intro hwhy t s' a
    exact herr (Or.inl (hwhy.before hpart2.host.fault hvars2)) t s'
      ((hpart2.trans a).mono (by simp))
  intro f s3 a3 hhost w3 hentry hgrown happ
  rw [hvars2, hvault2] at happ
  rw [hvars2] at hgrown
  rw [wp_pure, hvars2]
  refine hok path _ f s3 hnew hstaged hdata ?_ ((hpart2.trans a3).mono (by simp)) ?_ hentry hgrown
    happ
  · rw [hhost.ino, hhost.ino]
    exact hino
  · rw [w3, m2.writes, o1.writes]

end Prepare

/-! ## The whole import -/

/-- An import whose chunks are written and whose entry `f` is in the table. -/
structure Prepared (cr : Crates) (name : String) (data : Bytes) (f : FileIndex)
    (s s' : Env Session) : Prop where
  isNew : ¬hasName s.vars.metadata.fileTable name = true
  name_eq : f.vfsName = name
  count : f.chunks.length = chunkCount cr data
  host : SameFile s.vars.fd s.host s'.host
  vars : s'.vars = { s.vars.setTable (s.vars.metadata.fileTable ++ [f]) with
    currentPayloadOffset := s'.vars.currentPayloadOffset }
  fits : s'.vars.currentPayloadOffset.toNat ≤ (s'.host.data s.vars.fd).length
  appended : Appended cr s.vars.unlockedVault (s.host.data s.vars.fd)
    s.vars.currentPayloadOffset.toNat data f.chunks (s'.host.data s.vars.fd)
    s'.vars.currentPayloadOffset.toNat
  grown : s'.vars.currentPayloadOffset.toNat =
    s.vars.currentPayloadOffset.toNat + chunkCount cr data * SEALED_CHUNK
  writes : s'.host.writes = s.host.writes + chunkCount cr data
  untouched : torn s.host.fault = 0 → chunkCount cr data = 0 →
    s'.host.data s.vars.fd = s.host.data s.vars.fd

section Whole

variable {s s' : Env Session} {name : String} {H : Bytes}

theorem Prepared.of_partial {f : FileIndex} (a : Partial (chunkCount cr data) s s')
    (hnew : ¬hasName s.vars.metadata.fileTable name = true)
    (hentry : f.vfsName = name ∧ f.chunks.length = chunkCount cr data)
    (hw : s'.host.writes = s.host.writes + chunkCount cr data)
    (hgrown : s'.vars.currentPayloadOffset.toNat =
      s.vars.currentPayloadOffset.toNat + chunkCount cr data * SEALED_CHUNK)
    (happ : Appended cr s.vars.unlockedVault (s.host.data s.vars.fd)
      s.vars.currentPayloadOffset.toNat data f.chunks (s'.host.data s.vars.fd)
      s'.vars.currentPayloadOffset.toNat) :
    Prepared cr name data f s
      { s' with vars := s'.vars.setTable (s.vars.metadata.fileTable ++ [f]) } where
  isNew := hnew
  name_eq := hentry.1
  count := hentry.2
  host := a.host
  vars := by
    have := a.vars
    simp only [Session.setTable]
    rw [this]
  fits := a.fits
  appended := happ
  grown := hgrown
  writes := hw
  untouched ht hn := a.untouched ht (by omega)

theorem Partial.sound {n : Nat} (a : Partial n s s') (hs : Sound H s) : Sound H s' := by
  refine hs.of_sameFile a.host (by rw [a.vars]) (by rw [a.vars]) ?_
    (le_trans hs.header_le a.grows) a.fits (header_of_take hs.header_le a.keeps)
  rw [a.vars]
  exact hs.layout.mono a.grows

theorem Prepared.sound {f : FileIndex} (a : Prepared cr name data f s s') (hs : Sound H s) :
    Sound H s' := by
  refine hs.of_sameFile a.host (by rw [a.vars]; rfl) (by rw [a.vars]; rfl) ?_
    (le_trans hs.header_le a.appended.chain.le) a.fits
    (header_of_take hs.header_le a.appended.keeps)
  rw [a.vars]
  refine hs.layout.push hs.header_le ?_ a.appended.chain
  rw [a.name_eq]
  exact hasName_eq_false a.isNew

theorem wp_handleImportFromBytes (hi : cr.Ideal) {Q : Unit → Env Session → Prop}
    {E : VaultError → Env Session → Prop}
    (hoff : s.vars.currentPayloadOffset.toNat ≤ (s.host.data s.vars.fd).length)
    (hdup : hasName s.vars.metadata.fileTable name = true → E (alreadyExists name) s)
    (hpart : Cramped (chunkCount cr data) s → ∀ t s', Partial (chunkCount cr data) s s' →
      E (.io t) s')
    (hstop : ∀ f e s₁ s', Prepared cr name data f s s₁ → SaveFails cr s₁.vars.unlockedVault
      s₁.vars.metadata s₁.vars.currentPayloadOffset.toNat s₁.host e → SaveStops cr s₁ s' → E e s')
    (hok : ∀ f blob s₁ s', Prepared cr name data f s s₁ → Saves cr blob s₁ s' → Q () s') :
    wp (handleImportFromBytes cr data name) Q E s := by
  unfold handleImportFromBytes
  rw [wp_bind]
  apply wp_importBytesPrepare hi hoff hdup hpart
  intro hnew f s1 a1 _ w1 hentry hgrown happ
  have hprep := Prepared.of_partial a1 hnew hentry w1 hgrown happ
  have hfd : s1.vars.fd = s.vars.fd := a1.fd
  apply wp_saveSession hi
  · exact a1.fd ▸ a1.fits
  · intro e s' hwhy h
    exact hstop f e _ s' hprep hwhy h
  · intro blob s' h
    exact hok f blob _ s' hprep h

end Whole

/-! ## The staged file -/

section Shred

variable {s s' : Env Session} {path : String} {file : Nat}

theorem wp_ignoreErr {x : Cmd Unit} {Q : Unit → Env Session → Prop}
    {E : VaultError → Env Session → Prop} (h : wp x Q (fun _ => Q ()) s) : wp (ignoreErr x) Q E s := by
  unfold ignoreErr
  rw [wp_tryCatch]
  exact h

theorem wp_shredLoop {fuel : Nat} :
    ∀ {left : Nat} {s : Env Session} {Q : Unit → Env Session → Prop}
      {E : VaultError → Env Session → Prop},
    (∀ s', Touches file s s' → Q () s') → wp (shredLoop file fuel left) Q E s := by
  induction fuel with
  | zero =>
    intro left s Q E hok
    exact hok s ((Still.refl s).touches file)
  | succ fuel ih =>
    intro left s Q E hok
    unfold shredLoop
    split
    · exact hok s ((Still.refl s).touches file)
    · rw [wp_tryCatch, wp_bind]
      apply wp_writeAll_touches
      · intro t s' a
        exact hok s' a
      · intro s1 a1
        exact ih fun s' a => hok s' (a1.trans a)

/-- The shredder takes the staged file's content and name, and nothing else. -/
structure Shreds (path : String) (s s' : Env Session) : Prop where
  vars : s'.vars = s.vars
  data : s'.host.data s.vars.fd = s.host.data s.vars.fd
  ino : s'.host.ino s.vars.fd = s.host.ino s.vars.fd
  names : ∀ p, s'.host.names p = s.host.names p ∨ p = path ∧ s'.host.names p = none
  nextIno : s'.host.nextIno = s.host.nextIno
  nextFd : s'.host.nextFd = s.host.nextFd
  writes_le : s.host.writes ≤ s'.host.writes
  fault : GoesOn s.host.fault s'.host.fault

theorem Shreds.of_touches (a : Touches file s s') (hne : s.host.ino file ≠ s.host.ino s.vars.fd) :
    Shreds path s s' :=
  ⟨a.vars, a.data_of_ne hne.symm, a.ino _, fun p => Or.inl (by rw [a.names]), a.nextIno, a.nextFd,
    a.writes_le, a.fault⟩

theorem wp_shred {Q : Unit → Env Session → Prop} {E : VaultError → Env Session → Prop}
    (hne : s.host.ino file ≠ s.host.ino s.vars.fd) (hok : ∀ s', Shreds path s s' → Q () s') :
    wp (shred path file) Q E s := by
  -- Removing the name, after the content is gone.
  have hremove : ∀ s₁, Touches file s s₁ →
      wp (ignoreErr (Call.remove .io path)) Q E s₁ := by
    intro s₁ a₁
    apply wp_ignoreErr
    apply wp_remove
    · intro _ t s' a
      exact hok s' (Shreds.of_touches (a₁.trans (a.touches file)) hne)
    · intro s' hnames a
      have h₁ : Shreds path s s₁ := Shreds.of_touches a₁ hne
      refine hok s' ⟨a.vars.trans h₁.vars, (a.data _).trans h₁.data, (a.ino _).trans h₁.ino, ?_,
        a.nextIno.trans h₁.nextIno, a.nextFd.trans h₁.nextFd, ?_, h₁.fault.trans a.fault⟩
      case refine_2 => exact h₁.writes_le.trans (ge_of_eq a.writes)
      intro p
      by_cases hp : p = path
      · exact Or.inr ⟨hp, by rw [hnames, hp, Function.update_self]⟩
      · exact Or.inl (by rw [hnames, Function.update_of_ne hp, a₁.names])
  unfold shred
  rw [wp_bind]
  apply wp_ignoreErr
  rw [wp_bind]
  apply wp_fileLen
  · intro _ t s' a
    exact hremove s' (a.touches file)
  intro s1 a1
  have hloop : ∀ s₂, Touches file s s₂ → ∀ {E'}, wp (do
      shredLoop file ((s.host.data file).length + 1) (s.host.data file).length
      ignoreErr (Call.sync .io file)) (fun _ => wp (ignoreErr (Call.remove .io path)) Q E) E' s₂ := by
    intro s₂ a₂ E'
    rw [wp_bind]
    apply wp_shredLoop
    intro s3 a3
    apply wp_ignoreErr
    apply wp_sync
    · intro _ t s' a
      exact hremove s' ((a₂.trans a3).trans (a.touches file))
    · intro s' a _ _ _ _
      exact hremove s' ((a₂.trans a3).trans a)
  rw [wp_bind]
  apply wp_ignoreErr
  apply wp_seek
  · intro _ t s' a
    exact hloop s' ((a1.trans a).touches file)
  · intro s' _ a _
    exact hloop s' ((a1.touches file).trans a.toTouches)

theorem wp_shredLoop_zeros {fuel : Nat} :
    ∀ {p left : Nat} {rest : Bytes} {s : Env Session} {Q : Unit → Env Session → Prop}
      {E : VaultError → Env Session → Prop},
    left ≤ fuel → s.host.fault = none → s.host.pos file = p →
    s.host.data file = List.replicate p 0 ++ rest → rest.length = left →
    (∀ s', Touches file s s' → s'.host.data file = List.replicate (p + left) 0 → Q () s') →
    wp (shredLoop file fuel left) Q E s := by
  induction fuel with
  | zero =>
    intro p left rest s Q E hfuel _ _ hdata hrest hok
    obtain rfl : left = 0 := by omega
    obtain rfl := List.length_eq_zero_iff.mp hrest
    exact hok s ((Still.refl s).touches file) (by simpa using hdata)
  | succ fuel ih =>
    intro p left rest s Q E hfuel hf hpos hdata hrest hok
    unfold shredLoop
    split
    · rename_i hleft
      subst hleft
      obtain rfl := List.length_eq_zero_iff.mp hrest
      exact hok s ((Still.refl s).touches file) (by simpa using hdata)
    · have hfits : p + left ≤ maxLen := by
        have := Host.data_fits s.host file
        rw [hdata, List.length_append, List.length_replicate, hrest] at this
        exact this
      rw [wp_tryCatch, wp_bind]
      apply wp_writeAll (by rw [hdata, hpos]; simp)
      · rintro (h | h) t s' _ _ _
        · exact absurd hf h
        · rw [hpos, List.length_replicate] at h
          omega
      · intro s1 _ a1 d1 p1 _ _
        rw [hdata, hpos, patch_replicate] at d1
        rw [hpos, List.length_replicate] at p1
        apply ih (by omega) (a1.fault.eq_none hf) p1 d1 (by rw [List.length_drop]; omega)
        intro s' a d
        refine hok s' (a1.trans a) ?_
        rw [d]
        congr 1
        omega

theorem wp_shred_zeros {Q : Unit → Env Session → Prop} {E : VaultError → Env Session → Prop}
    (hf : s.host.fault = none)
    (hok : ∀ s', s'.vars = s.vars → (∀ fd, s'.host.ino fd = s.host.ino fd) →
      s'.host.data file = List.replicate (s.host.data file).length 0 → Q () s') :
    wp (shred path file) Q E s := by
  unfold shred
  rw [wp_bind]
  apply wp_ignoreErr
  rw [wp_bind]
  apply wp_fileLen
  · exact fun h => absurd hf h
  intro s1 a1
  have hf1 := a1.fault.eq_none hf
  rw [wp_bind]
  apply wp_ignoreErr
  apply wp_seek
  · rintro (h | h)
    · exact absurd hf1 h
    · simp [maxLen] at h
  intro s2 _ m2 p2
  have hf2 := m2.fault.eq_none hf1
  have hdata2 : s2.host.data file = List.replicate 0 0 ++ s.host.data file := by
    rw [m2.data, a1.data]
    rfl
  rw [wp_bind]
  apply wp_shredLoop_zeros (by omega) hf2 p2 hdata2 rfl
  intro s3 a3 d3
  have hf3 := a3.fault.eq_none hf2
  rw [Nat.zero_add] at d3
  apply wp_ignoreErr
  apply wp_sync
  · exact fun h => absurd hf3 h
  intro s4 a4 d4 _ _ _
  have t4 := ((a1.touches file).trans m2.toTouches).trans (a3.trans a4)
  apply wp_ignoreErr
  apply wp_remove
  · intro _ t s' a
    exact hok s' (a.vars.trans t4.vars) (fun fd => (a.ino fd).trans (t4.ino fd))
      ((a.data file).trans (d4.trans d3))
  · intro s' _ a
    exact hok s' (a.vars.trans t4.vars) (fun fd => (a.ino fd).trans (t4.ino fd))
      ((a.data file).trans (d4.trans d3))

theorem Shreds.sound {H : Bytes} (a : Shreds path s s') (hs : Sound H s)
    (hne : s.host.names path ≠ some (s.host.ino s.vars.fd)) : Sound H s' where
  named := by
    rw [a.vars, a.ino]
    rcases a.names s.vars.vaultPath with h | ⟨rfl, -⟩
    · rw [h]; exact hs.named
    · exact absurd hs.named hne
  fresh := by
    intro p i hp
    rw [a.nextIno]
    rcases a.names p with h | ⟨-, h⟩
    · rw [h] at hp; exact hs.fresh p i hp
    · rw [h] at hp; cases hp
  fd_lt := by rw [a.vars, a.nextFd]; exact hs.fd_lt
  layout := by rw [a.vars]; exact hs.layout
  header := by rw [a.vars, a.data]; exact hs.header
  header_le := by rw [a.vars]; exact hs.header_le
  fits := by rw [a.vars, a.data]; exact hs.fits

theorem Shreds.stored (a : Shreds path s s') (h : Stored cr s) : Stored cr s' := by
  obtain ⟨hptr, blob, hseals, hdrop, hlen⟩ := h
  refine ⟨?_, blob, ?_, ?_, ?_⟩
  · rw [a.vars, a.data]; exact hptr
  · rw [a.vars]; exact hseals
  · rw [a.vars, a.data]; exact hdrop
  · rw [a.vars, a.data]; exact hlen

theorem wp_handleImport (hi : cr.Ideal) {env : PathEnv} {fromDisk name : String}
    {Q : Unit → Env Session → Prop} {E : VaultError → Env Session → Prop}
    (hlt : s.vars.fd < s.host.nextFd)
    (hoff : s.vars.currentPayloadOffset.toNat ≤ (s.host.data s.vars.fd).length)
    (hother : ∀ path, env.stagedPath fromDisk = .ok path →
      s.host.names path ≠ some (s.host.ino s.vars.fd))
    (hpath : ∀ msg, env.stagedPath fromDisk = .error msg → E (.text msg) s)
    (hdup : hasName s.vars.metadata.fileTable name = true → E (alreadyExists name) s)
    (hpart : Cramped (chunkCount cr ((stagedBytes s.host env fromDisk).getD [])) s ∨
        (∃ path, env.stagedPath fromDisk = .ok path ∧ s.host.names path = none) → ∀ t s',
      Partial (chunkCount cr ((stagedBytes s.host env fromDisk).getD [])) s s' → E (.io t) s')
    (hstop : ∀ data f e s₁ s', stagedBytes s.host env fromDisk = some data →
      Prepared cr name data f s s₁ → SaveFails cr s₁.vars.unlockedVault s₁.vars.metadata
        s₁.vars.currentPayloadOffset.toNat s₁.host e → SaveStops cr s₁ s' → E e s')
    (hok : ∀ data f blob path s₁ s₂ s', stagedBytes s.host env fromDisk = some data →
      Prepared cr name data f s s₁ → Saves cr blob s₁ s₂ → Shreds path s₂ s' →
      s₂.host.names path ≠ some (s₂.host.ino s₂.vars.fd) → Q () s') :
    wp (handleImport cr env fromDisk name) Q E s := by
  unfold handleImport
  rw [wp_bind]
  apply wp_importPrepare hi hlt hoff hother hpath hdup hpart
  intro path data f s1 hnew hstaged hdata hino a1 w1 hentry hgrown happ
  have hprep := Prepared.of_partial a1 hnew hentry w1 hgrown happ
  have hfd : s1.vars.fd = s.vars.fd := a1.fd
  dsimp only
  rw [wp_bind]
  apply wp_saveSession hi
  · exact hfd ▸ a1.fits
  · intro e s' hwhy h
    exact hstop data f e _ s' hdata hprep hwhy h
  intro blob s2 h2
  have hvars : s2.vars.fd = s.vars.fd := by rw [h2.touches.vars]; exact hfd
  apply wp_shred
  · rw [hvars, h2.touches.ino, h2.touches.ino]
    exact hino
  intro s' h
  refine hok data f blob path _ s2 s' hdata hprep h2 h ?_
  rw [hvars, h2.touches.ino, h2.touches.names, hprep.host.names, hprep.host.ino]
  exact hother path hstaged

end Shred

end AtomVault
