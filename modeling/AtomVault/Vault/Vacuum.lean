import AtomVault.Lib.Countdown
import AtomVault.Vault.Invariant

/-!
# What a vacuum does

The live chunks are copied one behind the other into a new file, which takes the vault's
name when it is complete. Every file still opens to what it held: a chunk's key and its
tag do not depend on where it lies.
-/

open Lib

namespace AtomVault

variable {cr : Crates} {v : UnlockedVault} {F : Bytes}

/-- The chunks `es` of `F` are copied behind `G`, as `es'`. -/
structure Copied (cr : Crates) (v : UnlockedVault) (F G : Bytes) (es es' : List ChunkEntry)
    (G' : Bytes) : Prop where
  chain : Chain G.length (es'.map (·.extent)) G'.length
  reads : readFile cr v G' es' = readFile cr v F es
  keeps : G'.take G.length = G

theorem read_of_keeps {G G' : Bytes} {e : ChunkEntry} (hk : G'.take G.length = G)
    (he : e.extent.stop ≤ G.length) : e.extent.read G' = e.extent.read G := by
  unfold Extent.read
  rw [← slice_take G' _ _ G.length he, hk]

theorem keeps_trans {G G₁ G' : Bytes} (h : G₁.take G.length = G) (h' : G'.take G₁.length = G₁) :
    G'.take G.length = G := by
  have hle : G.length ≤ G₁.length := by
    rw [← h, List.length_take]
    exact min_le_right _ _
  rw [← h', List.take_take, min_eq_left hle] at h
  exact h

theorem Copied.nil (G : Bytes) : Copied cr v F G [] [] G := ⟨rfl, rfl, by simp⟩

theorem Copied.cons {G G' : Bytes} {e : ChunkEntry} {es es' : List ChunkEntry} {off : UInt64}
    (hoff : off.toNat = G.length) (he : e.extent.stop ≤ F.length)
    (h : Copied cr v F (G ++ e.extent.read F) es es' G') :
    Copied cr v F G (e :: es) ({ e with offset := off } :: es') G' := by
  have hlen : (e.extent.read F).length = e.cipherLen.toNat := length_slice _ _ _ he
  have hstop : (ChunkEntry.extent { e with offset := off }).stop = (G ++ e.extent.read F).length := by
    rw [List.length_append, hlen, ← hoff]
    rfl
  have hread : (ChunkEntry.extent { e with offset := off }).read G' = e.extent.read F := by
    rw [read_of_keeps h.keeps (le_of_eq hstop)]
    show slice (G ++ e.extent.read F) off.toNat e.cipherLen.toNat = _
    rw [hoff, slice, List.drop_left, List.take_of_length_le (le_of_eq hlen)]
  refine ⟨⟨hoff, by rw [hstop]; exact h.chain⟩, ?_, keeps_trans (by simp) h.keeps⟩
  simp only [readFile]
  rw [readChunk_congr hread rfl rfl, h.reads]

/-- A file is at its new place under its old name. -/
def SameContent (cr : Crates) (v : UnlockedVault) (F F' : Bytes) (f f' : FileIndex) : Prop :=
  f'.vfsName = f.vfsName ∧ readFile cr v F' f'.chunks = readFile cr v F f.chunks

/-! ## Where the chunks go -/

/-- The chunks `es`, one behind the other from `off` on. -/
def relocate : UInt64 → List ChunkEntry → List ChunkEntry
  | _, [] => []
  | off, e :: es => { e with offset := off } :: relocate (off + e.cipherLen) es

/-- Where the chunk after `es` goes. -/
def placed : UInt64 → List ChunkEntry → UInt64
  | off, [] => off
  | off, e :: es => placed (off + e.cipherLen) es

def relocateFiles : UInt64 → List FileIndex → List FileIndex
  | _, [] => []
  | off, f :: fs => { f with chunks := relocate off f.chunks } :: relocateFiles (placed off f.chunks) fs

def placedFiles : UInt64 → List FileIndex → UInt64
  | off, [] => off
  | off, f :: fs => placedFiles (placed off f.chunks) fs

/-- The bytes of the chunks `es` of `F`, in their order. -/
def chunkBytes (F : Bytes) (es : List ChunkEntry) : Bytes := es.flatMap (·.extent.read F)

def tableBytes (F : Bytes) (table : List FileIndex) : Bytes := table.flatMap (chunkBytes F ·.chunks)

/-- The offset after one more chunk does not overflow, since the file holds it. -/
theorem toNat_next {G : Bytes} {e : ChunkEntry} {off : UInt64} (hoff : off.toNat = G.length)
    (he : e.extent.stop ≤ F.length) (hfit : (G ++ e.extent.read F).length ≤ maxLen) :
    (off + e.cipherLen).toNat = (G ++ e.extent.read F).length := by
  have hlen : (e.extent.read F).length = e.cipherLen.toNat := length_slice _ _ _ he
  rw [List.length_append, hlen, ← hoff] at hfit ⊢
  rw [UInt64.toNat_add, Nat.mod_eq_of_lt]
  unfold maxLen at hfit
  omega

/-- Why the chunks `es` of `F` do not get behind `G`: a fault, a chunk that is not in `F`, or a full
disk. -/
def CopyLacks (h : Host) (F G : Bytes) (es : List ChunkEntry) : Prop :=
  h.fault ≠ none ∨ (∃ e ∈ es, F.length < e.extent.stop) ∨ maxLen < (G ++ chunkBytes F es).length

theorem chunkBytes_append (F : Bytes) (es es' : List ChunkEntry) :
    chunkBytes F (es ++ es') = chunkBytes F es ++ chunkBytes F es' := List.flatMap_append

theorem tableBytes_eq_chunkBytes (F : Bytes) (table : List FileIndex) :
    tableBytes F table = chunkBytes F (table.flatMap (·.chunks)) := List.flatMap_assoc.symm

theorem CopyLacks.append {h : Host} {G : Bytes} {es : List ChunkEntry} (hl : CopyLacks h F G es)
    (es' : List ChunkEntry) : CopyLacks h F G (es ++ es') := by
  rcases hl with hf | ⟨e, he, hlt⟩ | hfull
  · exact Or.inl hf
  · exact Or.inr (Or.inl ⟨e, by simp [he], hlt⟩)
  · refine Or.inr (Or.inr ?_)
    rw [chunkBytes_append, ← List.append_assoc, List.length_append]
    omega

theorem CopyLacks.before {h h' : Host} {G G' : Bytes} {es es' : List ChunkEntry}
    (hl : CopyLacks h' F G' es') (hfault : GoesOn h.fault h'.fault)
    (hG : G' = G ++ chunkBytes F es) : CopyLacks h F G (es ++ es') := by
  rcases hl with hf | ⟨e, he, hlt⟩ | hfull
  · exact Or.inl (hfault.ne_none hf)
  · exact Or.inr (Or.inl ⟨e, by simp [he], hlt⟩)
  · refine Or.inr (Or.inr ?_)
    rw [chunkBytes_append, ← List.append_assoc, ← hG]
    exact hfull

theorem chunkBytes_cons (F : Bytes) (e : ChunkEntry) (es : List ChunkEntry) :
    chunkBytes F (e :: es) = e.extent.read F ++ chunkBytes F es := List.flatMap_cons

theorem length_chunkBytes {es : List ChunkEntry} (h : ∀ e ∈ es, e.extent.stop ≤ F.length) :
    (chunkBytes F es).length = ((es.map (·.extent)).map (·.len)).sum := by
  induction es with
  | nil => rfl
  | cons e es ih =>
    have hlen : (e.extent.read F).length = e.extent.len := length_slice _ _ _ (h e (by simp))
    rw [chunkBytes_cons, List.length_append, hlen, ih fun x hx => h x (by simp [hx]), List.map_cons,
      List.map_cons, List.sum_cons]

theorem tableBytes_cons (F : Bytes) (f : FileIndex) (table : List FileIndex) :
    tableBytes F (f :: table) = chunkBytes F f.chunks ++ tableBytes F table := List.flatMap_cons

theorem toNat_placed : ∀ {es : List ChunkEntry} {G : Bytes} {off : UInt64},
    off.toNat = G.length → (∀ e ∈ es, e.extent.stop ≤ F.length) →
    (G ++ chunkBytes F es).length ≤ maxLen →
    (placed off es).toNat = (G ++ chunkBytes F es).length := by
  intro es
  induction es with
  | nil =>
    intro G off hoff _ _
    rw [chunkBytes, List.flatMap_nil, List.append_nil]
    exact hoff
  | cons e es ih =>
    intro G off hoff hin hfit
    rw [chunkBytes_cons, ← List.append_assoc] at hfit ⊢
    have hnext := toNat_next hoff (hin e (by simp)) (by rw [List.length_append] at hfit; omega)
    exact ih hnext (fun x hx => hin x (by simp [hx])) hfit

theorem Copied.of_relocate : ∀ {es : List ChunkEntry} {G : Bytes} {off : UInt64},
    off.toNat = G.length → (∀ e ∈ es, e.extent.stop ≤ F.length) →
    (G ++ chunkBytes F es).length ≤ maxLen →
    Copied cr v F G es (relocate off es) (G ++ chunkBytes F es) := by
  intro es
  induction es with
  | nil =>
    intro G off _ _ _
    rw [chunkBytes, List.flatMap_nil, List.append_nil]
    exact Copied.nil G
  | cons e es ih =>
    intro G off hoff hin hfit
    rw [chunkBytes_cons, ← List.append_assoc] at hfit ⊢
    have hnext := toNat_next hoff (hin e (by simp)) (by rw [List.length_append] at hfit; omega)
    exact Copied.cons hoff (hin e (by simp)) (ih hnext (fun x hx => hin x (by simp [hx])) hfit)

/-! ## The copy loops -/

section Loops

variable {fd tmpFile : Nat} {b : Session}

/-- The copy so far: only the new file is written, and only the table of the session changed. -/
structure Copying (tmpFile : Nat) (b : Session) (s s' : Env Session) : Prop where
  host : Confined tmpFile s.host s'.host
  vars : ∃ table, s'.vars = b.setTable table

theorem Copying.of_moves {s s' : Env Session} (m : Moves fd s s')
    (hvars : ∃ table, s.vars = b.setTable table) : Copying tmpFile b s s' :=
  ⟨m.confined _, by rw [m.vars]; exact hvars⟩

theorem Copying.trans {s s₁ s' : Env Session} (a : Copying tmpFile b s s₁)
    (a' : Copying tmpFile b s₁ s') : Copying tmpFile b s s' := ⟨a.host.trans a'.host, a'.vars⟩

theorem Copying.vault {s s' : Env Session} (a : Copying tmpFile b s s')
    (hne : s.host.ino fd ≠ s.host.ino tmpFile) : s'.host.data fd = s.host.data fd ∧
      s'.host.ino fd ≠ s'.host.ino tmpFile :=
  ⟨a.host.data_of_ne hne, by rw [a.host.ino, a.host.ino]; exact hne⟩

theorem wp_moveChunks {T : List ChunkEntry → List FileIndex} :
    ∀ {es moved : List ChunkEntry} {s : Env Session} {off : UInt64}
      {Q : List ChunkEntry × UInt64 → Env Session → Prop} {E : VaultError → Env Session → Prop},
    s.host.ino fd ≠ s.host.ino tmpFile → s.vars = b.setTable (T (moved ++ es)) →
    off.toNat = (s.host.data tmpFile).length →
    (CopyLacks s.host (s.host.data fd) (s.host.data tmpFile) es →
      ∀ t s', Copying tmpFile b s s' → E (.io t) s') →
    (∀ s', Copying tmpFile b s s' → s'.vars = b.setTable (T (moved ++ relocate off es)) →
      (∀ e ∈ es, e.extent.stop ≤ (s.host.data fd).length) →
      s'.host.data tmpFile = s.host.data tmpFile ++ chunkBytes (s.host.data fd) es →
      Q (moved ++ relocate off es, placed off es) s') →
    wp (moveChunks fd tmpFile (fun chunks => update (·.setTable (T chunks))) moved es off) Q E s := by
  intro es
  induction es with
  | nil =>
    intro moved s off Q E _ hvars _ _ hok
    unfold moveChunks
    rw [wp_pure, ← List.append_nil moved]
    exact hok s ⟨Confined.refl _ _, _, hvars⟩ hvars (by simp) (by simp [chunkBytes])
  | cons e es ih =>
    intro moved s off Q E hne hvars hoff herr hok
    have hfd : fd ≠ tmpFile := by rintro rfl; exact hne rfl
    have hmoved : ∀ {fd' : Nat} {s' : Env Session}, Moves fd' s s' → Copying tmpFile b s s' :=
      fun m => Copying.of_moves m ⟨_, hvars⟩
    have hrange : (s.host.data fd).length < e.offset.toNat + e.cipherLen.toNat →
        CopyLacks s.host (s.host.data fd) (s.host.data tmpFile) (e :: es) :=
      fun hlt => Or.inr (Or.inl ⟨e, by simp, hlt⟩)
    have hfits := Host.data_fits s.host fd
    unfold moveChunks
    rw [wp_bind]
    apply wp_seek
    · intro hwhy t s' a
      exact herr (hwhy.elim Or.inl fun hfar => hrange (by omega)) t s' (hmoved (a.moves 0))
    intro s1 _ m1 p1
    have c1 := hmoved m1
    rw [wp_bind]
    apply wp_readExact
    · intro hwhy t s' a
      rw [m1.data, p1] at hwhy
      exact herr (hwhy.elim (fun hf => Or.inl (m1.fault.ne_none hf)) hrange) t s'
        (hmoved (m1.trans (a.moves fd)))
    intro s2 hstop m2 _
    rw [m1.data, p1] at hstop
    rw [p1, m1.data]
    replace m2 := m1.trans m2
    have c2 := hmoved m2
    rw [wp_bind]
    apply wp_seek
    · intro hwhy t s' a
      have hsmall : off.toNat ≤ maxLen := hoff.trans_le (Host.data_fits _ _)
      exact herr (Or.inl (m2.fault.ne_none (hwhy.resolve_right (not_lt.mpr hsmall)))) t s'
        (hmoved (m2.trans (a.moves fd)))
    intro s3 _ m3 p3
    have c3 : Copying tmpFile b s s3 := c2.trans (Copying.of_moves m3 c2.vars)
    have hend : s3.host.pos tmpFile = (s3.host.data tmpFile).length := by
      rw [p3, m3.data, m2.data, hoff]
    rw [wp_bind]
    apply wp_writeAll (le_of_eq hend)
    · rintro hwhy t s' a - -
      refine herr ?_ t s' (c3.trans ⟨a.toConfined, by rw [a.vars]; exact c3.vars⟩)
      rcases hwhy with hf | hfull
      · exact Or.inl (m2.fault.ne_none (m3.fault.ne_none hf))
      · refine Or.inr (Or.inr ?_)
        rw [hend, m3.data, m2.data] at hfull
        rw [chunkBytes_cons, ← List.append_assoc, List.length_append, List.length_append]
        exact hfull.trans_le (Nat.le_add_right _ _)
    intro s4 _ a4 d4 _ _ _
    have c4 : Copying tmpFile b s s4 :=
      c3.trans ⟨a4.toConfined, by rw [a4.vars]; exact c3.vars⟩
    have hvars4 : s4.vars = s.vars := by rw [a4.vars, m3.vars, m2.vars]
    have hdata4 : s4.host.data tmpFile = s.host.data tmpFile ++ e.extent.read (s.host.data fd) := by
      rw [d4, hend, patch_at_end, m3.data, m2.data]
      rfl
    -- The table follows, and the next chunk goes behind this one.
    have hb : s4.vars.setTable (T (moved ++ [{ e with offset := off }] ++ es)) =
        b.setTable (T (moved ++ [{ e with offset := off }] ++ es)) := by
      rw [hvars4, hvars]
      rfl
    have c5 : Copying tmpFile b s
        ⟨s4.host, s4.vars.setTable (T (moved ++ [{ e with offset := off }] ++ es))⟩ :=
      ⟨c4.host, _, hb⟩
    obtain ⟨hvault, hne5⟩ := c5.vault hne
    have hoff5 : (off + e.cipherLen).toNat = (s4.host.data tmpFile).length := by
      have hfit := Host.data_fits s4.host tmpFile
      rw [hdata4] at hfit ⊢
      exact toNat_next hoff hstop hfit
    rw [wp_bind, wp_update]
    apply ih hne5 hb hoff5
    · intro hlacks t s' a
      rw [hvault] at hlacks
      have hcopied : s4.host.data tmpFile =
          s.host.data tmpFile ++ chunkBytes (s.host.data fd) [e] := by simpa [chunkBytes] using hdata4
      exact herr (hlacks.before c5.host.fault hcopied) t s' (c5.trans a)
    · intro s' a hvars' hin' hdata'
      rw [hvault] at hin' hdata'
      rw [List.append_assoc, List.singleton_append] at hvars' ⊢
      refine hok s' (c5.trans a) hvars' (List.forall_mem_cons.mpr ⟨hstop, hin'⟩) ?_
      have hfirst : s'.host.data tmpFile = s4.host.data tmpFile ++ chunkBytes (s.host.data fd) es :=
        hdata'
      rw [hfirst, hdata4, List.append_assoc, chunkBytes_cons]

theorem SameContent.of_keeps {G G' : Bytes} {f f' : FileIndex}
    (h : SameContent cr v F G f f') (hk : G'.take G.length = G)
    (hin : ∀ e ∈ f'.chunks, e.extent.stop ≤ G.length) : SameContent cr v F G' f f' := by
  refine ⟨h.1, ?_⟩
  rw [← h.2]
  apply readFile_congr
  intro e he
  exact read_of_keeps hk (hin e he)

/-- The files of `table` are copied behind `G`, as `table'`. -/
structure CopiedAll (cr : Crates) (v : UnlockedVault) (F G : Bytes) (table table' : List FileIndex)
    (G' : Bytes) : Prop where
  chain : Chain G.length (extents table') G'.length
  same : List.Forall₂ (SameContent cr v F G') table table'
  keeps : G'.take G.length = G

theorem CopiedAll.cons {G G₁ G' : Bytes} {f : FileIndex} {es' : List ChunkEntry}
    {table table' : List FileIndex} (h : Copied cr v F G f.chunks es' G₁)
    (h' : CopiedAll cr v F G₁ table table' G') :
    CopiedAll cr v F G (f :: table) ({ f with chunks := es' } :: table') G' := by
  refine ⟨?_, List.Forall₂.cons ?_ h'.same, keeps_trans h.keeps h'.keeps⟩
  · have := h.chain.append h'.chain
    simpa [extents] using this
  · refine SameContent.of_keeps ⟨rfl, h.reads⟩ h'.keeps ?_
    intro e he
    exact h.chain.packed.le_hi _ (List.mem_map_of_mem he)

theorem toNat_placedFiles : ∀ {table : List FileIndex} {G : Bytes} {off : UInt64},
    off.toNat = G.length → (∀ f ∈ table, ∀ e ∈ f.chunks, e.extent.stop ≤ F.length) →
    (G ++ tableBytes F table).length ≤ maxLen →
    (placedFiles off table).toNat = (G ++ tableBytes F table).length := by
  intro table
  induction table with
  | nil =>
    intro G off hoff _ _
    rw [tableBytes, List.flatMap_nil, List.append_nil]
    exact hoff
  | cons f table ih =>
    intro G off hoff hin hfit
    rw [tableBytes_cons, ← List.append_assoc] at hfit ⊢
    have hnext := toNat_placed hoff (hin f (by simp)) (by rw [List.length_append] at hfit; omega)
    exact ih hnext (fun g hg => hin g (by simp [hg])) hfit

theorem CopiedAll.of_relocate : ∀ {table : List FileIndex} {G : Bytes} {off : UInt64},
    off.toNat = G.length → (∀ f ∈ table, ∀ e ∈ f.chunks, e.extent.stop ≤ F.length) →
    (G ++ tableBytes F table).length ≤ maxLen →
    CopiedAll cr v F G table (relocateFiles off table) (G ++ tableBytes F table) := by
  intro table
  induction table with
  | nil =>
    intro G off _ _ _
    rw [tableBytes, List.flatMap_nil, List.append_nil]
    exact ⟨rfl, List.Forall₂.nil, by simp⟩
  | cons f table ih =>
    intro G off hoff hin hfit
    rw [tableBytes_cons, ← List.append_assoc] at hfit ⊢
    have hle : (G ++ chunkBytes F f.chunks).length ≤ maxLen := by
      rw [List.length_append] at hfit
      omega
    have hnext := toNat_placed hoff (hin f (by simp)) hle
    have hrest := ih hnext (fun g hg => hin g (by simp [hg])) hfit
    exact hrest.cons (Copied.of_relocate hoff (hin f (by simp)) hle)

theorem wp_moveFiles :
    ∀ {table moved : List FileIndex} {s : Env Session} {off : UInt64}
      {Q : UInt64 → Env Session → Prop} {E : VaultError → Env Session → Prop},
    s.host.ino fd ≠ s.host.ino tmpFile → s.vars = b.setTable (moved ++ table) →
    off.toNat = (s.host.data tmpFile).length →
    (CopyLacks s.host (s.host.data fd) (s.host.data tmpFile) (table.flatMap (·.chunks)) →
      ∀ t s', Copying tmpFile b s s' → E (.io t) s') →
    (∀ s', Copying tmpFile b s s' → s'.vars = b.setTable (moved ++ relocateFiles off table) →
      (∀ f ∈ table, ∀ e ∈ f.chunks, e.extent.stop ≤ (s.host.data fd).length) →
      s'.host.data tmpFile = s.host.data tmpFile ++ tableBytes (s.host.data fd) table →
      Q (placedFiles off table) s') →
    wp (moveFiles fd tmpFile moved table off) Q E s := by
  intro table
  induction table with
  | nil =>
    intro moved s off Q E _ hvars _ _ hok
    exact hok s ⟨Confined.refl _ _, _, hvars⟩ hvars (by simp) (by simp [tableBytes])
  | cons f table ih =>
    intro moved s off Q E hne hvars hoff herr hok
    unfold moveFiles
    dsimp only
    rw [wp_bind]
    rw [List.flatMap_cons] at herr
    apply wp_moveChunks hne hvars hoff fun hlacks => herr (hlacks.append _)
    intro s1 c1 hvars1 hin1 hdata1
    obtain ⟨hvault, hne1⟩ := c1.vault hne
    rw [List.nil_append] at hvars1 ⊢
    have hfit := Host.data_fits s1.host tmpFile
    rw [hdata1] at hfit
    apply ih hne1
    · rw [hvars1]
      simp
    · rw [hdata1]
      exact toNat_placed hoff hin1 hfit
    · intro hlacks t s' a
      rw [hvault] at hlacks
      exact herr (hlacks.before c1.host.fault hdata1) t s' (c1.trans a)
    · intro s' a hvars' hin' hdata'
      rw [hvault] at hin' hdata'
      refine hok s' (c1.trans a) ?_ (List.forall_mem_cons.mpr ⟨hin1, hin'⟩) ?_
      · rw [hvars', relocateFiles]
        simp
      · rw [hdata', hdata1, tableBytes_cons, List.append_assoc]

end Loops

/-! ## The whole vacuum -/

/-- The session on the compacted file. -/
structure Vacuumed (cr : Crates) (H : Bytes) (s s' : Env Session) : Prop where
  sound : Sound H s'
  stored : Stored cr s'
  path : s'.vars.vaultPath = s.vars.vaultPath
  vault : s'.vars.unlockedVault = s.vars.unlockedVault
  same : List.Forall₂
    (SameContent cr s.vars.unlockedVault (s.host.data s.vars.fd) (s'.host.data s'.vars.fd))
    s.vars.metadata.fileTable s'.vars.metadata.fileTable
  fault : GoesOn s.host.fault s'.host.fault

/-- The header and the chunks of the table, behind each other. -/
def compactLen (s : Env Session) : Nat :=
  VAULT_HEADER_SIZE + (tableBytes (s.host.data s.vars.fd) s.vars.metadata.fileTable).length

/-- Why a vacuum has an I/O error: a fault, a file without its header or a chunk, or a full disk. -/
def VacuumLacks (cr : Crates) (s s' : Env Session) : Prop :=
  s.host.fault ≠ none ∨ (s.host.data s.vars.fd).length < VAULT_HEADER_SIZE ∨
    (∃ f ∈ s.vars.metadata.fileTable, ∃ e ∈ f.chunks,
      (s.host.data s.vars.fd).length < e.extent.stop) ∨
    maxLen < compactLen s ∨
    ∃ blob, Seals cr s'.vars.unlockedVault s'.vars.metadata blob ∧
      maxLen < compactLen s + blob.length

theorem compactLen_le {H : Bytes} {s : Env Session} (hs : Sound H s) :
    compactLen s ≤ s.vars.currentPayloadOffset.toNat := by
  have hin : ∀ e ∈ s.vars.metadata.fileTable.flatMap (·.chunks),
      e.extent.stop ≤ (s.host.data s.vars.fd).length := by
    intro e he
    obtain ⟨f, hf, he⟩ := List.mem_flatMap.mp he
    exact (hs.layout.packed.le_hi _ (mem_extents hf he)).trans hs.fits
  have hsum := hs.layout.packed.sum_le
  have hle := hs.header_le
  unfold compactLen
  rw [tableBytes_eq_chunkBytes, length_chunkBytes hin, List.map_flatMap]
  unfold extents at hsum
  omega

/-- How a vacuum fails: before it did anything, by an I/O error, or on a table too large to
seal. -/
def VacuumFails (cr : Crates) (s s' : Env Session) (e : VaultError) : Prop :=
  Still s s' ∨ (∃ t, e = .io t) ∧ VacuumLacks cr s s' ∨
    ∃ b, cr.serialize s'.vars.metadata = .ok b ∧ 2 ^ 32 ≤ b.length

def tmpPath (st : Session) : String := st.vaultPath ++ ".tmp"

/-- Where a vacuum stops: at the creation of the temporary file, with that file left behind, or
with the vault's name already on another file than the open one. -/
def VacuumStops (s s' : Env Session) : Prop :=
  Still s s' ∧ (¬Lasts 1 s.host.fault ∨ s.host.names (tmpPath s.vars) ≠ none) ∨
    (Lasts 1 s.host.fault ∧ s.host.names (tmpPath s.vars) = none) ∧
      s'.vars.vaultPath = s.vars.vaultPath ∧ s'.vars.fd = s.vars.fd ∧
      (s'.host.names (tmpPath s.vars) ≠ none ∨
        s'.host.names s.vars.vaultPath ≠ some (s'.host.ino s.vars.fd))

/-- The old header with a new table, its chunks, and the names after the rename. -/
structure Rewritten (cr : Crates) (s : Env Session) (off : UInt64) (s' : Env Session) : Prop where
  names : s'.host.names = Function.update (Function.update (Function.update s.host.names
    (tmpPath s.vars) (some s.host.nextIno)) (tmpPath s.vars) none) s.vars.vaultPath
      (some s.host.nextIno)
  nextIno : s'.host.nextIno = s.host.nextIno + 1
  ino : s'.host.ino s.vars.fd = s.host.ino s.vars.fd
  fault : GoesOn s.host.fault s'.host.fault
  header : VAULT_HEADER_SIZE ≤ (s.host.data s.vars.fd).length
  chunks : ∀ f ∈ s.vars.metadata.fileTable, ∀ e ∈ f.chunks,
    e.extent.stop ≤ (s.host.data s.vars.fd).length
  vars : s'.vars = s.vars.setTable
    (relocateFiles (UInt64.ofNat VAULT_HEADER_SIZE) s.vars.metadata.fileTable)
  offset : off = placedFiles (UInt64.ofNat VAULT_HEADER_SIZE) s.vars.metadata.fileTable
  file : ∃ G blob, G = List.replicate 8 0 ++
      slice (s.host.data s.vars.fd) 8 (VAULT_HEADER_SIZE - 8) ++
      tableBytes (s.host.data s.vars.fd) s.vars.metadata.fileTable ∧ off.toNat = G.length ∧
    Seals cr s.vars.unlockedVault s'.vars.metadata blob ∧
    (s'.host.files s.host.nextIno).bytes = saved G off.toNat blob

/-- The compacted file is complete and has the vault's name. -/
structure Compacted (cr : Crates) (H : Bytes) (s : Env Session) (off : UInt64) (s' : Env Session) :
    Prop where
  named : s'.host.names s.vars.vaultPath = some s.host.nextIno
  fresh : ∀ path i, s'.host.names path = some i → i < s'.host.nextIno
  fault : GoesOn s.host.fault s'.host.fault
  file : ∃ table G blob, s'.vars = s.vars.setTable table ∧ off.toNat = G.length ∧
    CopiedAll cr s.vars.unlockedVault (s.host.data s.vars.fd) (List.replicate 8 0 ++ H)
      s.vars.metadata.fileTable table G ∧
    Seals cr s.vars.unlockedVault s'.vars.metadata blob ∧
    (s'.host.files s.host.nextIno).bytes = saved G off.toNat blob

theorem wp_copyHeader {fd tmpFile : Nat} {s : Env Session} {Q : Unit → Env Session → Prop}
    {E : VaultError → Env Session → Prop} (hne : s.host.ino fd ≠ s.host.ino tmpFile)
    (hempty : s.host.data tmpFile = []) (hpos : s.host.pos tmpFile = 0)
    (herr : s.host.fault ≠ none ∨ (s.host.data fd).length < VAULT_HEADER_SIZE →
      ∀ t s', Confined tmpFile s.host s'.host → s'.vars = s.vars → E (.io t) s')
    (hok : ∀ s', Confined tmpFile s.host s'.host → s'.vars = s.vars →
      VAULT_HEADER_SIZE ≤ (s.host.data fd).length → s'.host.data tmpFile =
        List.replicate 8 0 ++ slice (s.host.data fd) 8 (VAULT_HEADER_SIZE - 8) → Q () s') :
    wp (copyHeader fd tmpFile) Q E s := by
  have hfd : tmpFile ≠ fd := by rintro rfl; exact hne rfl
  unfold copyHeader
  rw [wp_bind]
  have hsmall : VAULT_HEADER_SIZE ≤ maxLen := by decide
  apply wp_writeAll (by rw [hpos]; omega)
  · intro hwhy t s' a _ _
    rw [hpos, List.length_replicate] at hwhy
    exact herr (Or.inl (hwhy.resolve_right (by unfold VAULT_HEADER_SIZE at hsmall; omega))) t s'
      a.toConfined a.vars
  intro s1 _ a1 d1 p1 _ _
  rw [hpos, hempty] at d1
  rw [hpos] at p1
  have hstill : ∀ {s₁ : Env Session}, Moves fd s1 s₁ →
      s₁.host.fault ≠ none ∨ (s.host.data fd).length < VAULT_HEADER_SIZE →
      ∀ t s', Still s₁ s' → E (.io t) s' := by
    intro s₁ m hwhy t s' a
    have m' := m.trans (a.moves fd)
    exact herr (hwhy.imp_left fun hf => a1.fault.ne_none (m.fault.ne_none hf)) t s'
      (a1.toConfined.trans (m'.confined _)) (m'.vars.trans a1.vars)
  rw [wp_bind]
  apply wp_seek
  · intro hwhy t s' a
    exact hstill (Moves.refl fd s1)
      (hwhy.imp_right fun hfar => absurd hfar (by unfold VAULT_HEADER_SIZE at hsmall; omega)) t s' a
  intro s2 _ m2 p2
  rw [wp_bind]
  apply wp_readExact
  · intro hwhy t s' a
    rw [p2, m2.data, a1.data_of_ne hne] at hwhy
    exact hstill m2 hwhy t s' a
  intro s3 hlen m3 _
  rw [p2, m2.data, a1.data_of_ne hne] at hlen
  have hheader : slice (s2.host.data fd) (s2.host.pos fd) (VAULT_HEADER_SIZE - 8) =
      slice (s.host.data fd) 8 (VAULT_HEADER_SIZE - 8) := by
    rw [p2, m2.data, a1.data_of_ne hne]
  replace m3 := m2.trans m3
  have hpos3 : s3.host.pos tmpFile = 8 := by
    rw [m3.pos _ hfd, p1]
    rfl
  have hdata3 : s3.host.data tmpFile = List.replicate 8 0 := by
    rw [m3.data, d1]
    rfl
  rw [hheader]
  have hconf3 : Confined tmpFile s.host s3.host := a1.toConfined.trans (m3.confined _)
  apply wp_writeAll (by rw [hpos3, hdata3]; simp)
  · intro hwhy t s' a _ _
    rw [hpos3, length_slice _ _ _ hlen] at hwhy
    exact herr (Or.inl (hconf3.fault.ne_none (hwhy.resolve_right (by omega)))) t s'
      (hconf3.trans a.toConfined) (by rw [a.vars, m3.vars, a1.vars])
  intro s4 _ a4 d4 _ _ _
  rw [hpos3, hdata3] at d4
  refine hok s4 (hconf3.trans a4.toConfined) ?_ hlen ?_
  · rw [a4.vars, m3.vars, a1.vars]
  · rw [d4]
    exact patch_at_end (List.replicate 8 0) _

theorem fresh_of_rename {names : String → Option Nat} {n : Nat} {tmp path : String}
    (h : ∀ p i, names p = some i → i < n) :
    ∀ p i, Function.update (Function.update (Function.update names tmp (some n)) tmp none) path
      (some n) p = some i → i < n + 1 := by
  rw [Function.update_idem]
  exact bounded_update (fun p i hp => h p i (of_update_none hp)) path

/-- From the save on: the table behind the chunks, and the vault's name for the file. -/
theorem wp_putCompacted (hi : cr.Ideal) {tmpFile : Nat} {tmp : String} {off : UInt64}
    {s : Env Session} {Q : UInt64 → Env Session → Prop} {E : VaultError → Env Session → Prop}
    (hoff : off.toNat = (s.host.data tmpFile).length)
    (herr : ∀ e s', SaveFails cr s.vars.unlockedVault s.vars.metadata off.toNat s.host e ∨
      (∃ t, e = .io t) ∧ (s.host.fault ≠ none ∨ s.host.names tmp = none) →
      Touches tmpFile s s' → E e s')
    (hok : ∀ blob i s₁ s', Seals cr s.vars.unlockedVault s.vars.metadata blob →
      Touches tmpFile s s₁ →
      s₁.host.data tmpFile = saved (s.host.data tmpFile) off.toNat blob →
      s.host.names tmp = some i → s'.host.names = Function.update
        (Function.update s.host.names tmp none) s.vars.vaultPath (some i) →
      Still { s₁ with host := { s₁.host with names := s'.host.names } } s' → Q off s') :
    wp (do
      let st ← session
      saveVaultMetadata cr tmpFile st.metadata st.unlockedVault off
      Call.sync .io tmpFile
      Call.rename .io tmp st.vaultPath
      return off) Q E s := by
  rw [wp_bind, wp_session, wp_bind]
  apply wp_save hi (le_of_eq hoff)
  · intro e s' hwhy a _
    exact herr e s' (Or.inl hwhy) a
  intro blob s1 hseals a1 d1 _
  rw [wp_bind]
  apply wp_sync
  · intro hf t s' a
    exact herr _ s' (Or.inr ⟨⟨t, rfl⟩, Or.inl (a1.fault.ne_none hf)⟩) (a1.trans (a.touches _))
  intro s2 a2 d2 _ _ _
  replace a2 := a1.trans a2
  rw [wp_bind]
  apply wp_rename
  · rintro hwhy t s' a
    rw [a2.names] at hwhy
    exact herr _ s' (Or.inr ⟨⟨t, rfl⟩, hwhy.imp_left a2.fault.ne_none⟩) (a2.trans (a.touches _))
  intro i s3 hi3 hnames3 a3
  rw [a2.names] at hnames3 hi3
  exact hok blob i s2 s3 hseals a2 (d2.trans d1) hi3 hnames3 a3

theorem wp_rewrite (hi : cr.Ideal) {s : Env Session} {Q : UInt64 → Env Session → Prop}
    {E : VaultError → Env Session → Prop} (hlt : s.vars.fd < s.host.nextFd)
    (hino : s.host.ino s.vars.fd < s.host.nextIno)
    (herr : ∀ e s', VacuumFails cr s s' e → VacuumStops s s' → E e s')
    (hok : ∀ off s', Rewritten cr s off s' →
      Lasts 1 s.host.fault → s.host.names (tmpPath s.vars) = none → Q off s') :
    wp (handleVacuum cr) Q E s := by
  unfold handleVacuum
  rw [wp_bind, wp_session]
  dsimp only
  rw [wp_bind]
  apply wp_counted counted_createNew
  apply wp_createNew
  · intro _ t s' a hwhy
    exact herr _ s' (Or.inl a) (Or.inl ⟨a, hwhy⟩)
  intro s1 hfree o1 hspent
  have hne : s.vars.fd ≠ s.host.nextFd := ne_of_lt hlt
  have hvault1 : s1.host.data s.vars.fd = s.host.data s.vars.fd :=
    o1.data_of_ne hne (ne_of_lt hino)
  have hne1 : s1.host.ino s.vars.fd ≠ s1.host.ino s.host.nextFd := by
    rw [o1.ino, o1.ino_of_ne hne]
    exact ne_of_lt hino
  -- Until the rename the temporary file has its name.
  have hleft : ∀ e {s₁ s' : Env Session}, VacuumFails cr s s' e →
      Confined s.host.nextFd s1.host s₁.host → Touches s.host.nextFd s₁ s' →
      (∃ table, s₁.vars = s.vars.setTable table) → E e s' := by
    rintro e s₁ s' hfails hconf a ⟨table, hvars⟩
    have hvars' : s'.vars = s.vars.setTable table := a.vars.trans hvars
    refine herr e s' hfails (Or.inr ⟨⟨hspent.lasts, hfree⟩, by rw [hvars']; rfl, by rw [hvars']; rfl,
      Or.inl ?_⟩)
    have htmp : tmpPath s.vars = s.vars.vaultPath ++ ".tmp" := rfl
    rw [a.names, hconf.names, o1.names, htmp, Function.update_self]
    exact Option.some_ne_none _
  have hio : ∀ t {s₁ s' : Env Session}, VacuumLacks cr s s' →
      Confined s.host.nextFd s1.host s₁.host → Touches s.host.nextFd s₁ s' →
      (∃ table, s₁.vars = s.vars.setTable table) → E (.io t) s' :=
    fun t {_ _} hlacks => hleft _ (Or.inr (Or.inl ⟨⟨t, rfl⟩, hlacks⟩))
  rw [wp_bind]
  apply wp_copyHeader hne1 o1.data o1.pos
  · intro hwhy t s' hconf hvars
    rw [hvault1] at hwhy
    exact hio t (hwhy.imp o1.fault.ne_none Or.inl) hconf ((Still.refl s').touches _)
      ⟨_, hvars.trans o1.vars⟩
  intro s2 hconf2 hvars2 hheader hdata2
  rw [hvault1] at hheader hdata2
  rw [o1.vars] at hvars2
  have hvault2 : s2.host.data s.vars.fd = s.host.data s.vars.fd := by
    rw [hconf2.data_of_ne hne1, hvault1]
  have hoff2 : (UInt64.ofNat VAULT_HEADER_SIZE).toNat = (s2.host.data s.host.nextFd).length := by
    rw [hdata2, List.length_append, length_slice _ _ _ (by exact hheader)]
    rfl
  have hcompact : (s2.host.data s.host.nextFd ++
      tableBytes (s.host.data s.vars.fd) s.vars.metadata.fileTable).length = compactLen s := by
    rw [List.length_append, ← hoff2]
    rfl
  -- The header is in place, the chunks follow.
  rw [wp_bind]
  apply wp_moveFiles (b := s.vars)
  · rw [hconf2.ino, hconf2.ino]
    exact hne1
  · rw [hvars2]
    rfl
  · exact hoff2
  · intro hlacks t s' a
    refine hio t ?_ (hconf2.trans a.host) ((Still.refl s').touches _) a.vars
    rw [hvault2] at hlacks
    rcases hlacks with hf | ⟨e, he, hlt⟩ | hfull
    · exact Or.inl (o1.fault.ne_none (hconf2.fault.ne_none hf))
    · obtain ⟨f, hf, he⟩ := List.mem_flatMap.mp he
      exact Or.inr (Or.inr (Or.inl ⟨f, hf, e, he, hlt⟩))
    · rw [← tableBytes_eq_chunkBytes, hcompact] at hfull
      exact Or.inr (Or.inr (Or.inr (Or.inl hfull)))
  intro s3 c3 hvars3 hin hdata3
  have hfit3 := Host.data_fits s3.host s.host.nextFd
  rw [hdata3] at hfit3
  have hoff3 := toNat_placedFiles hoff2 hin hfit3
  rw [← hdata3] at hoff3
  rw [hvault2] at hin hdata3
  rw [hdata2] at hdata3
  rw [List.nil_append] at hvars3
  have hconf3 : Confined s.host.nextFd s1.host s3.host := hconf2.trans c3.host
  have hfault3 : s3.host.fault ≠ none → s.host.fault ≠ none :=
    fun hf => o1.fault.ne_none (hconf3.fault.ne_none hf)
  have hnames3 : s3.host.names =
      Function.update s.host.names (s.vars.vaultPath ++ ".tmp") (some s.host.nextIno) := by
    rw [hconf3.names, o1.names]
  apply wp_putCompacted hi hoff3
  · intro e s' hwhy a
    refine hleft e ?_ hconf3 a ⟨_, hvars3⟩
    rcases hwhy with (⟨hio, hf | ⟨blob, hseals, hfull⟩⟩ | ⟨b, hb, hlen⟩) | ⟨hio, hf | hnone⟩
    · exact Or.inr (Or.inl ⟨hio, Or.inl (hfault3 hf)⟩)
    · rw [hoff3, hdata3, ← hdata2, hcompact] at hfull
      exact Or.inr (Or.inl ⟨hio, Or.inr (Or.inr (Or.inr (Or.inr
        ⟨blob, by rw [a.vars]; exact hseals, hfull⟩)))⟩)
    · exact Or.inr (Or.inr ⟨b, by rw [a.vars]; exact hb, hlen⟩)
    · exact Or.inr (Or.inl ⟨hio, Or.inl (hfault3 hf)⟩)
    · rw [hnames3, Function.update_self] at hnone
      cases hnone
  intro blob i s5 s6 hseals a5 d5 hi6 hnames6 a6
  rw [hvars3, hnames3] at hnames6
  rw [hnames3] at hi6
  obtain rfl : s.host.nextIno = i := by simpa using hi6
  have hconf5 : Confined s.host.nextFd s1.host s5.host := hconf3.trans a5.toConfined
  have hvars5 := a5.vars.trans hvars3
  have hino5 : s5.host.ino s.host.nextFd = s.host.nextIno := (hconf5.ino _).trans o1.ino
  refine hok _ s6 ⟨hnames6, ?_, ?_, ?_, hheader, hin, a6.vars.trans hvars5, rfl,
    s3.host.data s.host.nextFd, blob, hdata3, hoff3, ?_, ?_⟩ hspent.lasts hfree
  · exact a6.nextIno.trans (hconf5.nextIno.trans o1.nextIno)
  · exact (a6.ino _).trans ((hconf5.ino _).trans (o1.ino_of_ne hne))
  · exact (o1.fault.trans hconf5.fault).trans a6.fault
  · rw [a6.vars, a5.vars]
    rw [hvars3] at hseals ⊢
    exact hseals
  · rw [a6.files, ← d5]
    show (s5.host.files s.host.nextIno).bytes = (s5.host.files (s5.host.ino s.host.nextFd)).bytes
    rw [hino5]

theorem Rewritten.compacted {H : Bytes} {s s' : Env Session} {off : UInt64}
    (h : Rewritten cr s off s') (hs : Sound H s) : Compacted cr H s off s' := by
  obtain ⟨G, blob, hG, hoff, hseals, hfile⟩ := h.file
  refine ⟨?_, ?_, h.fault, _, G, blob, h.vars, hoff, ?_, hseals, hfile⟩
  · rw [h.names]
    exact Function.update_self ..
  · rw [h.names, h.nextIno]
    exact fresh_of_rename hs.fresh
  · have hlen : (UInt64.ofNat VAULT_HEADER_SIZE).toNat = (List.replicate 8 0 ++
        slice (s.host.data s.vars.fd) 8 (VAULT_HEADER_SIZE - 8) : Bytes).length := by
      rw [List.length_append, length_slice _ _ _ (by exact h.header)]
      rfl
    have hfit := (s'.host.files s.host.nextIno).fits
    rw [hfile, length_saved (by rw [hoff, hG, List.append_assoc, List.length_append]; simp)
      (le_of_eq hoff), hoff, hG] at hfit
    rw [hG, ← hs.header]
    exact CopiedAll.of_relocate hlen h.chunks (by omega)

theorem wp_handleVacuum (hi : cr.Ideal) {H : Bytes} {s : Env Session}
    {Q : UInt64 → Env Session → Prop} {E : VaultError → Env Session → Prop} (hs : Sound H s)
    (herr : ∀ e s', VacuumFails cr s s' e → VacuumStops s s' → E e s')
    (hok : ∀ off s', Compacted cr H s off s' → s'.host.ino s.vars.fd = s.host.ino s.vars.fd →
      Lasts 1 s.host.fault → s.host.names (tmpPath s.vars) = none → Q off s') :
    wp (handleVacuum cr) Q E s := by
  apply wp_rewrite hi hs.fd_lt (hs.fresh _ _ hs.named) herr
  intro off s' h
  exact hok off s' (h.compacted hs) h.ino

theorem names_of_sameContent {F' : Bytes} {table table' : List FileIndex}
    (h : List.Forall₂ (SameContent cr v F F') table table') :
    table'.map (·.vfsName) = table.map (·.vfsName) := by
  induction h with
  | nil => rfl
  | cons hf _ ih => simp [hf.1, ih]

theorem SameContent.saved {G blob : Bytes} {table table' : List FileIndex}
    (h : List.Forall₂ (SameContent cr v F G) table table') (hl : Layout table' G.length) :
    List.Forall₂ (SameContent cr v F (saved G G.length blob)) table table' := by
  refine List.forall₂_iff_get.mpr ⟨h.length_eq, fun i h₁ h₂ => ?_⟩
  obtain ⟨hname, hread⟩ := (List.forall₂_iff_get.mp h).2 i h₁ h₂
  refine ⟨hname, ?_⟩
  rw [← hread]
  exact readFile_saved hl (le_refl _) (List.get_mem _ _)

/-- **Vacuum.** The session goes on with the compacted file, and every file in it is what it was. -/
theorem wp_shellVacuum (hi : cr.Ideal) {H : Bytes} {s : Env Session}
    {Q : Unit → Env Session → Prop} {E : VaultError → Env Session → Prop} (hs : Sound H s)
    (herr : ∀ e s', VacuumFails cr s s' e → VacuumStops s s' → E e s')
    (hok : ∀ s', Vacuumed cr H s s' → Q () s') :
    wp (shellVacuum cr) Q E s := by
  have hsize : VAULT_HEADER_SIZE = 125 := rfl
  have hH : H.length = 117 := by
    rw [← hs.header]
    exact length_slice _ _ _ (by have := hs.header_le; have := hs.fits; omega)
  unfold shellVacuum
  rw [wp_bind]
  apply wp_handleVacuum hi hs herr
  intro off s1 hc hino1 hlasts hfree
  obtain ⟨table, G, blob, hvars1, hoff, hall, hseals, hfile⟩ := hc.file
  rw [wp_bind, wp_session, wp_bind]
  apply wp_openFile
  · intro hwhy t s' a
    have hvars' : s'.vars = s.vars.setTable table := a.vars.trans hvars1
    have hf : s.host.fault ≠ none := by
      refine hc.fault.ne_none (hwhy.resolve_right fun hnone => ?_)
      rw [hvars1] at hnone
      exact absurd (hc.named.symm.trans hnone) (Option.some_ne_none _)
    refine herr _ s' (Or.inr (Or.inl ⟨⟨t, rfl⟩, Or.inl hf⟩)) (Or.inr ⟨⟨hlasts, hfree⟩, by rw [hvars']; rfl,
      by rw [hvars']; rfl, Or.inr ?_⟩)
    rw [a.names, a.ino, hc.named, hino1]
    -- The open file is older than the one that has the name now.
    have hold := hs.fresh _ _ hs.named
    exact fun h => (ne_of_lt hold) (Option.some.inj h).symm
  intro i s2 hi2 o2
  obtain rfl : s.host.nextIno = i := by
    rw [hvars1] at hi2
    exact Option.some.inj (hc.named.symm.trans hi2)
  rw [wp_update]
  -- The new file is the old header, the copied chunks and the new blob.
  have hheaderLen : (List.replicate 8 0 ++ H : Bytes).length = VAULT_HEADER_SIZE := by
    rw [List.length_append, List.length_replicate, hH, hsize]
  have hchain := hall.chain
  rw [hheaderLen] at hchain
  have hlayout : Layout table G.length := by
    refine ⟨hchain.packed, ?_⟩
    rw [names_of_sameContent hall.same]
    exact hs.layout.names
  have hle : VAULT_HEADER_SIZE ≤ G.length := hchain.le
  have hdata : s2.host.data s1.host.nextFd = saved G off.toNat blob := by rw [o2.data, hfile]
  have hvars2 : s2.vars = s.vars.setTable table := o2.vars.trans hvars1
  have hmeta : s1.vars.metadata = (s.vars.setTable table).metadata := by rw [hvars1]
  rw [hmeta] at hseals
  have hlen : (saved G off.toNat blob).length = off.toNat + blob.length :=
    length_saved (by omega) (le_of_eq hoff)
  refine hok _ ⟨⟨?_, ?_, ?_, ?_, ?_, ?_, ?_⟩, ⟨?_, blob, ?_, ?_, ?_⟩, ?_, ?_, ?_, ?_⟩ <;>
    dsimp only
  · rw [hvars2, o2.names, o2.ino]
    exact hc.named
  · rw [o2.names, o2.nextIno]
    exact hc.fresh
  · rw [o2.nextFd]
    omega
  · rw [hvars2, hoff]
    exact hlayout
  · rw [hdata, slice_saved (by omega) (by omega) (le_of_eq hoff),
      ← slice_take G _ _ VAULT_HEADER_SIZE (by omega), ← hheaderLen, hall.keeps, slice]
    simp [hH]
  · omega
  · rw [hdata, hlen]
    omega
  · rw [hdata]
    exact masterPointer_saved
  · rw [hvars2]
    exact hseals
  · rw [hdata]
    exact drop_saved (by omega) (le_of_eq hoff)
  · rw [hdata, hlen]
  · rw [hvars2]
    rfl
  · rw [hvars2]
    rfl
  · rw [hdata, hoff, hvars2]
    exact SameContent.saved hall.same hlayout
  · exact hc.fault.trans o2.fault

end AtomVault
