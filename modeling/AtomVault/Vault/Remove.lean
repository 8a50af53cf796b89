import AtomVault.Vault.Invariant

/-!
# What removing and renaming do

A removal writes inside the extents of the file it removes, then cuts the file at the
payload offset. A rename touches the table only.
-/

open Lib

namespace AtomVault

variable {cr : Crates} {H : Bytes} {s s' : Env Session}

/-! ## The table around one entry -/

theorem table_split {table : List FileIndex} {i : Nat} {f : FileIndex} (h : table[i]? = some f) :
    table = table.take i ++ f :: table.drop (i + 1) ∧
      table.eraseIdx i = table.take i ++ table.drop (i + 1) := by
  obtain ⟨hi, rfl⟩ := List.getElem?_eq_some_iff.mp h
  refine ⟨?_, List.eraseIdx_eq_take_drop_succ _ _⟩
  rw [List.getElem_cons_drop, List.take_append_drop]

theorem Layout.apart {table : List FileIndex} {off i : Nat} {f g : FileIndex} {e x : ChunkEntry}
    (hl : Layout table off) (hf : table[i]? = some f) (hg : g ∈ table.eraseIdx i)
    (he : e ∈ g.chunks) (hx : x ∈ f.chunks) : e.extent.Apart x.extent := by
  obtain ⟨hsplit, herase⟩ := table_split hf
  have hpair := hl.packed.apart
  rw [hsplit, extents_append] at hpair
  have hcons : extents (f :: table.drop (i + 1)) =
      f.chunks.map (·.extent) ++ extents (table.drop (i + 1)) := by simp [extents]
  rw [hcons, List.pairwise_append, List.pairwise_append] at hpair
  obtain ⟨-, ⟨-, -, hright⟩, hleft⟩ := hpair
  have hxf : x.extent ∈ f.chunks.map (·.extent) := List.mem_map_of_mem hx
  rw [herase, List.mem_append] at hg
  rcases hg with hg | hg
  · exact hleft _ (mem_extents hg he) _ (List.mem_append_left _ hxf)
  · exact (hright _ hxf _ (mem_extents hg he)).symm

theorem mem_eraseIdx_of_name {table : List FileIndex} {i : Nat} {f g : FileIndex}
    (hf : table[i]? = some f) (hg : g ∈ table) (hne : g.vfsName ≠ f.vfsName) :
    g ∈ table.eraseIdx i := by
  obtain ⟨hsplit, herase⟩ := table_split hf
  rw [hsplit, List.mem_append, List.mem_cons] at hg
  rw [herase, List.mem_append]
  rcases hg with hg | rfl | hg
  · exact Or.inl hg
  · exact absurd rfl hne
  · exact Or.inr hg

theorem name_ne_of_mem_eraseIdx {table : List FileIndex} {i : Nat} {f g : FileIndex} {off : Nat}
    (hl : Layout table off) (hf : table[i]? = some f) (hg : g ∈ table.eraseIdx i) :
    g.vfsName ≠ f.vfsName := by
  obtain ⟨hsplit, herase⟩ := table_split hf
  have hnames := hl.names
  rw [hsplit, List.map_append, List.map_cons, List.nodup_append, List.nodup_cons] at hnames
  obtain ⟨-, ⟨hright, -⟩, hleft⟩ := hnames
  rw [herase, List.mem_append] at hg
  rcases hg with hg | hg
  · exact hleft _ (List.mem_map_of_mem hg) _ (by simp)
  · intro heq
    exact hright (heq ▸ List.mem_map_of_mem hg)

/-! ## Removing -/

/-- Zeros over some of the chunks `es`, at most one write for each. -/
structure Zeroed (es : List ChunkEntry) (s s' : Env Session) : Prop where
  touches : Touches s.vars.fd s s'
  agree : AgreeOff (es.map (·.extent)) (s.host.data s.vars.fd) (s'.host.data s.vars.fd)
  writes_le : s.host.writes ≤ s'.host.writes
  le_writes : s'.host.writes ≤ s.host.writes + es.length

theorem Zeroed.of_moves {es : List ChunkEntry} (a : Moves s.vars.fd s s') : Zeroed es s s' :=
  ⟨a.toTouches, by rw [a.data]; exact AgreeOff.refl _ _, ge_of_eq a.writes,
    by rw [a.writes]; omega⟩

theorem Zeroed.cons {e : ChunkEntry} {es : List ChunkEntry} {s s₁ s' : Env Session}
    (a : Zeroed [e] s s₁) (b : Zeroed es s₁ s') : Zeroed (e :: es) s s' := by
  have hvars := a.touches.vars
  have bt := b.touches
  have bagree := b.agree
  rw [hvars] at bt bagree
  refine ⟨a.touches.trans bt, ?_, le_trans a.writes_le b.writes_le, ?_⟩
  · exact (a.agree.mono (by simp)).trans (bagree.mono (by simp))
  · have := a.le_writes
    have := b.le_writes
    simp only [List.length_cons, List.length_nil] at *
    omega

theorem wp_zeroChunks : ∀ {es : List ChunkEntry} {s : Env Session} {Q : Unit → Env Session → Prop}
      {E : VaultError → Env Session → Prop},
    (∀ e ∈ es, e.extent.stop ≤ (s.host.data s.vars.fd).length) →
    (s.host.fault ≠ none → ∀ t s', Zeroed es s s' → E (.io t) s') →
    (∀ s', Zeroed es s s' → s'.host.writes = s.host.writes + es.length → Q () s') →
    wp (zeroChunks es) Q E s := by
  intro es
  induction es with
  | nil =>
    intro s Q E _ _ hok
    exact hok s (Zeroed.of_moves (Moves.refl _ s)) rfl
  | cons e es ih =>
    intro s Q E hin herr hok
    have hstop := hin e (by simp)
    have hmax : e.offset.toNat + e.cipherLen.toNat ≤ maxLen := hstop.trans (Host.data_fits _ _)
    unfold zeroChunks
    rw [wp_bind, wp_session, wp_bind]
    apply wp_seek
    · intro hwhy t s' a
      exact herr (hwhy.resolve_right (by omega)) t s' (Zeroed.of_moves (a.moves _))
    intro s1 _ m1 p1
    have hzeros : ∀ {b : Bytes} {s' : Env Session}, b.length ≤ e.cipherLen.toNat →
        Touches s.vars.fd s1 s' →
        s'.host.data s.vars.fd = patch (s1.host.data s.vars.fd) e.offset.toNat b →
        s1.host.writes ≤ s'.host.writes → s'.host.writes ≤ s1.host.writes + 1 →
        Zeroed [e] s s' := by
      intro b s' hb a hd hw hw'
      rw [m1.data] at hd
      refine ⟨m1.toTouches.trans a, ?_, by rw [← m1.writes]; exact hw, by rw [← m1.writes]; exact hw'⟩
      rw [hd]
      exact AgreeOff.patch (e := e.extent) hb hstop
    rw [wp_bind]
    apply wp_writeAll
    · rw [p1, m1.data]
      exact le_trans (by simp [Extent.stop, ChunkEntry.extent]) hstop
    · rintro hwhy t s' a ⟨k, -, hd, -⟩ hw
      rw [p1] at hd
      rw [p1, List.length_replicate] at hwhy
      have hz := hzeros (by simp) a hd (by omega) (by omega)
      exact herr (m1.fault.ne_none (hwhy.resolve_right (by omega))) t s'
        (hz.cons (Zeroed.of_moves (Moves.refl _ s')))
    intro s2 _ a2 d2 _ _ w2
    rw [p1] at d2
    have hz := hzeros (by simp) a2 d2 (by omega) (by omega)
    have hvars : s2.vars = s.vars := hz.touches.vars
    apply ih
    · intro x hx
      rw [hvars, hz.agree.length]
      exact hin x (by simp [hx])
    · intro hfault t s' b
      exact herr (hz.touches.fault.ne_none hfault) t s' (hz.cons b)
    · intro s' b hw
      refine hok s' (hz.cons b) ?_
      rw [hw, w2, m1.writes, List.length_cons]
      omega

/-- A removal of the file at `i` that stopped before it cut the file. -/
structure Removing (i : Nat) (f : FileIndex) (s s' : Env Session) : Prop where
  host : SameFile s.vars.fd s.host s'.host
  vars : s'.vars = s.vars ∨ s'.vars = s.vars.setTable (s.vars.metadata.fileTable.eraseIdx i)
  agree : AgreeOff (f.chunks.map (·.extent)) (s.host.data s.vars.fd) (s'.host.data s.vars.fd)
  writes_le : s.host.writes ≤ s'.host.writes
  le_writes : s'.host.writes ≤ s.host.writes + f.chunks.length

/-- A removal whose file is zeroed and cut and whose entry is gone. -/
structure Removed (i : Nat) (f : FileIndex) (s s' : Env Session) : Prop where
  host : SameFile s.vars.fd s.host s'.host
  vars : s'.vars = s.vars.setTable (s.vars.metadata.fileTable.eraseIdx i)
  data : ∃ F, AgreeOff (f.chunks.map (·.extent)) (s.host.data s.vars.fd) F ∧
    s'.host.data s.vars.fd = F.take s.vars.currentPayloadOffset.toNat
  writes : s'.host.writes = s.host.writes + f.chunks.length + 1

theorem Zeroed.removing {i : Nat} {f : FileIndex} (a : Zeroed f.chunks s s') : Removing i f s s' :=
  ⟨a.touches.toConfined.sameFile _, Or.inl a.touches.vars, a.agree, a.writes_le, a.le_writes⟩

theorem findIdx_some {table : List FileIndex} {name : String} {i : Nat}
    (h : table.findIdx? (·.vfsName == name) = some i) :
    ∃ f, table[i]? = some f ∧ f.vfsName = name := by
  obtain ⟨hi, hname, -⟩ := List.findIdx?_eq_some_iff_getElem.mp h
  exact ⟨table[i], List.getElem?_eq_getElem hi, by simpa using hname⟩

theorem wp_rmPrepare {name : String} {Q : Unit → Env Session → Prop}
    {E : VaultError → Env Session → Prop} (hs : Sound H s)
    (hnone : ¬hasName s.vars.metadata.fileTable name = true →
      E (.text "File not found in metadata") s)
    (herr : s.host.fault ≠ none → ∀ i f t s', s.vars.metadata.fileTable[i]? = some f →
      f.vfsName = name → Removing i f s s' → E (.io t) s')
    (hok : ∀ i f s', s.vars.metadata.fileTable[i]? = some f → f.vfsName = name →
      Removed i f s s' → Q () s') :
    wp (rmPrepare name) Q E s := by
  unfold rmPrepare
  rw [wp_bind, wp_session]
  split
  · rename_i hfind
    apply hnone
    rw [hasName_iff]
    rintro ⟨f, hf, hname⟩
    have := List.findIdx?_eq_none_iff.mp hfind f hf
    simp [hname] at this
  rename_i i hfind
  obtain ⟨f, hf, hname⟩ := findIdx_some hfind
  have hmem := List.mem_of_getElem? hf
  rw [hf, Option.elim_some, wp_bind]
  apply wp_zeroChunks
  · intro e he
    exact le_trans (hs.layout.packed.le_hi _ (mem_extents hmem he)) hs.fits
  · intro hfault t s' a
    exact herr hfault i f t s' hf hname a.removing
  intro s1 a1 w1
  have hvars1 : s1.vars = s.vars := a1.touches.vars
  rw [wp_bind]
  apply wp_probe
  · intro hfault t s' a
    refine herr (a1.touches.fault.ne_none hfault) i f t s' hf hname ⟨?_, ?_, ?_, ?_, ?_⟩
    · exact (a1.touches.trans (a.touches _)).toConfined.sameFile _
    · exact Or.inl (a.vars.trans hvars1)
    · rw [a.data]; exact a1.agree
    · rw [a.writes]; exact a1.writes_le
    · rw [a.writes]; exact a1.le_writes
  intro s2 a2
  have hvars2 : s2.vars = s.vars := a2.vars.trans hvars1
  have hdata2 := a2.data s.vars.fd
  rw [wp_bind, wp_update, wp_bind]
  -- From here on the entry is gone from the table.
  have hlate : ∀ s', Moves s.vars.fd
      ⟨s2.host, s2.vars.setTable (s.vars.metadata.fileTable.eraseIdx i)⟩ s' →
      Removing i f s s' := by
    intro s' m
    have hconf : Confined s.vars.fd s2.host s'.host := m.toConfined
    refine ⟨?_, Or.inr ?_, ?_, ?_, ?_⟩
    · exact ((a1.touches.trans (a2.touches _)).toConfined.trans hconf).sameFile _
    · rw [m.vars, hvars2]
    · rw [m.data]
      show AgreeOff _ _ (s2.host.data s.vars.fd)
      rw [hdata2]
      exact a1.agree
    · rw [m.writes]
      show _ ≤ s2.host.writes
      rw [a2.writes]
      exact a1.writes_le
    · rw [m.writes]
      show s2.host.writes ≤ _
      rw [a2.writes]
      exact a1.le_writes
  have hgone : ∀ {s₁ : Env Session}, GoesOn s2.host.fault s₁.host.fault →
      s₁.host.fault ≠ none ∨ maxLen < s.vars.currentPayloadOffset.toNat → s.host.fault ≠ none :=
    fun a hwhy => a1.touches.fault.ne_none (a2.fault.ne_none (a.ne_none
      (hwhy.resolve_right (not_lt.mpr (hs.fits.trans (Host.data_fits _ _))))))
  apply wp_seek
  · intro hwhy t s' a
    exact herr (hgone (GoesOn.refl _) hwhy) i f t s' hf hname (hlate s' (a.moves _))
  intro s3 _ m3 _
  have hrem := hlate s3 m3
  apply wp_setLen
  · intro hwhy t s' a
    exact herr (hgone m3.fault hwhy) i f t s' hf hname (hlate s' (m3.trans (a.moves _)))
  intro s4 _ a4 d4 _ _ w4
  refine hok i f s4 hf hname ⟨?_, ?_, ?_, ?_⟩
  · exact hrem.host.trans (a4.toConfined.sameFile _)
  · rw [a4.vars, m3.vars, hvars2]
  · refine ⟨s3.host.data s.vars.fd, hrem.agree, ?_⟩
    rw [d4, resize_eq_take _ _ (by rw [hrem.agree.length]; exact hs.fits)]
  · rw [w4, m3.writes]
    show s2.host.writes + 1 = _
    rw [a2.writes, w1]

theorem header_of_agreeOff {table : List FileIndex} {off : Nat} {f : FileIndex} {F F' : Bytes}
    (hl : Layout table off) (hf : f ∈ table) (h : AgreeOff (f.chunks.map (·.extent)) F F') :
    slice F' 8 (VAULT_HEADER_SIZE - 8) = slice F 8 (VAULT_HEADER_SIZE - 8) := by
  refine h.read ⟨8, VAULT_HEADER_SIZE - 8⟩ ?_
  intro x hx
  obtain ⟨e, he, rfl⟩ := List.mem_map.mp hx
  have hlo := hl.packed.lo_le _ (mem_extents hf he)
  have hsize : VAULT_HEADER_SIZE = 125 := rfl
  exact Or.inl (by simp only [Extent.stop]; omega)

theorem readFile_of_agreeOff {table : List FileIndex} {off i : Nat} {f g : FileIndex} {F F' : Bytes}
    {v : UnlockedVault} (hl : Layout table off) (hf : table[i]? = some f)
    (hg : g ∈ table.eraseIdx i) (h : AgreeOff (f.chunks.map (·.extent)) F F') :
    readFile cr v F' g.chunks = readFile cr v F g.chunks := by
  apply readFile_congr
  intro e he
  apply h.read
  intro x hx
  obtain ⟨y, hy, rfl⟩ := List.mem_map.mp hx
  exact hl.apart hf hg he hy

theorem Removing.sound {i : Nat} {f : FileIndex} (a : Removing i f s s') (hs : Sound H s)
    (hf : s.vars.metadata.fileTable[i]? = some f) : Sound H s' := by
  have hheader := header_of_agreeOff hs.layout (List.mem_of_getElem? hf) a.agree
  have hfits : s.vars.currentPayloadOffset.toNat ≤ (s'.host.data s.vars.fd).length := by
    rw [a.agree.length]
    exact hs.fits
  rcases a.vars with h | h
  · refine hs.of_sameFile a.host (by rw [h]) (by rw [h]) ?_ ?_ ?_ hheader
    · rw [h]; exact hs.layout
    · rw [h]; exact hs.header_le
    · rw [h]; exact hfits
  · refine hs.of_sameFile a.host (by rw [h]; rfl) (by rw [h]; rfl) ?_ ?_ ?_ hheader
    · rw [h]; exact hs.layout.eraseIdx i
    · rw [h]; exact hs.header_le
    · rw [h]; exact hfits

theorem Removed.sound {i : Nat} {f : FileIndex} (a : Removed i f s s') (hs : Sound H s)
    (hf : s.vars.metadata.fileTable[i]? = some f) : Sound H s' := by
  obtain ⟨F, hagree, hdata⟩ := a.data
  have hheader := header_of_agreeOff hs.layout (List.mem_of_getElem? hf) hagree
  refine hs.of_sameFile a.host (by rw [a.vars]; rfl) (by rw [a.vars]; rfl) ?_ ?_ ?_ ?_
  · rw [a.vars]; exact hs.layout.eraseIdx i
  · rw [a.vars]; exact hs.header_le
  · rw [a.vars, hdata, List.length_take, hagree.length]
    exact le_min (le_refl _) hs.fits
  · rw [hdata, ← hheader]
    exact header_of_take hs.header_le (by rw [List.take_take, min_self])

theorem Removed.readFile {i : Nat} {f g : FileIndex} {v : UnlockedVault} (a : Removed i f s s')
    (hs : Sound H s) (hf : s.vars.metadata.fileTable[i]? = some f)
    (hg : g ∈ s.vars.metadata.fileTable.eraseIdx i) :
    readFile cr v (s'.host.data s.vars.fd) g.chunks =
      readFile cr v (s.host.data s.vars.fd) g.chunks := by
  obtain ⟨F, hagree, hdata⟩ := a.data
  rw [← readFile_of_agreeOff hs.layout hf hg hagree, hdata]
  exact readFile_of_take (hs.layout.eraseIdx i) (by rw [List.take_take, min_self]) hg

theorem wp_handleRm (hi : cr.Ideal) {name : String} {Q : Unit → Env Session → Prop}
    {E : VaultError → Env Session → Prop} (hs : Sound H s)
    (hnone : ¬hasName s.vars.metadata.fileTable name = true →
      E (.text "File not found in metadata") s)
    (herr : s.host.fault ≠ none → ∀ i f t s', s.vars.metadata.fileTable[i]? = some f →
      f.vfsName = name → Removing i f s s' → E (.io t) s')
    (hstop : ∀ i f e s₁ s', s.vars.metadata.fileTable[i]? = some f → f.vfsName = name →
      Removed i f s s₁ → SaveFails cr s₁.vars.unlockedVault s₁.vars.metadata
        s₁.vars.currentPayloadOffset.toNat s₁.host e → SaveStops cr s₁ s' → E e s')
    (hok : ∀ i f blob s₁ s', s.vars.metadata.fileTable[i]? = some f → f.vfsName = name →
      Removed i f s s₁ → Saves cr blob s₁ s' → Q () s') :
    wp (handleRm cr name) Q E s := by
  unfold handleRm
  rw [wp_bind]
  apply wp_rmPrepare hs hnone herr
  intro i f s1 hf hname a1
  apply wp_saveSession hi (a1.sound hs hf).fits
  · intro e s' hwhy h
    exact hstop i f e s1 s' hf hname a1 hwhy h
  · intro blob s' h
    exact hok i f blob s1 s' hf hname a1 h

/-! ## Renaming -/

section Rename

variable {old new : String} {table : List FileIndex}

theorem renameFirst_split (new : String) (h : hasName table old = true) :
    ∃ l₁ f l₂, table = l₁ ++ f :: l₂ ∧ f.vfsName = old ∧
      renameFirst old new table = l₁ ++ { f with vfsName := new } :: l₂ := by
  induction table with
  | nil => simp [hasName] at h
  | cons f rest ih =>
    by_cases hf : f.vfsName = old
    · exact ⟨[], f, rest, rfl, hf, by simp [renameFirst, hf]⟩
    · have hrest : hasName rest old = true := by
        obtain ⟨g, hg, hname⟩ := hasName_iff.mp h
        rcases List.mem_cons.mp hg with rfl | hg
        · exact absurd hname hf
        · exact hasName_iff.mpr ⟨g, hg, hname⟩
      obtain ⟨l₁, g, l₂, hsplit, hg, hren⟩ := ih hrest
      exact ⟨f :: l₁, g, l₂, by rw [hsplit]; rfl, hg, by simp [renameFirst, hf, hren]⟩

theorem extents_renameFirst (h : hasName table old = true) :
    extents (renameFirst old new table) = extents table := by
  obtain ⟨l₁, f, l₂, hsplit, -, hren⟩ := renameFirst_split new h
  rw [hren, hsplit]
  simp [extents]

theorem Layout.rename {off : Nat} (hl : Layout table off) (h : hasName table old = true)
    (hnew : ¬hasName table new = true) : Layout (renameFirst old new table) off := by
  refine ⟨by rw [extents_renameFirst h]; exact hl.packed, ?_⟩
  obtain ⟨l₁, f, l₂, hsplit, -, hren⟩ := renameFirst_split new h
  have hnames := hl.names
  have hnot := hasName_eq_false hnew
  rw [hsplit] at hnot hnames
  rw [hren]
  simp only [List.map_append, List.map_cons, List.nodup_append, List.nodup_cons, List.mem_map,
    List.mem_cons] at hnames ⊢
  obtain ⟨h₁, ⟨-, h₂⟩, h₁₂⟩ := hnames
  refine ⟨h₁, ⟨?_, h₂⟩, ?_⟩
  · rintro ⟨g, hg, hname⟩
    exact hnot g (by simp [hg]) hname
  · rintro a ⟨g, hg, rfl⟩ b (rfl | hb)
    · exact hnot g (by simp [hg])
    · exact h₁₂ _ ⟨g, hg, rfl⟩ _ (Or.inr hb)

/-- The session with the new name in its table. -/
def renamed (old new : String) (s : Env Session) : Env Session :=
  { s with vars := s.vars.setTable (renameFirst old new s.vars.metadata.fileTable) }

theorem Sound.renamed (hs : Sound H s) (h : hasName s.vars.metadata.fileTable old = true)
    (hnew : ¬hasName s.vars.metadata.fileTable new = true) : Sound H (renamed old new s) where
  named := hs.named
  fresh := hs.fresh
  fd_lt := hs.fd_lt
  layout := hs.layout.rename h hnew
  header := hs.header
  header_le := hs.header_le
  fits := hs.fits

theorem wp_renamePrepare {Q : Bool → Env Session → Prop} {E : VaultError → Env Session → Prop}
    (hrefuse : ∀ msg, isValidVfsFilename new = false ∨
      hasName s.vars.metadata.fileTable new = true → E (.text msg) s)
    (hnone : ¬hasName s.vars.metadata.fileTable old = true → Q false s)
    (hok : isValidVfsFilename new = true → hasName s.vars.metadata.fileTable old = true →
      ¬hasName s.vars.metadata.fileTable new = true → Q true (renamed old new s)) :
    wp (renamePrepare old new) Q E s := by
  unfold renamePrepare
  cases hvalid : isValidVfsFilename new with
  | false => exact hrefuse _ (Or.inl hvalid)
  | true =>
    simp only [Bool.not_true, Bool.false_eq_true, if_false]
    rw [wp_bind, wp_session]
    split
    · rename_i hdup
      exact hrefuse _ (Or.inr hdup)
    rename_i hnew
    split
    · rename_i hold
      rw [wp_bind, wp_update]
      exact hok hvalid hold hnew
    · rename_i hold
      exact hnone hold

theorem wp_handleRename (hi : cr.Ideal) {Q : Bool → Env Session → Prop}
    {E : VaultError → Env Session → Prop}
    (hoff : s.vars.currentPayloadOffset.toNat ≤ (s.host.data s.vars.fd).length)
    (hrefuse : ∀ msg, isValidVfsFilename new = false ∨
      hasName s.vars.metadata.fileTable new = true → E (.text msg) s)
    (hnone : ¬hasName s.vars.metadata.fileTable old = true → Q false s)
    (hstop : ∀ e s', isValidVfsFilename new = true → hasName s.vars.metadata.fileTable old = true →
      ¬hasName s.vars.metadata.fileTable new = true →
      SaveFails cr s.vars.unlockedVault (renamed old new s).vars.metadata
        s.vars.currentPayloadOffset.toNat s.host e → SaveStops cr (renamed old new s) s' → E e s')
    (hok : ∀ blob s', isValidVfsFilename new = true →
      hasName s.vars.metadata.fileTable old = true →
      ¬hasName s.vars.metadata.fileTable new = true → Saves cr blob (renamed old new s) s' →
      Q true s') :
    wp (handleRename cr old new) Q E s := by
  unfold handleRename
  rw [wp_bind]
  apply wp_renamePrepare hrefuse
  · exact hnone
  intro hvalid hold hnew
  simp only [if_true]
  rw [wp_bind, wp_session, wp_bind]
  apply wp_save hi (by exact hoff)
  · intro e s' hwhy a hstage
    exact hstop e s' hvalid hold hnew hwhy ⟨a, hstage⟩
  · intro blob s' hseals a hdata hw
    exact hok blob s' hvalid hold hnew ⟨hseals, a, hdata, hw⟩

end Rename

end AtomVault
