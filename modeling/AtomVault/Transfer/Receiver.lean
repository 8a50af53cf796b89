import AtomVault.Transfer.Machine

/-!
# The receiver against any peer

The peer chooses every frame, the host where it fails, the user when to cancel. Up to an
accepted `DONE` the hasher holds exactly the bytes of `.part`, and `dest` is left alone.
-/

open Lib

namespace AtomVault.Transfer

/-! ## Hashing a prefix -/

section Prefix

variable {σ : Type} {fd len bufLen : Nat} {E : Error → Env σ → Prop} {Q : Bytes → Env σ → Prop}

theorem wp_hashPrefixLoop (hbuf : 1 ≤ bufLen) {fuel read : Nat} {s : Env σ}
    (hfuel : len ≤ read + fuel) (hread : read ≤ len) (hpos : s.host.pos fd = read)
    (hin : read ≤ (s.host.data fd).length)
    (herr : s.host.fault ≠ none ∨ (s.host.data fd).length < len →
      ∀ e s', Moves fd s s' → E e s')
    (hok : ∀ s', len ≤ (s.host.data fd).length → Moves fd s s' →
      Q ((s.host.data fd).take len) s') :
    wp (hashPrefixLoop fd len bufLen fuel read ((s.host.data fd).take read)) Q E s := by
  induction fuel generalizing read s with
  | zero =>
    have : read = len := by omega
    subst this
    exact hok s hin (Moves.refl fd s)
  | succ fuel ih =>
    unfold hashPrefixLoop
    split
    · rename_i hlt
      simp only [wp_bind]
      apply wp_readExact
      · intro hf t s' a
        exact herr (hf.imp id (by omega)) _ _ (a.moves fd)
      · intro s' hfit a hp
        have hd := a.data fd
        have hnext : (s.host.data fd).take read ++
            slice (s.host.data fd) (s.host.pos fd) (min (len - read) bufLen) =
            (s'.host.data fd).take (read + min (len - read) bufLen) := by
          rw [hd, hpos, List.take_add, slice]
        rw [hnext]
        apply ih (by omega) (by omega) (by rw [hp, hpos]) (by rw [hd]; omega)
        · rw [hd]
          rintro hf e s'' b
          exact herr (hf.imp a.fault.ne_none id) e s'' (a.trans b)
        · rw [hd]
          intro s'' hl b
          exact hok s'' hl (a.trans b)
    · have : read = len := by omega
      subst this
      exact hok s hin (Moves.refl fd s)

theorem wp_hashPrefix (hbuf : 1 ≤ bufLen) {s : Env σ}
    (herr : s.host.fault ≠ none ∨ (s.host.data fd).length < len →
      ∀ e s', Moves fd s s' → E e s')
    (hok : ∀ s', len ≤ (s.host.data fd).length → Moves fd s s' →
      Q ((s.host.data fd).take len) s') :
    wp (hashPrefix fd len bufLen) Q E s := by
  unfold hashPrefix
  simp only [wp_bind]
  apply wp_seek
  · rintro (hf | hf) t s' a
    · exact herr (Or.inl hf) _ _ (a.moves fd)
    · exact absurd hf (by decide)
  · intro s' _ a hp
    have hd := a.data fd
    have hstart : [] = (s'.host.data fd).take 0 := rfl
    rw [hstart]
    apply wp_hashPrefixLoop hbuf (by omega) (by omega) hp (by omega)
    · rw [hd]
      intro hf e s'' b
      exact herr (hf.imp a.fault.ne_none id) e s'' (a.trans b)
    · rw [hd]
      intro s'' hl b
      exact hok s'' hl (a.trans b)

end Prefix

/-! ## The two names -/

/-- `dest` and its partial are two files. -/
structure Apart (dest : String) (h : Host) : Prop where
  old : ∀ path i, h.names path = some i → i < h.nextIno
  apart : ∀ i, h.names (partialPath dest) = some i → h.names dest ≠ some i

/-- The receiver's file is the partial. -/
structure OnPart (dest : String) (fd : Nat) (h : Host) : Prop where
  old : ∀ path i, h.names path = some i → i < h.nextIno
  part : h.names (partialPath dest) = some (h.ino fd)
  apart : h.names dest ≠ some (h.ino fd)

section Names

variable {dest : String} {fd : Nat} {h h' : Host}

theorem partialPath_ne (dest : String) : partialPath dest ≠ dest := by
  intro h
  have hlen := congrArg String.length h
  unfold partialPath at hlen
  rw [String.length_append] at hlen
  have : PARTIAL_SUFFIX.length = 5 := by decide
  omega

theorem OnPart.confined (a : OnPart dest fd h) (b : Confined fd h h') : OnPart dest fd h' where
  old path i hi := by
    rw [b.names] at hi
    rw [b.nextIno]
    exact a.old path i hi
  part := by rw [b.names, b.ino]; exact a.part
  apart := by rw [b.names, b.ino]; exact a.apart

theorem OnPart.toApart (a : OnPart dest fd h) : Apart dest h where
  old := a.old
  apart i hi := by
    rw [a.part] at hi
    cases hi
    exact a.apart

theorem OnPart.contents (a : OnPart dest fd h) :
    h.contents (partialPath dest) = some (h.data fd) := Host.contents_of_names a.part

end Names

/-! ## `OFFER` and `START` -/

section Handshake

variable {σ : Type} {blake3 : Bytes → Hash} {t : Transfer} {dest : String} {s : Env σ}

/-- The offers that `recv` answers. -/
structure Accepts (t : Transfer) (offer : Bytes) (total : Nat) : Prop where
  ge : HEADER_LEN ≤ offer.length
  le : offer.length ≤ MAX_FRAME_LEN
  decodes : decodeOffer offer = .ok total
  limit : ∀ m, t.maxTotalLen = some m → total ≤ m.toNat

theorem checkLimit_eq_ok {total : Nat} :
    t.checkLimit total = .ok () ↔ ∀ m, t.maxTotalLen = some m → total ≤ m.toNat := by
  unfold checkLimit
  cases t.maxTotalLen with
  | none => simp
  | some m =>
    simp only [Option.some.injEq, forall_eq']
    split
    · simp only [reduceCtorEq, false_iff]
      omega
    · simp only [true_iff]
      omega

/-- What a file under the name of the partial holds, and nothing without one. -/
def partBytes (dest : String) (h : Host) : Bytes := (h.contents (partialPath dest)).getD []

/-- What `recv` has when its `RESUME` is ready. -/
structure Resumes (t : Transfer) (dest : String) (offer : Bytes) (h : Host) (st : Resuming)
    (h' : Host) : Prop where
  accepts : Accepts t offer st.total
  frameLen : st.frameLen = offer.length
  held : st.held = min ((partBytes dest h).length / t.checkpointLen * t.checkpointLen) st.total
  hasher : st.hasher = (partBytes dest h).take st.held
  data : h'.data st.fd = st.hasher
  onPart : OnPart dest st.fd h'
  dest : h'.contents dest = h.contents dest
  fault : GoesOn h.fault h'.fault

theorem Resumes.length {offer : Bytes} {h h' : Host} {st : Resuming}
    (a : Resumes t dest offer h st h') : st.hasher.length = st.held := by
  have hdiv := Nat.div_mul_le_self (partBytes dest h).length t.checkpointLen
  have hheld := a.held
  rw [a.hasher, List.length_take]
  omega

theorem wp_openPart {Q : Nat → Env σ → Prop} {E : Error → Env σ → Prop} {onErr : String → Error}
    (hap : Apart dest s.host)
    (herr : s.host.fault ≠ none → ∀ e s', Still s s' → E e s')
    (hok : ∀ fd s', OnPart dest fd s'.host → s'.host.data fd = partBytes dest s.host →
      s'.host.contents dest = s.host.contents dest → GoesOn s.host.fault s'.host.fault → Q fd s') :
    wp (Call.openOrCreate onErr (partialPath dest)) Q E s := by
  apply wp_openOrCreate
  · intro hf e s' a
    exact herr hf _ s' a
  · intro i s' hn a
    refine hok _ s' ⟨?_, ?_, ?_⟩ ?_ ?_ a.fault
    · rw [a.names, a.nextIno]
      exact hap.old
    · rw [a.names, a.ino, hn]
    · rw [a.names, a.ino]
      exact hap.apart i hn
    · rw [a.data, partBytes, Host.contents_of_names hn]
      rfl
    · exact Host.contents_congr (by rw [a.names]) (fun j _ => by rw [a.files])
  · intro s' hn a
    have hdest : s'.host.names dest = s.host.names dest := by
      rw [a.names, Function.update_of_ne (partialPath_ne dest).symm]
    have hne : ∀ j, s.host.names dest = some j → j ≠ s.host.nextIno := by
      intro j hj
      exact Nat.ne_of_lt (hap.old dest j hj)
    refine hok _ s' ⟨?_, ?_, ?_⟩ ?_ ?_ a.fault
    · intro path j hj
      rw [a.nextIno]
      rw [a.names] at hj
      by_cases hp : path = partialPath dest
      · subst hp
        simp only [Function.update_self, Option.some.injEq] at hj
        omega
      · rw [Function.update_of_ne hp] at hj
        have := hap.old path j hj
        omega
    · rw [a.names, a.ino, Function.update_self]
    · rw [hdest, a.ino]
      intro hj
      exact hne _ hj rfl
    · rw [a.data, partBytes, Host.contents, hn]
      rfl
    · exact Host.contents_congr hdest (fun j hj => a.files j (hne j hj))

theorem wp_recvOffer {offer : Bytes} {Q : Resuming × Bytes → Env σ → Prop}
    {E : Error → Env σ → Prop} (hap : Apart dest s.host)
    (herr : (s.host.fault ≠ none ∨ ∀ total, ¬Accepts t offer total) →
      ∀ e s', Apart dest s'.host → s'.host.contents dest = s.host.contents dest →
        GoesOn s.host.fault s'.host.fault → E e s')
    (hok : ∀ st s', Resumes t dest offer s.host st s'.host →
      Q (st, frame Tag.RESUME (beBytes 8 st.held ++ (blake3 st.hasher).toList) st.frameLen) s') :
    wp (recvOffer blake3 t dest offer) Q E s := by
  unfold recvOffer
  simp only
  split
  · rename_i hlen
    refine herr (Or.inr ?_) _ s hap rfl (GoesOn.refl _)
    intro total h
    exact hlen ⟨h.ge, h.le⟩
  rename_i hlen
  rw [wp_bind]
  apply wp_ofExcept
  swap
  · intro e he
    refine herr (Or.inr ?_) _ s hap rfl (GoesOn.refl _)
    intro total h
    rw [h.decodes] at he
    cases he
  intro total htotal
  rw [wp_bind]
  apply wp_ofExcept
  swap
  · intro e he
    refine herr (Or.inr ?_) _ s hap rfl (GoesOn.refl _)
    intro total' h
    have heq : total = total' := by
      have := h.decodes
      rw [htotal] at this
      exact Except.ok.inj this
    rw [heq, checkLimit_eq_ok.mpr h.limit] at he
    cases he
  intro _ hlimit
  have hacc : Accepts t offer total :=
    ⟨(not_not.mp hlen).1, (not_not.mp hlen).2, htotal, checkLimit_eq_ok.mp hlimit⟩
  rw [wp_bind]
  apply wp_openPart hap
  · intro hf e s' a
    refine herr (Or.inl hf) e s' ⟨?_, ?_⟩ ?_ a.fault
    · rw [a.names, a.nextIno]
      exact hap.old
    · rw [a.names]
      exact hap.apart
    · exact Host.contents_congr (by rw [a.names]) (fun j _ => by rw [a.files])
  intro fd s₁ hon hdata hdest hfault
  -- From here on only the partial is touched.
  have hkeep : ∀ e s', Confined fd s₁.host s'.host → s₁.host.fault ≠ none → E e s' := by
    intro e s' a hf
    refine herr (Or.inl (hfault.ne_none hf)) e s' (hon.confined a).toApart ?_
      (hfault.trans a.fault)
    rw [a.contents_of_ne hon.apart, hdest]
  rw [wp_bind]
  apply wp_fileLen
  · intro hf e s' a
    exact hkeep _ s' (a.moves fd).toConfined hf
  intro s₂ a₂
  have hd₂ := a₂.data fd
  rw [hdata] at hd₂ ⊢
  have hdiv := Nat.div_mul_le_self (partBytes dest s.host).length t.checkpointLen
  have hfits := s₂.host.data_fits fd
  rw [hd₂] at hfits
  have c₂ : Confined fd s₁.host s₂.host := (a₂.moves fd).toConfined
  rw [wp_bind]
  apply wp_setLen
  · rintro (hf | hf) e s' a
    · exact hkeep _ s' (c₂.trans (a.moves fd).toConfined) (c₂.fault.ne_none hf)
    · omega
  intro s₃ _ a₃ hd₃ _ _ _
  rw [hd₂, resize_eq_take _ _ (by omega)] at hd₃
  have c₃ : Confined fd s₁.host s₃.host := c₂.trans a₃.toConfined
  rw [wp_bind]
  apply wp_hashPrefix t.chunk_pos
  · rintro (hf | hf) e s' a
    · exact hkeep _ s' (c₃.trans a.toConfined) (c₃.fault.ne_none hf)
    · rw [hd₃, List.length_take] at hf
      omega
  intro s₄ _ a₄
  have c₄ : Confined fd s₁.host s₄.host := c₃.trans a₄.toConfined
  have hhash : (s₃.host.data fd).take
      (min ((partBytes dest s.host).length / t.checkpointLen * t.checkpointLen) total) =
      (partBytes dest s.host).take
        (min ((partBytes dest s.host).length / t.checkpointLen * t.checkpointLen) total) := by
    rw [hd₃, List.take_take, min_self]
  rw [hhash]
  refine hok _ s₄ ⟨hacc, rfl, rfl, rfl, ?_, hon.confined c₄, ?_, hfault.trans c₄.fault⟩
  · rw [a₄.data, hd₃]
  · rw [c₄.contents_of_ne hon.apart, hdest]

/-- The state at the head of the loop, after a `START` at `offset`. -/
def Resuming.start (st : Resuming) (offset : Nat) : Receiving where
  fd := st.fd
  frameLen := st.frameLen
  total := st.total
  offset := offset
  received := offset
  lastCheckpoint := offset
  hasher := st.hasher.take offset
  coverFrames := 0
  hash := none

/-- The hasher, the file and the cursor agree on what was received. -/
structure InStep (st : Receiving) (h : Host) : Prop where
  data : h.data st.fd = st.hasher
  length : st.hasher.length = st.received
  pos : h.pos st.fd = st.received

theorem wp_recvStart {raw : Bytes} {st : Resuming} {Q : Receiving → Env σ → Prop}
    {E : Error → Env σ → Prop} (hdata : s.host.data st.fd = st.hasher)
    (hlen : st.hasher.length = st.held)
    (herr : (s.host.fault ≠ none ∨ ∀ content offset, expect raw Tag.START = .ok content →
        decodeStart content = .ok offset → st.held < offset) →
      ∀ e s', Confined st.fd s.host s'.host →
        (∃ n, s'.host.data st.fd = st.hasher.take n) → E e s')
    (hok : ∀ content offset s', expect raw Tag.START = .ok content →
      decodeStart content = .ok offset → offset ≤ st.held → Confined st.fd s.host s'.host →
      InStep (st.start offset) s'.host → Q (st.start offset) s') :
    wp (recvStart t st raw) Q E s := by
  have hsame : ∃ n, s.host.data st.fd = st.hasher.take n :=
    ⟨st.held, by rw [hdata, ← hlen, List.take_length]⟩
  unfold recvStart
  rw [wp_bind]
  apply wp_ofExcept
  swap
  · intro e he
    refine herr (Or.inr ?_) _ s (Confined.refl _ _) hsame
    intro content offset hc
    rw [hc] at he
    cases he
  intro content hcontent
  rw [wp_bind]
  apply wp_ofExcept
  swap
  · intro e he
    refine herr (Or.inr ?_) _ s (Confined.refl _ _) hsame
    intro content' offset hc ho
    rw [hcontent] at hc
    cases hc
    rw [ho] at he
    cases he
  intro offset hoffset
  by_cases hgt : offset > st.held
  · simp only [hgt, if_true, wp_bind, wp_throw]
    refine herr (Or.inr ?_) _ s (Confined.refl _ _) hsame
    intro content' offset' hc ho
    rw [hcontent] at hc
    cases hc
    rw [hoffset] at ho
    cases ho
    exact hgt
  simp only [hgt, if_false]
  have hfits := s.host.data_fits st.fd
  rw [hdata, hlen] at hfits
  -- Both branches end with a seek to the offset.
  have hseek : ∀ s', Confined st.fd s.host s'.host → s'.host.data st.fd = st.hasher.take offset →
      wp (do
        Call.seek (fun e => .transfer s!"seek to {offset}: {e}") st.fd offset
        return st.start offset) Q E s' := by
    intro s' a hd
    rw [wp_bind]
    apply wp_seek
    · rintro (hf | hf) e s'' b
      · refine herr (Or.inl (a.fault.ne_none hf)) _ s'' (a.trans (b.moves st.fd).toConfined) ?_
        exact ⟨offset, by rw [b.data, hd]⟩
      · omega
    · intro s'' _ b hp
      refine hok content offset s'' hcontent hoffset (not_lt.mp hgt) (a.trans b.toConfined)
        ⟨?_, ?_, hp⟩
      · exact (b.data st.fd).trans hd
      · show (st.hasher.take offset).length = offset
        rw [List.length_take]
        omega
  split
  · rename_i hne
    rw [wp_bind]
    apply wp_setLen
    · rintro (hf | hf) e s' a
      · refine herr (Or.inl hf) _ s' (a.moves st.fd).toConfined ?_
        rw [a.data]
        exact hsame
      · omega
    intro s₁ _ a₁ hd₁ _ _ _
    rw [hdata, resize_eq_take _ _ (by omega)] at hd₁
    rw [wp_bind]
    apply wp_hashPrefix t.chunk_pos
    · rintro (hf | hf) e s' a
      · refine herr (Or.inl (a₁.fault.ne_none hf)) e s' (a₁.toConfined.trans a.toConfined) ?_
        exact ⟨offset, by rw [a.data, hd₁]⟩
      · rw [hd₁, List.length_take] at hf
        omega
    intro s₂ _ a₂
    rw [hd₁, List.take_take, min_self]
    exact hseek s₂ (a₁.toConfined.trans a₂.toConfined) (by rw [a₂.data, hd₁])
  · rename_i heq
    have heq : offset = st.held := not_not.mp heq
    have hfull : st.hasher = st.hasher.take offset := by
      rw [heq, ← hlen, List.take_length]
    rw [wp_bind, wp_pure]
    have h := hseek s (Confined.refl _ _) (by rw [hdata, ← hfull])
    unfold Resuming.start at h
    rw [← hfull] at h
    exact h

end Handshake

/-! ## The loop -/

section Loop

variable {σ : Type} {blake3 : Bytes → Hash} {t : Transfer} {dest : String} {s : Env σ}
  {st : Receiving} {E : Error → Env σ → Prop}

/-- The state after a `DATA` frame. -/
def Receiving.push (t : Transfer) (st : Receiving) (content : Bytes) : Receiving :=
  { st with
    hasher := st.hasher ++ content
    received := st.received + content.length
    lastCheckpoint :=
      if st.received + content.length - st.lastCheckpoint ≥ t.checkpointLen then
        st.received + content.length
      else st.lastCheckpoint }

/-- The checks before the write, and what follows it: the state of the next turn, after a
checkpoint or without one. -/
theorem wp_recvData_write {content : Bytes} {Q : Receiving → Env σ → Prop}
    (hrefused : st.hash ≠ none ∨ st.total < st.received + content.length → ∀ e, E e s)
    (hwrite : st.hash = none → st.received + content.length ≤ st.total →
      wp (Call.writeAll (fun e => Error.transfer s!"write at {st.received}: {e}") st.fd content)
        (fun _ s₁ => Q (st.push t content) s₁ ∧
          (s₁.host.fault ≠ none → ∀ e s', Still s₁ s' → E e s') ∧
          ∀ s₂, Touches st.fd s₁ s₂ → s₂.host.data st.fd = s₁.host.data st.fd →
            s₂.host.pos st.fd = s₁.host.pos st.fd → Q (st.push t content) s₂) E s) :
    wp (recvData t st content) Q E s := by
  unfold recvData
  by_cases hhash : st.hash.isSome
  · simp only [hhash, if_true, wp_bind, wp_throw]
    refine hrefused (Or.inl ?_) _
    rintro hn
    simp [hn] at hhash
  simp only [hhash, if_false, Bool.false_eq_true]
  by_cases hover : st.received + content.length > st.total
  · simp only [hover, if_true, wp_bind, wp_throw]
    exact hrefused (Or.inr hover) _
  simp only [hover, if_false]
  have hpush : st.push t content =
      if st.received + content.length - st.lastCheckpoint ≥ t.checkpointLen then
        { st with
          hasher := st.hasher ++ content, received := st.received + content.length
          lastCheckpoint := st.received + content.length }
      else
        { st with hasher := st.hasher ++ content, received := st.received + content.length } := by
    unfold Receiving.push
    split <;> rfl
  rw [wp_bind]
  refine wp_mono (hwrite (by simpa using hhash) (not_lt.mp hover)) ?_ fun _ _ h => h
  rintro _ s₁ ⟨hkeep, hstop, hsynced⟩
  split
  · rename_i hcp
    rw [if_pos hcp] at hpush
    rw [wp_bind]
    apply wp_sync
    · intro hf e s' a
      exact hstop hf _ s' a
    · intro s₂ a₂ hd₂ hp₂ _ _
      rw [wp_pure, ← hpush]
      exact hsynced s₂ a₂ hd₂ hp₂
  · rename_i hcp
    rw [if_neg hcp] at hpush
    rw [wp_pure, ← hpush]
    exact hkeep

theorem wp_recvData {content : Bytes} {Q : Receiving → Env σ → Prop} (hstep : InStep st s.host)
    (herr : (s.host.fault ≠ none ∨ st.hash ≠ none ∨ st.total < st.received + content.length ∨
        maxLen < st.received + content.length) →
      ∀ e s', Confined st.fd s.host s'.host →
        (∃ k, s'.host.data st.fd = st.hasher ++ content.take k) → E e s')
    (hok : ∀ s', st.hash = none → st.received + content.length ≤ st.total →
      Confined st.fd s.host s'.host → InStep (st.push t content) s'.host →
      Q (st.push t content) s') :
    wp (recvData t st content) Q E s := by
  have hend : s.host.pos st.fd = (s.host.data st.fd).length := by
    rw [hstep.pos, hstep.data, hstep.length]
  apply wp_recvData_write
  · intro hrefused e
    exact herr (Or.inr (hrefused.imp id Or.inl)) _ s (Confined.refl _ _) ⟨0, by simp [hstep.data]⟩
  intro hnone hle
  apply wp_writeAll (le_of_eq hend)
  · rintro hf e s' a ⟨k, -, hd, -⟩ -
    rw [hstep.pos] at hf
    refine herr (hf.imp id fun h => Or.inr (Or.inr h)) _ s' a.toConfined ⟨k, ?_⟩
    rw [hd, hend, patch_at_end, hstep.data]
  intro s₁ _ a₁ hd₁ hp₁ _ _
  rw [hend, patch_at_end, hstep.data] at hd₁
  rw [hstep.pos] at hp₁
  have hlength : (st.hasher ++ content).length = st.received + content.length := by
    rw [List.length_append, hstep.length]
  refine ⟨hok s₁ hnone hle a₁.toConfined ⟨hd₁, hlength, hp₁⟩, ?_, ?_⟩
  · intro hf e s' a
    refine herr (Or.inl (a₁.fault.ne_none hf)) _ s'
      (a₁.toConfined.trans (a.moves st.fd).toConfined) ⟨content.length, ?_⟩
    rw [a.data, hd₁, List.take_length]
  · intro s₂ a₂ hd₂ hp₂
    exact hok s₂ hnone hle (a₁.toConfined.trans a₂.toConfined)
      ⟨hd₂.trans hd₁, hlength, hp₂.trans hp₁⟩

/-- The rename of the partial over `dest`. -/
structure Placed (dest : String) (fd : Nat) (h h' : Host) : Prop where
  file : h'.contents dest = some (h.data fd)
  part : h'.contents (partialPath dest) = none
  apart : Apart dest h'
  fault : GoesOn h.fault h'.fault

theorem wp_finishPayload {claimed : Hash} {Q : Hash → Env σ → Prop}
    (hon : OnPart dest st.fd s.host)
    (herr : (s.host.fault ≠ none ∨ st.received ≠ st.total ∨ blake3 st.hasher ≠ claimed) →
      ∀ e s', Confined st.fd s.host s'.host → s'.host.data st.fd = s.host.data st.fd → E e s')
    (hok : ∀ s', st.received = st.total → blake3 st.hasher = claimed →
      Placed dest st.fd s.host s'.host → Q claimed s') :
    wp (finishPayload blake3 dest st claimed) Q E s := by
  unfold finishPayload
  by_cases htotal : st.received ≠ st.total
  · simp only [htotal, if_true, ne_eq, not_false_eq_true, wp_bind, wp_throw]
    exact herr (Or.inr (Or.inl htotal)) _ s (Confined.refl _ _) rfl
  simp only [htotal, if_false]
  by_cases hhash : blake3 st.hasher ≠ claimed
  · simp only [hhash, if_true, ne_eq, not_false_eq_true, wp_bind, wp_throw]
    exact herr (Or.inr (Or.inr hhash)) _ s (Confined.refl _ _) rfl
  simp only [hhash, if_false]
  have hclaimed : blake3 st.hasher = claimed := not_not.mp hhash
  rw [wp_bind]
  apply wp_sync
  · intro hf e s' a
    exact herr (Or.inl hf) _ s' (a.moves st.fd).toConfined (a.data st.fd)
  intro s₁ a₁ hd₁ _ _ _
  have hon₁ := hon.confined a₁.toConfined
  rw [wp_bind]
  apply wp_rename
  · rintro (hf | hf) e s' a
    · refine herr (Or.inl (a₁.fault.ne_none hf)) _ s' (a₁.toConfined.trans
        (a.moves st.fd).toConfined) ?_
      rw [a.data, hd₁]
    · rw [hon₁.part] at hf
      cases hf
  intro i s₂ hi hnames a₂
  rw [hon₁.part] at hi
  cases hi
  -- The directory's `fsync` touches nothing and its error is dropped.
  have hlast : ∀ s₃, Still s₂ s₃ → Q claimed s₃ := by
    intro s₃ a₃
    have hdest : s₃.host.names dest = some (s₁.host.ino st.fd) := by
      rw [a₃.names, hnames, Function.update_self]
    have hpart : s₃.host.names (partialPath dest) = none := by
      rw [a₃.names, hnames, Function.update_of_ne (partialPath_ne dest), Function.update_self]
    refine hok s₃ (not_not.mp htotal) hclaimed ⟨?_, ?_, ⟨?_, ?_⟩, ?_⟩
    · rw [Host.contents_of_names hdest, a₃.files, a₂.files, ← hd₁]
      rfl
    · rw [Host.contents, hpart]
      rfl
    · intro path j hj
      rw [a₃.nextIno, a₂.nextIno]
      rw [a₃.names, hnames] at hj
      by_cases hp : path = dest
      · subst hp
        rw [Function.update_self] at hj
        cases hj
        exact hon₁.old _ _ hon₁.part
      rw [Function.update_of_ne hp] at hj
      by_cases hp' : path = partialPath dest
      · subst hp'
        rw [Function.update_self] at hj
        cases hj
      rw [Function.update_of_ne hp'] at hj
      exact hon₁.old path j hj
    · intro j hj
      rw [hpart] at hj
      cases hj
    · exact a₁.fault.trans (a₂.fault.trans a₃.fault)
  unfold syncParentDir
  rw [wp_bind, wp_tryCatch]
  apply wp_probe
  · intro _ e s₃ a₃
    rw [wp_pure, hclaimed]
    exact hlast s₃ a₃
  · intro s₃ a₃
    rw [hclaimed]
    exact hlast s₃ a₃

theorem wp_recvDone {content : Bytes} {Q : Receiving → Env σ → Prop}
    (hon : OnPart dest st.fd s.host)
    (herr : (s.host.fault ≠ none ∨ st.hash ≠ none ∨ st.received ≠ st.total ∨
        decodeDone content ≠ .ok (blake3 st.hasher)) →
      ∀ e s', Confined st.fd s.host s'.host → s'.host.data st.fd = s.host.data st.fd → E e s')
    (hok : ∀ s', st.hash = none → st.received = st.total →
      decodeDone content = .ok (blake3 st.hasher) → Placed dest st.fd s.host s'.host →
      Q { st with hash := some (blake3 st.hasher) } s') :
    wp (recvDone blake3 dest st content) Q E s := by
  unfold recvDone
  by_cases hhash : st.hash.isSome
  · simp only [hhash, if_true, wp_bind, wp_throw]
    refine herr (Or.inr (Or.inl ?_)) _ s (Confined.refl _ _) rfl
    rintro hn
    simp [hn] at hhash
  simp only [hhash, if_false, Bool.false_eq_true]
  have hnone : st.hash = none := by simpa using hhash
  rw [wp_bind]
  apply wp_ofExcept
  swap
  · intro e he
    refine herr (Or.inr (Or.inr (Or.inr ?_))) _ s (Confined.refl _ _) rfl
    simp [he]
  intro claimed hclaimed
  rw [wp_bind]
  apply wp_finishPayload hon
  · rintro (hf | hf | hf) e s' a hd
    · exact herr (Or.inl hf) e s' a hd
    · exact herr (Or.inr (Or.inr (Or.inl hf))) e s' a hd
    · refine herr (Or.inr (Or.inr (Or.inr ?_))) e s' a hd
      rw [hclaimed]
      exact fun h => hf (Except.ok.inj h).symm
  · intro s' htotal hhash' hplaced
    rw [wp_pure, ← hhash']
    exact hok s' hnone htotal (by rw [hclaimed, hhash']) hplaced

theorem recvFrame_of_parse {raw content : Bytes} {tag : UInt8} (hlen : raw.length = st.frameLen)
    (hparse : parse raw = .ok (tag, content)) :
    (recvFrame blake3 t dest st raw : Prog σ Error _) =
      if tag = Tag.DATA then do return .inl (← recvData t st content)
      else if tag = Tag.COVER then return .inl { st with coverFrames := st.coverFrames + 1 }
      else if tag = Tag.DONE then do return .inl (← recvDone blake3 dest st content)
      else if tag = Tag.FINISH then do return .inr (← ofExcept id (recvFinish st))
      else throw (.transfer s!"unexpected frame tag 0x{hexByte tag} during transfer") := by
  unfold recvFrame
  rw [hparse]
  simp only [hlen, ne_eq, not_true, if_false]
  rfl

theorem wp_recvFrame {raw : Bytes} {Q : Receiving ⊕ Summary → Env σ → Prop}
    (herr : (∀ tag content, raw.length = st.frameLen → parse raw = .ok (tag, content) →
        tag ≠ Tag.DATA ∧ tag ≠ Tag.COVER ∧ tag ≠ Tag.DONE ∧ (tag = Tag.FINISH → st.hash = none)) →
      ∀ e, E e s)
    (hdata : ∀ content, parse raw = .ok (Tag.DATA, content) →
      wp (recvData t st content) (fun st' => Q (.inl st')) E s)
    (hcover : ∀ content, parse raw = .ok (Tag.COVER, content) →
      Q (.inl { st with coverFrames := st.coverFrames + 1 }) s)
    (hdone : ∀ content, parse raw = .ok (Tag.DONE, content) →
      wp (recvDone blake3 dest st content) (fun st' => Q (.inl st')) E s)
    (hfinish : ∀ content hash, parse raw = .ok (Tag.FINISH, content) → st.hash = some hash →
      Q (.inr ⟨st.total, st.offset, hash, st.coverFrames⟩) s) :
    wp (recvFrame blake3 t dest st raw) Q E s := by
  unfold recvFrame
  by_cases hlen : raw.length ≠ st.frameLen
  · simp only [hlen, if_true, ne_eq, not_false_eq_true, wp_bind, wp_throw]
    refine herr ?_ _
    intro tag content h
    exact absurd h hlen
  simp only [hlen, if_false]
  rw [wp_bind]
  apply wp_ofExcept
  swap
  · intro e he
    refine herr ?_ _
    intro tag content _ h
    rw [h] at he
    cases he
  rintro ⟨tag, content⟩ hparse
  have hbad : tag ≠ Tag.DATA ∧ tag ≠ Tag.COVER ∧ tag ≠ Tag.DONE ∧
      (tag = Tag.FINISH → st.hash = none) → ∀ e, E e s := by
    intro h
    refine herr ?_
    intro tag' content' _ h'
    rw [hparse] at h'
    cases h'
    exact h
  simp only
  split
  · rename_i htag
    subst htag
    rw [wp_bind]
    exact hdata content hparse
  rename_i h₁
  split
  · rename_i htag
    subst htag
    exact hcover content hparse
  rename_i h₂
  split
  · rename_i htag
    subst htag
    rw [wp_bind]
    exact hdone content hparse
  rename_i h₃
  split
  · rename_i htag
    subst htag
    rw [wp_bind]
    apply wp_ofExcept
    · intro summary hsum
      unfold recvFinish at hsum
      split at hsum
      · rename_i hash hhash
        cases hsum
        exact hfinish content hash hparse hhash
      · cases hsum
    · intro e he
      refine hbad ⟨h₁, h₂, h₃, fun _ => ?_⟩ _
      unfold recvFinish at he
      split at he
      · cases he
      · assumption
  · rename_i h₄
    exact hbad ⟨h₁, h₂, h₃, fun h => absurd h h₄⟩ _

end Loop

/-! ## One step -/

section Step

theorem Receiver.exec_of_wp {α : Type} {r : Receiver} {x : Prog Unit Error α}
    {next : Host → α → Receiver × Option Bytes} {P : Receiver × Option Bytes → Prop}
    (h : wp x (fun a s => P (next s.host a))
      (fun e s => P (⟨s.host, .returned (.error e)⟩, none)) ⟨r.host, ()⟩) :
    P (r.exec x next) := by
  unfold Receiver.exec
  unfold wp at h
  split
  · rename_i hx
    rw [hx] at h
    exact h
  · rename_i hx
    rw [hx] at h
    exact h

theorem Receiver.emit_of {ev : Event} {h : Host} {raw : Bytes} {phase : RecvPhase}
    {P : Receiver × Option Bytes → Prop} (hok : ev.sendFails = none → P (⟨h, phase⟩, some raw))
    (herr : ∀ e, ev.sendFails = some e → P (⟨h, .returned (.error (.session e))⟩, none)) :
    P (Receiver.emit ev h raw phase) := by
  unfold Receiver.emit
  split
  · exact hok (by assumption)
  · exact herr _ (by assumption)

theorem Receiver.step_of {blake3 : Bytes → Hash} {t : Transfer} {dest : String} {ev : Event}
    {r : Receiver} {P : Receiver × Option Bytes → Prop}
    (hreturned : ∀ x, r.phase = .returned x → P (r, none))
    (hstop : ev.cancelled = true ∨ (∃ e, ev.delivery = .error e) →
      ∀ e, P (⟨r.host, .returned (.error e)⟩, none))
    (hoffer : ∀ raw, r.phase = .awaitOffer → ev.delivery = .ok raw →
      wp (recvOffer blake3 t dest raw) (fun a s => P (emit ev s.host a.2 (.awaitStart a.1)))
        (fun e s => P (⟨s.host, .returned (.error e)⟩, none)) ⟨r.host, ()⟩)
    (hstart : ∀ raw st, r.phase = .awaitStart st → ev.delivery = .ok raw →
      wp (recvStart t st raw) (fun st' s => P (⟨s.host, .receiving st'⟩, none))
        (fun e s => P (⟨s.host, .returned (.error e)⟩, none)) ⟨r.host, ()⟩)
    (hframe : ∀ raw st, r.phase = .receiving st → ev.delivery = .ok raw →
      wp (recvFrame blake3 t dest st raw)
        (fun turn s => match turn with
          | .inl st' => P (⟨s.host, .receiving st'⟩, none)
          | .inr summary =>
            P (emit ev s.host (frame Tag.ACK [] st.frameLen) (.returned (.ok summary))))
        (fun e s => P (⟨s.host, .returned (.error e)⟩, none)) ⟨r.host, ()⟩) :
    P (r.step blake3 t dest ev) := by
  unfold step
  split
  · exact hreturned _ (by assumption)
  · split
    · rename_i hd
      exact hstop (Or.inr ⟨_, hd⟩) _
    · rename_i hphase _ raw hd
      exact exec_of_wp (hoffer raw hphase hd)
  · split
    · rename_i hd
      exact hstop (Or.inr ⟨_, hd⟩) _
    · rename_i hphase _ raw hd
      exact exec_of_wp (hstart raw _ hphase hd)
  · split
    · rename_i hc
      exact hstop (Or.inl hc) _
    split
    · rename_i hd
      exact hstop (Or.inr ⟨_, hd⟩) _
    · rename_i hphase _ _ raw hd
      apply exec_of_wp
      apply wp_mono (hframe raw _ hphase hd)
      · intro turn s' hturn
        cases turn <;> exact hturn
      · intro e s' he
        exact he

end Step

end AtomVault.Transfer
