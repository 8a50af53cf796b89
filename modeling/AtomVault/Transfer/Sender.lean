import AtomVault.Transfer.Receiver
import AtomVault.Transfer.Conversation

/-!
# The sender follows the conversation

Whatever the peer answers: every frame that `send` emits is the next message of the
conversation about its source.
-/

open Lib

namespace AtomVault.Transfer

/-! ## The parts of `send` -/

section Parts

variable {σ : Type} {blake3 : Bytes → Hash} {t : Transfer} {source : String} {src : Bytes}
  {s : Env σ} {E : Error → Env σ → Prop}

theorem wp_sendOffer {Q : Nat × Nat → Env σ → Prop} (hsrc : s.host.contents source = some src)
    (herr : s.host.fault ≠ none → ∀ e s', GoesOn s.host.fault s'.host.fault → E e s')
    (hok : ∀ fd s', s'.host.data fd = src → GoesOn s.host.fault s'.host.fault →
      Q (fd, src.length) s') :
    wp (sendOffer source) Q E s := by
  obtain ⟨i, hi, rfl⟩ : ∃ i, s.host.names source = some i ∧ (s.host.files i).bytes = src := by
    unfold Host.contents at hsrc
    exact Option.map_eq_some_iff.mp hsrc
  unfold sendOffer
  rw [wp_bind]
  apply wp_openFile
  · rintro (hf | hf) e s' a
    · exact herr hf _ s' a.fault
    · rw [hi] at hf
      cases hf
  intro j s₁ hj a₁
  rw [hi] at hj
  cases hj
  have hd := a₁.data
  rw [wp_bind]
  apply wp_fileLen
  · intro hf e s' a
    exact herr (a₁.fault.ne_none hf) _ s' (a₁.fault.trans a.fault)
  · intro s₂ a₂
    rw [hd, wp_pure]
    exact hok _ s₂ (by rw [a₂.data, hd]) (a₁.fault.trans a₂.fault)

theorem wp_sendStart {fd : Nat} {raw : Bytes} {Q : Planning → Env σ → Prop}
    (hdata : s.host.data fd = src)
    (herr : (s.host.fault ≠ none ∨ ∀ content held hash, expect raw Tag.RESUME = .ok content →
        decodeResume content ≠ .ok (held, hash)) →
      ∀ e s', Moves fd s s' → E e s')
    (hok : ∀ content held hash s', expect raw Tag.RESUME = .ok content →
      decodeResume content = .ok (held, hash) → Moves fd s s' →
      Q ⟨fd, src.length, startAt blake3 src held hash,
        src.take (startAt blake3 src held hash)⟩ s') :
    wp (sendStart blake3 t fd src.length raw) Q E s := by
  unfold sendStart
  rw [wp_bind]
  apply wp_ofExcept
  swap
  · intro e he
    refine herr (Or.inr ?_) _ s (Moves.refl fd s)
    intro content held hash hc
    rw [hc] at he
    cases he
  intro content hcontent
  rw [wp_bind]
  apply wp_ofExcept
  swap
  · intro e he
    refine herr (Or.inr ?_) _ s (Moves.refl fd s)
    intro content' held hash hc
    rw [hcontent] at hc
    cases hc
    rw [he]
    exact nofun
  rintro ⟨held, hash⟩ hdecode
  have hok' := hok content held hash
  unfold startAt at hok'
  simp only
  split
  · rename_i hheld
    rw [wp_bind]
    apply wp_hashPrefix t.chunk_pos
    · rintro (hf | hf) e s' a
      · exact herr (Or.inl hf) e s' a
      · rw [hdata] at hf
        omega
    intro s' _ a
    rw [hdata]
    split
    · rename_i hhash
      rw [if_pos ⟨hheld.1, hheld.2, hhash⟩] at hok'
      exact hok' s' hcontent hdecode a
    · rename_i hhash
      rw [if_neg (fun h => hhash h.2.2)] at hok'
      exact hok' s' hcontent hdecode a
  · rename_i hheld
    rw [if_neg (fun h => hheld ⟨h.1, h.2.1⟩)] at hok'
    exact hok' s hcontent hdecode (Moves.refl fd s)

theorem wp_sendPlan {st : Planning} {draws : Draws} {Q : Sending → Env σ → Prop}
    (hoffset : st.offset ≤ maxLen)
    (herr : (s.host.fault ≠ none ∨
        ∃ e, t.pacing.plan (divCeil (st.total - st.offset) t.chunkLen) draws = .error e) →
      ∀ e s', Moves st.fd s s' → E e s')
    (hok : ∀ planned s',
      t.pacing.plan (divCeil (st.total - st.offset) t.chunkLen) draws = .ok planned →
      Moves st.fd s s' → s'.host.pos st.fd = st.offset →
      Q ⟨st.fd, st.total, st.offset, st.offset, 0, planned, st.hasher, 0, none⟩ s') :
    wp (sendPlan t st draws) Q E s := by
  unfold sendPlan
  rw [wp_bind]
  apply wp_seek
  · rintro (hf | hf) e s' a
    · exact herr (Or.inl hf) _ s' (a.moves st.fd)
    · omega
  intro s' _ a hp
  rw [wp_bind]
  apply wp_ofExcept
  · intro planned hplan
    exact hok planned s' hplan a hp
  · intro e he
    exact herr (Or.inr ⟨e, he⟩) _ s' a

/-- The state after a `DATA` frame with `b`. -/
def Sending.push (st : Sending) (b : Bytes) : Sending :=
  { st with
    hasher := st.hasher ++ b, sent := st.sent + b.length, emitted := st.emitted + 1 }

theorem wp_sendData {st : Sending} {Q : Sending × Bytes → Env σ → Prop}
    (hdata : s.host.data st.fd = src) (hpos : s.host.pos st.fd = st.sent)
    (htotal : st.total = src.length) (hsent : st.sent ≤ src.length)
    (herr : s.host.fault ≠ none → ∀ e s', Moves st.fd s s' → E e s')
    (hok : ∀ b s', b = slice src st.sent b.length →
      b.length = min (src.length - st.sent) t.chunkLen → Moves st.fd s s' →
      s'.host.pos st.fd = st.sent + b.length → Q (st.push b, b) s') :
    wp (sendData t st) Q E s := by
  have hlen : (slice src st.sent (min (src.length - st.sent) t.chunkLen)).length =
      min (src.length - st.sent) t.chunkLen := length_slice _ _ _ (by omega)
  unfold sendData
  rw [wp_bind]
  apply wp_readExact
  · rintro (hf | hf) e s' a
    · exact herr hf _ s' (a.moves st.fd)
    · rw [hdata, hpos, htotal] at hf
      omega
  intro s' _ a hp
  rw [hdata, hpos, htotal, wp_pure]
  rw [hpos, htotal] at hp
  have h := hok _ s' (by rw [hlen]) hlen a (by rw [hp, hlen])
  unfold Sending.push at h
  rw [hlen, htotal] at h
  exact h

end Parts

/-! ## One step -/

section Step

variable {blake3 : Bytes → Hash} {t : Transfer} {source : String} {ev : Event} {s : Sender}
  {P : Sender × Option Bytes → Prop}

theorem Sender.exec_of_wp {α : Type} {x : Prog Unit Error α}
    {next : Host → α → Sender × Option Bytes}
    (h : wp x (fun a s => P (next s.host a))
      (fun e s => P (⟨s.host, .returned (.error e)⟩, none)) ⟨s.host, ()⟩) :
    P (s.exec x next) := by
  unfold Sender.exec
  unfold wp at h
  split
  · rename_i hx
    rw [hx] at h
    exact h
  · rename_i hx
    rw [hx] at h
    exact h

theorem Sender.emit_of {h : Host} {raw : Bytes} {phase : SendPhase}
    (hok : P (⟨h, phase⟩, some raw))
    (herr : ev.sendFails ≠ none → ∀ e, P (⟨h, .returned (.error e)⟩, none)) :
    P (Sender.emit ev h raw phase) := by
  unfold Sender.emit
  split
  · exact hok
  · rename_i e he
    exact herr (by simp [he]) _

end Step

/-! ## Where the sender is in the conversation -/

/-- What a step hears. Only a step that calls `session.recv` hears anything. -/
inductive Hears (t : Transfer) (ev : Event) (heard : List Msg) : Bool → List Msg → Prop
  | deaf : Hears t ev heard false heard
  | cut {e : String} : ev.delivery = .error e → Hears t ev heard true heard
  | gets {m : Msg} : m.Fits t.chunkLen → ev.delivery = .ok (m.encode t.frameLen) →
      Hears t ev heard true (heard ++ [m])

/-- The parts of the sender's state that its stage does not say. -/
structure Sends (blake3 : Bytes → Hash) (t : Transfer) (src : Bytes) (draws : Draws) (h : Host)
    (held : Nat) (hash : Hash) (st : Sending) : Prop where
  data : h.data st.fd = src
  total : st.total = src.length
  offset : st.offset = startAt blake3 src held hash
  plan : t.pacing.plan (divCeil (src.length - st.offset) t.chunkLen) draws = .ok st.plannedFrames

/-- The sender's stage, the number of its frames, and what it has heard. `quiet` says that
nobody has cancelled so far. -/
inductive SenderAt (blake3 : Bytes → Hash) (t : Transfer) (source : String) (src : Bytes)
    (draws : Draws) (quiet : Prop) : Stage → Nat → List Msg → Sender → Prop
  | start {h : Host} : h.contents source = some src →
      SenderAt blake3 t source src draws quiet .idle 0 [] ⟨h, .start⟩
  | awaitResume {h : Host} {fd : Nat} : h.data fd = src →
      SenderAt blake3 t source src draws quiet .offered 1 [] ⟨h, .awaitResume fd src.length⟩
  | planning {h : Host} {fd held : Nat} {hash : Hash} {o : Nat} : h.data fd = src →
      o = startAt blake3 src held hash →
      SenderAt blake3 t source src draws quiet (.sending o o) 2 [.resume held hash]
        ⟨h, .planning ⟨fd, src.length, o, src.take o⟩⟩
  | sending {h : Host} {held : Nat} {hash : Hash} {st : Sending} :
      Sends blake3 t src draws h held hash st → h.pos st.fd = st.sent → st.sent ≤ src.length →
      st.hasher = src.take st.sent → st.hash = none → st.coverFrames = 0 →
      st.emitted + divCeil (src.length - st.sent) t.chunkLen =
        divCeil (src.length - st.offset) t.chunkLen →
      SenderAt blake3 t source src draws quiet (.sending st.offset st.sent) (st.emitted + 2)
        [.resume held hash] ⟨h, .sending st⟩
  | ramp {h : Host} {held : Nat} {hash : Hash} {st : Sending} {k : Nat} :
      Sends blake3 t src draws h held hash st → st.hash = some (blake3 src) →
      st.coverFrames = UInt64.ofNat k → st.emitted ≤ st.plannedFrames →
      SenderAt blake3 t source src draws quiet (.ramp st.offset k) (st.emitted + 3)
        [.resume held hash] ⟨h, .sending st⟩
  | awaitAck {h : Host} {held : Nat} {hash : Hash} {o k n planned : Nat} :
      o = startAt blake3 src held hash →
      t.pacing.plan (divCeil (src.length - o) t.chunkLen) draws = .ok planned →
      (quiet → n = planned + 4) →
      SenderAt blake3 t source src draws quiet (.finished o k) n [.resume held hash]
        ⟨h, .awaitAck ⟨src.length, o, blake3 src, UInt64.ofNat k⟩⟩
  | returned {h : Host} {held : Nat} {hash : Hash} {o k n planned : Nat} :
      o = startAt blake3 src held hash →
      t.pacing.plan (divCeil (src.length - o) t.chunkLen) draws = .ok planned →
      (quiet → n = planned + 4) →
      SenderAt blake3 t source src draws quiet (.finished o k) n [.resume held hash, .ack]
        ⟨h, .returned (.ok ⟨src.length, o, blake3 src, UInt64.ofNat k⟩)⟩
  | failed {h : Host} {e : Error} {q : Stage} {n : Nat} {heard : List Msg} :
      (∀ o, q.offset = some o → ∃ held hash rest, heard = .resume held hash :: rest ∧
        o = startAt blake3 src held hash) →
      SenderAt blake3 t source src draws quiet q n heard ⟨h, .returned (.error e)⟩

section Follows

variable {blake3 : Bytes → Hash} {t : Transfer} {source : String} {src : Bytes} {draws : Draws}
  {quiet : Prop} {q : Stage} {n : Nat} {heard heard' : List Msg} {s : Sender} {ev : Event}

theorem SenderAt.origin (hs : SenderAt blake3 t source src draws quiet q n heard s) (o : Nat)
    (ho : q.offset = some o) :
    ∃ held hash rest, heard = .resume held hash :: rest ∧ o = startAt blake3 src held hash := by
  cases hs with
  | start | awaitResume => cases ho
  | planning _ hstart =>
    cases ho
    exact ⟨_, _, [], rfl, hstart⟩
  | sending hsends =>
    cases ho
    exact ⟨_, _, [], rfl, hsends.offset⟩
  | ramp hsends =>
    cases ho
    exact ⟨_, _, [], rfl, hsends.offset⟩
  | awaitAck hstart =>
    cases ho
    exact ⟨_, _, [], rfl, hstart⟩
  | returned hstart =>
    cases ho
    exact ⟨_, _, [_], rfl, hstart⟩
  | failed horigin => exact horigin o ho

/-- What an honest receiver can have answered. -/
def Answered (heard : List Msg) : Prop :=
  heard = [] ∨ ∃ held hash, heard = [.resume held hash] ∨ heard = [.resume held hash, .ack]

/-- The only reasons for `send` to return an error. -/
def Sender.Troubled (t : Transfer) (draws : Draws) (s : Sender) (ev : Event)
    (heard : List Msg) : Prop :=
  s.host.fault ≠ none ∨ ev.sendFails ≠ none ∨ ev.cancelled = true ∨
    (listens s.phase = true ∧ ∃ e, ev.delivery = .error e) ∨
    (∃ n e, t.pacing.plan n draws = .error e) ∨ ¬Answered heard

/-- More steps than `send` can still take. -/
def Sender.left : SendPhase → Nat
  | .start => 2 ^ 64 + 5
  | .awaitResume _ _ => 2 ^ 64 + 4
  | .planning _ => 2 ^ 64 + 3
  | .sending st => st.plannedFrames - st.emitted + if st.hash = none then 3 else 2
  | .awaitAck _ => 1
  | .returned _ => 0

/-- What a step of the sender does: it says nothing, or the next message. -/
structure SaysNext (blake3 : Bytes → Hash) (t : Transfer) (source : String) (src : Bytes)
    (draws : Draws) (quiet : Prop) (q : Stage) (n : Nat) (heard : List Msg) (s : Sender)
    (ev : Event) (p : Sender × Option Bytes) : Prop where
  at_ : (p.2 = none ∧ SenderAt blake3 t source src draws quiet q n heard p.1) ∨
    ∃ m q', p.2 = some (m.encode t.frameLen) ∧ advance blake3 src t.chunkLen q m = some q' ∧
      SenderAt blake3 t source src draws quiet q' (n + 1) heard p.1
  fault : GoesOn s.host.fault p.1.host.fault
  troubled : ∀ e, p.1.phase = .returned (.error e) → s.Troubled t draws ev heard
  left : Sender.left p.1.phase < Sender.left s.phase

theorem SaysNext.failed {h : Host} {e : Error} (hleft : 0 < Sender.left s.phase)
    (horigin : ∀ o, q.offset = some o → ∃ held hash rest, heard = .resume held hash :: rest ∧
      o = startAt blake3 src held hash) (hf : GoesOn s.host.fault h.fault)
    (htrouble : s.Troubled t draws ev heard) :
    SaysNext blake3 t source src draws quiet q n heard s ev
      (⟨h, .returned (.error e)⟩, none) :=
  ⟨Or.inl ⟨rfl, .failed horigin⟩, hf, fun _ _ => htrouble, hleft⟩

theorem SaysNext.emit {h : Host} (m : Msg) (q' : Stage) {phase : SendPhase}
    (hleft : Sender.left phase < Sender.left s.phase) (hf : GoesOn s.host.fault h.fault)
    (hadv : advance blake3 src t.chunkLen q m = some q')
    (hnext : SenderAt blake3 t source src draws quiet q' (n + 1) heard ⟨h, phase⟩)
    (horigin : ∀ o, q.offset = some o → ∃ held hash rest, heard = .resume held hash :: rest ∧
      o = startAt blake3 src held hash)
    (hlive : ∀ e, phase ≠ .returned (.error e)) :
    SaysNext blake3 t source src draws quiet q n heard s ev
      (Sender.emit ev h (m.encode t.frameLen) phase) := by
  apply Sender.emit_of
  · exact ⟨Or.inr ⟨m, q', rfl, hadv, hnext⟩, hf, fun e he => absurd he (hlive e), hleft⟩
  · intro hsend e
    exact .failed (Nat.zero_lt_of_lt hleft) horigin hf (Or.inr (Or.inl hsend))

section Phases

variable {h : Host} {fd held : Nat} {hash : Hash} {st : Sending}

theorem says_offer (hsrc : h.contents source = some src) :
    SaysNext blake3 t source src draws quiet .idle 0 [] ⟨h, .start⟩ ev
      (Sender.step blake3 t source ev ⟨h, .start⟩) := by
  unfold Sender.step
  simp only
  apply Sender.exec_of_wp
  apply wp_sendOffer hsrc
  · intro hf e s' hg
    exact .failed (Nat.succ_pos _) nofun hg (Or.inl hf)
  · intro fd s' hd hg
    refine SaysNext.emit (.offer src.length) .offered (Nat.lt_succ_self _) hg ?_ (.awaitResume hd)
      nofun nofun
    simp [advance]

theorem says_start (hd : h.data fd = src) (hears : Hears t ev [] true heard')
    (hchunk : 40 ≤ t.chunkLen) :
    SaysNext blake3 t source src draws quiet .offered 1 heard' ⟨h, .awaitResume fd src.length⟩ ev
      (Sender.step blake3 t source ev ⟨h, .awaitResume fd src.length⟩) := by
  unfold Sender.step
  simp only
  cases hears with
  | cut hcut =>
    simp only [hcut]
    exact .failed (Nat.succ_pos _) nofun (GoesOn.refl _)
      (Or.inr (Or.inr (Or.inr (Or.inl ⟨rfl, _, hcut⟩))))
  | gets hfits hdel =>
    rename_i m
    simp only [hdel]
    apply Sender.exec_of_wp
    apply wp_sendStart hd
    · rintro hf e s' a
      refine .failed (Nat.succ_pos _) nofun a.fault ?_
      rcases hf with hf | hf
      · exact Or.inl hf
      refine Or.inr (Or.inr (Or.inr (Or.inr (Or.inr ?_))))
      rintro (h | ⟨held, hash, h | h⟩)
      · cases h
      · cases h
        have hheld : held < 2 ^ 64 := Nat.lt_of_le_of_lt hfits (by decide)
        exact hf _ held hash (hfits.expect_encode hchunk) (decodeResume_encode hash hheld)
      · cases h
    · intro content held hash s' hexp hdec a
      obtain ⟨htag, rfl⟩ := hfits.of_expect hchunk hexp
      obtain ⟨held', hash', rfl⟩ := Msg.tag_eq_resume htag
      have hheld : held' < 2 ^ 64 := Nat.lt_of_le_of_lt hfits (by decide)
      cases (decodeResume_encode hash' hheld).symm.trans hdec
      refine SaysNext.emit (.start _) (.sending _ _) (Nat.lt_succ_self _) a.fault ?_
        (.planning ((a.data fd).trans hd) rfl) nofun nofun
      simp [advance, startAt_le]

theorem says_plan {o : Nat} (hsrc : src.length ≤ maxLen) (hd : h.data fd = src)
    (ho : o = startAt blake3 src held hash) (hdraws : ev.draws = draws) :
    SaysNext blake3 t source src draws quiet (.sending o o) 2 [.resume held hash]
      ⟨h, .planning ⟨fd, src.length, o, src.take o⟩⟩ ev
      (Sender.step blake3 t source ev ⟨h, .planning ⟨fd, src.length, o, src.take o⟩⟩) := by
  have hle : o ≤ src.length := ho ▸ startAt_le held hash
  have horigin : ∀ o', (Stage.sending o o).offset = some o' → ∃ held' hash' rest,
      [Msg.resume held hash] = .resume held' hash' :: rest ∧
        o' = startAt blake3 src held' hash' := by
    intro o' ho'
    cases ho'
    exact ⟨held, hash, [], rfl, ho⟩
  unfold Sender.step
  simp only
  rw [hdraws]
  apply Sender.exec_of_wp
  apply wp_sendPlan (hle.trans hsrc)
  · rintro hf e s' a
    refine .failed (Nat.succ_pos _) horigin a.fault ?_
    rcases hf with hf | ⟨e', he'⟩
    · exact Or.inl hf
    · exact Or.inr (Or.inr (Or.inr (Or.inr (Or.inl ⟨_, e', he'⟩))))
  · intro planned s' hplan a hp
    have hsends : Sends blake3 t src draws s'.host held hash
        ⟨fd, src.length, o, o, 0, planned, src.take o, 0, none⟩ :=
      ⟨(a.data fd).trans hd, rfl, ho, hplan⟩
    have hat : SenderAt blake3 t source src draws quiet _ _ _ _ :=
      .sending hsends hp hle rfl rfl rfl (Nat.zero_add _)
    have hlt : planned < 2 ^ 64 := by
      apply Pacing.plan_lt hplan
      refine lt_of_le_of_lt (divCeil_le t.chunk_pos) ?_
      exact Nat.lt_of_le_of_lt ((Nat.sub_le _ _).trans hsrc) (by decide)
    have hleft : planned - 0 + 3 < 2 ^ 64 + 3 := by omega
    exact ⟨Or.inl ⟨rfl, hat⟩, a.fault, nofun, hleft⟩

theorem Sends.origin (hsends : Sends blake3 t src draws h held hash st) (o : Nat)
    (ho : some st.offset = some o) : ∃ held' hash' rest,
      [Msg.resume held hash] = .resume held' hash' :: rest ∧
        o = startAt blake3 src held' hash' := by
  cases ho
  exact ⟨held, hash, [], rfl, hsends.offset⟩

theorem says_data (hsends : Sends blake3 t src draws h held hash st)
    (hpos : h.pos st.fd = st.sent) (hsent : st.sent < src.length)
    (hhasher : st.hasher = src.take st.sent) (hnone : st.hash = none) (hcover : st.coverFrames = 0)
    (hcount : st.emitted + divCeil (src.length - st.sent) t.chunkLen =
      divCeil (src.length - st.offset) t.chunkLen) :
    SaysNext blake3 t source src draws quiet (.sending st.offset st.sent) (st.emitted + 2)
      [.resume held hash] ⟨h, .sending st⟩ ev (Sender.turn blake3 t ev ⟨h, .sending st⟩ st) := by
  unfold Sender.turn
  simp only [hnone]
  rw [if_pos (by rw [hsends.total]; exact hsent)]
  split
  · rename_i hcancel
    exact .failed (by simp [Sender.left, hnone]) hsends.origin (GoesOn.refl _)
      (Or.inr (Or.inr (Or.inl hcancel)))
  apply Sender.exec_of_wp
  apply wp_sendData hsends.data hpos hsends.total hsent.le
  · intro hf e s' a
    exact .failed (by simp [Sender.left, hnone]) hsends.origin a.fault (Or.inl hf)
  · intro b s' hb hlen a hp
    have hmore : st.emitted < st.plannedFrames := by
      have hplanned := Pacing.le_plan hsends.plan
      have hrest : 1 + _ = divCeil (src.length - st.sent) t.chunkLen :=
        divCeil_sub (by omega) t.chunk_pos
      omega
    have hleft : Sender.left (.sending (st.push b)) < Sender.left (.sending st) := by
      simp only [Sender.left, Sending.push, hnone, if_true]
      omega
    refine SaysNext.emit (.data b) (.sending st.offset (st.sent + b.length)) hleft a.fault ?_ ?_
      hsends.origin nofun
    · simp only [advance]
      rw [if_pos ⟨by omega, hb⟩]
    · have hsends' : Sends blake3 t src draws s'.host held hash (st.push b) :=
        ⟨(a.data st.fd).trans hsends.data, hsends.total, hsends.offset, hsends.plan⟩
      have hpre : st.hasher ++ b = src.take (st.sent + b.length) := by
        rw [hhasher, List.take_add]
        congr 1
      have hleft : 1 + divCeil (src.length - (st.sent + b.length)) t.chunkLen =
          divCeil (src.length - st.sent) t.chunkLen := by
        rw [hlen, Nat.sub_add_eq]
        exact divCeil_sub (by omega) t.chunk_pos
      have hcount' : (st.push b).emitted + divCeil (src.length - (st.push b).sent) t.chunkLen =
          divCeil (src.length - st.offset) t.chunkLen := by
        show st.emitted + 1 + divCeil (src.length - (st.sent + b.length)) t.chunkLen = _
        omega
      have hle : (st.push b).sent ≤ src.length := by
        show st.sent + b.length ≤ _
        omega
      exact .sending hsends' hp hle hpre hnone hcover hcount'

theorem says_done (hsends : Sends blake3 t src draws h held hash st)
    (hsent : st.sent = src.length) (hhasher : st.hasher = src.take st.sent)
    (hnone : st.hash = none) (hcover : st.coverFrames = 0)
    (hcount : st.emitted + divCeil (src.length - st.sent) t.chunkLen =
      divCeil (src.length - st.offset) t.chunkLen) :
    SaysNext blake3 t source src draws quiet (.sending st.offset st.sent) (st.emitted + 2)
      [.resume held hash] ⟨h, .sending st⟩ ev (Sender.turn blake3 t ev ⟨h, .sending st⟩ st) := by
  have hall : blake3 st.hasher = blake3 src := by rw [hhasher, hsent, List.take_length]
  have hplanned := Pacing.le_plan hsends.plan
  unfold Sender.turn
  simp only [hnone]
  rw [if_neg (by rw [hsends.total]; omega), hall]
  refine SaysNext.emit (.done (blake3 src)) (.ramp st.offset 0) ?_ (GoesOn.refl _) ?_ ?_
    hsends.origin nofun
  · simp [Sender.left, hnone]
  · simp [advance, hsent]
  · have hsends' : Sends blake3 t src draws h held hash { st with hash := some (blake3 src) } :=
      ⟨hsends.data, hsends.total, hsends.offset, hsends.plan⟩
    have hemitted : st.emitted ≤ st.plannedFrames := by omega
    exact .ramp hsends' rfl hcover hemitted

theorem says_ramp {k : Nat} (hsends : Sends blake3 t src draws h held hash st)
    (hhash : st.hash = some (blake3 src)) (hcover : st.coverFrames = UInt64.ofNat k)
    (hemitted : st.emitted ≤ st.plannedFrames) (hquiet : quiet → ev.cancelled = false) :
    SaysNext blake3 t source src draws quiet (.ramp st.offset k) (st.emitted + 3)
      [.resume held hash] ⟨h, .sending st⟩ ev (Sender.turn blake3 t ev ⟨h, .sending st⟩ st) := by
  unfold Sender.turn
  simp only [hhash]
  split
  · rename_i hmore
    have hleft : st.plannedFrames - (st.emitted + 1) + 2 < Sender.left (.sending st) := by
      have := hmore.1
      simp only [Sender.left, hhash, reduceCtorEq, if_false]
      omega
    refine SaysNext.emit .cover (.ramp st.offset (k + 1)) hleft (GoesOn.refl _) rfl ?_
      hsends.origin nofun
    have hsends' : Sends blake3 t src draws h held hash
        { st with
          emitted := st.emitted + 1, coverFrames := st.coverFrames + 1
          hash := some (blake3 src) } :=
      ⟨hsends.data, hsends.total, hsends.offset, hsends.plan⟩
    have hcover' : st.coverFrames + 1 = UInt64.ofNat (k + 1) := by
      rw [hcover, UInt64.ofNat_add]
      rfl
    exact .ramp hsends' rfl hcover' hmore.1
  · rename_i hend
    refine SaysNext.emit .finish (.finished st.offset k) ?_ (GoesOn.refl _) rfl ?_
      hsends.origin nofun
    · simp [Sender.left, hhash]
    have hcount : quiet → st.emitted + 4 = st.plannedFrames + 4 := by
      intro hq
      have : ¬st.emitted < st.plannedFrames := by
        intro hlt
        exact hend ⟨hlt, by simp [hquiet hq]⟩
      omega
    rw [hsends.total, hcover]
    exact .awaitAck hsends.offset hsends.plan hcount

theorem says_nothing {o k planned : Nat} (ho : o = startAt blake3 src held hash)
    (hplan : t.pacing.plan (divCeil (src.length - o) t.chunkLen) draws = .ok planned)
    (hcount : quiet → n = planned + 4) (hears : Hears t ev [.resume held hash] true heard')
    (hchunk : 40 ≤ t.chunkLen) :
    SaysNext blake3 t source src draws quiet (.finished o k) n heard'
      ⟨h, .awaitAck ⟨src.length, o, blake3 src, UInt64.ofNat k⟩⟩ ev
      (Sender.step blake3 t source ev
        ⟨h, .awaitAck ⟨src.length, o, blake3 src, UInt64.ofNat k⟩⟩) := by
  unfold Sender.step
  simp only
  cases hears with
  | cut hcut =>
    simp only [hcut]
    refine .failed Nat.one_pos ?_ (GoesOn.refl _)
      (Or.inr (Or.inr (Or.inr (Or.inl ⟨rfl, _, hcut⟩))))
    intro o' ho'
    cases ho'
    exact ⟨held, hash, [], rfl, ho⟩
  | gets hfits hdel =>
    rename_i m
    simp only [hdel]
    apply Sender.exec_of_wp
    apply wp_ofExcept
    · intro content hexp
      obtain ⟨htag, -⟩ := hfits.of_expect hchunk hexp
      rw [Msg.tag_eq_ack htag]
      exact ⟨Or.inl ⟨rfl, .returned ho hplan hcount⟩, GoesOn.refl _, nofun, Nat.one_pos⟩
    · intro e he
      refine .failed Nat.one_pos ?_ (GoesOn.refl _) (Or.inr (Or.inr (Or.inr (Or.inr (Or.inr ?_)))))
      · intro o' ho'
        cases ho'
        exact ⟨held, hash, [m], rfl, ho⟩
      · rintro (h | ⟨held', hash', h | h⟩)
        · cases h
        · cases h
        · cases h
          have hack : Msg.Fits t.chunkLen Msg.ack := hfits
          have := hack.expect_encode hchunk
          rw [show Msg.ack.tag = Tag.ACK from rfl, he] at this
          cases this

end Phases

theorem SenderAt.step (hs : SenderAt blake3 t source src draws quiet q n heard s)
    (hsrc : src.length ≤ maxLen) (hchunk : 40 ≤ t.chunkLen) (hdraws : ev.draws = draws)
    (hquiet : quiet → ev.cancelled = false) (hlive : ∀ x, s.phase ≠ .returned x)
    (hears : Hears t ev heard (Sender.listens s.phase) heard') :
    SaysNext blake3 t source src draws quiet q n heard' s ev (s.step blake3 t source ev) := by
  cases hs with
  | start hc =>
    cases hears
    exact says_offer hc
  | awaitResume hd => exact says_start hd hears hchunk
  | planning hd ho =>
    cases hears
    exact says_plan hsrc hd ho hdraws
  | sending hsends hpos hsent hhasher hnone hcover hcount =>
    cases hears
    rcases Nat.lt_or_eq_of_le hsent with hlt | heq
    · exact says_data hsends hpos hlt hhasher hnone hcover hcount
    · exact says_done hsends heq hhasher hnone hcover hcount
  | ramp hsends hhash hcover hemitted =>
    cases hears
    exact says_ramp hsends hhash hcover hemitted hquiet
  | awaitAck ho hplan hcount => exact says_nothing ho hplan hcount hears hchunk
  | returned => exact absurd rfl (hlive _)
  | failed => exact absurd rfl (hlive _)

end Follows

end AtomVault.Transfer
