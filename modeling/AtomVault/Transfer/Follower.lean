import AtomVault.Transfer.Receiver
import AtomVault.Transfer.Conversation

/-!
# The receiver follows the conversation

When the frames are those of an honest sender, each one moves `recv` one stage on.
-/

open Lib

namespace AtomVault.Transfer

/-! ## Where the receiver is in the conversation -/

/-- How much of a partial with bytes `P` is kept for an offer of `total` bytes. -/
def held (t : Transfer) (P : Bytes) (total : Nat) : Nat :=
  min (P.length / t.checkpointLen * t.checkpointLen) total

/-- What the partial grows into: the bytes that were kept, and the source from there on. -/
def graft (P src : Bytes) (o : Nat) : Bytes := P.take o ++ src.drop o

/-- The answer to an offer of `src`. -/
def resumeMsg (blake3 : Bytes → Hash) (t : Transfer) (P src : Bytes) : Msg :=
  .resume (held t P src.length) (blake3 (P.take (held t P src.length)))

/-- The parts of the receiver's loop state that its stage does not say. -/
structure Receives (fl : Nat) (t : Transfer) (P src : Bytes) (st : Receiving) : Prop where
  total : st.total = src.length
  frameLen : st.frameLen = fl
  offset : st.offset ≤ held t P src.length
  limit : ∀ m, t.maxTotalLen = some m → src.length ≤ m.toNat

/-- The receiver's stage and what it has answered, when `P` was in the partial. The flag says
that `START` was processed. -/
inductive ReceiverAt (blake3 : Bytes → Hash) (fl : Nat) (t : Transfer) (dest : String)
    (P src : Bytes) : Bool → Stage → List Msg → Receiver → Prop
  | awaitOffer {h : Host} : Apart dest h → partBytes dest h = P →
      ReceiverAt blake3 fl t dest P src false .idle [] ⟨h, .awaitOffer⟩
  | awaitStart {h : Host} {st : Resuming} :
      (∀ m, t.maxTotalLen = some m → src.length ≤ m.toNat) → st.total = src.length →
      st.frameLen = fl →
      st.held = held t P src.length → st.hasher = P.take st.held → h.data st.fd = st.hasher →
      OnPart dest st.fd h →
      ReceiverAt blake3 fl t dest P src false .offered [resumeMsg blake3 t P src]
        ⟨h, .awaitStart st⟩
  | receiving {h : Host} {st : Receiving} : Receives fl t P src st → OnPart dest st.fd h →
      InStep st h → st.hash = none → st.coverFrames = 0 → st.offset ≤ st.received →
      st.lastCheckpoint ≤ st.received → st.received ≤ src.length →
      st.hasher = P.take st.offset ++ slice src st.offset (st.received - st.offset) →
      ReceiverAt blake3 fl t dest P src true (.sending st.offset st.received)
        [resumeMsg blake3 t P src] ⟨h, .receiving st⟩
  | placed {h : Host} {st : Receiving} {x : Bytes} {k : Nat} : Receives fl t P src st →
      Apart dest h → h.contents (partialPath dest) = none → h.contents dest = some x →
      blake3 x = blake3 src → st.hash = some (blake3 src) → st.coverFrames = UInt64.ofNat k →
      ReceiverAt blake3 fl t dest P src true (.ramp st.offset k) [resumeMsg blake3 t P src]
        ⟨h, .receiving st⟩
  | returned {h : Host} {x : Bytes} {o k : Nat} : Apart dest h →
      h.contents (partialPath dest) = none → h.contents dest = some x → blake3 x = blake3 src →
      ReceiverAt blake3 fl t dest P src true (.finished o k) [resumeMsg blake3 t P src, .ack]
        ⟨h, .returned (.ok ⟨src.length, o, blake3 src, UInt64.ofNat k⟩)⟩
  | refused {h : Host} {e : Error} {q : Stage} {answers : List Msg} : Apart dest h →
      answers = [] ∨ q ≠ .idle ∧ answers = [resumeMsg blake3 t P src] →
      ReceiverAt blake3 fl t dest P src false q answers ⟨h, .returned (.error e)⟩
  | broken {h : Host} {e : Error} {q : Stage} {o : Nat} : Apart dest h → q.offset = some o →
      (∀ c, h.contents (partialPath dest) = some c → c <+: graft P src o) →
      ReceiverAt blake3 fl t dest P src true q [resumeMsg blake3 t P src]
        ⟨h, .returned (.error e)⟩

/-- Does the next step of `recv` call `session.recv`? -/
def Receiver.listens (phase : RecvPhase) (cancelled : Bool) : Bool :=
  match phase with
  | .awaitOffer | .awaitStart _ => true
  | .receiving _ => !cancelled
  | .returned _ => false

/-- What a step of the receiver hears of the conversation. -/
inductive Follows (blake3 : Bytes → Hash) (fl chunk : Nat) (src : Bytes) (ev : Event) (q : Stage) :
    Bool → Stage → Prop
  | deaf : Follows blake3 fl chunk src ev q false q
  | cut {e : String} : ev.delivery = .error e → Follows blake3 fl chunk src ev q true q
  | gets {m : Msg} {q' : Stage} : advance blake3 src chunk q m = some q' →
      ev.delivery = .ok (m.encode fl) → Follows blake3 fl chunk src ev q true q'

/-- The only reasons for `recv` to return an error to an honest sender. -/
def Receiver.Troubled (t : Transfer) (P src : Bytes) (r : Receiver) (ev : Event) (q : Stage) :
    Prop :=
  r.host.fault ≠ none ∨ ev.sendFails ≠ none ∨ ev.cancelled = true ∨
    (∃ e, ev.delivery = .error e) ∨ (∃ m, t.maxTotalLen = some m ∧ m.toNat < src.length) ∨
    ∃ o, q.offset = some o ∧ graft P src o ≠ src

/-- What a step of the receiver does: it answers nothing, or one message. -/
structure AnswersNext (blake3 : Bytes → Hash) (fl : Nat) (t : Transfer) (dest : String)
    (P src : Bytes) (late : Bool) (q q' : Stage) (answers : List Msg) (r : Receiver) (ev : Event)
    (p : Receiver × Option Bytes) : Prop where
  at_ : ∃ late', (late = true → late' = true) ∧
    ((p.2 = none ∧ ReceiverAt blake3 fl t dest P src late' q' answers p.1) ∨
      ∃ m, p.2 = some (m.encode fl) ∧
        ReceiverAt blake3 fl t dest P src late' q' (answers ++ [m]) p.1)
  fault : GoesOn r.host.fault p.1.host.fault
  troubled : ∀ e, p.1.phase = .returned (.error e) → r.Troubled t P src ev q

section Answers

variable {blake3 : Bytes → Hash} {fl : Nat} {ts t : Transfer} {dest : String} {P src : Bytes}
  {late : Bool} {q q' : Stage} {answers : List Msg} {r : Receiver} {ev : Event} {h h' : Host}

theorem held_le (t : Transfer) (P : Bytes) (total : Nat) : held t P total ≤ P.length :=
  (min_le_left _ _).trans (Nat.div_mul_le_self _ _)

theorem AnswersNext.refused {e : Error} (hap : Apart dest h') (hf : GoesOn r.host.fault h'.fault)
    (hans : answers = [] ∨ q' ≠ .idle ∧ answers = [resumeMsg blake3 t P src])
    (htrouble : r.Troubled t P src ev q) :
    AnswersNext blake3 fl t dest P src false q q' answers r ev
      (⟨h', .returned (.error e)⟩, none) :=
  ⟨⟨false, nofun, Or.inl ⟨rfl, .refused hap hans⟩⟩, hf, fun _ _ => htrouble⟩

theorem AnswersNext.broken {e : Error} {o : Nat} (hap : Apart dest h')
    (hf : GoesOn r.host.fault h'.fault) (ho : q'.offset = some o)
    (hpart : ∀ c, h'.contents (partialPath dest) = some c → c <+: graft P src o)
    (htrouble : r.Troubled t P src ev q) :
    AnswersNext blake3 fl t dest P src late q q' [resumeMsg blake3 t P src] r ev
      (⟨h', .returned (.error e)⟩, none) :=
  ⟨⟨true, fun _ => rfl, Or.inl ⟨rfl, .broken hap ho hpart⟩⟩, hf, fun _ _ => htrouble⟩

theorem AnswersNext.silent {r' : Receiver} (hat : ReceiverAt blake3 fl t dest P src true q' answers r')
    (hf : GoesOn r.host.fault r'.host.fault) (hlive : ∀ e, r'.phase ≠ .returned (.error e)) :
    AnswersNext blake3 fl t dest P src late q q' answers r ev (r', none) :=
  ⟨⟨true, fun _ => rfl, Or.inl ⟨rfl, hat⟩⟩, hf, fun e he => absurd he (hlive e)⟩

theorem answers_offer (hap : Apart dest h) (hpart : partBytes dest h = P)
    (hsrc : src.length ≤ maxLen) (hchunk : 40 ≤ ts.chunkLen)
    (hfol : Follows blake3 ts.frameLen ts.chunkLen src ev .idle true q') :
    AnswersNext blake3 ts.frameLen t dest P src false .idle q' [] ⟨h, .awaitOffer⟩ ev
      (Receiver.step blake3 t dest ev ⟨h, .awaitOffer⟩) := by
  unfold Receiver.step
  simp only
  cases hfol with
  | cut hcut =>
    simp only [hcut]
    exact .refused hap (GoesOn.refl _) (Or.inl rfl) (Or.inr (Or.inr (Or.inr (Or.inl ⟨_, hcut⟩))))
  | gets hadv hdel =>
    obtain ⟨rfl, rfl⟩ := advance_idle hadv
    have hfits : (Msg.offer src.length).Fits ts.chunkLen := hsrc
    have hlen := hfits.length_encode hchunk
    have hdec : decodeOffer ((Msg.offer src.length).encode ts.frameLen) = .ok src.length :=
      decodeOffer_frame _ (Nat.lt_of_le_of_lt hsrc (by decide))
    simp only [hdel]
    apply Receiver.exec_of_wp
    apply wp_recvOffer hap
    · intro hf e s' hap' _ hg
      refine .refused hap' hg (Or.inl rfl) ?_
      rcases hf with hf | hf
      · exact Or.inl hf
      refine Or.inr (Or.inr (Or.inr (Or.inr (Or.inl ?_))))
      by_contra hlimit
      refine hf src.length ⟨?_, ?_, hdec, ?_⟩
      · rw [hlen]
        exact Nat.le_add_left _ _
      · have := ts.chunk_le
        rw [hlen]
        unfold frameLen MAX_FRAME_LEN HEADER_LEN at *
        omega
      · intro m hm
        by_contra hlt
        exact hlimit ⟨m, hm, not_le.mp hlt⟩
    · intro st s' hres
      have htotal : st.total = src.length := by
        have := hres.accepts.decodes
        rw [hdec] at this
        exact (Except.ok.inj this).symm
      have hfl : st.frameLen = ts.frameLen := hres.frameLen.trans hlen
      have hheld : st.held = held t P src.length := by
        rw [hres.held, hpart, htotal]
        rfl
      have hhasher : st.hasher = P.take st.held := by rw [hres.hasher, hpart]
      apply Receiver.emit_of
      · intro _
        refine ⟨⟨false, nofun, Or.inr ⟨resumeMsg blake3 t P src, ?_, ?_⟩⟩, hres.fault, nofun⟩
        · rw [hfl, hhasher, hheld]
          rfl
        · have hlimit := hres.accepts.limit
          rw [htotal] at hlimit
          exact .awaitStart hlimit htotal hfl hheld hhasher hres.data hres.onPart
      · intro e he
        refine .refused hres.onPart.toApart hres.fault (Or.inl rfl) (Or.inr (Or.inl ?_))
        simp [he]

theorem answers_start {st : Resuming}
    (hlimit : ∀ m, t.maxTotalLen = some m → src.length ≤ m.toNat) (htotal : st.total = src.length)
    (hfl : st.frameLen = ts.frameLen) (hheld : st.held = held t P src.length)
    (hhasher : st.hasher = P.take st.held) (hdata : h.data st.fd = st.hasher)
    (hon : OnPart dest st.fd h) (hsrc : src.length ≤ maxLen) (hchunk : 40 ≤ ts.chunkLen)
    (hstart : ∀ o, q'.offset = some o → o ≤ held t P src.length)
    (hfol : Follows blake3 ts.frameLen ts.chunkLen src ev .offered true q') :
    AnswersNext blake3 ts.frameLen t dest P src false .offered q' [resumeMsg blake3 t P src]
      ⟨h, .awaitStart st⟩ ev (Receiver.step blake3 t dest ev ⟨h, .awaitStart st⟩) := by
  have hlen : st.hasher.length = st.held := by
    have := held_le t P src.length
    rw [hhasher, List.length_take, hheld]
    omega
  unfold Receiver.step
  simp only
  cases hfol with
  | cut hcut =>
    simp only [hcut]
    exact .refused hon.toApart (GoesOn.refl _) (Or.inr ⟨nofun, rfl⟩)
      (Or.inr (Or.inr (Or.inr (Or.inl ⟨_, hcut⟩))))
  | gets hadv hdel =>
    obtain ⟨o, ho, rfl, rfl⟩ := advance_offered hadv
    have hoheld := hstart o rfl
    have hfits : (Msg.start o).Fits ts.chunkLen := ho.trans hsrc
    have hexp : expect ((Msg.start o).encode ts.frameLen) Tag.START = .ok (beBytes 8 o) :=
      hfits.expect_encode hchunk
    have hdec : decodeStart (beBytes 8 o) = .ok o :=
      decodeStart_encode (Nat.lt_of_le_of_lt (ho.trans hsrc) (by decide))
    simp only [hdel]
    apply Receiver.exec_of_wp
    apply wp_recvStart hdata hlen
    · rintro hf e s' a _
      refine .refused (hon.confined a).toApart a.fault (Or.inr ⟨nofun, rfl⟩) ?_
      rcases hf with hf | hf
      · exact Or.inl hf
      · have := hf _ o hexp hdec
        omega
    · intro content o' s' hexp' hdec' _ a hin
      cases hexp.symm.trans hexp'
      cases hdec.symm.trans hdec'
      have hrec : Receives ts.frameLen t P src (st.start o) :=
        ⟨htotal, hfl, hoheld, hlimit⟩
      have hbytes : (st.start o).hasher = P.take o ++ slice src o (o - o) := by
        rw [Nat.sub_self, slice_zero, List.append_nil]
        show st.hasher.take o = _
        rw [hhasher, List.take_take, min_eq_left (by omega)]
      exact .silent (.receiving hrec (hon.confined a) hin rfl rfl (le_refl _) (le_refl _) ho hbytes)
        a.fault nofun

/-! ## In the loop -/

section Loop

variable {st : Receiving}

theorem grown_initial {o n : Nat} : P.take o ++ slice src o n <+: graft P src o :=
  List.prefix_append_right_inj _ |>.mpr (List.take_prefix _ _)

theorem grown_append {o n : Nat} {b : Bytes} (ho : o ≤ n) (hb : b = slice src n b.length) :
    P.take o ++ slice src o (n - o) ++ b = P.take o ++ slice src o (n + b.length - o) := by
  have hn : n = o + (n - o) := by omega
  have hsum : n + b.length - o = n - o + b.length := by omega
  rw [hsum, ← slice_append_slice, ← hn, List.append_assoc, ← hb]

theorem grown_full {o : Nat} : P.take o ++ slice src o (src.length - o) = graft P src o := by
  have hrest : slice src o (src.length - o) = src.drop o :=
    List.take_of_length_le (by rw [List.length_drop])
  rw [hrest]
  rfl

theorem slice_inside {n : Nat} {b : Bytes} (hn : n ≤ src.length) (hb : b = slice src n b.length) :
    n + b.length ≤ src.length := by
  have hlen := congrArg List.length hb
  unfold slice at hlen
  rw [List.length_take, List.length_drop] at hlen
  omega

theorem answers_data {b : Bytes} (hrec : Receives ts.frameLen t P src st)
    (hon : OnPart dest st.fd h) (hin : InStep st h) (hnone : st.hash = none)
    (hcover : st.coverFrames = 0) (hle : st.offset ≤ st.received)
    (hlast : st.lastCheckpoint ≤ st.received) (hend : st.received ≤ src.length)
    (hhasher : st.hasher = P.take st.offset ++ slice src st.offset (st.received - st.offset))
    (hsrc : src.length ≤ maxLen) (hb : b = slice src st.received b.length) :
    wp (recvData t st b)
      (fun st' s => AnswersNext blake3 ts.frameLen t dest P src true (.sending st.offset st.received)
        (.sending st.offset (st.received + b.length)) [resumeMsg blake3 t P src]
        ⟨h, .receiving st⟩ ev (⟨s.host, .receiving st'⟩, none))
      (fun e s => AnswersNext blake3 ts.frameLen t dest P src true (.sending st.offset st.received)
        (.sending st.offset (st.received + b.length)) [resumeMsg blake3 t P src]
        ⟨h, .receiving st⟩ ev (⟨s.host, .returned (.error e)⟩, none)) (⟨h, ()⟩ : Env Unit) := by
  have hfit := slice_inside hend hb
  have hgrown : st.hasher ++ b =
      P.take st.offset ++ slice src st.offset (st.received + b.length - st.offset) := by
    rw [hhasher, grown_append hle hb]
  apply wp_recvData hin
  · rintro hf e s' a ⟨k, hd⟩
    have hon' := hon.confined a
    refine .broken hon'.toApart a.fault rfl ?_ ?_
    · intro c hc
      rw [hon'.contents, hd] at hc
      cases hc
      have hpre : st.hasher ++ b.take k <+: st.hasher ++ b :=
        (List.prefix_append_right_inj _).mpr (List.take_prefix _ _)
      rw [hgrown] at hpre
      exact hpre.trans grown_initial
    · rcases hf with hf | hf | hf | hf
      · exact Or.inl hf
      · exact absurd hnone hf
      · rw [hrec.total] at hf
        omega
      · omega
  · intro s' _ _ a hin'
    have hrec' : Receives ts.frameLen t P src (st.push t b) :=
      ⟨hrec.total, hrec.frameLen, hrec.offset, hrec.limit⟩
    have hle' : st.offset ≤ (st.push t b).received := hle.trans (Nat.le_add_right _ _)
    have hlast' : (st.push t b).lastCheckpoint ≤ (st.push t b).received := by
      unfold Receiving.push
      split <;> simp only <;> omega
    exact .silent (.receiving hrec' (hon.confined a) hin' hnone hcover hle' hlast' hfit hgrown)
      a.fault nofun

theorem answers_done (hrec : Receives ts.frameLen t P src st) (hon : OnPart dest st.fd h)
    (hin : InStep st h) (hnone : st.hash = none) (hcover : st.coverFrames = 0)
    (hend : st.received = src.length)
    (hhasher : st.hasher = P.take st.offset ++ slice src st.offset (st.received - st.offset)) :
    wp (recvDone blake3 dest st (blake3 src).toList)
      (fun st' s => AnswersNext blake3 ts.frameLen t dest P src true (.sending st.offset st.received)
        (.ramp st.offset 0) [resumeMsg blake3 t P src] ⟨h, .receiving st⟩ ev
        (⟨s.host, .receiving st'⟩, none))
      (fun e s => AnswersNext blake3 ts.frameLen t dest P src true (.sending st.offset st.received)
        (.ramp st.offset 0) [resumeMsg blake3 t P src] ⟨h, .receiving st⟩ ev
        (⟨s.host, .returned (.error e)⟩, none)) (⟨h, ()⟩ : Env Unit) := by
  have hall : st.hasher = graft P src st.offset := by rw [hhasher, hend, grown_full]
  have hdec := decodeDone_encode (blake3 src)
  apply wp_recvDone hon
  · rintro hf e s' a hd
    have hon' := hon.confined a
    refine .broken hon'.toApart a.fault rfl ?_ ?_
    · intro c hc
      rw [hon'.contents, hd] at hc
      cases hc
      show h.data st.fd <+: _
      rw [hin.data, hall]
    · rcases hf with hf | hf | hf | hf
      · exact Or.inl hf
      · exact absurd hnone hf
      · exact absurd (hend.trans hrec.total.symm) hf
      · refine Or.inr (Or.inr (Or.inr (Or.inr (Or.inr ⟨st.offset, rfl, ?_⟩))))
        rintro hgraft
        rw [hdec, hall, hgraft] at hf
        exact hf rfl
  · intro s' _ _ hclaimed hplaced
    have hsame : blake3 src = blake3 st.hasher := by
      rw [hdec] at hclaimed
      exact Except.ok.inj hclaimed
    have hfile : s'.host.contents dest = some st.hasher := by
      rw [hplaced.file, ← hin.data]
    have hrec' : Receives ts.frameLen t P src { st with hash := some (blake3 st.hasher) } :=
      ⟨hrec.total, hrec.frameLen, hrec.offset, hrec.limit⟩
    exact .silent (.placed hrec' hplaced.apart hplaced.part hfile hsame.symm (by rw [hsame]) hcover)
      hplaced.fault nofun

/-- In the loop `recv` stops when it is cancelled or nothing comes, and else handles a frame. -/
theorem answers_receiving {o : Nat} (hap : Apart dest h) (hoffset : q.offset = some o)
    (hpart : ∀ c, h.contents (partialPath dest) = some c → c <+: graft P src o)
    (hfol : Follows blake3 ts.frameLen ts.chunkLen src ev q (!ev.cancelled) q')
    (hframe : ∀ m, advance blake3 src ts.chunkLen q m = some q' →
      AnswersNext blake3 ts.frameLen t dest P src true q q' [resumeMsg blake3 t P src]
        ⟨h, .receiving st⟩ ev
        (Receiver.exec ⟨h, .receiving st⟩ (recvFrame blake3 t dest st (m.encode ts.frameLen))
          fun h turn =>
            match turn with
            | .inl st => (⟨h, .receiving st⟩, none)
            | .inr summary =>
              Receiver.emit ev h (frame Tag.ACK [] st.frameLen) (.returned (.ok summary)))) :
    AnswersNext blake3 ts.frameLen t dest P src true q q' [resumeMsg blake3 t P src]
      ⟨h, .receiving st⟩ ev (Receiver.step blake3 t dest ev ⟨h, .receiving st⟩) := by
  unfold Receiver.step
  simp only
  cases hc : ev.cancelled with
  | true =>
    rw [hc] at hfol
    cases hfol
    exact .broken hap (GoesOn.refl _) hoffset hpart (Or.inr (Or.inr (Or.inl hc)))
  | false =>
    rw [hc] at hfol
    simp only [Bool.false_eq_true, if_false]
    cases hfol with
    | cut hcut =>
      simp only [hcut]
      exact .broken hap (GoesOn.refl _) hoffset hpart
        (Or.inr (Or.inr (Or.inr (Or.inl ⟨_, hcut⟩))))
    | gets hadv hdel =>
      simp only [hdel]
      exact hframe _ hadv

theorem answers_sending (hrec : Receives ts.frameLen t P src st) (hon : OnPart dest st.fd h)
    (hin : InStep st h) (hnone : st.hash = none) (hcover : st.coverFrames = 0)
    (hle : st.offset ≤ st.received) (hlast : st.lastCheckpoint ≤ st.received)
    (hend : st.received ≤ src.length)
    (hhasher : st.hasher = P.take st.offset ++ slice src st.offset (st.received - st.offset))
    (hsrc : src.length ≤ maxLen) (hchunk : 40 ≤ ts.chunkLen)
    (hfol : Follows blake3 ts.frameLen ts.chunkLen src ev (.sending st.offset st.received)
      (!ev.cancelled) q') :
    AnswersNext blake3 ts.frameLen t dest P src true (.sending st.offset st.received) q'
      [resumeMsg blake3 t P src] ⟨h, .receiving st⟩ ev
      (Receiver.step blake3 t dest ev ⟨h, .receiving st⟩) := by
  have hpart : ∀ c, h.contents (partialPath dest) = some c → c <+: graft P src st.offset := by
    intro c hc
    rw [hon.contents, hin.data, hhasher] at hc
    cases hc
    exact grown_initial
  apply answers_receiving hon.toApart rfl hpart hfol
  intro m hadv
  have hfits := Fits_of_advance hsrc hadv
  have hlen := (hfits.length_encode hchunk).trans hrec.frameLen.symm
  apply Receiver.exec_of_wp
  rcases advance_sending hadv with ⟨b, -, hb, rfl, rfl⟩ | ⟨hn, rfl, rfl⟩
  · have hparse : parse _ = .ok (Tag.DATA, b) := hfits.parse_encode hchunk
    rw [recvFrame_of_parse hlen hparse, if_pos rfl, wp_bind]
    exact answers_data hrec hon hin hnone hcover hle hlast hend hhasher hsrc hb
  · have hparse : parse _ = .ok (Tag.DONE, (blake3 src).toList) := hfits.parse_encode hchunk
    rw [recvFrame_of_parse hlen hparse, if_neg (by decide), if_neg (by decide), if_pos rfl,
      wp_bind]
    exact answers_done hrec hon hin hnone hcover hn hhasher

theorem answers_ramp {x : Bytes} {k : Nat} (hrec : Receives ts.frameLen t P src st)
    (hap : Apart dest h) (hgone : h.contents (partialPath dest) = none)
    (hfile : h.contents dest = some x) (hx : blake3 x = blake3 src)
    (hhash : st.hash = some (blake3 src)) (hcover : st.coverFrames = UInt64.ofNat k)
    (hsrc : src.length ≤ maxLen) (hchunk : 40 ≤ ts.chunkLen)
    (hfol : Follows blake3 ts.frameLen ts.chunkLen src ev (.ramp st.offset k) (!ev.cancelled) q') :
    AnswersNext blake3 ts.frameLen t dest P src true (.ramp st.offset k) q'
      [resumeMsg blake3 t P src] ⟨h, .receiving st⟩ ev
      (Receiver.step blake3 t dest ev ⟨h, .receiving st⟩) := by
  have hpart : ∀ c, h.contents (partialPath dest) = some c → c <+: graft P src st.offset := by
    intro c hc
    rw [hgone] at hc
    cases hc
  apply answers_receiving hap rfl hpart hfol
  intro m hadv
  have hfits := Fits_of_advance hsrc hadv
  have hlen := (hfits.length_encode hchunk).trans hrec.frameLen.symm
  apply Receiver.exec_of_wp
  rcases advance_ramp hadv with ⟨rfl, rfl⟩ | ⟨rfl, rfl⟩
  · have hparse : parse _ = .ok (Tag.COVER, []) := hfits.parse_encode hchunk
    rw [recvFrame_of_parse hlen hparse, if_neg (by decide), if_pos rfl]
    have hrec' : Receives ts.frameLen t P src { st with coverFrames := st.coverFrames + 1 } :=
      ⟨hrec.total, hrec.frameLen, hrec.offset, hrec.limit⟩
    have hcover' : st.coverFrames + 1 = UInt64.ofNat (k + 1) := by
      rw [hcover, UInt64.ofNat_add]
      rfl
    exact .silent (.placed hrec' hap hgone hfile hx hhash hcover') (GoesOn.refl _) nofun
  · have hparse : parse _ = .ok (Tag.FINISH, []) := hfits.parse_encode hchunk
    rw [recvFrame_of_parse hlen hparse, if_neg (by decide), if_neg (by decide),
      if_neg (by decide), if_pos rfl, wp_bind]
    unfold recvFinish
    rw [hhash]
    apply Receiver.emit_of
    · intro _
      refine ⟨⟨true, fun _ => rfl, Or.inr ⟨.ack, ?_, ?_⟩⟩, GoesOn.refl _, nofun⟩
      · rw [hrec.frameLen]
        rfl
      · rw [hrec.total, hcover]
        exact .returned hap hgone hfile hx
    · intro e he
      refine .broken hap (GoesOn.refl _) rfl hpart (Or.inr (Or.inl ?_))
      simp [he]

end Loop

theorem ReceiverAt.step (hr : ReceiverAt blake3 ts.frameLen t dest P src late q answers r)
    (hsrc : src.length ≤ maxLen) (hchunk : 40 ≤ ts.chunkLen)
    (hstart : q = .offered → ∀ o, q'.offset = some o → o ≤ held t P src.length)
    (hlive : ∀ x, r.phase ≠ .returned x)
    (hfol : Follows blake3 ts.frameLen ts.chunkLen src ev q
      (Receiver.listens r.phase ev.cancelled) q') :
    AnswersNext blake3 ts.frameLen t dest P src late q q' answers r ev
      (r.step blake3 t dest ev) := by
  cases hr with
  | awaitOffer hap hpart => exact answers_offer hap hpart hsrc hchunk hfol
  | awaitStart hlimit htotal hfl hheld hhasher hdata hon =>
    exact answers_start hlimit htotal hfl hheld hhasher hdata hon hsrc hchunk (hstart rfl) hfol
  | receiving hrec hon hin hnone hcover hle hlast hend hhasher =>
    exact answers_sending hrec hon hin hnone hcover hle hlast hend hhasher hsrc hchunk hfol
  | placed hrec hap hgone hfile hx hhash hcover =>
    exact answers_ramp hrec hap hgone hfile hx hhash hcover hsrc hchunk hfol
  | returned => exact absurd rfl (hlive _)
  | refused => exact absurd rfl (hlive _)
  | broken => exact absurd rfl (hlive _)

theorem ReceiverAt.toApart (hr : ReceiverAt blake3 fl t dest P src late q answers r) :
    Apart dest r.host := by
  cases hr with
  | awaitOffer hap => exact hap
  | awaitStart _ _ _ _ _ _ hon => exact hon.toApart
  | receiving _ hon => exact hon.toApart
  | placed _ hap => exact hap
  | returned hap => exact hap
  | refused hap => exact hap
  | broken hap => exact hap

/-- The receiver answers an offer, and at the very end, after the rename, it acknowledges. -/
theorem ReceiverAt.answers_cases (hr : ReceiverAt blake3 fl t dest P src late q answers r) :
    answers = [] ∨ answers = [resumeMsg blake3 t P src] ∨
      answers = [resumeMsg blake3 t P src, .ack] ∧ ∃ x o k, q = .finished o k ∧
        r.phase = .returned (.ok ⟨src.length, o, blake3 src, UInt64.ofNat k⟩) ∧
        r.host.contents dest = some x ∧ blake3 x = blake3 src := by
  cases hr with
  | awaitOffer => exact Or.inl rfl
  | awaitStart => exact Or.inr (Or.inl rfl)
  | receiving => exact Or.inr (Or.inl rfl)
  | placed => exact Or.inr (Or.inl rfl)
  | returned _ _ hfile hx => exact Or.inr (Or.inr ⟨rfl, _, _, _, rfl, rfl, hfile, hx⟩)
  | refused _ hans => exact hans.imp id fun h => Or.inl h.2
  | broken => exact Or.inr (Or.inl rfl)

theorem ReceiverAt.fits (hr : ReceiverAt blake3 fl t dest P src late q answers r)
    (hsrc : src.length ≤ maxLen) (chunk : Nat) : ∀ m ∈ answers, m.Fits chunk := by
  have hresume : (resumeMsg blake3 t P src).Fits chunk := (min_le_right _ _).trans hsrc
  rcases hr.answers_cases with rfl | rfl | ⟨rfl, -⟩
  · intro m hm
    cases hm
  · intro m hm
    rw [List.mem_singleton.mp hm]
    exact hresume
  · intro m hm
    rcases List.mem_cons.mp hm with rfl | hm
    · exact hresume
    · rw [List.mem_singleton.mp hm]
      trivial

theorem ReceiverAt.idle (hr : ReceiverAt blake3 fl t dest P src late .idle answers r) :
    answers = [] := by
  cases hr with
  | awaitOffer => rfl
  | refused _ hans => exact hans.resolve_right fun h => h.1 rfl
  | broken _ ho => cases ho

end Answers

end AtomVault.Transfer
