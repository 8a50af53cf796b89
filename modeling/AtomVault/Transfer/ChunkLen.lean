import AtomVault.Transfer.Resume

/-!
# Which chunk lengths work

The clamp leaves room for the data of a frame. The control frames carry up to 40 bytes, and
the receiver takes over the length of the first frame.
-/

open Lib

namespace AtomVault.Transfer

/-- The assertion of `frame`, read off the frame that it returned. -/
def Asserts (frameLen : Nat) (raw : Bytes) : Prop :=
  ∀ tag content, parse raw = .ok (tag, content) → content.length + HEADER_LEN ≤ frameLen

theorem asserts_frame {tag : UInt8} {content : Bytes} {frameLen : Nat}
    (h : content.length < 2 ^ 32) :
    Asserts frameLen (frame tag content frameLen) ↔ content.length + HEADER_LEN ≤ frameLen := by
  constructor
  · intro hfits
    exact hfits tag content (parse_frame tag frameLen h)
  · intro hfits tag' content' hparse
    rw [parse_frame tag frameLen h] at hparse
    cases hparse
    exact hfits

/-- Nothing that either end sent is longer than its frame length, and all of it has one length.
The receiver's frame length is that of the first frame it got. -/
structure Uniform (c : Setting) (s : Session) : Prop where
  sends : ∀ raw ∈ s.toReceiver.sent, Asserts c.sends.frameLen raw
  recvs : ∀ offer ∈ s.toReceiver.sent.head?, ∀ raw ∈ s.toSender.sent, Asserts offer.length raw
  same : ∀ x ∈ s.log, ∀ y ∈ s.log, x.2 = y.2

/-- An undisturbed session completes, and its frames are uniform all the way. -/
structure Works (blake3 : Bytes → Hash) (c : Setting) (src : Bytes) (hs hr : Host) : Prop where
  ends : EndsWell blake3 c src hs hr
  uniform : ∀ ms s, (∀ m ∈ ms, m.Clean) →
    Session.run blake3 c ms (Session.start hs hr) = some s → Uniform c s

section ChunkLen

variable {blake3 : Bytes → Hash} {c : Setting} {P src : Bytes} {quiet : Prop} {late : Bool}
  {said answers : List Msg} {q p : Stage} {hs hr : Host} {s : Session}

/-! ## With room for the control frames -/

theorem Msg.Fits.asserts {t : Transfer} {m : Msg} (h : m.Fits t.chunkLen)
    (hchunk : 40 ≤ t.chunkLen) : Asserts t.frameLen (m.encode t.frameLen) := by
  intro tag content hparse
  rw [h.parse_encode hchunk] at hparse
  cases hparse
  have := h.length_content hchunk
  unfold frameLen
  omega

theorem Tracks.uniform (h : Tracks blake3 c P src quiet late said answers q p s)
    (hsrc : src.length ≤ maxLen) (hchunk : 40 ≤ c.sends.chunkLen) : Uniform c s where
  sends raw hraw := by
    rw [h.sent] at hraw
    obtain ⟨m, hm, rfl⟩ := List.mem_map.mp hraw
    exact (Fits_of_follow hsrc h.follows m hm).asserts hchunk
  recvs offer hoffer raw hraw := by
    have hmem := List.mem_of_mem_head? hoffer
    rw [h.sent] at hmem
    obtain ⟨m, hm, rfl⟩ := List.mem_map.mp hmem
    rw [(Fits_of_follow hsrc h.follows m hm).length_encode hchunk]
    rw [h.replied] at hraw
    obtain ⟨m', hm', rfl⟩ := List.mem_map.mp hraw
    exact (h.receiver.fits hsrc _ m' hm').asserts hchunk
  same x hx y hy := by
    rw [h.log] at hx hy
    rw [traffic_same x hx, traffic_same y hy]

theorem Honest.works (honest : Honest c src hs hr) (hcf : CollisionFree blake3 src)
    (hpermits : Permits c src) (hs₀ : hs.fault = none) (hr₀ : hr.fault = none) :
    Works blake3 c src hs hr where
  ends := honest.endsWell hcf hpermits hs₀ hr₀
  uniform ms s hclean hrun := by
    obtain ⟨late, said, answers, q, p, htracks⟩ := honest.invariant False.elim hrun
    exact htracks.uniform honest.fits honest.chunk

/-! ## Without -/

section First

variable {t : Transfer} {source dest : String} {ev : Event} {h : Host}

theorem offer_out (hsrc : h.contents source = some src) (hfault : h.fault = none)
    (hev : ev.sendFails = none) : ∃ s,
    Sender.step blake3 t source ev ⟨h, .start⟩ =
      (s, some (frame Tag.OFFER (beBytes 8 src.length) t.frameLen)) := by
  unfold Sender.step
  simp only
  apply Sender.exec_of_wp (P := fun p => ∃ s, p = (s, some _))
  apply wp_sendOffer hsrc
  · intro hf
    exact absurd hfault hf
  · intro fd s' _ _
    unfold Sender.emit
    rw [hev]
    exact ⟨_, rfl⟩

theorem resume_out {offer : Bytes} {total : Nat} (hap : Apart dest h) (hfault : h.fault = none)
    (hacc : Accepts t offer total) (hdel : ev.delivery = .ok offer) (hev : ev.sendFails = none) :
    ∃ r content, content.length = 40 ∧ Receiver.step blake3 t dest ev ⟨h, .awaitOffer⟩ =
      (r, some (frame Tag.RESUME content offer.length)) := by
  unfold Receiver.step
  simp only [hdel]
  apply Receiver.exec_of_wp
    (P := fun p => ∃ r content, content.length = 40 ∧ p = (r, some (frame _ content _)))
  apply wp_recvOffer hap
  · rintro (hf | hf)
    · exact absurd hfault hf
    · exact absurd hacc (hf total)
  · intro st s' hres
    unfold Receiver.emit
    rw [hev, hres.frameLen]
    exact ⟨_, _, by simp, rfl⟩

end First

theorem length_offer (n frameLen : Nat) :
    (frame Tag.OFFER (beBytes 8 n) frameLen).length = max frameLen 13 := by
  rw [length_frame, length_beBytes]
  rfl

theorem first_frames (blake3 : Bytes → Hash) (hsrc : hs.contents c.source = some src) (hap : Apart c.dest hr)
    (hpermits : Permits c src) (hs₀ : hs.fault = none) (hr₀ : hr.fault = none) :
    ∃ s content, content.length = 40 ∧
      Session.run blake3 c [cleanMove .sender, cleanMove .receiver] (Session.start hs hr) =
        some s ∧
      s.toReceiver.sent = [frame Tag.OFFER (beBytes 8 src.length) c.sends.frameLen] ∧
      s.toSender.sent = [frame Tag.RESUME content (max c.sends.frameLen 13)] := by
  have hfits : src.length ≤ maxLen := by
    obtain ⟨i, -, rfl⟩ := Option.map_eq_some_iff.mp hsrc
    exact (hs.files i).fits
  have hacc : Accepts c.recvs (frame Tag.OFFER (beBytes 8 src.length) c.sends.frameLen)
      src.length := by
    have hle := c.sends.chunk_le
    refine ⟨?_, ?_, decodeOffer_frame _ (Nat.lt_of_le_of_lt hfits (by decide)), hpermits.limit⟩
    · rw [length_offer]
      unfold HEADER_LEN
      omega
    · rw [length_offer]
      unfold MAX_FRAME_LEN HEADER_LEN at hle
      unfold frameLen MAX_FRAME_LEN HEADER_LEN
      omega
  have hsend : ∃ s₁, Sender.step blake3 c.sends c.source ⟨false, .error "", none, c.draws⟩
      ⟨hs, .start⟩ = (s₁, some (frame Tag.OFFER (beBytes 8 src.length) c.sends.frameLen)) :=
    offer_out hsrc hs₀ rfl
  have hrecv : ∃ r content, content.length = 40 ∧
      Receiver.step blake3 c.recvs c.dest
        ⟨false, .ok (frame Tag.OFFER (beBytes 8 src.length) c.sends.frameLen), none, c.draws⟩
        ⟨hr, .awaitOffer⟩ = (r, some (frame Tag.RESUME content _)) :=
    resume_out hap hr₀ hacc rfl rfl
  obtain ⟨s₁, hsend⟩ := hsend
  obtain ⟨r, content, hcontent, hrecv⟩ := hrecv
  rw [length_offer] at hrecv
  refine ⟨⟨s₁, r, ⟨[frame Tag.OFFER (beBytes 8 src.length) c.sends.frameLen], 1⟩,
    ⟨[frame Tag.RESUME content (max c.sends.frameLen 13)], 0⟩,
    Session.record .sender (some (frame Tag.OFFER (beBytes 8 src.length) c.sends.frameLen)) ++
      Session.record .receiver (some (frame Tag.RESUME content (max c.sends.frameLen 13)))⟩,
    content, hcontent, ?_, rfl, rfl⟩
  have hfirst : Session.next blake3 c (cleanMove .sender) (Session.start hs hr) =
      some ⟨s₁, ⟨hr, .awaitOffer⟩,
        ⟨[frame Tag.OFFER (beBytes 8 src.length) c.sends.frameLen], 0⟩, Channel.empty,
        Session.record .sender (some (frame Tag.OFFER (beBytes 8 src.length) c.sends.frameLen))⟩ := by
    unfold Session.next
    simp only [cleanMove, Session.start, SendPhase.isReturned, Session.delivery, Sender.listens,
      Bool.false_eq_true, if_false]
    show some _ = _
    rw [hsend]
    rfl
  show Session.next blake3 c _ _ >>= _ = _
  rw [hfirst, Option.bind_eq_bind, Option.bind_some]
  show Session.next blake3 c _ _ >>= _ = _
  unfold Session.next
  simp only [cleanMove, RecvPhase.isReturned, Session.delivery, Receiver.listens,
    Bool.false_eq_true, if_false]
  show some _ = _
  rw [hrecv]
  rfl

/-- A `RESUME` fills 45 bytes, and the receiver's frames are as long as the `OFFER` was. -/
theorem Works.room (h : Works blake3 c src hs hr) (hsrc : hs.contents c.source = some src)
    (hap : Apart c.dest hr) (hpermits : Permits c src) (hs₀ : hs.fault = none)
    (hr₀ : hr.fault = none) : 40 ≤ c.sends.chunkLen := by
  obtain ⟨s, content, hcontent, hrun, hsent, hreplied⟩ :=
    first_frames blake3 hsrc hap hpermits hs₀ hr₀
  have huniform : Uniform c s := h.uniform _ s (by simp [clean_cleanMove]) hrun
  have hasserts := huniform.recvs
  rw [hsent, hreplied] at hasserts
  have hfits := hasserts _ rfl _ (List.mem_singleton_self _)
  rw [length_offer] at hfits
  have hle := (asserts_frame (by rw [hcontent]; decide)).mp hfits
  rw [hcontent] at hle
  unfold frameLen HEADER_LEN at hle
  omega

/-- **Chunk lengths.** Whatever the source and whatever was left of it: an undisturbed transfer
with the chunk length `bytes` completes, keeps the assertion of `frame` and has frames of one
length, exactly when `bytes` leaves room for a `RESUME`. -/
theorem chunk_len_works (bytes : Nat) (hsrc : hs.contents c.source = some src)
    (hap : Apart c.dest hr) (hcf : CollisionFree blake3 src) (hpermits : Permits c src)
    (hs₀ : hs.fault = none) (hr₀ : hr.fault = none) :
    Works blake3 { c with sends := c.sends.withChunkLen bytes } src hs hr ↔ 40 ≤ bytes := by
  have hpermits' : Permits { c with sends := c.sends.withChunkLen bytes } src :=
    ⟨hpermits.plan, hpermits.limit⟩
  have hclamp : 40 ≤ (c.sends.withChunkLen bytes).chunkLen ↔ 40 ≤ bytes := by
    show 40 ≤ max 1 (min bytes (MAX_FRAME_LEN - HEADER_LEN)) ↔ _
    unfold MAX_FRAME_LEN HEADER_LEN
    omega
  rw [← hclamp]
  constructor
  · intro h
    exact h.room hsrc hap hpermits' hs₀ hr₀
  · intro hchunk
    have honest : Honest { c with sends := c.sends.withChunkLen bytes } src hs hr :=
      ⟨hsrc, hap, hchunk⟩
    exact honest.works hcf hpermits' hs₀ hr₀

theorem chunk_len_works_sample :
    Works sampleHash { sampleSetting with sends := sampleSetting.sends.withChunkLen 40 } [2, 9, 7]
        (sampleSource [2, 9, 7] (by decide)) sampleDisk ∧
      ¬Works sampleHash { sampleSetting with sends := sampleSetting.sends.withChunkLen 39 }
        [2, 9, 7] (sampleSource [2, 9, 7] (by decide)) sampleDisk := by
  have hcf : CollisionFree sampleHash [2, 9, 7] := collisionFree_sample (by decide)
  have hsource : (sampleSource [2, 9, 7] (by decide)).contents sampleSetting.source =
      some [2, 9, 7] := rfl
  constructor
  · exact (chunk_len_works 40 hsource apart_sampleDisk hcf (permits_sample _) rfl rfl).mpr
      (by decide)
  · intro h
    exact absurd ((chunk_len_works 39 hsource apart_sampleDisk hcf (permits_sample _) rfl rfl).mp h)
      (by decide)

def oneByte : Setting := { sampleSetting with sends := sampleSetting.sends.withChunkLen 1 }

def refusedWith (msg : String) (s : Session) : Bool :=
  match s.receiver.phase with
  | .returned (.error e) => e = .transfer msg
  | _ => false

/-- With one byte a frame the `OFFER` has 13 bytes and a `DATA` frame 6, which the receiver
refuses, so the session never completes. -/
theorem one_byte_refused :
    (∃ s, Session.run sampleHash oneByte
        (moves [.sender, .receiver, .sender, .sender, .sender, .receiver, .receiver])
        (Session.start (sampleSource [2, 9, 7] (by decide)) sampleDisk) = some s ∧
      refusedWith "peer changed frame size from 13 to 6 mid-stream" s = true) ∧
      ¬EndsWell sampleHash oneByte [2, 9, 7] (sampleSource [2, 9, 7] (by decide)) sampleDisk ∧
      ¬Works sampleHash oneByte [2, 9, 7] (sampleSource [2, 9, 7] (by decide)) sampleDisk := by
  have hrun : (Session.run sampleHash oneByte
      (moves [.sender, .receiver, .sender, .sender, .sender, .receiver, .receiver])
      (Session.start (sampleSource [2, 9, 7] (by decide)) sampleDisk)).any
        (refusedWith "peer changed frame size from 13 to 6 mid-stream") = true := by
    decide +kernel
  have hrefuses : refuses (Session.run sampleHash oneByte
      (moves ([.sender, .receiver] ++ List.replicate 7 .sender ++ [.receiver, .receiver]))
      (Session.start (sampleSource [2, 9, 7] (by decide)) sampleDisk)) = true := by
    decide +kernel
  have hends : ¬EndsWell sampleHash oneByte [2, 9, 7] _ _ := not_endsWell_of_refuses hrefuses
  exact ⟨(Option.any_eq_true _ _).mp hrun, hends, fun h => hends h.ends⟩

end ChunkLen

end AtomVault.Transfer
