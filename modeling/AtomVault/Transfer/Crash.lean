import AtomVault.Transfer.Resume

/-!
# A receiver that crashes

`fsync` covers the partial up to `lastCheckpoint`. A crash may take back or damage
everything behind it. The next session reads the length that is left and rounds it down to
a multiple of `checkpointLen`, which need not be below `lastCheckpoint`.
-/

open Lib

namespace AtomVault.Transfer

/-- The receiver's host in its loop: between two frames, or with a part of a `DATA` frame
written, up to all of it. -/
inductive Interrupted (s : Session) (st : Receiving) : Host → Prop
  | head : Interrupted s st s.receiver.host
  | writing {raw content : Bytes} {k : Nat} : s.toReceiver.next = some raw →
      parse raw = .ok (Tag.DATA, content) →
      Interrupted s st (s.receiver.host.write st.fd (content.take k))

/-- What a crash makes of host `h` when `synced` bytes of the partial are durable: at least
these are left, and only these are intact. -/
structure Crashed (dest : String) (synced : Nat) (h h' : Host) : Prop where
  apart : Apart dest h'
  part : ∃ w x, h.contents (partialPath dest) = some w ∧
    h'.contents (partialPath dest) = some x ∧ synced ≤ x.length ∧ x.length ≤ w.length ∧
    x.take synced = w.take synced

/-- Whatever the crash does, the next session with the same source announces durable bytes
only, and starts at most one checkpoint before their end. -/
def CrashCheap (blake3 : Bytes → Hash) (c : Setting) (src : Bytes) (synced : Nat) (h : Host) :
    Prop :=
  ∀ h', Crashed c.dest synced h h' → ∀ c' hs ms s, c'.recvs = c.recvs → c'.dest = c.dest →
    Honest c' src hs h' → Session.run blake3 c' ms (Session.start hs h') = some s →
    (∀ raw ∈ s.toSender.sent, ∀ n hash, resumeOf raw = some (n, hash) → n ≤ synced) ∧
    ∀ raw ∈ s.toReceiver.sent, ∀ o, startOf raw = some o → synced ≤ o + c.recvs.checkpointLen

section Crash

variable {blake3 : Bytes → Hash} {c : Setting} {src : Bytes} {hs hr h : Host} {s : Session}
  {st : Receiving} {ms : List Move}

theorem confined_write (h : Host) (fd : Nat) (b : Bytes) : Confined fd h (h.write fd b) := by
  have a : Touches fd (⟨h, ()⟩ : Env Unit) _ := touches_write (GoesOn.refl _) b
  exact a.toConfined

/-- What is written at a crash: a part of the source, past the last checkpoint. -/
structure Written (c : Setting) (src : Bytes) (st : Receiving) (h : Host) : Prop where
  part : ∃ w, h.contents (partialPath c.dest) = some w ∧ w <+: src ∧ st.lastCheckpoint ≤ w.length
  apart : Apart c.dest h
  limit : ∀ m, c.recvs.maxTotalLen = some m → src.length ≤ m.toNat

theorem Honest.written (honest : Honest c src hs hr) (hcf : CollisionFree blake3 src)
    (hrun : Session.run blake3 c ms (Session.start hs hr) = some s)
    (hphase : s.receiver.phase = .receiving st) (hnone : st.hash = none)
    (hint : Interrupted s st h) : Written c src st h := by
  obtain ⟨late, said, answers, q, p, htracks⟩ := honest.invariant False.elim hrun
  have hgraft : ∀ o, p.offset = some o → graft (partBytes c.dest hr) src o = src := by
    intro o ho
    exact htracks.graft_eq hcf (follow_offset (List.take_prefix _ _) htracks.behind ho htracks.follows)
  have hpending : ∀ raw content, s.toReceiver.next = some raw →
      parse raw = .ok (Tag.DATA, content) →
      ∃ p', advance blake3 src c.sends.chunkLen p (.data content) = some p' := by
    intro raw content hraw hparse
    obtain ⟨-, msg, p', rfl, -, hadv⟩ := htracks.pending hraw
    have hparse' := (Fits_of_advance honest.fits hadv).parse_encode honest.chunk
    rw [hparse] at hparse'
    cases msg with
    | data b =>
      cases hparse'
      exact ⟨p', hadv⟩
    | offer | resume | start | done | cover | finish | ack =>
      have htag := congrArg Prod.fst (Except.ok.inj hparse')
      simp only [Msg.tag] at htag
      exact absurd htag (by decide)
  have hat := htracks.receiver
  generalize hr' : s.receiver = r at hat hphase
  cases hat with
  | awaitOffer | awaitStart | returned | refused | broken => cases hphase
  | placed _ _ _ _ _ hsome =>
    cases hphase
    rw [hnone] at hsome
    cases hsome
  | @receiving host _ hrec hon hin _ _ hle hlast hend hhasher =>
    cases hphase
    cases hint with
    | head =>
      rw [hr']
      refine ⟨⟨st.hasher, ?_, ?_, ?_⟩, hon.toApart, hrec.limit⟩
      · rw [hon.contents, hin.data]
      · rw [← hgraft _ rfl, hhasher]
        exact grown_initial
      · rw [hin.length]
        exact hlast
    | @writing raw content k hraw hparse =>
      rw [hr']
      simp only
      obtain ⟨p', hadv⟩ := hpending raw content hraw hparse
      obtain ⟨b, hb, hm⟩ : ∃ b, b = slice src st.received b.length ∧ content = b := by
        rcases advance_sending hadv with ⟨b, -, hb, hm, -⟩ | ⟨-, hm, -⟩
        · cases hm
          exact ⟨content, hb, rfl⟩
        · cases hm
      subst hm
      have hconf := confined_write host st.fd (content.take k)
      have hon' := hon.confined hconf
      have hfit := slice_inside hend hb
      have htake : (content.take k).length ≤ content.length := by
        rw [List.length_take]
        exact min_le_right _ _
      have hdata : (host.write st.fd (content.take k)).data st.fd = st.hasher ++ content.take k := by
        have hsrc := honest.fits
        rw [Host.write_data (by rw [hin.pos]; omega) (by rw [hin.pos, hin.data, hin.length]),
          hin.pos, hin.data, ← hin.length, patch_at_end]
      refine ⟨⟨st.hasher ++ content.take k, ?_, ?_, ?_⟩, hon'.toApart, hrec.limit⟩
      · rw [hon'.contents, hdata]
      · have hpre : st.hasher ++ content.take k <+: st.hasher ++ content :=
          (List.prefix_append_right_inj _).mpr (List.take_prefix _ _)
        rw [hhasher, grown_append hle hb, ← hhasher] at hpre
        have hall := hpre.trans grown_initial
        rwa [hgraft _ rfl] at hall
      · rw [List.length_append, hin.length]
        omega

/-- A sender without cover or jitter. -/
def plainly (c : Setting) : Setting := { c with sends := c.sends.withPacing ⟨.none, 0, 0⟩ }

/-- The next session after a crash that damaged nothing announces the length rounded down. -/
theorem Written.announced {w : Bytes} (hw : Written c src st h)
    (hpart : h.contents (partialPath c.dest) = some w) (hpre : w <+: src)
    (hcf : CollisionFree blake3 src) (hsource : hs.contents c.source = some src)
    (hchunk : 40 ≤ c.sends.chunkLen) (hcheap : CrashCheap blake3 c src st.lastCheckpoint h)
    (hlast : st.lastCheckpoint ≤ w.length) :
    w.length / c.recvs.checkpointLen * c.recvs.checkpointLen ≤ st.lastCheckpoint := by
  have hcrash : Crashed c.dest st.lastCheckpoint h (h.setFault none) :=
    ⟨hw.apart.setFault none, w, w, hpart, hpart, hlast, le_refl _, rfl⟩
  have honest : Honest (plainly c) src (hs.setFault none) (h.setFault none) :=
    ⟨hsource, hw.apart.setFault none, hchunk⟩
  have hpermits : Permits (plainly c) src := by
    refine ⟨?_, hw.limit⟩
    intro n e
    show (Except.ok _ : Except Error Nat) ≠ .error e
    exact nofun
  obtain ⟨-, ms, s, -, hrun, a, ha, -, -⟩ := honest.endsWell hcf hpermits rfl rfl
  obtain ⟨late, said, answers, q, p, htracks⟩ := honest.invariant False.elim hrun
  obtain ⟨x, o, k, -, hans, -, -, -, -⟩ := htracks.acknowledged ha
  have hne : answers ≠ [] := by
    rw [hans]
    exact List.cons_ne_nil _ _
  obtain ⟨raw, hraw, hres⟩ := htracks.resume_of_answered honest.fits honest.chunk hne
  have hle := (hcheap _ hcrash (plainly c) _ ms s rfl rfl honest hrun).1 raw hraw _ _ hres
  have hP : partBytes (plainly c).dest (h.setFault none) = w := by
    show (h.contents (partialPath c.dest)).getD [] = w
    rw [hpart]
    rfl
  have hdiv := Nat.div_mul_le_self w.length c.recvs.checkpointLen
  have hlen := hpre.length_le
  rw [hP] at hle
  have hheld : held (plainly c).recvs w src.length =
      w.length / c.recvs.checkpointLen * c.recvs.checkpointLen := min_eq_left (hdiv.trans hlen)
  rwa [hheld] at hle

theorem Written.cheap {w : Bytes} (hpart : h.contents (partialPath c.dest) = some w)
    (hpre : w <+: src)
    (hsame : w.length / c.recvs.checkpointLen = st.lastCheckpoint / c.recvs.checkpointLen) :
    CrashCheap blake3 c src st.lastCheckpoint h := by
  intro h' hcrash c' hs' ms s hrecvs hdest honest hrun
  obtain ⟨w', x, hw', hx, hge, hle, hkeep⟩ := hcrash.part
  rw [hpart] at hw'
  cases hw'
  obtain ⟨late, said, answers, q, p, htracks⟩ := honest.invariant False.elim hrun
  have hP : partBytes c'.dest h' = x := by
    unfold partBytes
    rw [hdest, hx]
    rfl
  have hblock : x.length / c.recvs.checkpointLen = st.lastCheckpoint / c.recvs.checkpointLen := by
    apply le_antisymm
    · rw [← hsame]
      exact Nat.div_le_div_right hle
    · exact Nat.div_le_div_right hge
  have hdiv := Nat.div_mul_le_self st.lastCheckpoint c.recvs.checkpointLen
  have hlen := hpre.length_le
  have hheld : held c'.recvs (partBytes c'.dest h') src.length =
      st.lastCheckpoint / c.recvs.checkpointLen * c.recvs.checkpointLen := by
    unfold held
    rw [hP, hrecvs, hblock]
    exact min_eq_left (by omega)
  constructor
  · intro raw hraw n hash hres
    rw [htracks.resume_sent honest.fits honest.chunk hraw hres, hheld]
    exact hdiv
  · intro raw hraw o ho
    have horigin := htracks.origin (htracks.start_sent honest.fits honest.chunk hraw ho)
    have htake : (partBytes c'.dest h').take
        (st.lastCheckpoint / c.recvs.checkpointLen * c.recvs.checkpointLen) =
        src.take (st.lastCheckpoint / c.recvs.checkpointLen * c.recvs.checkpointLen) := by
      obtain ⟨rest, rfl⟩ := hpre
      rw [hP, List.take_append_of_le_length (by omega)]
      have hcut := congrArg
        (List.take (st.lastCheckpoint / c.recvs.checkpointLen * c.recvs.checkpointLen)) hkeep
      rwa [List.take_take, List.take_take, min_eq_left hdiv] at hcut
    rw [startAt_of_take hheld htake] at horigin
    have hmod := Nat.mod_lt st.lastCheckpoint c.recvs.checkpoint_pos
    have hsum := Nat.div_add_mod' st.lastCheckpoint c.recvs.checkpointLen
    omega

/-- **A crash is cheap** exactly when what is written and what is durable end in one block of
`checkpointLen` bytes. -/
theorem crash_cheap_iff {w : Bytes} (honest : Honest c src hs hr)
    (hcf : CollisionFree blake3 src)
    (hrun : Session.run blake3 c ms (Session.start hs hr) = some s)
    (hphase : s.receiver.phase = .receiving st) (hnone : st.hash = none)
    (hint : Interrupted s st h) (hpart : h.contents (partialPath c.dest) = some w) :
    CrashCheap blake3 c src st.lastCheckpoint h ↔
      w.length / c.recvs.checkpointLen = st.lastCheckpoint / c.recvs.checkpointLen := by
  have hw := honest.written hcf hrun hphase hnone hint
  obtain ⟨w', hw', hpre, hlast⟩ := hw.part
  rw [hpart] at hw'
  cases hw'
  constructor
  · intro hcheap
    have hround := hw.announced hpart hpre hcf honest.source honest.chunk hcheap hlast
    apply le_antisymm
    · have := Nat.div_le_div_right (c := c.recvs.checkpointLen) hround
      rwa [Nat.mul_div_cancel _ c.recvs.checkpoint_pos] at this
    · exact Nat.div_le_div_right hlast
  · exact Written.cheap hpart hpre

end Crash

/-! ## A tail that was not synced -/

def sampleBytes (n : Nat) : Bytes := (List.range n).map fun i => UInt8.ofNat (i + 1)

/-- The partial of an interrupted transfer. -/
def partDisk (b : Bytes) (h : b.length ≤ maxLen) : Host :=
  { Host.blank with
    names := fun path => if path = "vault.part" then some 0 else none
    files := fun _ => ⟨b, h⟩
    nextIno := 1 }

theorem apart_partDisk (b : Bytes) (h : b.length ≤ maxLen) : Apart "vault" (partDisk b h) where
  old path i hi := by
    simp only [partDisk] at hi ⊢
    split at hi
    · cases hi
      decide
    · cases hi
  apart i hi := by
    show none ≠ some i
    exact (Option.some_ne_none i).symm

def crashSetting : Setting :=
  { sampleSetting with recvs := (new.withChunkLen 40).withCheckpointLen 4 }

/-- Up to a receiver in its loop, with eight bytes resumed and the other twelve in flight. -/
def crashMoves : List Move := moves [.sender, .receiver, .sender, .sender, .sender, .receiver]

def crashRun : Option Session :=
  Session.run sampleHash crashSetting crashMoves
    (Session.start (sampleSource (sampleBytes 20) (by decide)) (partDisk (sampleBytes 8) (by decide)))

/-- Has the loop eight synced bytes, and does the waiting frame bring the partial to 20? -/
def inLoop : Option Session → Bool
  | some ⟨_, ⟨h, .receiving st⟩, ch, _, _⟩ =>
    st.hash.isNone && st.lastCheckpoint == 8 &&
      h.contents "vault.part" == some (sampleBytes 8) &&
      (match ch.next with
      | some raw => (parse raw).toOption == some (Tag.DATA, (sampleBytes 20).drop 8)
      | none => false) &&
      (h.write st.fd (((sampleBytes 20).drop 8).take 12)).contents "vault.part" ==
        some (sampleBytes 20)
  | _ => false

theorem of_inLoop {o : Option Session} (h : inLoop o = true) :
    ∃ s st, o = some s ∧ s.receiver.phase = .receiving st ∧ st.hash = none ∧
      st.lastCheckpoint = 8 ∧ s.receiver.host.contents "vault.part" = some (sampleBytes 8) ∧
      ∃ h', Interrupted s st h' ∧ h'.contents "vault.part" = some (sampleBytes 20) := by
  unfold inLoop at h
  split at h
  · rename_i sender host st ch toSender log
    simp only [Bool.and_eq_true, beq_iff_eq, Option.isNone_iff_eq_none] at h
    obtain ⟨⟨⟨⟨hnone, hlast⟩, hpart⟩, hnext⟩, hwrite⟩ := h
    refine ⟨_, st, rfl, rfl, hnone, hlast, hpart, _, ?_, hwrite⟩
    split at hnext
    · rename_i raw hraw
      have hparse : parse raw = .ok (Tag.DATA, (sampleBytes 20).drop 8) := by
        cases hp : parse raw with
        | error e =>
          rw [hp] at hnext
          cases hnext
        | ok x =>
          rw [hp] at hnext
          simp only [Except.toOption, beq_iff_eq, Option.some.injEq] at hnext
          rw [hnext]
      exact Interrupted.writing hraw hparse
    · cases hnext
  · cases h

theorem inLoop_crashRun : inLoop crashRun = true := by decide +kernel

theorem honest_crash : Honest crashSetting (sampleBytes 20)
    (sampleSource (sampleBytes 20) (by decide)) (partDisk (sampleBytes 8) (by decide)) :=
  ⟨rfl, apart_partDisk _ _, by decide⟩

/-- Between two frames, with everything in the partial synced, a crash is cheap. -/
theorem crash_cheap_at_checkpoint : ∃ s st, crashRun = some s ∧
    s.receiver.phase = .receiving st ∧
    CrashCheap sampleHash crashSetting (sampleBytes 20) st.lastCheckpoint s.receiver.host := by
  obtain ⟨s, st, hrun, hphase, hnone, hlast, hpart, -⟩ := of_inLoop inLoop_crashRun
  have hcf : CollisionFree sampleHash (sampleBytes 20) := collisionFree_sample (by decide)
  refine ⟨s, st, hrun, hphase, ?_⟩
  refine (crash_cheap_iff honest_crash hcf hrun hphase hnone .head hpart).mpr ?_
  rw [hlast]
  decide

/-- Eight durable bytes and a tail that the crash filled with zeros. -/
def damaged : Bytes := sampleBytes 8 ++ List.replicate 12 0

def startsAtZero : Option Session → Bool
  | some s => s.toReceiver.sent.any fun raw => startOf raw == some 0
  | none => false

/-- With eight bytes synced and checkpoints of four, an unsynced tail sends the next session
back to 0. -/
theorem damaged_tail_restarts : ∃ s st h, crashRun = some s ∧
    s.receiver.phase = .receiving st ∧ st.hash = none ∧ st.lastCheckpoint = 8 ∧
    Interrupted s st h ∧
    ¬CrashCheap sampleHash crashSetting (sampleBytes 20) st.lastCheckpoint h := by
  obtain ⟨s, st, hrun, hphase, hnone, hlast, -, h, hint, hpart⟩ := of_inLoop inLoop_crashRun
  refine ⟨s, st, h, hrun, hphase, hnone, hlast, hint, ?_⟩
  intro hcheap
  have hcrash : Crashed "vault" st.lastCheckpoint h (partDisk damaged (by decide)) := by
    refine ⟨apart_partDisk _ _, sampleBytes 20, damaged, hpart, rfl, ?_⟩
    rw [hlast]
    decide
  have hrestart : startsAtZero (Session.run sampleHash crashSetting
      (moves [.sender, .receiver, .sender])
      (Session.start (sampleSource (sampleBytes 20) (by decide))
        (partDisk damaged (by decide)))) = true := by
    decide +kernel
  unfold startsAtZero at hrestart
  split at hrestart
  · rename_i s' hrun'
    obtain ⟨raw, hraw, hzero⟩ := List.any_eq_true.mp hrestart
    have honest : Honest crashSetting (sampleBytes 20)
        (sampleSource (sampleBytes 20) (by decide)) (partDisk damaged (by decide)) :=
      ⟨rfl, apart_partDisk _ _, by decide⟩
    have hle := (hcheap _ hcrash crashSetting _ _ s' rfl rfl honest hrun').2 raw hraw 0
      (by simpa using hzero)
    rw [hlast] at hle
    exact absurd hle (by decide)
  · cases hrestart

end AtomVault.Transfer
