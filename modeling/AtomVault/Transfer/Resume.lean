import AtomVault.Transfer.Agreement

/-!
# Resuming

Sessions into one `dest`, one after the other: where each one starts, that a session
nobody disturbs ends well, and what the next one makes of a partial that was left behind.
-/

open Lib

namespace AtomVault.Transfer

/-- The offset in a `START` frame. -/
def startOf (raw : Bytes) : Option Nat := (expect raw Tag.START >>= decodeStart).toOption

/-- What a `RESUME` frame announces. -/
def resumeOf (raw : Bytes) : Option (Nat × Hash) :=
  (expect raw Tag.RESUME >>= decodeResume).toOption

section Frames

variable {t : Transfer} {m : Msg}

theorem startOf_encode {o : Nat} (hfits : m.Fits t.chunkLen) (hchunk : 40 ≤ t.chunkLen)
    (h : startOf (m.encode t.frameLen) = some o) : m = .start o := by
  unfold startOf at h
  cases hexp : expect (m.encode t.frameLen) Tag.START with
  | error e =>
    rw [hexp] at h
    cases h
  | ok content =>
    rw [hexp] at h
    obtain ⟨htag, rfl⟩ := hfits.of_expect hchunk hexp
    obtain ⟨o', rfl⟩ := Msg.tag_eq_start htag
    have hdec : decodeStart (Msg.start o').content = .ok o' :=
      decodeStart_encode (Nat.lt_of_le_of_lt hfits (by decide))
    simp only [bind, Except.bind, hdec, Except.toOption, Option.some.injEq] at h
    rw [h]

theorem resumeOf_encode {n : Nat} {hash : Hash} (hfits : m.Fits t.chunkLen)
    (hchunk : 40 ≤ t.chunkLen) :
    resumeOf (m.encode t.frameLen) = some (n, hash) ↔ m = .resume n hash := by
  constructor
  · intro h
    unfold resumeOf at h
    cases hexp : expect (m.encode t.frameLen) Tag.RESUME with
    | error e =>
      rw [hexp] at h
      cases h
    | ok content =>
      rw [hexp] at h
      obtain ⟨htag, rfl⟩ := hfits.of_expect hchunk hexp
      obtain ⟨n', hash', rfl⟩ := Msg.tag_eq_resume htag
      have hdec : decodeResume (Msg.resume n' hash').content = .ok (n', hash') :=
        decodeResume_encode hash' (Nat.lt_of_le_of_lt hfits (by decide))
      simp only [bind, Except.bind, hdec, Except.toOption, Option.some.injEq, Prod.mk.injEq] at h
      rw [h.1, h.2]
  · rintro rfl
    have hexp : expect ((Msg.resume n hash).encode t.frameLen) Tag.RESUME =
      .ok (Msg.resume n hash).content := hfits.expect_encode hchunk
    have hdec : decodeResume (Msg.resume n hash).content = .ok (n, hash) :=
      decodeResume_encode hash (Nat.lt_of_le_of_lt hfits (by decide))
    unfold resumeOf
    rw [hexp]
    simp only [bind, Except.bind, hdec, Except.toOption]

end Frames

/-! ## Where a session starts -/

section Start

variable {blake3 : Bytes → Hash} {c : Setting} {P src : Bytes} {quiet : Prop} {late : Bool}
  {said answers : List Msg} {q p : Stage} {s : Session}

theorem Tracks.start_sent (h : Tracks blake3 c P src quiet late said answers q p s)
    (hsrc : src.length ≤ maxLen) (hchunk : 40 ≤ c.sends.chunkLen) {raw : Bytes} {o : Nat}
    (hraw : raw ∈ s.toReceiver.sent) (ho : startOf raw = some o) : q.offset = some o := by
  rw [h.sent] at hraw
  obtain ⟨m, hm, rfl⟩ := List.mem_map.mp hraw
  cases startOf_encode (Fits_of_follow hsrc h.follows m hm) hchunk ho
  obtain ⟨l, l', rfl⟩ := List.append_of_mem hm
  have hpre : l ++ [.start o] <+: l ++ .start o :: l' := ⟨l', by simp⟩
  obtain ⟨q₁, hq₁⟩ := follow_initial hpre h.follows
  obtain ⟨q₀, -, hadv⟩ := follow_snoc hq₁
  have ho₁ : q₁.offset = some o := by
    rcases advance_cases hadv with ⟨-, hm, -⟩ | ⟨o', -, -, hm, rfl⟩ | ⟨_, _, _, _, _, -, hm, -⟩ |
      ⟨_, -, hm, -⟩ | ⟨_, _, -, hm, -⟩ | ⟨_, _, -, hm, -⟩
    · cases hm
    · cases hm
      rfl
    all_goals cases hm
  exact follow_offset hpre hq₁ ho₁ h.follows

theorem Tracks.resume_sent (h : Tracks blake3 c P src quiet late said answers q p s)
    (hsrc : src.length ≤ maxLen) (hchunk : 40 ≤ c.sends.chunkLen) {raw : Bytes} {n : Nat}
    {hash : Hash} (hraw : raw ∈ s.toSender.sent) (hn : resumeOf raw = some (n, hash)) :
    n = held c.recvs P src.length := by
  rw [h.replied] at hraw
  obtain ⟨m, hm, rfl⟩ := List.mem_map.mp hraw
  cases (resumeOf_encode (h.receiver.fits hsrc _ m hm) hchunk).mp hn
  rcases h.receiver.answers_cases with hans | hans | ⟨hans, -⟩
  · rw [hans] at hm
    cases hm
  · rw [hans] at hm
    cases List.mem_singleton.mp hm
    rfl
  · rw [hans] at hm
    rcases List.mem_cons.mp hm with heq | hm
    · cases heq
      rfl
    · cases List.mem_singleton.mp hm

theorem Tracks.resume_of_answered (h : Tracks blake3 c P src quiet late said answers q p s)
    (hsrc : src.length ≤ maxLen) (hchunk : 40 ≤ c.sends.chunkLen) (hne : answers ≠ []) :
    ∃ raw ∈ s.toSender.sent, resumeOf raw =
      some (held c.recvs P src.length, blake3 (P.take (held c.recvs P src.length))) := by
  have hmem : resumeMsg blake3 c.recvs P src ∈ answers := by
    rcases h.receiver.answers_cases with hans | hans | ⟨hans, -⟩
    · exact absurd hans hne
    · rw [hans]
      exact List.mem_singleton_self _
    · rw [hans]
      exact List.mem_cons_self
  refine ⟨(resumeMsg blake3 c.recvs P src).encode c.sends.frameLen, ?_, ?_⟩
  · rw [h.replied]
    exact List.mem_map_of_mem hmem
  · exact (resumeOf_encode (h.receiver.fits hsrc _ _ hmem) hchunk).mpr rfl

theorem Tracks.kept (h : Tracks blake3 c P src quiet late said answers q p s)
    (hcf : CollisionFree blake3 src) {o : Nat} (ho : q.offset = some o) :
    o = 0 ∨ o = held c.recvs P src.length ∧ P.take o = src.take o := by
  have horigin := h.origin ho
  unfold startAt at horigin
  split at horigin
  · rename_i hmatch
    refine Or.inr ⟨horigin, ?_⟩
    rw [horigin]
    exact hcf _ _ hmatch.2.2.symm
  · exact Or.inl horigin

theorem Tracks.graft_eq (h : Tracks blake3 c P src quiet late said answers q p s)
    (hcf : CollisionFree blake3 src) {o : Nat} (ho : q.offset = some o) : graft P src o = src := by
  unfold graft
  rcases h.kept hcf ho with rfl | ⟨-, htake⟩
  · simp
  · rw [htake, List.take_append_drop]

/-- What is left in the partial after a `START` was processed is a part of the source. -/
theorem Tracks.part_in_source (h : Tracks blake3 c P src quiet true said answers q p s)
    (hcf : CollisionFree blake3 src) {x : Bytes}
    (hx : s.receiver.host.contents (partialPath c.dest) = some x) : x <+: src := by
  have hprefix : ∃ o, p.offset = some o ∧ x <+: graft P src o := by
    have hr := h.receiver
    generalize s.receiver = r at hr hx
    cases hr with
    | receiving _ hon hin _ _ _ _ _ hhasher =>
      rw [hon.contents, hin.data, hhasher] at hx
      cases hx
      exact ⟨_, rfl, grown_initial⟩
    | placed _ _ hgone =>
      rw [hgone] at hx
      cases hx
    | returned _ hgone =>
      rw [hgone] at hx
      cases hx
    | broken _ ho hpart => exact ⟨_, ho, hpart x hx⟩
  obtain ⟨o, ho, hx⟩ := hprefix
  rwa [h.graft_eq hcf (follow_offset (List.take_prefix _ _) h.behind ho h.follows)] at hx

end Start

/-! ## A session that nobody disturbs -/

section Clean

variable {blake3 : Bytes → Hash} {c : Setting} {P src : Bytes} {hs hr : Host} {s s' : Session}
  {m : Move} {ms : List Move}

/-- What the two configurations and the jitter must allow. -/
structure Permits (c : Setting) (src : Bytes) : Prop where
  plan : ∀ n e, c.sends.pacing.plan n c.draws ≠ .error e
  limit : ∀ max, c.recvs.maxTotalLen = some max → src.length ≤ max.toNat

/-- A session in which nothing went wrong so far. -/
def Undisturbed (blake3 : Bytes → Hash) (c : Setting) (P src : Bytes) (s : Session) : Prop :=
  Unharmed s ∧ ∃ late said answers q p, Tracks blake3 c P src False late said answers q p s

theorem Undisturbed.next (h : Undisturbed blake3 c P src s) (hcf : CollisionFree blake3 src)
    (hsrc : src.length ≤ maxLen) (hchunk : 40 ≤ c.sends.chunkLen) (hpermits : Permits c src)
    (hclean : m.Clean) (hnext : Session.next blake3 c m s = some s') :
    Undisturbed blake3 c P src s' ∧ s'.left < s.left := by
  obtain ⟨hun, late, said, answers, q, p, h⟩ := h
  have hfair : Fair c P src q := ⟨hpermits.plan, hpermits.limit, fun o ho => h.graft_eq hcf ho⟩
  cases hside : m.side with
  | sender =>
    obtain ⟨⟨said', q', h'⟩, hleft, hun'⟩ := h.next_sender hsrc hchunk False.elim hside hnext
    exact ⟨⟨hun' hclean hfair hun, late, said', answers, q', p, h'⟩, hleft⟩
  | receiver =>
    obtain ⟨⟨late', answers', p', -, h'⟩, hun'⟩ := h.next_receiver hsrc hchunk hside hnext
    obtain ⟨hleft, hun'⟩ := hun' hclean
    exact ⟨⟨hun' hfair hun, late', said, answers', q, p', h'⟩, hleft⟩

theorem Undisturbed.run (h : Undisturbed blake3 c P src s) (hcf : CollisionFree blake3 src)
    (hsrc : src.length ≤ maxLen) (hchunk : 40 ≤ c.sends.chunkLen) (hpermits : Permits c src)
    (hclean : ∀ m ∈ ms, m.Clean) (hrun : Session.run blake3 c ms s = some s') :
    Undisturbed blake3 c P src s' ∧ ms.length + s'.left ≤ s.left := by
  induction ms generalizing s with
  | nil =>
    cases hrun
    exact ⟨h, by simp⟩
  | cons m ms ih =>
    obtain ⟨s₁, hnext, hrest⟩ := Option.bind_eq_some_iff.mp hrun
    obtain ⟨h₁, hleft⟩ := h.next hcf hsrc hchunk hpermits (hclean m List.mem_cons_self) hnext
    obtain ⟨h', hle⟩ := ih h₁ (fun m' hm' => hclean m' (List.mem_cons_of_mem _ hm')) hrest
    refine ⟨h', ?_⟩
    rw [List.length_cons]
    omega

def cleanMove (side : Side) : Move := ⟨side, false, none, none⟩

theorem clean_cleanMove (side : Side) : (cleanMove side).Clean := ⟨rfl, rfl, rfl⟩

/-- Neither end can make a clean move. -/
def Stuck (blake3 : Bytes → Hash) (c : Setting) (s : Session) : Prop :=
  ∀ m : Move, m.Clean → Session.next blake3 c m s = none

theorem Stuck.sender (h : Stuck blake3 c s) :
    s.sender.phase.isReturned = true ∨
      Sender.listens s.sender.phase = true ∧ s.toSender.next = none := by
  have hnext := h (cleanMove .sender) (clean_cleanMove _)
  unfold Session.next Session.delivery at hnext
  cases hret : s.sender.phase.isReturned with
  | true => exact Or.inl rfl
  | false =>
    refine Or.inr ?_
    cases hl : Sender.listens s.sender.phase with
    | false => simp [cleanMove, hret, hl] at hnext
    | true =>
      cases hn : s.toSender.next with
      | none => exact ⟨rfl, rfl⟩
      | some raw => simp [cleanMove, hret, hl, hn] at hnext

theorem Stuck.receiver (h : Stuck blake3 c s) :
    s.receiver.phase.isReturned = true ∨ s.toReceiver.next = none := by
  have hnext := h (cleanMove .receiver) (clean_cleanMove _)
  unfold Session.next Session.delivery at hnext
  cases hret : s.receiver.phase.isReturned with
  | true => exact Or.inl rfl
  | false =>
    refine Or.inr ?_
    have hl : Receiver.listens s.receiver.phase false = true := by
      cases hphase : s.receiver.phase with
      | returned x =>
        rw [hphase] at hret
        cases hret
      | awaitOffer | awaitStart | receiving => rfl
    cases hn : s.toReceiver.next with
    | none => rfl
    | some raw => simp [cleanMove, hret, hl, hn] at hnext

/-- Both ends have returned `Ok`, and the file is in place. -/
def Complete (c : Setting) (src : Bytes) (s : Session) : Prop :=
  ∃ a, s.sender.phase = .returned (.ok a) ∧ s.receiver.phase = .returned (.ok a) ∧
    s.receiver.host.contents c.dest = some src

theorem Channel.next_isSome {α : Type} {ch : Channel α} (h : ch.taken < ch.sent.length) :
    ch.next ≠ none := by
  unfold Channel.next
  rw [List.getElem?_eq_getElem h]
  exact Option.some_ne_none _

/-- The receiver's last word is out, so the sender has heard it or can still hear it. -/
theorem Undisturbed.complete_of_finished {late : Bool} {said answers : List Msg} {q p : Stage}
    (hun : Unharmed s) (h : Tracks blake3 c P src False late said answers q p s)
    (hcf : CollisionFree blake3 src) {o k : Nat} (hq : q = .finished o k)
    (hp : p = .finished o k) (hstuck : Stuck blake3 c s) : Complete c src s := by
  have hans : answers = [resumeMsg blake3 c.recvs P src, .ack] := by
    have hr := h.receiver
    have hrecv := hun.recv
    generalize s.receiver = r at hr hrecv
    subst hp
    cases hr with
    | returned => rfl
    | refused => exact absurd rfl (hrecv _)
    | broken => exact absurd rfl (hrecv _)
  have hdone : ∃ a, s.sender.phase = .returned (.ok a) := by
    have hsend := h.sender
    have hnot := hun.send
    have hst := hstuck.sender
    generalize hheard : answers.take s.toSender.taken = heard at hsend
    generalize said.length = n at hsend
    generalize s.sender = sender at hsend hnot hst
    subst hq
    cases hsend with
    | awaitAck =>
      exfalso
      rcases hst with hret | ⟨-, hnone⟩
      · cases hret
      · have hlen := congrArg List.length hheard
        rw [hans, List.length_take] at hlen
        simp only [List.length_cons, List.length_nil] at hlen
        refine Channel.next_isSome ?_ hnone
        rw [h.replied, List.length_map, hans]
        simp only [List.length_cons, List.length_nil]
        omega
    | returned => exact ⟨_, rfl⟩
    | failed => exact absurd rfl (hnot _)
  obtain ⟨a, ha⟩ := hdone
  obtain ⟨x, o', k', -, -, -, hphase, hfile, hx⟩ := h.acknowledged ha
  have hx' : x = src.take src.length := hcf _ _ (by rw [hx, List.take_length])
  rw [List.take_length] at hx'
  rw [hx'] at hfile
  exact ⟨a, ha, hphase, hfile⟩

theorem Undisturbed.complete (h : Undisturbed blake3 c P src s) (hcf : CollisionFree blake3 src)
    (hstuck : Stuck blake3 c s) : Complete c src s := by
  obtain ⟨hun, late, said, answers, q, p, h⟩ := h
  rcases hstuck.receiver with hret | hnone
  · -- The receiver has returned, and an unharmed one has returned `Ok`.
    have hp : ∃ o k, p = .finished o k := by
      have hr := h.receiver
      have hrecv := hun.recv
      generalize s.receiver = r at hr hrecv hret
      cases hr with
      | returned => exact ⟨_, _, rfl⟩
      | refused => exact absurd rfl (hrecv _)
      | broken => exact absurd rfl (hrecv _)
      | awaitOffer | awaitStart | receiving | placed => cases hret
    obtain ⟨o, k, hp⟩ := hp
    exact Undisturbed.complete_of_finished hun h hcf (h.finished hp) hp hstuck
  · -- The receiver has heard everything, so both ends are at one stage.
    have hall : said.take s.toReceiver.taken = said := by
      unfold Channel.next at hnone
      rw [h.sent, List.getElem?_map, Option.map_eq_none_iff] at hnone
      exact List.take_of_length_le (List.getElem?_eq_none_iff.mp hnone)
    have hsame : p = q := by
      have hbehind := h.behind
      rw [hall, h.follows] at hbehind
      exact (Option.some.inj hbehind).symm
    have hq : ∃ o k, q = .finished o k := by
      have hsend := h.sender
      have hnot := hun.send
      have hst := hstuck.sender
      have hr := h.receiver
      have hrecv := hun.recv
      rw [hsame] at hr
      generalize hheard : answers.take s.toSender.taken = heard at hsend
      generalize said.length = n at hsend
      generalize s.sender = sender at hsend hnot hst
      generalize s.receiver = r at hr hrecv
      cases hsend with
      | start | planning | sending | ramp =>
        rcases hst with hret | ⟨hl, -⟩
        · cases hret
        · cases hl
      | awaitResume =>
        exfalso
        rcases hst with hret | ⟨-, hnone⟩
        · cases hret
        cases hr with
        | awaitStart =>
          have hlen := congrArg List.length hheard
          rw [List.length_take] at hlen
          simp only [List.length_cons, List.length_nil] at hlen
          refine Channel.next_isSome ?_ hnone
          rw [h.replied, List.length_map]
          simp only [List.length_cons, List.length_nil]
          omega
        | refused => exact absurd rfl (hrecv _)
        | broken => exact absurd rfl (hrecv _)
      | awaitAck => exact ⟨_, _, rfl⟩
      | returned => exact ⟨_, _, rfl⟩
      | failed => exact absurd rfl (hnot _)
    obtain ⟨o, k, hq⟩ := hq
    exact Undisturbed.complete_of_finished hun h hcf hq (hsame.trans hq) hstuck

theorem Undisturbed.finish (h : Undisturbed blake3 c P src s) (hcf : CollisionFree blake3 src)
    (hsrc : src.length ≤ maxLen) (hchunk : 40 ≤ c.sends.chunkLen) (hpermits : Permits c src) :
    ∃ ms s', (∀ m ∈ ms, m.Clean) ∧ Session.run blake3 c ms s = some s' ∧ Complete c src s' := by
  induction hn : s.left using Nat.strong_induction_on generalizing s with
  | h n ih =>
    by_cases hstuck : Stuck blake3 c s
    · exact ⟨[], s, nofun, rfl, h.complete hcf hstuck⟩
    · unfold Stuck at hstuck
      push Not at hstuck
      obtain ⟨m, hclean, hne⟩ := hstuck
      obtain ⟨s₁, hnext⟩ := Option.ne_none_iff_exists'.mp hne
      obtain ⟨h₁, hleft⟩ := h.next hcf hsrc hchunk hpermits hclean hnext
      obtain ⟨ms, s', hms, hrun, hdone⟩ := ih s₁.left (by omega) h₁ rfl
      refine ⟨m :: ms, s', ?_, ?_, hdone⟩
      · intro m' hm'
        rcases List.mem_cons.mp hm' with rfl | hm'
        · exact hclean
        · exact hms m' hm'
      · show Session.next blake3 c m s >>= _ = _
        rw [hnext]
        exact hrun

theorem Honest.undisturbed (h : Honest c src hs hr) (hs₀ : hs.fault = none)
    (hr₀ : hr.fault = none) :
    Undisturbed blake3 c (partBytes c.dest hr) src (Session.start hs hr) :=
  ⟨⟨hs₀, hr₀, nofun, nofun⟩, false, [], [], .idle, .idle, Tracks.start h.source h.apart rfl⟩

end Clean

/-! ## Session after session -/

section Sessions

variable {blake3 : Bytes → Hash} {t : Transfer} {dest : String} {c : Setting} {src : Bytes}
  {hs hr h₀ h : Host} {s : Session}

/-- The receiver's hosts after any number of sessions, each with its own sender and cut
anywhere. -/
inductive Visited (blake3 : Bytes → Hash) (t : Transfer) (dest : String) (h₀ : Host) : Host → Prop
  | first : Visited blake3 t dest h₀ h₀
  | session {h hs : Host} {c : Setting} {src : Bytes} {g : Option Fault} {ms : List Move}
      {s : Session} : Visited blake3 t dest h₀ h → c.recvs = t → c.dest = dest →
      hs.contents c.source = some src → 40 ≤ c.sends.chunkLen →
      Session.run blake3 c ms (Session.start hs (h.setFault g)) = some s →
      Visited blake3 t dest h₀ s.receiver.host

theorem Apart.setFault (hap : Apart dest h) (g : Option Fault) : Apart dest (h.setFault g) :=
  ⟨hap.old, hap.apart⟩

theorem Visited.apart (hv : Visited blake3 t dest h₀ h) (hap : Apart dest h₀) : Apart dest h := by
  induction hv with
  | first => exact hap
  | @session h hs c src g ms s _ _ hdest hsource hchunk hrun ih =>
    subst hdest
    have honest : Honest c src hs (h.setFault g) := ⟨hsource, ih.setFault g, hchunk⟩
    obtain ⟨late, said, answers, q, p, htracks⟩ := honest.invariant False.elim hrun
    exact htracks.receiver.toApart

/-- `START` is 0, or what the receiver announced and shares with the source. -/
def StartsRight (P src : Bytes) (s : Session) : Prop :=
  ∀ raw ∈ s.toReceiver.sent, ∀ o, startOf raw = some o →
    o = 0 ∨ (∃ raw' ∈ s.toSender.sent, ∃ hash, resumeOf raw' = some (o, hash)) ∧
      P.take o = src.take o

/-- Clean runs are bounded, none of them stops before both ends have returned `Ok` with the
source in place, and there is one. -/
def EndsWell (blake3 : Bytes → Hash) (c : Setting) (src : Bytes) (hs hr : Host) : Prop :=
  (∀ ms s, (∀ m ∈ ms, m.Clean) → Session.run blake3 c ms (Session.start hs hr) = some s →
    ms.length ≤ 2 * (2 ^ 64 + 5) ∧ (Stuck blake3 c s → Complete c src s)) ∧
  ∃ ms s, (∀ m ∈ ms, m.Clean) ∧ Session.run blake3 c ms (Session.start hs hr) = some s ∧
    Complete c src s

/-- After a session that got past its `START`, the next one with the same source starts at
the last multiple of `checkpointLen` in what was left. -/
def PicksUp (blake3 : Bytes → Hash) (c : Setting) (src : Bytes) (hs hr : Host) : Prop :=
  ∀ ms₁ ms₂ mid s st x, Session.run blake3 c ms₁ (Session.start hs hr) = some mid →
    mid.receiver.phase = .receiving st → Session.run blake3 c ms₂ mid = some s →
    s.receiver.host.contents (partialPath c.dest) = some x →
    ∀ c' hs' g ms' s', c'.recvs = c.recvs → c'.dest = c.dest →
      Honest c' src hs' (s.receiver.host.setFault g) →
      Session.run blake3 c' ms' (Session.start hs' (s.receiver.host.setFault g)) = some s' →
      ∀ raw ∈ s'.toReceiver.sent, ∀ o, startOf raw = some o →
        o = x.length / c.recvs.checkpointLen * c.recvs.checkpointLen ∧
          x.length < o + c.recvs.checkpointLen

theorem Honest.startsRight (honest : Honest c src hs hr) (hcf : CollisionFree blake3 src)
    {ms : List Move} (hrun : Session.run blake3 c ms (Session.start hs hr) = some s) :
    StartsRight (partBytes c.dest hr) src s := by
  obtain ⟨late, said, answers, q, p, htracks⟩ := honest.invariant False.elim hrun
  intro raw hraw o ho
  have hoff := htracks.start_sent honest.fits honest.chunk hraw ho
  rcases htracks.kept hcf hoff with hzero | ⟨hheld, htake⟩
  · exact Or.inl hzero
  · refine Or.inr ⟨?_, htake⟩
    have hne : answers ≠ [] := by
      obtain ⟨n, hash, rest, heq, -⟩ := htracks.sender.origin o hoff
      rintro rfl
      rw [List.take_nil] at heq
      cases heq
    obtain ⟨raw', hraw', hres⟩ := htracks.resume_of_answered honest.fits honest.chunk hne
    exact ⟨raw', hraw', _, by rw [hheld]; exact hres⟩

theorem left_start (hs hr : Host) : (Session.start hs hr).left = 2 * (2 ^ 64 + 5) := by
  have hsend : Sender.left .start = 2 ^ 64 + 5 := by rw [Sender.left]
  show 2 * Sender.left .start + (0 - 0) = _
  rw [hsend, Nat.sub_self, Nat.add_zero]

theorem Honest.endsWell (honest : Honest c src hs hr) (hcf : CollisionFree blake3 src)
    (hpermits : Permits c src) (hs₀ : hs.fault = none) (hr₀ : hr.fault = none) :
    EndsWell blake3 c src hs hr := by
  have hstart : Undisturbed blake3 c (partBytes c.dest hr) src (Session.start hs hr) :=
    honest.undisturbed hs₀ hr₀
  constructor
  · intro ms s hclean hrun
    obtain ⟨h, hle⟩ := hstart.run hcf honest.fits honest.chunk hpermits hclean hrun
    refine ⟨?_, h.complete hcf⟩
    rw [left_start] at hle
    omega
  · exact hstart.finish hcf honest.fits honest.chunk hpermits

theorem Session.run_append {c : Setting} {ms ms' : List Move} {s s₁ : Session}
    (h : Session.run blake3 c ms s = some s₁) :
    Session.run blake3 c (ms ++ ms') s = Session.run blake3 c ms' s₁ := by
  induction ms generalizing s with
  | nil =>
    cases h
    rfl
  | cons m ms ih =>
    obtain ⟨s₀, hnext, hrest⟩ := Option.bind_eq_some_iff.mp h
    show Session.next blake3 c m s >>= _ = _
    rw [hnext]
    exact ih hrest

theorem Honest.left_in_source (honest : Honest c src hs hr) (hcf : CollisionFree blake3 src)
    {ms₁ ms₂ : List Move} {mid s : Session} {st : Receiving} {x : Bytes}
    (hrun₁ : Session.run blake3 c ms₁ (Session.start hs hr) = some mid)
    (hphase : mid.receiver.phase = .receiving st) (hrun₂ : Session.run blake3 c ms₂ mid = some s)
    (hx : s.receiver.host.contents (partialPath c.dest) = some x) : x <+: src := by
  obtain ⟨late, said, answers, q, p, htracks⟩ := honest.invariant False.elim hrun₁
  have hlate : late = true := by
    have hr := htracks.receiver
    generalize mid.receiver = r at hr hphase
    cases hr with
    | receiving | placed => rfl
    | awaitOffer | awaitStart | returned | refused | broken => cases hphase
  have hinv : Invariant blake3 c (partBytes c.dest hr) src False late mid :=
    ⟨said, answers, q, p, htracks⟩
  obtain ⟨late', hlate', said', answers', q', p', htracks'⟩ :=
    hinv.run honest.fits honest.chunk False.elim hrun₂
  rw [hlate' hlate] at htracks'
  exact htracks'.part_in_source hcf hx

/-- A partial that agrees with the source up to where it is cut is kept up to there. -/
theorem startAt_of_take {P : Bytes} {n : Nat} (hn : held t P src.length = n)
    (hpre : P.take n = src.take n) :
    startAt blake3 src (held t P src.length) (blake3 (P.take (held t P src.length))) = n := by
  have hle : n ≤ src.length := hn ▸ min_le_right _ _
  rw [hn, hpre]
  unfold startAt
  rcases Nat.eq_zero_or_pos n with rfl | hpos
  · rw [if_neg (by omega)]
  · rw [if_pos ⟨hpos, hle, rfl⟩]

theorem Honest.picksUp (honest : Honest c src hs hr) (hcf : CollisionFree blake3 src) :
    PicksUp blake3 c src hs hr := by
  intro ms₁ ms₂ mid s st x hrun₁ hphase hrun₂ hx c' hs' g ms' s' hrecvs hdest honest' hrun' raw hraw
    o ho
  have hpre := honest.left_in_source hcf hrun₁ hphase hrun₂ hx
  obtain ⟨late, said, answers, q, p, htracks⟩ := honest'.invariant False.elim hrun'
  have hoff := htracks.start_sent honest'.fits honest'.chunk hraw ho
  have hP : partBytes c'.dest (s.receiver.host.setFault g) = x := by
    unfold partBytes
    rw [hdest]
    show (s.receiver.host.contents (partialPath c.dest)).getD [] = x
    rw [hx]
    rfl
  have horigin := htracks.origin hoff
  rw [hP, hrecvs] at horigin
  have hdiv := Nat.div_mul_le_self x.length c.recvs.checkpointLen
  have hlen := hpre.length_le
  have hheld : held c.recvs x src.length =
      x.length / c.recvs.checkpointLen * c.recvs.checkpointLen := min_eq_left (by omega)
  have htake : x.take (x.length / c.recvs.checkpointLen * c.recvs.checkpointLen) =
      src.take (x.length / c.recvs.checkpointLen * c.recvs.checkpointLen) := by
    obtain ⟨rest, rfl⟩ := hpre
    rw [List.take_append_of_le_length hdiv]
  rw [startAt_of_take hheld htake] at horigin
  refine ⟨horigin, ?_⟩
  have hmod := Nat.mod_lt x.length c.recvs.checkpoint_pos
  have hsum := Nat.div_add_mod' x.length c.recvs.checkpointLen
  omega

/-- **Resuming.** In any sequence of sessions into one `dest`: a session starts at 0 or at an
announced prefix that both ends share, it ends well if nobody disturbs it and the receiver's
limit admits the source, and it goes on from the last checkpoint of one that was cut. -/
theorem sessions_resume (hap : Apart dest h₀) (hv : Visited blake3 t dest h₀ h)
    (hrecvs : c.recvs = t) (hdest : c.dest = dest) (hsource : hs.contents c.source = some src)
    (hchunk : 40 ≤ c.sends.chunkLen) (hcf : CollisionFree blake3 src) (g : Option Fault) :
    (∀ ms s, Session.run blake3 c ms (Session.start hs (h.setFault g)) = some s →
      StartsRight (partBytes dest h) src s) ∧
    (hs.fault = none → g = none → Permits c src → EndsWell blake3 c src hs (h.setFault g)) ∧
    PicksUp blake3 c src hs (h.setFault g) := by
  subst hrecvs hdest
  have honest : Honest c src hs (h.setFault g) := ⟨hsource, (hv.apart hap).setFault g, hchunk⟩
  refine ⟨?_, ?_, honest.picksUp hcf⟩
  · intro ms s hrun
    exact honest.startsRight hcf hrun
  · intro hs₀ hg hpermits
    exact honest.endsWell hcf hpermits hs₀ hg

end Sessions

/-! ## A limit that is too low -/

theorem plan_sample (n : Nat) (e : Error) :
    sampleSetting.sends.pacing.plan n sampleSetting.draws ≠ .error e := by
  show (Except.ok _ : Except Error Nat) ≠ .error e
  exact nofun

theorem permits_sample (src : Bytes) : Permits sampleSetting src := ⟨plan_sample, nofun⟩

/-- The first session is cut after its data frame, and the second one ends well. -/
theorem sessions_resume_cut : ∃ s,
    Session.run sampleHash sampleSetting ((schedule 1 1).take 10)
      (Session.start (sampleSource [2, 9, 7] (by decide)) sampleDisk) = some s ∧
    EndsWell sampleHash sampleSetting [2, 9, 7] (sampleSource [2, 9, 7] (by decide))
      (s.receiver.host.setFault none) := by
  have hsome : (Session.run sampleHash sampleSetting ((schedule 1 1).take 10)
      (Session.start (sampleSource [2, 9, 7] (by decide)) sampleDisk)).isSome = true := by
    decide +kernel
  obtain ⟨s, hrun⟩ := Option.isSome_iff_exists.mp hsome
  have hfirst : Visited sampleHash sampleConfig "vault" sampleDisk s.receiver.host :=
    Visited.session .first rfl rfl rfl (by decide) hrun
  have hcf : CollisionFree sampleHash [2, 9, 7] := collisionFree_sample (by decide)
  have hall := sessions_resume apart_sampleDisk hfirst (c := sampleSetting) rfl rfl
    (show (sampleSource [2, 9, 7] (by decide)).contents "source" = some [2, 9, 7] from rfl)
    (by decide) hcf none
  exact ⟨s, hrun, hall.2.1 rfl rfl (permits_sample _)⟩

/-- A receiver that takes nothing. -/
def tightSetting : Setting := { sampleSetting with recvs := sampleConfig.withMaxTotalLen 0 }

/-- Has the receiver refused, and does the sender wait for an answer that will not come? -/
def refuses : Option Session → Bool
  | some ⟨⟨_, phase⟩, ⟨_, .returned (.error _)⟩, _, toSender, _⟩ =>
    Sender.listens phase && toSender.next.isNone
  | _ => false

theorem of_refuses {o : Option Session} (h : refuses o = true) :
    ∃ s e, o = some s ∧ s.receiver.phase = .returned (.error e) ∧
      Sender.listens s.sender.phase = true ∧ s.toSender.next = none := by
  unfold refuses at h
  split at h
  · rename_i hs phase hr e ch toSender log
    rw [Bool.and_eq_true, Option.isNone_iff_eq_none] at h
    exact ⟨_, e, rfl, rfl, h.1, h.2⟩
  · cases h

/-- A session whose receiver has refused cannot go on, and it is not complete. -/
theorem not_endsWell_of_refuses {blake3 : Bytes → Hash} {c : Setting} {src : Bytes}
    {hs hr : Host} {sides : List Side}
    (h : refuses (Session.run blake3 c (moves sides) (Session.start hs hr)) = true) :
    ¬EndsWell blake3 c src hs hr := by
  rintro ⟨hends, -⟩
  obtain ⟨s, e, hrun, hr, hl, hnone⟩ := of_refuses h
  have hclean : ∀ m ∈ moves sides, m.Clean := by
    intro m hm
    obtain ⟨side, -, rfl⟩ := List.mem_map.mp hm
    exact ⟨rfl, rfl, rfl⟩
  have hstuck : Stuck blake3 c s := by
    intro m hm
    cases hside : m.side with
    | sender =>
      unfold Session.next Session.delivery
      simp [hside, hl, hm.recvFails, hnone]
    | receiver =>
      unfold Session.next
      simp [hside, hr, RecvPhase.isReturned]
  obtain ⟨a, -, ha, -⟩ := (hends _ s hclean hrun).2 hstuck
  rw [hr] at ha
  cases ha

/-- An undisturbed session with a source over the receiver's limit does not complete. -/
theorem limit_refuses :
    Honest tightSetting [2] (sampleSource [2] (by decide)) sampleDisk ∧
      CollisionFree sampleHash [2] ∧ (∀ n e, tightSetting.sends.pacing.plan n tightSetting.draws ≠
        .error e) ∧
      ¬EndsWell sampleHash tightSetting [2] (sampleSource [2] (by decide)) sampleDisk := by
  have hrefuses : refuses (Session.run sampleHash tightSetting (moves [.sender, .receiver])
      (Session.start (sampleSource [2] (by decide)) sampleDisk)) = true := by
    decide +kernel
  exact ⟨⟨rfl, apart_sampleDisk, by decide⟩, collisionFree_sample (by decide), plan_sample,
    not_endsWell_of_refuses hrefuses⟩

end AtomVault.Transfer
