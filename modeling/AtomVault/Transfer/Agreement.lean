import AtomVault.Transfer.Session
import AtomVault.Transfer.Safety

/-!
# Both ends agree

The sender is somewhere in the conversation about its source, the receiver in a prefix of
it, and what one end has heard is a prefix of what the other one said.
-/

open Lib

namespace AtomVault.Transfer

/-- What an observer sees after `a` frames of the sender and `b` of the receiver. -/
def traffic (fl a b : Nat) : List (Side × Nat) :=
  List.replicate (min a 1) (.sender, fl) ++ List.replicate (min b 1) (.receiver, fl) ++
    List.replicate (a - 1) (.sender, fl) ++ List.replicate (b - 1) (.receiver, fl)

/-- Where a session is. `q` is the sender's stage, `p` the receiver's. -/
structure Tracks (blake3 : Bytes → Hash) (c : Setting) (P src : Bytes) (quiet : Prop) (late : Bool)
    (said answers : List Msg) (q p : Stage) (s : Session) : Prop where
  sent : s.toReceiver.sent = said.map (Msg.encode c.sends.frameLen)
  replied : s.toSender.sent = answers.map (Msg.encode c.sends.frameLen)
  follows : follow blake3 src c.sends.chunkLen said = some q
  behind : follow blake3 src c.sends.chunkLen (said.take s.toReceiver.taken) = some p
  taken : s.toReceiver.taken ≤ said.length
  heard : s.toSender.taken ≤ answers.length
  sender : SenderAt blake3 c.sends c.source src c.draws quiet q said.length
    (answers.take s.toSender.taken) s.sender
  receiver : ReceiverAt blake3 c.sends.frameLen c.recvs c.dest P src late p answers s.receiver
  log : s.log = traffic c.sends.frameLen said.length answers.length
  answered : 2 ≤ said.length → answers ≠ []

section Tracks

variable {blake3 : Bytes → Hash} {c : Setting} {P src : Bytes} {quiet : Prop} {late : Bool}
  {said answers : List Msg} {q p : Stage} {s s' : Session} {m : Move}

/-! ## The observer's log -/

theorem traffic_sender {fl a b : Nat} (h : a = 0 ∧ b = 0 ∨ 1 ≤ a ∧ b = 1) :
    traffic fl a b ++ [(.sender, fl)] = traffic fl (a + 1) b := by
  rcases h with ⟨rfl, rfl⟩ | ⟨ha, rfl⟩
  · rfl
  · obtain ⟨a, rfl⟩ := Nat.exists_eq_add_of_le' ha
    simp [traffic, List.replicate_succ']

theorem traffic_receiver {fl a b : Nat} (h : a = 1 ∧ b = 0 ∨ 1 ≤ b) :
    traffic fl a b ++ [(.receiver, fl)] = traffic fl a (b + 1) := by
  rcases h with ⟨rfl, rfl⟩ | hb
  · rfl
  · obtain ⟨b, rfl⟩ := Nat.exists_eq_add_of_le' hb
    simp [traffic, List.replicate_succ']

/-! ## Invariant facts -/

theorem Tracks.origin (h : Tracks blake3 c P src quiet late said answers q p s) {o : Nat}
    (ho : q.offset = some o) :
    o = startAt blake3 src (held c.recvs P src.length) (blake3 (P.take (held c.recvs P src.length))) := by
  obtain ⟨n, hash, rest, heq, rfl⟩ := h.sender.origin o ho
  have hhead : answers.head? = some (.resume n hash) := by
    have := List.take_prefix s.toSender.taken answers
    rw [heq] at this
    obtain ⟨tail, rfl⟩ := this
    rfl
  rcases h.receiver.answers_cases with hans | hans | ⟨hans, -⟩
  · rw [hans] at hhead
    cases hhead
  · rw [hans] at hhead
    cases hhead
    rfl
  · rw [hans] at hhead
    cases hhead
    rfl

/-- Once the receiver has returned `Ok`, the sender has nothing left to say. -/
theorem Tracks.finished (h : Tracks blake3 c P src quiet late said answers q p s) {o k : Nat}
    (hp : p = .finished o k) : q = .finished o k := by
  subst hp
  have heq := follow_finished (List.take_prefix _ _) h.behind h.follows
  have hbehind := h.behind
  rw [heq, h.follows] at hbehind
  exact Option.some.inj hbehind

/-! ## One move -/

theorem Tracks.start {hs hr : Host} (hsrc : hs.contents c.source = some src)
    (hap : Apart c.dest hr) (hpart : partBytes c.dest hr = P) :
    Tracks blake3 c P src quiet false [] [] .idle .idle (Session.start hs hr) where
  sent := rfl
  replied := rfl
  follows := rfl
  behind := rfl
  taken := le_refl _
  heard := le_refl _
  sender := .start hsrc
  receiver := .awaitOffer hap hpart
  log := rfl
  answered := nofun

theorem Tracks.hears (h : Tracks blake3 c P src quiet late said answers q p s)
    (hsrc : src.length ≤ maxLen) {d : Except String Bytes} {toSender : Channel Bytes}
    (hd : Session.delivery m (Sender.listens s.sender.phase) s.toSender = some (d, toSender)) :
    toSender.sent = s.toSender.sent ∧ toSender.taken ≤ answers.length ∧
      Hears c.sends ⟨m.cancelled, d, m.sendFails, c.draws⟩ (answers.take s.toSender.taken)
        (Sender.listens s.sender.phase) (answers.take toSender.taken) := by
  have hheard := h.heard
  rcases delivery_cases hd with ⟨hl, rfl⟩ | ⟨hl, -, ⟨e, rfl⟩, rfl⟩ | ⟨hl, raw, hraw, rfl, rfl⟩
  · rw [hl]
    exact ⟨rfl, hheard, .deaf⟩
  · rw [hl]
    exact ⟨rfl, hheard, .cut rfl⟩
  · rw [hl]
    unfold Channel.next at hraw
    rw [h.replied, List.getElem?_map] at hraw
    obtain ⟨a, ha, rfl⟩ := Option.map_eq_some_iff.mp hraw
    have hlt : s.toSender.taken < answers.length := (List.getElem?_eq_some_iff.mp ha).1
    refine ⟨rfl, hlt, ?_⟩
    have htake : answers.take s.toSender.take.taken = answers.take s.toSender.taken ++ [a] := by
      show answers.take (s.toSender.taken + 1) = _
      rw [List.take_add_one, ha]
      rfl
    rw [htake]
    exact .gets (h.receiver.fits hsrc _ a (List.mem_of_getElem? ha)) rfl

theorem Tracks.counts (h : Tracks blake3 c P src quiet late said answers q p s) {msg : Msg}
    {q' : Stage} (hadv : advance blake3 src c.sends.chunkLen q msg = some q')
    (hanswered : 2 ≤ said.length + 1 → answers ≠ []) :
    said.length = 0 ∧ answers.length = 0 ∨ 1 ≤ said.length ∧ answers.length = 1 := by
  rcases Nat.eq_zero_or_pos said.length with hzero | hpos
  · left
    have hnil := List.length_eq_zero_iff.mp hzero
    have hidle := h.behind
    rw [hnil, List.take_nil] at hidle
    have hr := h.receiver
    cases hidle
    rw [hr.idle]
    exact ⟨hzero, rfl⟩
  · refine Or.inr ⟨hpos, ?_⟩
    rcases h.receiver.answers_cases with hans | hans | ⟨-, x, o, k, hp, -⟩
    · exact absurd hans (hanswered (by omega))
    · rw [hans]
      rfl
    · rw [h.finished hp] at hadv
      cases hadv

/-- Nobody has failed and nothing can. -/
structure Unharmed (s : Session) : Prop where
  sendFault : s.sender.host.fault = none
  recvFault : s.receiver.host.fault = none
  send : ∀ e, s.sender.phase ≠ .returned (.error e)
  recv : ∀ e, s.receiver.phase ≠ .returned (.error e)

structure Move.Clean (m : Move) : Prop where
  cancelled : m.cancelled = false
  recvFails : m.recvFails = none
  sendFails : m.sendFails = none

/-- More moves than a clean session can still make. -/
def Session.left (s : Session) : Nat :=
  2 * Sender.left s.sender.phase + (s.toReceiver.sent.length - s.toReceiver.taken)

/-- What lets a clean session go through. -/
structure Fair (c : Setting) (P src : Bytes) (q : Stage) : Prop where
  plan : ∀ n e, c.sends.pacing.plan n c.draws ≠ .error e
  limit : ∀ max, c.recvs.maxTotalLen = some max → src.length ≤ max.toNat
  graft : ∀ o, q.offset = some o → graft P src o = src

theorem Tracks.answered_take (h : Tracks blake3 c P src quiet late said answers q p s) (n : Nat) :
    Answered (answers.take n) := by
  rcases h.receiver.answers_cases with hans | hans | ⟨hans, -⟩
  · rw [hans, List.take_nil]
    exact Or.inl rfl
  · rw [hans]
    cases n with
    | zero => exact Or.inl rfl
    | succ n => exact Or.inr ⟨_, _, Or.inl (List.take_of_length_le (by simp))⟩
  · rw [hans]
    match n with
    | 0 => exact Or.inl rfl
    | 1 => exact Or.inr ⟨_, _, Or.inl rfl⟩
    | n + 2 => exact Or.inr ⟨_, _, Or.inr (List.take_of_length_le (by simp))⟩

theorem Tracks.next_sender (h : Tracks blake3 c P src quiet late said answers q p s)
    (hsrc : src.length ≤ maxLen) (hchunk : 40 ≤ c.sends.chunkLen)
    (hquiet : quiet → m.cancelled = false) (hside : m.side = .sender)
    (hnext : Session.next blake3 c m s = some s') :
    (∃ said' q', Tracks blake3 c P src quiet late said' answers q' p s') ∧ s'.left < s.left ∧
      (m.Clean → Fair c P src q → Unharmed s → Unharmed s') := by
  obtain ⟨hlive, d, toSender, hd, rfl⟩ := Transfer.next_sender hnext hside
  obtain ⟨hsame, hle, hears⟩ := h.hears hsrc hd
  have hreturned : ∀ x, s.sender.phase ≠ .returned x := by
    intro x hx
    rw [hx] at hlive
    cases hlive
  have hstep : SaysNext blake3 c.sends c.source src c.draws quiet q said.length _ s.sender
      ⟨m.cancelled, d, m.sendFails, c.draws⟩ _ :=
    h.sender.step hsrc hchunk rfl hquiet hreturned hears
  generalize s.sender.step blake3 c.sends c.source ⟨m.cancelled, d, m.sendFails, c.draws⟩ = out
    at hstep ⊢
  obtain ⟨sender, raw⟩ := out
  have hreplied : toSender.sent = answers.map (Msg.encode c.sends.frameLen) := hsame.trans h.replied
  refine ⟨?_, ?_, ?_⟩
  · rcases hstep.at_ with ⟨hnone, hat⟩ | ⟨msg, q', hsome, hadv, hat⟩
    · cases hnone
      refine ⟨said, q, ?_, hreplied, h.follows, h.behind, h.taken, hle, hat, h.receiver, ?_,
        h.answered⟩
      · exact (List.append_nil _).trans h.sent
      · exact (List.append_nil _).trans h.log
    · cases hsome
      have hfits := Fits_of_advance hsrc hadv
      have hfollows := follow_append h.follows hadv
      have hanswered : 2 ≤ said.length + 1 → answers ≠ [] := by
        intro hlen hnil
        obtain ⟨o, ho⟩ := follow_started hfollows (by simpa using hlen)
        obtain ⟨n, hash, rest, heq, -⟩ := hat.origin o ho
        rw [hnil, List.take_nil] at heq
        cases heq
      have hlog : traffic c.sends.frameLen _ _ ++ _ = _ :=
        traffic_sender (h.counts hadv hanswered)
      refine ⟨said ++ [msg], q', ?_, hreplied, hfollows, ?_, ?_, hle, ?_, h.receiver, ?_, ?_⟩
      · show s.toReceiver.sent ++ [msg.encode _] = _
        rw [h.sent, List.map_append]
        rfl
      · show follow _ _ _ ((said ++ [msg]).take s.toReceiver.taken) = _
        rw [List.take_append_of_le_length h.taken]
        exact h.behind
      · rw [List.length_append]
        exact h.taken.trans (Nat.le_add_right _ _)
      · rw [List.length_append]
        exact hat
      · show s.log ++ [(.sender, (msg.encode _).length)] = _
        rw [hfits.length_encode hchunk, h.log, List.length_append]
        exact hlog
      · rw [List.length_append]
        exact hanswered
  · have hleft := hstep.left
    have hput : (s.toReceiver.put raw).sent.length ≤ s.toReceiver.sent.length + 1 := by
      cases raw <;> simp [Channel.put]
    show 2 * Sender.left sender.phase +
      ((s.toReceiver.put raw).sent.length - s.toReceiver.taken) < _
    unfold Session.left
    simp only at hleft
    omega
  · intro hclean hfair hun
    refine ⟨hstep.fault.eq_none hun.sendFault, hun.recvFault, ?_, hun.recv⟩
    intro e he
    rcases hstep.troubled e he with hf | hf | hf | ⟨hl, e', hf⟩ | ⟨n, e', hf⟩ | hf
    · exact hf hun.sendFault
    · exact hf hclean.sendFails
    · rw [hclean.cancelled] at hf
      cases hf
    · rcases delivery_cases hd with ⟨hl', -⟩ | ⟨-, hcut, -⟩ | ⟨-, raw', -, hok, -⟩
      · rw [hl'] at hl
        cases hl
      · exact hcut hclean.recvFails
      · rw [hok] at hf
        cases hf
    · exact hfair.plan n e' hf
    · exact hf (h.answered_take _)

/-- The frame that waits for the receiver is the next message of the conversation. -/
theorem Tracks.pending (h : Tracks blake3 c P src quiet late said answers q p s) {raw : Bytes}
    (hraw : s.toReceiver.next = some raw) :
    s.toReceiver.taken < said.length ∧ ∃ msg p', raw = msg.encode c.sends.frameLen ∧
      follow blake3 src c.sends.chunkLen (said.take (s.toReceiver.taken + 1)) = some p' ∧
      advance blake3 src c.sends.chunkLen p msg = some p' := by
  unfold Channel.next at hraw
  rw [h.sent, List.getElem?_map] at hraw
  obtain ⟨msg, hmsg, rfl⟩ := Option.map_eq_some_iff.mp hraw
  have hlt : s.toReceiver.taken < said.length := (List.getElem?_eq_some_iff.mp hmsg).1
  have htake : said.take (s.toReceiver.taken + 1) = said.take s.toReceiver.taken ++ [msg] := by
    rw [List.take_add_one, hmsg]
    rfl
  obtain ⟨p', hp'⟩ := follow_initial (List.take_prefix (s.toReceiver.taken + 1) said) h.follows
  have hstep := hp'
  rw [htake] at hstep
  obtain ⟨p₀, hp₀, hadv⟩ := follow_snoc hstep
  rw [h.behind] at hp₀
  cases hp₀
  exact ⟨hlt, msg, p', rfl, hp', hadv⟩

theorem Tracks.followed (h : Tracks blake3 c P src quiet late said answers q p s)
    {d : Except String Bytes} {toReceiver : Channel Bytes}
    (hd : Session.delivery m (Receiver.listens s.receiver.phase m.cancelled) s.toReceiver =
      some (d, toReceiver)) :
    ∃ p', toReceiver.sent = s.toReceiver.sent ∧ toReceiver.taken ≤ said.length ∧
      follow blake3 src c.sends.chunkLen (said.take toReceiver.taken) = some p' ∧
      Follows blake3 c.sends.frameLen c.sends.chunkLen src
        ⟨m.cancelled, d, m.sendFails, c.draws⟩ p
        (Receiver.listens s.receiver.phase m.cancelled) p' := by
  rcases delivery_cases hd with ⟨hl, rfl⟩ | ⟨hl, -, ⟨e, rfl⟩, rfl⟩ | ⟨hl, raw, hraw, rfl, rfl⟩
  · rw [hl]
    exact ⟨p, rfl, h.taken, h.behind, .deaf⟩
  · rw [hl]
    exact ⟨p, rfl, h.taken, h.behind, .cut rfl⟩
  · rw [hl]
    obtain ⟨hlt, msg, p', rfl, hp', hadv⟩ := h.pending hraw
    exact ⟨p', rfl, hlt, hp', .gets hadv rfl⟩

theorem Tracks.next_receiver (h : Tracks blake3 c P src quiet late said answers q p s)
    (hsrc : src.length ≤ maxLen) (hchunk : 40 ≤ c.sends.chunkLen) (hside : m.side = .receiver)
    (hnext : Session.next blake3 c m s = some s') :
    (∃ late' answers' p', (late = true → late' = true) ∧
      Tracks blake3 c P src quiet late' said answers' q p' s') ∧
      (m.Clean → s'.left < s.left ∧ (Fair c P src q → Unharmed s → Unharmed s')) := by
  obtain ⟨hlive, d, toReceiver, hd, rfl⟩ := Transfer.next_receiver hnext hside
  obtain ⟨p', hsame, hle, hbehind, hfol⟩ := h.followed hd
  have hprefix : said.take toReceiver.taken <+: said := List.take_prefix _ _
  have hreturned : ∀ x, s.receiver.phase ≠ .returned x := by
    intro x hx
    rw [hx] at hlive
    cases hlive
  have hstart : p = .offered → ∀ o, p'.offset = some o → o ≤ held c.recvs P src.length := by
    intro _ o ho
    rw [h.origin (follow_offset hprefix hbehind ho h.follows)]
    exact startAt_le_held _ _
  have hstep : AnswersNext blake3 c.sends.frameLen c.recvs c.dest P src late p p' answers
      s.receiver ⟨m.cancelled, d, m.sendFails, c.draws⟩ _ :=
    h.receiver.step hsrc hchunk hstart hreturned hfol
  generalize s.receiver.step blake3 c.recvs c.dest ⟨m.cancelled, d, m.sendFails, c.draws⟩ = out
    at hstep ⊢
  obtain ⟨receiver, raw⟩ := out
  have hsent : toReceiver.sent = said.map (Msg.encode c.sends.frameLen) := hsame.trans h.sent
  constructor
  · obtain ⟨late', hlate, hat⟩ := hstep.at_
    rcases hat with ⟨hnone, hat⟩ | ⟨msg, hsome, hat⟩
    · cases hnone
      refine ⟨late', answers, p', hlate, hsent, ?_, h.follows, hbehind, hle, h.heard, h.sender, hat,
        ?_, h.answered⟩
      · exact (List.append_nil _).trans h.replied
      · exact (List.append_nil _).trans h.log
    · cases hsome
      have hfits : msg.Fits c.sends.chunkLen :=
        hat.fits hsrc _ msg (List.mem_append_right _ (List.mem_singleton_self _))
      have hcount : said.length = 1 ∧ answers.length = 0 ∨ 1 ≤ answers.length := by
        rcases Nat.eq_zero_or_pos answers.length with hzero | hpos
        · refine Or.inl ⟨?_, hzero⟩
          have hnil := List.length_eq_zero_iff.mp hzero
          have hsome : said ≠ [] := by
            rintro rfl
            rw [List.take_nil] at hbehind
            cases hbehind
            exact List.append_ne_nil_of_right_ne_nil _ (List.cons_ne_nil _ _) hat.idle
          have hpos := List.length_pos_iff.mpr hsome
          have hone : ¬2 ≤ said.length := fun htwo => h.answered htwo hnil
          omega
        · exact Or.inr hpos
      have hlog : traffic c.sends.frameLen _ _ ++ _ = _ := traffic_receiver hcount
      refine ⟨late', answers ++ [msg], p', hlate, hsent, ?_, h.follows, hbehind, hle, ?_, ?_, hat,
        ?_, ?_⟩
      · show s.toSender.sent ++ [msg.encode _] = _
        rw [h.replied, List.map_append]
        rfl
      · rw [List.length_append]
        exact h.heard.trans (Nat.le_add_right _ _)
      · show SenderAt _ _ _ _ _ _ _ _ ((answers ++ [msg]).take s.toSender.taken) _
        rw [List.take_append_of_le_length h.heard]
        exact h.sender
      · show s.log ++ [(.receiver, (msg.encode _).length)] = _
        rw [hfits.length_encode hchunk, h.log, List.length_append]
        exact hlog
      · intro _
        exact List.append_ne_nil_of_right_ne_nil _ (List.cons_ne_nil _ _)
  · intro hclean
    have hlisten : Receiver.listens s.receiver.phase m.cancelled = true := by
      rw [hclean.cancelled]
      cases hphase : s.receiver.phase with
      | returned x => exact absurd hphase (hreturned x)
      | awaitOffer | awaitStart | receiving => rfl
    obtain ⟨raw', hraw', rfl, rfl⟩ : ∃ raw', s.toReceiver.next = some raw' ∧ d = .ok raw' ∧
        toReceiver = s.toReceiver.take := by
      rcases delivery_cases hd with ⟨hl, -⟩ | ⟨-, hcut, -⟩ | ⟨-, hgot⟩
      · rw [hl] at hlisten
        cases hlisten
      · exact absurd hclean.recvFails hcut
      · exact hgot
    refine ⟨?_, ?_⟩
    · have hlt : s.toReceiver.taken < s.toReceiver.sent.length :=
        (List.getElem?_eq_some_iff.mp hraw').1
      show 2 * Sender.left s.sender.phase +
        (s.toReceiver.sent.length - (s.toReceiver.taken + 1)) < _
      unfold Session.left
      omega
    intro hfair hun
    refine ⟨hun.sendFault, hstep.fault.eq_none hun.recvFault, hun.send, ?_⟩
    intro e he
    rcases hstep.troubled e he with hf | hf | hf | ⟨e', hf⟩ | ⟨max, hmax, hf⟩ | ⟨o, ho, hf⟩
    · exact hf hun.recvFault
    · exact hf hclean.sendFails
    · rw [hclean.cancelled] at hf
      cases hf
    · cases hf
    · exact absurd (hfair.limit max hmax) (not_le.mpr hf)
    · refine hf (hfair.graft o ?_)
      exact follow_offset (List.take_prefix _ _) h.behind ho h.follows

/-! ## Whole runs -/

/-- The invariant of a session. -/
def Invariant (blake3 : Bytes → Hash) (c : Setting) (P src : Bytes) (quiet : Prop) (late : Bool)
    (s : Session) : Prop :=
  ∃ said answers q p, Tracks blake3 c P src quiet late said answers q p s

theorem Invariant.next (h : Invariant blake3 c P src quiet late s) (hsrc : src.length ≤ maxLen)
    (hchunk : 40 ≤ c.sends.chunkLen) (hquiet : quiet → m.cancelled = false)
    (hnext : Session.next blake3 c m s = some s') :
    ∃ late', (late = true → late' = true) ∧ Invariant blake3 c P src quiet late' s' := by
  obtain ⟨said, answers, q, p, h⟩ := h
  cases hside : m.side with
  | sender =>
    obtain ⟨⟨said', q', h'⟩, -, -⟩ := h.next_sender hsrc hchunk hquiet hside hnext
    exact ⟨late, id, said', answers, q', p, h'⟩
  | receiver =>
    obtain ⟨⟨late', answers', p', hlate, h'⟩, -⟩ := h.next_receiver hsrc hchunk hside hnext
    exact ⟨late', hlate, said, answers', q, p', h'⟩

theorem Invariant.run {ms : List Move} (h : Invariant blake3 c P src quiet late s)
    (hsrc : src.length ≤ maxLen) (hchunk : 40 ≤ c.sends.chunkLen)
    (hquiet : quiet → ∀ m ∈ ms, m.cancelled = false)
    (hrun : Session.run blake3 c ms s = some s') :
    ∃ late', (late = true → late' = true) ∧ Invariant blake3 c P src quiet late' s' := by
  induction ms generalizing s late with
  | nil =>
    cases hrun
    exact ⟨late, id, h⟩
  | cons m ms ih =>
    obtain ⟨s₁, hnext, hrest⟩ := Option.bind_eq_some_iff.mp hrun
    obtain ⟨late₁, hlate₁, h₁⟩ := h.next hsrc hchunk
      (fun hq => hquiet hq m List.mem_cons_self) hnext
    obtain ⟨late₂, hlate₂, h₂⟩ := ih h₁
      (fun hq m' hm' => hquiet hq m' (List.mem_cons_of_mem _ hm')) hrest
    exact ⟨late₂, hlate₂ ∘ hlate₁, h₂⟩

theorem Tracks.acknowledged (h : Tracks blake3 c P src quiet late said answers q p s) {a : Summary}
    (ha : s.sender.phase = .returned (.ok a)) :
    ∃ x o k, q = .finished o k ∧ answers = [resumeMsg blake3 c.recvs P src, .ack] ∧
      a = ⟨src.length, o, blake3 src, UInt64.ofNat k⟩ ∧ s.receiver.phase = .returned (.ok a) ∧
      s.receiver.host.contents c.dest = some x ∧ blake3 x = blake3 src := by
  have hs := h.sender
  generalize hheard : answers.take s.toSender.taken = heard at hs
  generalize said.length = n at hs
  generalize s.sender = sender at hs ha
  cases hs with
  | returned =>
    cases ha
    rcases h.receiver.answers_cases with hans | hans | ⟨hans, x, o', k', hp, hphase, hfile, hx⟩
    · rw [hans, List.take_nil] at hheard
      cases hheard
    · have hlen := congrArg List.length hheard
      rw [hans, List.length_take] at hlen
      simp only [List.length_cons, List.length_nil] at hlen
      omega
    · cases h.finished hp
      exact ⟨x, _, _, rfl, hans, rfl, hphase, hfile, hx⟩
  | start | awaitResume | planning | sending | ramp | awaitAck | failed => cases ha

end Tracks

/-! ## Agreement -/

/-- BLAKE3 has no collision with a prefix of the source. -/
def CollisionFree (blake3 : Bytes → Hash) (src : Bytes) : Prop :=
  ∀ n x, blake3 x = blake3 (src.take n) → x = src.take n

/-- The source of a session and where its receiver writes. -/
structure Honest (c : Setting) (src : Bytes) (hs hr : Host) : Prop where
  source : hs.contents c.source = some src
  apart : Apart c.dest hr
  chunk : 40 ≤ c.sends.chunkLen

section Agreement

variable {blake3 : Bytes → Hash} {c : Setting} {src : Bytes} {hs hr : Host} {s : Session}
  {ms : List Move}

theorem Honest.fits (h : Honest c src hs hr) : src.length ≤ maxLen := by
  obtain ⟨i, -, rfl⟩ := Option.map_eq_some_iff.mp h.source
  exact (hs.files i).fits

theorem Honest.invariant (h : Honest c src hs hr) {quiet : Prop}
    (hquiet : quiet → ∀ m ∈ ms, m.cancelled = false)
    (hrun : Session.run blake3 c ms (Session.start hs hr) = some s) :
    ∃ late, Invariant blake3 c (partBytes c.dest hr) src quiet late s := by
  have hstart : Invariant blake3 c (partBytes c.dest hr) src quiet false (Session.start hs hr) :=
    ⟨[], [], .idle, .idle, Tracks.start h.source h.apart rfl⟩
  obtain ⟨late, -, hinv⟩ := hstart.run h.fits h.chunk hquiet hrun
  exact ⟨late, hinv⟩

/-- **Agreement.** When `send` returns `Ok`, `recv` has renamed a copy of the source into
place and returned `Ok`, and whenever both return `Ok` they return the same summary. -/
theorem send_recv_agree (h : Honest c src hs hr) (hcf : CollisionFree blake3 src)
    (hrun : Session.run blake3 c ms (Session.start hs hr) = some s) :
    (∀ a, s.sender.phase = .returned (.ok a) →
      s.receiver.host.contents c.dest = some src ∧ s.receiver.phase = .returned (.ok a)) ∧
    ∀ a b, s.sender.phase = .returned (.ok a) → s.receiver.phase = .returned (.ok b) →
      a = b ∧ a.total = src.length ∧ a.hash = blake3 src ∧ a.resumedFrom ≤ a.total := by
  obtain ⟨late, said, answers, q, p, hinv⟩ :=
    h.invariant False.elim hrun
  constructor
  · intro a ha
    obtain ⟨x, o, k, -, -, -, hphase, hfile, hx⟩ := hinv.acknowledged ha
    have hx' : x = src.take src.length := hcf _ _ (by rw [hx, List.take_length])
    rw [List.take_length] at hx'
    rw [← hx']
    exact ⟨hfile, hphase⟩
  · intro a b ha hb
    obtain ⟨x, o, k, rfl, -, rfl, hphase, -, -⟩ := hinv.acknowledged ha
    rw [hphase] at hb
    cases hb
    refine ⟨rfl, rfl, rfl, ?_⟩
    show o ≤ src.length
    rw [hinv.origin rfl]
    exact startAt_le _ _

/-! ## What an observer learns -/

theorem Tracks.planned {P : Bytes} {late : Bool} {said answers : List Msg} {q p : Stage}
    (h : Tracks blake3 c P src True late said answers q p s) {a : Summary}
    (ha : s.sender.phase = .returned (.ok a)) :
    ∃ planned, c.sends.pacing.plan (divCeil (src.length - a.resumedFrom) c.sends.chunkLen) c.draws =
      .ok planned ∧ s.log = traffic c.sends.frameLen (planned + 4) 2 := by
  obtain ⟨x, o, k, -, hans, -, -, -, -⟩ := h.acknowledged ha
  have hs := h.sender
  have hlog := h.log
  rw [hans] at hlog
  generalize answers.take s.toSender.taken = heard at hs
  generalize said.length = n at hs hlog
  generalize s.sender = sender at hs ha
  cases hs with
  | returned _ hplan hcount =>
    cases ha
    rw [hcount trivial] at hlog
    exact ⟨_, hplan, hlog⟩
  | start | awaitResume | planning | sending | ramp | awaitAck | failed => cases ha

theorem traffic_same {fl a b : Nat} : ∀ x ∈ traffic fl a b, x.2 = fl := by
  intro x hx
  simp only [traffic, List.mem_append, List.mem_replicate] at hx
  rcases hx with ((⟨-, rfl⟩ | ⟨-, rfl⟩) | ⟨-, rfl⟩) | ⟨-, rfl⟩
  all_goals rfl

theorem traffic_count (fl n : Nat) :
    (∀ x ∈ traffic fl (n + 4) 2, x.2 = fl) ∧
      (traffic fl (n + 4) 2).countP (fun x => x.1 = .sender) = n + 4 ∧
      (traffic fl (n + 4) 2).countP (fun x => x.1 = .receiver) = 2 := by
  refine ⟨traffic_same, ?_, ?_⟩
  · simp [traffic, List.countP_replicate]
  · simp [traffic, List.countP_replicate]

/-- **Traffic shape.** Two complete runs of senders with one chunk length whose plans came out
the same look the same, whatever the sources and the partials: `chunkLen + 5` bytes a frame,
`planned + 4` frames one way and two the other. -/
theorem same_traffic {c' : Setting} {src' : Bytes} {hs' hr' : Host} {s' : Session}
    {ms' : List Move} {a a' : Summary} {planned : Nat} (h : Honest c src hs hr)
    (h' : Honest c' src' hs' hr') (hchunk : c'.sends.chunkLen = c.sends.chunkLen)
    (hquiet : ∀ m ∈ ms, m.cancelled = false) (hquiet' : ∀ m ∈ ms', m.cancelled = false)
    (hrun : Session.run blake3 c ms (Session.start hs hr) = some s)
    (hrun' : Session.run blake3 c' ms' (Session.start hs' hr') = some s')
    (ha : s.sender.phase = .returned (.ok a)) (ha' : s'.sender.phase = .returned (.ok a'))
    (hplan : c.sends.pacing.plan (divCeil (src.length - a.resumedFrom) c.sends.chunkLen) c.draws =
      .ok planned)
    (hplan' : c'.sends.pacing.plan (divCeil (src'.length - a'.resumedFrom) c'.sends.chunkLen)
      c'.draws = .ok planned) :
    s'.log = s.log ∧ (∀ x ∈ s.log, x.2 = c.sends.chunkLen + 5) ∧
      s.log.countP (fun x => x.1 = .sender) = planned + 4 ∧
      s.log.countP (fun x => x.1 = .receiver) = 2 := by
  obtain ⟨late, said, answers, q, p, hinv⟩ := h.invariant (fun _ => hquiet) hrun
  obtain ⟨late', said', answers', q', p', hinv'⟩ := h'.invariant (fun _ => hquiet') hrun'
  obtain ⟨n, hn, hlog⟩ := Tracks.planned hinv ha
  obtain ⟨n', hn', hlog'⟩ := Tracks.planned hinv' ha'
  cases hn.symm.trans hplan
  cases hn'.symm.trans hplan'
  have hfl : c'.sends.frameLen = c.sends.frameLen := by
    unfold frameLen
    rw [hchunk]
  rw [hlog, hlog', hfl]
  exact ⟨rfl, traffic_count c.sends.frameLen planned⟩

end Agreement

/-! ## Two runs -/

/-- The source file of a sample session. -/
def sampleSource (b : Bytes) (h : b.length ≤ maxLen) : Host :=
  { Host.blank with
    names := fun path => if path = "source" then some 0 else none
    files := fun _ => ⟨b, h⟩
    nextIno := 1 }

def sampleSetting : Setting where
  sends := (new.withChunkLen 40).withPacing ⟨.none, 2, 0⟩
  recvs := sampleConfig
  source := "source"
  dest := "vault"
  draws := ⟨[], ""⟩

def moves (sides : List Side) : List Move := sides.map fun side => ⟨side, false, none, none⟩

/-- `real` data frames, `cover` cover frames. -/
def schedule (real cover : Nat) : List Move :=
  moves ([.sender, .receiver, .sender, .sender] ++ List.replicate (real + cover + 2) .sender ++
    List.replicate (real + cover + 3) .receiver ++ [.sender])

/-- Did the sender return this summary? -/
def completes (a : Summary) : Option Session → Bool
  | some ⟨⟨_, .returned (.ok b)⟩, _, _, _, _⟩ => b = a
  | _ => false

theorem of_completes {a : Summary} {o : Option Session} (h : completes a o = true) :
    ∃ s, o = some s ∧ s.sender.phase = .returned (.ok a) := by
  unfold completes at h
  split at h
  · rename_i b r x y z
    refine ⟨_, rfl, ?_⟩
    rw [of_decide_eq_true h]
  · cases h

theorem honest_sample {b : Bytes} (hb : b.length ≤ maxLen) :
    Honest sampleSetting b (sampleSource b hb) sampleDisk :=
  ⟨rfl, apart_sampleDisk, by decide⟩

theorem collisionFree_sample {b : Bytes} (hb : b.length < 32) : CollisionFree sampleHash b := by
  intro n x hx
  refine sampleHash_injective ?_ hx
  rw [List.length_take]
  omega

theorem completes_rewound : completes ⟨3, 0, sampleHash [2, 9, 7], 1⟩
    (Session.run sampleHash sampleSetting (schedule 1 1)
      (Session.start (sampleSource [2, 9, 7] (by decide)) sampleDisk)) = true := by
  decide +kernel

theorem completes_resumed : completes ⟨2, 2, sampleHash [2, 3], 2⟩
    (Session.run sampleHash sampleSetting (schedule 0 2)
      (Session.start (sampleSource [2, 3] (by decide)) sampleDisk)) = true := by
  decide +kernel

theorem send_recv_agree_rewound : ∃ s,
    Session.run sampleHash sampleSetting (schedule 1 1)
      (Session.start (sampleSource [2, 9, 7] (by decide)) sampleDisk) = some s ∧
    s.receiver.host.contents "vault" = some [2, 9, 7] := by
  obtain ⟨s, hrun, hs⟩ := of_completes completes_rewound
  have hcf : CollisionFree sampleHash [2, 9, 7] := collisionFree_sample (by decide)
  exact ⟨s, hrun, ((send_recv_agree (honest_sample (by decide)) hcf hrun).1 _ hs).1⟩

theorem same_traffic_rewound_resumed : ∃ s s',
    Session.run sampleHash sampleSetting (schedule 1 1)
      (Session.start (sampleSource [2, 9, 7] (by decide)) sampleDisk) = some s ∧
    Session.run sampleHash sampleSetting (schedule 0 2)
      (Session.start (sampleSource [2, 3] (by decide)) sampleDisk) = some s' ∧ s'.log = s.log := by
  obtain ⟨s, hrun, hs⟩ := of_completes completes_rewound
  obtain ⟨s', hrun', hs'⟩ := of_completes completes_resumed
  have hplan : sampleSetting.sends.pacing.plan (divCeil (3 - 0) 40) sampleSetting.draws = .ok 2 :=
    rfl
  have hplan' : sampleSetting.sends.pacing.plan (divCeil (2 - 2) 40) sampleSetting.draws = .ok 2 :=
    rfl
  have hshape := same_traffic (honest_sample _) (honest_sample _) rfl (by decide) (by decide) hrun
    hrun' hs hs' hplan hplan'
  exact ⟨s, s', hrun, hrun', hshape.1⟩

end AtomVault.Transfer
