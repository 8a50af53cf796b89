import AtomVault.Lib.Machine
import AtomVault.Live.Identity
import AtomVault.Transfer.Wire

/-!
# QUIC sessions, from the hello to the close (`session.rs`)

Both ends of one connection. A stream brings the frames of the other end in order, and a connection
that one end closes is gone for the other one with all that it has not read. A session can be
dropped without a `close`, and a network that is cut lets a connection time out.
-/

open Lib

namespace AtomVault.Live.Quic

open Transfer (MAX_FRAME_LEN)

/-- Where an end is: in the handshake, in `expect_hello`, with a session, in the loop of `close`,
at `stopped`, or done. What its owner lets go of is cancelled before there is a session, and dropped
after that. -/
inductive Phase
  | handshake
  | hello
  | session
  | draining
  | stopping
  | closed
  | dropped
  | cancelled
  | failed (e : Error)
  deriving DecidableEq

/-- `close` was called. -/
def Phase.closing : Phase → Bool
  | draining | stopping | closed => true
  | _ => false

/-- The call that makes a session has returned one. -/
def Phase.held : Phase → Bool
  | session | draining | stopping | closed | dropped => true
  | _ => false

/-- The owner has let go of the connection. -/
def Phase.letGo : Phase → Bool
  | dropped | cancelled => true
  | _ => false

/-- The connection was closed from here. One that is let go is closed, and so is that of an end that
fails. -/
def Phase.gone : Phase → Bool
  | closed | dropped | cancelled | failed _ => true
  | _ => false

structure Peer where
  phase : Phase
  sent : List Bytes
  fin : Bool
  /-- How many frames of the other end are here, and whether its FIN is. -/
  arrived : Nat
  finArrived : Bool
  read : Nat
  /-- What the calls of `recv` returned. -/
  got : List (Except Error Bytes)
  /-- The other end has closed the connection, or it has timed out. -/
  lost : Bool
  timedOut : Bool

/-- `true` is the dialing end. -/
structure Config where
  /-- Whether the key of the other end is the expected one. -/
  pinned : Bool → Bool
  alpn : Bool → Bytes
  /-- What `quinn` says of a key it refused, and of a connection that is gone. -/
  refused : String
  gone : String

inductive Act
  | connect
  | expectHello
  | send (msg : Bytes)
  | recv
  | close
  | drain
  | stopped
  | arrive
  | arriveFin
  | lose
  -- the owner, and a network that is cut
  | drop
  | cancel
  | timeOut
  deriving DecidableEq

/-- What `read_frame_opt` finds. It waits where there is nothing to find. -/
inductive Found
  | frame (msg : Bytes)
  | fin
  | lost
  | wait
  deriving DecidableEq

/-- What `recv` returns at the end of the stream. -/
def closedByPeer : Except Error Bytes := .error (.session "channel closed by peer")

section Model

variable (cfg : Config) (dials : Bool) (me other : Peer)

def connectionLost : Except Error Bytes := .error (.session s!"read length: {cfg.gone}")

def Peer.find : Found :=
  if me.lost then .lost
  else if me.read < me.arrived then
    match other.sent[me.read]? with
    | some msg => .frame msg
    | none => .wait
  else if me.finArrived then .fin
  else .wait

/-- The dialing end is done with its handshake before the other one has looked at its key. -/
def Peer.connect : Peer :=
  if me.lost then { me with phase := .failed (.connect cfg.gone) }
  else if cfg.pinned dials = false then { me with phase := .failed (.connect cfg.refused) }
  else { me with phase := .hello, sent := me.sent ++ if dials then [cfg.alpn dials] else [] }

/-- The accepting end answers the hello. -/
def Peer.expectHello : Found → Option Peer
  | .wait => none
  | .lost => some { me with phase := .failed (.session s!"read length: {cfg.gone}") }
  | .fin =>
    some { me with phase := .failed (.session "peer closed before sending a hello") }
  | .frame hello =>
    if hello ≠ cfg.alpn dials then
      some { me with
        phase := .failed (.session "peer sent an unexpected application hello")
        read := me.read + 1 }
    else
      some { me with
        phase := .session
        read := me.read + 1
        sent := me.sent ++ if dials then [] else [cfg.alpn dials] }

def Peer.recv : Found → Option Peer
  | .wait => none
  | .lost => some { me with got := me.got ++ [connectionLost cfg] }
  | .fin => some { me with got := me.got ++ [closedByPeer] }
  | .frame msg => some { me with read := me.read + 1, got := me.got ++ [.ok msg] }

/-- A turn of the loop of `close`. -/
def Peer.drain : Found → Option Peer
  | .wait => none
  | .lost => some { me with phase := .stopping }
  | .fin => some { me with phase := .stopping }
  | .frame _ => some { me with read := me.read + 1 }

def Peer.step : Act → Option Peer
  | .connect =>
    if me.phase = .handshake ∧ (dials ∨ me.lost ∨ other.sent ≠ []) then
      some (me.connect cfg dials)
    else none
  | .expectHello =>
    if me.phase = .hello then me.expectHello cfg dials (me.find other) else none
  | .send msg =>
    if me.phase = .session then
      if msg.length > MAX_FRAME_LEN ∨ me.lost then some me
      else some { me with sent := me.sent ++ [msg] }
    else none
  | .recv => if me.phase = .session then me.recv cfg (me.find other) else none
  | .close => if me.phase = .session then some { me with phase := .draining, fin := true } else none
  | .drain => if me.phase = .draining then me.drain (me.find other) else none
  -- the other end has acknowledged everything, or it is gone
  | .stopped =>
    if me.phase = .stopping ∧ (me.lost ∨ other.arrived = me.sent.length ∧ other.finArrived) then
      some { me with phase := .closed }
    else none
  | .arrive =>
    if me.lost = false ∧ me.arrived < other.sent.length then
      some { me with arrived := me.arrived + 1 }
    else none
  | .arriveFin =>
    if me.lost = false ∧ me.finArrived = false ∧ other.fin ∧ me.arrived = other.sent.length then
      some { me with finArrived := true }
    else none
  | .lose =>
    if me.lost = false ∧ other.phase.gone then some { me with lost := true } else none
  | .drop => if me.phase = .session then some { me with phase := .dropped } else none
  | .cancel =>
    if me.phase = .handshake ∨ me.phase = .hello then some { me with phase := .cancelled } else none
  | .timeOut => if me.lost = false then some { me with lost := true, timedOut := true } else none

def step (w : Bool → Peer) (a : Bool × Act) : Option (Bool → Peer) :=
  ((w a.1).step cfg a.1 (w (!a.1)) a.2).map (Function.update w a.1)

def start : Bool → Peer := fun _ => ⟨.handshake, [], false, 0, false, 0, [], false, false⟩

end Model

/-! ## What one action can do -/

section Moves

variable {cfg : Config} {s : Bool} {me other me' : Peer}

theorem find_eq {f : Found} (h : me.find other = f) (hwait : f ≠ .wait) :
    (f = .lost ∧ me.lost = true) ∨
    (me.lost = false ∧ me.read < me.arrived ∧
      ∃ msg, other.sent[me.read]? = some msg ∧ f = .frame msg) ∨
    (me.lost = false ∧ me.arrived ≤ me.read ∧ me.finArrived = true ∧ f = .fin) := by
  unfold Peer.find at h
  split at h
  · rename_i hl
    exact Or.inl ⟨h.symm, hl⟩
  · rename_i hl
    have hl := Bool.eq_false_of_not_eq_true hl
    split at h
    · rename_i hr
      split at h
      · rename_i msg hmsg
        exact Or.inr (Or.inl ⟨hl, hr, msg, hmsg, h.symm⟩)
      · exact absurd h.symm hwait
    · rename_i hr
      split at h
      · rename_i hf
        exact Or.inr (Or.inr ⟨hl, Nat.le_of_not_lt hr, hf, h.symm⟩)
      · exact absurd h.symm hwait

/-- Why `expect_hello` fails. -/
def HelloFails (cfg : Config) (s : Bool) (me other : Peer) : Prop :=
  me.lost = true ∨ (me.arrived ≤ me.read ∧ me.finArrived = true) ∨
    ∃ hello, other.sent[me.read]? = some hello ∧ hello ≠ cfg.alpn s

inductive Moves (cfg : Config) (s : Bool) (me other : Peer) : Peer → Prop
  | stays (h : me.phase = .session) : Moves cfg s me other me
  | refuses (e : Error) (h : me.phase = .handshake) (hpin : me.lost = true ∨ cfg.pinned s = false) :
    Moves cfg s me other { me with phase := .failed e }
  | connects (h : me.phase = .handshake) (hpin : cfg.pinned s = true)
    (hdials : s = true ∨ other.sent ≠ []) :
    Moves cfg s me other
      { me with phase := .hello, sent := me.sent ++ if s then [cfg.alpn s] else [] }
  | fails (e : Error) (k : Nat) (h : me.phase = .hello) (hk : k ≤ me.arrived)
    (hwhy : HelloFails cfg s me other) :
    Moves cfg s me other { me with phase := .failed e, read := k }
  | greets (h : me.phase = .hello) (hread : me.read < me.arrived)
    (hhello : other.sent[me.read]? = some (cfg.alpn s)) :
    Moves cfg s me other { me with
      phase := .session, read := me.read + 1
      sent := me.sent ++ if s then [] else [cfg.alpn s] }
  | sends (msg : Bytes) (h : me.phase = .session) :
    Moves cfg s me other { me with sent := me.sent ++ [msg] }
  | receives (msg : Bytes) (h : me.phase = .session) (hlive : me.lost = false)
    (hread : me.read < me.arrived) (hmsg : other.sent[me.read]? = some msg) :
    Moves cfg s me other { me with read := me.read + 1, got := me.got ++ [.ok msg] }
  | ends (h : me.phase = .session) (hlive : me.lost = false) (hread : me.arrived ≤ me.read)
    (hfin : me.finArrived = true) :
    Moves cfg s me other { me with got := me.got ++ [closedByPeer] }
  | breaks (h : me.phase = .session) (hlost : me.lost = true) :
    Moves cfg s me other { me with got := me.got ++ [connectionLost cfg] }
  | closes (h : me.phase = .session) :
    Moves cfg s me other { me with phase := .draining, fin := true }
  | discards (h : me.phase = .draining) (hread : me.read < me.arrived) :
    Moves cfg s me other { me with read := me.read + 1 }
  | drained (h : me.phase = .draining) (hwhy : me.finArrived = true ∨ me.lost = true) :
    Moves cfg s me other { me with phase := .stopping }
  | stops (h : me.phase = .stopping) : Moves cfg s me other { me with phase := .closed }
  | arrives (h : me.arrived < other.sent.length) :
    Moves cfg s me other { me with arrived := me.arrived + 1 }
  | arrivesFin (h : other.fin = true) (hnew : me.finArrived = false)
    (hall : me.arrived = other.sent.length) :
    Moves cfg s me other { me with finArrived := true }
  | loses (h : other.phase.gone = true) (hnew : me.lost = false) :
    Moves cfg s me other { me with lost := true }
  | drops (h : me.phase = .session) : Moves cfg s me other { me with phase := .dropped }
  | cancels (h : me.phase = .handshake ∨ me.phase = .hello) :
    Moves cfg s me other { me with phase := .cancelled }
  | timesOut (hnew : me.lost = false) :
    Moves cfg s me other { me with lost := true, timedOut := true }

theorem connect_moves (h : me.phase = .handshake)
    (hgo : s = true ∨ me.lost = true ∨ other.sent ≠ []) :
    Moves cfg s me other (me.connect cfg s) := by
  unfold Peer.connect
  split
  · rename_i hl
    exact .refuses _ h (Or.inl hl)
  · rename_i hl
    split
    · rename_i hp
      exact .refuses _ h (Or.inr hp)
    · rename_i hp
      refine .connects h (Bool.eq_true_of_not_eq_false hp) ?_
      rcases hgo with hgo | hgo | hgo
      · exact Or.inl hgo
      · exact absurd hgo hl
      · exact Or.inr hgo

theorem expectHello_moves (hle : me.read ≤ me.arrived) (h : me.phase = .hello)
    (hstep : me.expectHello cfg s (me.find other) = some me') : Moves cfg s me other me' := by
  by_cases hwait : me.find other = .wait
  · rw [hwait] at hstep
    cases hstep
  · rcases find_eq rfl hwait with ⟨hf, hl⟩ | ⟨-, hr, msg, hmsg, hf⟩ | ⟨-, hr, hfin, hf⟩ <;>
      rw [hf] at hstep
    · cases hstep
      exact .fails _ me.read h hle (Or.inl hl)
    · simp only [Peer.expectHello] at hstep
      split at hstep
      · rename_i hne
        cases hstep
        exact .fails _ _ h hr (Or.inr (Or.inr ⟨msg, hmsg, hne⟩))
      · rename_i heq
        cases hstep
        rw [not_not] at heq
        exact .greets h hr (heq ▸ hmsg)
    · cases hstep
      exact .fails _ me.read h hle (Or.inr (Or.inl ⟨hr, hfin⟩))

theorem recv_moves (h : me.phase = .session) (hstep : me.recv cfg (me.find other) = some me') :
    Moves cfg s me other me' := by
  by_cases hwait : me.find other = .wait
  · rw [hwait] at hstep
    cases hstep
  · rcases find_eq rfl hwait with ⟨hf, hl⟩ | ⟨hl, hr, msg, hmsg, hf⟩ | ⟨hl, hr, hfin, hf⟩ <;>
      rw [hf] at hstep <;> cases hstep
    · exact .breaks h hl
    · exact .receives msg h hl hr hmsg
    · exact .ends h hl hr hfin

theorem drain_moves (h : me.phase = .draining) (hstep : me.drain (me.find other) = some me') :
    Moves cfg s me other me' := by
  by_cases hwait : me.find other = .wait
  · rw [hwait] at hstep
    cases hstep
  · rcases find_eq rfl hwait with ⟨hf, hl⟩ | ⟨-, hr, msg, -, hf⟩ | ⟨-, -, hfin, hf⟩ <;>
      rw [hf] at hstep <;> cases hstep
    · exact .drained h (Or.inr hl)
    · exact .discards h hr
    · exact .drained h (Or.inl hfin)

theorem step_moves {a : Act} (hle : me.read ≤ me.arrived)
    (hstep : me.step cfg s other a = some me') : Moves cfg s me other me' := by
  cases a <;> simp only [Peer.step] at hstep <;> split at hstep <;> rename_i hgo <;>
    try cases hstep
  case connect => exact connect_moves hgo.1 hgo.2
  case expectHello => exact expectHello_moves hle hgo hstep
  case send msg =>
    split at hstep <;> cases hstep
    · exact .stays hgo
    · exact .sends msg hgo
  case recv => exact recv_moves hgo hstep
  case close => exact .closes hgo
  case drain => exact drain_moves hgo hstep
  case stopped => exact .stops hgo.1
  case arrive => exact .arrives hgo.2
  case arriveFin => exact .arrivesFin hgo.2.2.1 hgo.2.1 hgo.2.2.2
  case lose => exact .loses hgo.2 hgo.1
  case drop => exact .drops hgo
  case cancel => exact .cancels hgo
  case timeOut => exact .timesOut hgo

end Moves

/-! ## The streams -/

section Streams

variable {cfg : Config} {s : Bool} {me other me' : Peer}

/-- How far the frames of `other` have come here. -/
structure Stream (me other : Peer) : Prop where
  read_le : me.read ≤ me.arrived
  arrived_le : me.arrived ≤ other.sent.length
  fin : me.finArrived = true → other.fin = true ∧ me.arrived = other.sent.length

structure Tidy (me other : Peer) : Prop where
  fin : me.fin = me.phase.closing
  heard : me.phase = .stopping ∨ me.phase = .closed → me.finArrived = true ∨ me.lost = true
  lost : me.lost = true → other.phase.gone = true ∨ me.timedOut = true

theorem Moves.sent (hmove : Moves cfg s me other me') :
    me.sent <+: me'.sent ∧
      (me.phase.closing = true → me'.sent = me.sent ∧ me'.phase.closing = true) := by
  cases hmove with
  | cancels hp => rcases hp with hp | hp <;> simp_all [Phase.closing]
  | _ => simp_all [Phase.closing]

theorem Moves.phase_of_gone (hmove : Moves cfg s me other me') (h : me.phase.gone = true) :
    me'.phase = me.phase := by
  cases hmove with
  | cancels hp => rcases hp with hp | hp <;> simp_all [Phase.gone]
  | _ => simp_all [Phase.gone]

theorem Moves.timedOut (hmove : Moves cfg s me other me') (h : me.timedOut = true) :
    me'.timedOut = true := by
  cases hmove <;> simp_all

theorem Moves.stream (h : Stream me other) (hmove : Moves cfg s me other me') :
    Stream me' other := by
  obtain ⟨hread, harrived, hfin⟩ := h
  cases hmove with
  | fails e k _ hk => exact ⟨hk, harrived, hfin⟩
  | greets _ hlt | receives _ _ _ hlt | discards _ hlt => exact ⟨hlt, harrived, hfin⟩
  | arrives hlt =>
    refine ⟨Nat.le_succ_of_le hread, hlt, fun hf => ?_⟩
    exact absurd (hfin hf).2 (Nat.ne_of_lt hlt)
  | arrivesFin hf _ hall => exact ⟨hread, harrived, fun _ => ⟨hf, hall⟩⟩
  | _ => exact ⟨hread, harrived, hfin⟩

theorem Moves.tidy (h : Tidy me other) (hmove : Moves cfg s me other me') : Tidy me' other := by
  obtain ⟨hfin, hheard, hlost⟩ := h
  cases hmove with
  | cancels hp => rcases hp with hp | hp <;> constructor <;> simp_all [Phase.closing]
  | _ => constructor <;> simp_all [Phase.closing]

theorem Moves.tidy_other (h : Tidy other me) (hmove : Moves cfg s me other me') : Tidy other me' :=
  ⟨h.fin, h.heard, fun hl => (h.lost hl).imp_left fun hgone => by
    rw [hmove.phase_of_gone hgone]
    exact hgone⟩

theorem Moves.stream_other (h : Stream other me) (ht : Tidy me other) (ht' : Tidy me' other)
    (hmove : Moves cfg s me other me') : Stream other me' := by
  obtain ⟨hsent, hclosing⟩ := hmove.sent
  refine ⟨h.read_le, h.arrived_le.trans hsent.length_le, fun hf => ?_⟩
  obtain ⟨hfin, hall⟩ := h.fin hf
  obtain ⟨hsame, hclosing'⟩ := hclosing (ht.fin ▸ hfin)
  exact ⟨ht'.fin.trans hclosing', by rw [hsame]; exact hall⟩

/-! ## Sessions -/

/-- How an end has come to where it is. -/
structure Shape (cfg : Config) (s : Bool) (me : Peer) : Prop where
  fresh : me.phase = .handshake → me.sent = [] ∧ me.read = 0
  hello : me.phase = .hello →
    cfg.pinned s = true ∧ me.sent = (if s then [cfg.alpn s] else []) ∧ me.read = 0
  held : me.phase.held = true →
    cfg.pinned s = true ∧ cfg.alpn (!s) = cfg.alpn s ∧ me.sent ≠ [] ∧ 0 < me.read
  head : ∀ hello, me.sent[0]? = some hello → hello = cfg.alpn s
  spoke : me.sent ≠ [] → cfg.pinned s = true
  /-- The accepting end speaks second. -/
  second : s = false → me.phase.held = false → me.sent = []

theorem Shape.of_later (h : Shape cfg s me) (hheld : me.phase.held = true)
    (hheld' : me'.phase.held = true) (hread : me.read ≤ me'.read) (hsent : me.sent <+: me'.sent) :
    Shape cfg s me' := by
  obtain ⟨hpin, halpn, hne, hpos⟩ := h.held hheld
  obtain ⟨more, hmore⟩ := hsent
  refine ⟨fun hp => ?_, fun hp => ?_, fun _ => ⟨hpin, halpn, ?_, Nat.lt_of_lt_of_le hpos hread⟩, ?_,
    fun _ => hpin, fun _ hnot => ?_⟩
  · rw [hp] at hheld'
    cases hheld'
  · rw [hp] at hheld'
    cases hheld'
  · rw [← hmore]
    simp [hne]
  · intro hello hhello
    rw [← hmore, List.getElem?_append_left (List.length_pos_iff.mpr hne)] at hhello
    exact h.head hello hhello
  · rw [hheld'] at hnot
    cases hnot

theorem Shape.of_over (h : Shape cfg s me) (hheld : me.phase.held = false)
    (hsent : me'.sent = me.sent) (hfresh : me'.phase ≠ .handshake) (hhello : me'.phase ≠ .hello)
    (hheld' : me'.phase.held = false) : Shape cfg s me' := by
  refine ⟨fun hp => absurd hp hfresh, fun hp => absurd hp hhello, fun hp => ?_, hsent ▸ h.head,
    hsent ▸ h.spoke, fun hs _ => hsent ▸ h.second hs hheld⟩
  rw [hheld'] at hp
  cases hp

theorem Moves.shape (h : Shape cfg s me) (ho : Shape cfg (!s) other)
    (hmove : Moves cfg s me other me') : Shape cfg s me' := by
  have hsame : ∀ {me' : Peer}, me'.phase = me.phase → me'.sent = me.sent → me'.read = me.read →
      Shape cfg s me' := by
    intro me' hphase hsent hread
    exact ⟨hphase ▸ hsent ▸ hread ▸ h.fresh, hphase ▸ hsent ▸ hread ▸ h.hello,
      hphase ▸ hsent ▸ hread ▸ h.held, hsent ▸ h.head, hsent ▸ h.spoke,
      hphase ▸ hsent ▸ h.second⟩
  cases hmove with
  | stays | ends | breaks | arrives | arrivesFin | loses | timesOut => exact hsame rfl rfl rfl
  | refuses e hp | fails e k hp =>
    exact h.of_over (by rw [hp]; rfl) rfl (by simp) (by simp) rfl
  | cancels hp =>
    refine h.of_over ?_ rfl (by simp) (by simp) rfl
    rcases hp with hp | hp <;> rw [hp] <;> rfl
  | connects hp hpin =>
    obtain ⟨hsent, hread⟩ := h.fresh hp
    refine ⟨fun hp => (by cases hp), fun _ => ⟨hpin, by simp [hsent], hread⟩,
      fun hp => (by cases hp), fun hello hhello => ?_, fun _ => hpin,
      fun hs _ => by simp [hs, hsent]⟩
    cases s <;> simp_all
  | greets hp hread hhello =>
    obtain ⟨hpin, hsent, hzero⟩ := h.hello hp
    rw [hzero] at hhello
    have halpn : cfg.alpn (!s) = cfg.alpn s := (ho.head _ hhello).symm
    refine ⟨fun hp => (by cases hp), fun hp => (by cases hp),
      fun _ => ⟨hpin, halpn, ?_, Nat.succ_pos _⟩, fun hello hhello => ?_, fun _ => hpin,
      fun _ hnot => (by cases hnot)⟩
    · cases s <;> simp [hsent]
    · cases s <;> simp_all
  | sends msg hp =>
    exact h.of_later (by rw [hp]; rfl) (by rw [hp]; rfl) (Nat.le_refl _) (List.prefix_append _ _)
  | receives msg hp =>
    exact h.of_later (by rw [hp]; rfl) (by rw [hp]; rfl) (Nat.le_succ _) (List.prefix_refl _)
  | discards hp =>
    exact h.of_later (by rw [hp]; rfl) (by rw [hp]; rfl) (Nat.le_succ _) (List.prefix_refl _)
  | closes hp | drained hp | stops hp | drops hp =>
    exact h.of_later (by rw [hp]; rfl) rfl (Nat.le_refl _) (List.prefix_refl _)

/-- Why a dialing end that has said its hello may fail: a time-out, or an accepting end that has no
session any more. -/
def Excused (cl sv : Peer) : Prop :=
  cl.timedOut = true ∨ sv.timedOut = true ∨ sv.phase = .dropped ∨
    (sv.phase.gone = true ∧ sv.phase.held = false)

/-- How far the two are apart. The accepting end is `sv`. -/
structure Agreed (cl sv : Peer) : Prop where
  holds : cl.phase.held = true → sv.phase.held = true
  fails : ∀ e, cl.phase = .failed e → cl.sent ≠ [] → Excused cl sv

theorem Moves.held (hmove : Moves cfg s me other me') (h : me.phase.held = true) :
    me'.phase.held = true := by
  cases hmove with
  | cancels hp => rcases hp with hp | hp <;> simp_all [Phase.held]
  | _ => simp_all [Phase.held]

theorem Tidy.closed {a b : Peer} (hs : Stream a b) (ht : Tidy a b) (ht' : Tidy b a)
    (hclosed : a.phase = .closed) :
    a.timedOut = true ∨ b.phase.gone = true ∨ b.phase.closing = true := by
  rcases ht.heard (Or.inr hclosed) with hfin | hl
  · exact Or.inr (Or.inr (ht'.fin ▸ (hs.fin hfin).1))
  · rcases ht.lost hl with hgone | htimed
    · exact Or.inr (Or.inl hgone)
    · exact Or.inl htimed

theorem excused_of_helloFails {cl sv : Peer} (hs : Stream cl sv) (hs' : Stream sv cl)
    (ht : Tidy cl sv) (ht' : Tidy sv cl) (hshape : Shape cfg true cl)
    (hshape' : Shape cfg false sv) (hcl : cl.phase = .hello) (hwhy : HelloFails cfg true cl sv) :
    Excused cl sv := by
  have hzero := (hshape.hello hcl).2.2
  have hheld : sv.sent ≠ [] → sv.phase.held = true := by
    intro hne
    by_contra hnot
    exact hne (hshape'.second rfl (Bool.eq_false_of_not_eq_true hnot))
  rcases hwhy with hl | ⟨hle, hfin⟩ | ⟨hello, hhello, hne⟩
  · rcases ht.lost hl with hgone | htimed
    · cases hp : sv.phase with
      | closed =>
        rcases ht'.closed hs' ht hp with htimed | hgone' | hclosing
        · exact Or.inr (Or.inl htimed)
        · rw [hcl] at hgone'
          cases hgone'
        · rw [hcl] at hclosing
          cases hclosing
      | dropped => exact Or.inr (Or.inr (Or.inl hp))
      | cancelled | failed e =>
        refine Or.inr (Or.inr (Or.inr ?_))
        rw [hp]
        exact ⟨rfl, rfl⟩
      | handshake | hello | session | draining | stopping =>
        rw [hp] at hgone
        cases hgone
    · exact Or.inl htimed
  · -- there is no end of the stream before its hello
    obtain ⟨hfin', hall⟩ := hs.fin hfin
    have hclosing := ht'.fin ▸ hfin'
    have hhold : sv.phase.held = true := by
      cases hp : sv.phase <;> simp_all [Phase.closing, Phase.held]
    have hpos := List.length_pos_iff.mpr (hshape'.held hhold).2.2.1
    omega
  · rw [hzero] at hhello
    obtain ⟨hlt, -⟩ := List.getElem?_eq_some_iff.mp hhello
    have halpn := (hshape'.held (hheld (List.length_pos_iff.mp hlt))).2.1
    exact absurd ((hshape'.head _ hhello).trans halpn.symm) hne

theorem Moves.agreed_client {cl sv cl' : Peer} (h : Agreed cl sv) (hs : Stream cl sv)
    (hexcused : cl.phase = .hello → HelloFails cfg true cl sv → Excused cl sv)
    (hshape : Shape cfg false sv) (hshape' : Shape cfg true cl)
    (hmove : Moves cfg true cl sv cl') : Agreed cl' sv := by
  have hkept : Excused cl sv → Excused cl' sv := by
    intro hex
    exact hex.imp_left hmove.timedOut
  refine ⟨fun hcl => ?_, fun e hfailed hsent => hkept ?_⟩
  · by_cases hold : cl.phase.held = true
    · exact h.holds hold
    · cases hmove with
      | greets hp hlt =>
        by_contra hnot
        have hnil := hshape.second rfl (Bool.eq_false_of_not_eq_true hnot)
        have hle := hs.arrived_le
        rw [hnil, List.length_nil] at hle
        omega
      | _ => simp_all [Phase.held]
  · cases hmove with
    | refuses e' hp => exact absurd (hshape'.fresh hp).1 hsent
    | fails e' k hp hk hwhy => exact hexcused hp hwhy
    | arrives | arrivesFin | loses | timesOut => exact h.fails e hfailed hsent
    | stays hp =>
      rw [hp] at hfailed
      cases hfailed
    | sends msg hp | receives msg hp | ends hp | breaks hp | discards hp =>
      rw [show cl.phase = .failed e from hfailed] at hp
      cases hp
    | connects | greets | closes | drained | stops | drops | cancels => cases hfailed

theorem Moves.agreed_server {cl sv sv' : Peer} (h : Agreed cl sv)
    (hmove : Moves cfg false sv cl sv') : Agreed cl sv' := by
  refine ⟨fun hcl => hmove.held (h.holds hcl), fun e hfailed hsent => ?_⟩
  rcases h.fails e hfailed hsent with htimed | htimed | hdropped | ⟨hgone, hheld⟩
  · exact Or.inl htimed
  · exact Or.inr (Or.inl (hmove.timedOut htimed))
  · refine Or.inr (Or.inr (Or.inl ((hmove.phase_of_gone ?_).trans hdropped)))
    rw [hdropped]
    rfl
  · have hphase := hmove.phase_of_gone hgone
    exact Or.inr (Or.inr (Or.inr ⟨by rw [hphase]; exact hgone, by rw [hphase]; exact hheld⟩))

/-! ## What `recv` returned -/

/-- The messages behind the hello, in order, only behind the last of them that there are no more, and
only then that the connection is lost. -/
def Heard (cfg : Config) (me other : Peer) (n k m : Nat) : Prop :=
  me.got = ((other.sent.take n).drop 1).map .ok ++ List.replicate k closedByPeer ++
      List.replicate m (connectionLost cfg) ∧
    n ≤ other.sent.length ∧ (0 < k → other.fin = true ∧ n = other.sent.length) ∧
    (0 < m → me.lost = true) ∧ (me.phase = .session → n = me.read) ∧
    (me.phase.held = false → n = 0 ∧ k = 0 ∧ m = 0)

theorem Moves.heard {n k m : Nat} (h : Heard cfg me other n k m) (hs : Stream me other)
    (hshape : Shape cfg s me) (hmove : Moves cfg s me other me') :
    ∃ n k m, Heard cfg me' other n k m := by
  obtain ⟨hgot, hle, hend, hlost, hread, hfresh⟩ := h
  have hlater : me.phase.held = true → me'.phase.held = true → me'.got = me.got →
      me'.lost = me.lost → (me'.phase = .session → n = me'.read) →
      ∃ n k m, Heard cfg me' other n k m := by
    intro hheld hheld' hsame hsame' hread'
    refine ⟨n, k, m, hsame.trans hgot, hle, hend, hsame' ▸ hlost, hread', fun hnot => ?_⟩
    rw [hheld'] at hnot
    cases hnot
  have hearly : me.phase.held = false → me'.phase.held = false → me'.got = me.got →
      me'.lost = me.lost → ∃ n k m, Heard cfg me' other n k m := by
    intro hnot hnot' hsame hsame'
    refine ⟨n, k, m, hsame.trans hgot, hle, hend, hsame' ▸ hlost, fun hp => ?_,
      fun _ => hfresh hnot⟩
    rw [hp] at hnot'
    cases hnot'
  have hnone : me.lost = false → m = 0 := by
    intro hlive
    by_contra hne
    rw [hlost (Nat.pos_of_ne_zero hne)] at hlive
    cases hlive
  cases hmove with
  | stays | arrives | arrivesFin => exact ⟨n, k, m, hgot, hle, hend, hlost, hread, hfresh⟩
  | loses | timesOut => exact ⟨n, k, m, hgot, hle, hend, fun _ => rfl, hread, hfresh⟩
  | refuses e hp | connects hp | fails e j hp =>
    exact hearly (by rw [hp]; rfl) rfl rfl rfl
  | cancels hp =>
    refine hearly ?_ rfl rfl rfl
    rcases hp with hp | hp <;> rw [hp] <;> rfl
  | greets hp hlt =>
    obtain ⟨rfl, rfl, rfl⟩ := hfresh (by rw [hp]; rfl)
    have hzero := (hshape.hello hp).2.2
    have hone : 1 ≤ other.sent.length := by
      have := hs.arrived_le
      omega
    refine ⟨1, 0, 0, ?_, hone, fun hpos => absurd hpos (Nat.lt_irrefl 0),
      fun hpos => absurd hpos (Nat.lt_irrefl 0), fun _ => by rw [hzero],
      fun hnot => (by cases hnot)⟩
    show me.got = _
    rw [hgot]
    simp
  | sends msg hp =>
    exact hlater (by rw [hp]; rfl) (by rw [hp]; rfl) rfl rfl hread
  | receives msg hp hlive hlt hmsg =>
    obtain rfl := hread hp
    obtain rfl := hnone hlive
    have hpos := (hshape.held (by rw [hp]; rfl)).2.2.2
    have hlen := hs.arrived_le
    obtain rfl : k = 0 := by
      by_contra hne
      have := (hend (Nat.pos_of_ne_zero hne)).2
      omega
    refine ⟨me.read + 1, 0, 0, ?_, by omega, fun hpos => absurd hpos (Nat.lt_irrefl 0), hlost,
      fun _ => rfl, fun hnot => ?_⟩
    · show me.got ++ [.ok msg] = _
      rw [hgot, List.take_add_one, hmsg, Option.toList_some,
        List.drop_append_of_le_length (by simp; omega)]
      simp
    · rw [show me.phase.held = true by rw [hp]; rfl] at hnot
      cases hnot
  | ends hp hlive hle' hfin =>
    obtain ⟨hofin, hall⟩ := hs.fin hfin
    obtain rfl := hread hp
    obtain rfl := hnone hlive
    have hlast : me.read = other.sent.length := by
      have := hs.read_le
      omega
    refine ⟨me.read, k + 1, 0, ?_, hle, fun _ => ⟨hofin, hlast⟩, hlost, fun _ => rfl,
      fun hnot => ?_⟩
    · show me.got ++ [closedByPeer] = _
      rw [hgot, List.replicate_zero, List.append_nil, List.append_nil, List.append_assoc,
        ← List.replicate_succ']
    · rw [show me.phase.held = true by rw [hp]; rfl] at hnot
      cases hnot
  | breaks hp hl =>
    refine ⟨n, k, m + 1, ?_, hle, hend, fun _ => hl, hread, fun hnot => ?_⟩
    · show me.got ++ [connectionLost cfg] = _
      rw [hgot, List.append_assoc, ← List.replicate_succ']
    · rw [show me.phase.held = true by rw [hp]; rfl] at hnot
      cases hnot
  | closes hp | discards hp | drained hp | stops hp | drops hp =>
    refine hlater (by rw [hp]; rfl) (by first | rfl | (rw [hp]; rfl)) rfl rfl fun hp' => ?_
    simp_all

theorem Moves.heard_other {n k m : Nat} (h : Heard cfg other me n k m) (ht : Tidy me other)
    (ht' : Tidy me' other) (hmove : Moves cfg s me other me') : Heard cfg other me' n k m := by
  obtain ⟨hgot, hle, hend, hlost, hread, hfresh⟩ := h
  obtain ⟨hsent, hclosing⟩ := hmove.sent
  have htake : me'.sent.take n = me.sent.take n := by
    obtain ⟨more, hmore⟩ := hsent
    rw [← hmore, List.take_append_of_le_length hle]
  refine ⟨htake ▸ hgot, hle.trans hsent.length_le, fun hk => ?_, hlost, hread, hfresh⟩
  obtain ⟨hfin, hall⟩ := hend hk
  obtain ⟨hsame, hclosing'⟩ := hclosing (ht.fin ▸ hfin)
  exact ⟨ht'.fin.trans hclosing', by rw [hsame]; exact hall⟩

end Streams

/-! ## Both ends -/

section Runs

variable {cfg : Config} {w w' : Bool → Peer} {as bs : List (Bool × Act)}

structure Inv (cfg : Config) (w : Bool → Peer) : Prop where
  stream : ∀ s, Stream (w s) (w !s)
  tidy : ∀ s, Tidy (w s) (w !s)
  shape : ∀ s, Shape cfg s (w s)
  agreed : Agreed (w true) (w false)
  heard : ∀ s, ∃ n k m, Heard cfg (w s) (w !s) n k m

theorem inv_start : Inv cfg start where
  stream _ := ⟨Nat.le_refl _, Nat.le_refl _, fun h => by cases h⟩
  tidy _ := ⟨rfl, fun h => (by rcases h with h | h <;> cases h), fun h => by cases h⟩
  shape _ := ⟨fun _ => ⟨rfl, rfl⟩, fun h => (by cases h), fun h => (by cases h),
    fun _ h => (by cases h), fun h => absurd rfl h, fun _ _ => rfl⟩
  agreed := ⟨fun h => (by cases h), fun _ h => by cases h⟩
  heard _ := ⟨0, 0, 0, rfl, Nat.le_refl _, fun h => absurd h (Nat.lt_irrefl 0),
    fun h => absurd h (Nat.lt_irrefl 0), fun h => (by cases h), fun _ => ⟨rfl, rfl, rfl⟩⟩

/-- Against an end that got a session the other one fails only where a connection timed out or that
session was dropped. -/
theorem Inv.other_failed (h : Inv cfg w) {s : Bool} (hheld : (w s).phase.held = true) {e : Error}
    (hfailed : (w !s).phase = .failed e) :
    (∃ t, (w t).timedOut = true) ∨ (w s).phase = .dropped := by
  cases s with
  | true =>
    have hp := h.agreed.holds hheld
    rw [show (w false).phase = _ from hfailed] at hp
    cases hp
  | false =>
    have hread := ((h.shape false).held hheld).2.2.2
    have hstream := h.stream false
    have hspoke : (w true).sent ≠ [] := by
      rintro hnil
      have hle := hstream.read_le.trans hstream.arrived_le
      rw [show (w !false).sent = [] from hnil, List.length_nil] at hle
      omega
    rcases h.agreed.fails e hfailed hspoke with htimed | htimed | hdropped | ⟨-, hnot⟩
    · exact Or.inl ⟨true, htimed⟩
    · exact Or.inl ⟨false, htimed⟩
    · exact Or.inr hdropped
    · rw [hheld] at hnot
      cases hnot

theorem Inv.other_closed (h : Inv cfg w) {s : Bool} (hp : (w s).phase = .session)
    (hclosed : (w !s).phase = .closed) : (w !s).timedOut = true := by
  have hs := h.stream (!s)
  have ht := h.tidy (!s)
  rw [Bool.not_not] at hs ht
  rcases ht.closed hs (h.tidy s) hclosed with htimed | hgone | hclosing
  · exact htimed
  · rw [hp] at hgone
    cases hgone
  · rw [hp] at hclosing
    cases hclosing

theorem Inv.lost (h : Inv cfg w) {s : Bool} (hp : (w s).phase = .session)
    (hl : (w s).lost = true) : (∃ t, (w t).timedOut = true) ∨ (w !s).phase.letGo = true := by
  rcases (h.tidy s).lost hl with hgone | htimed
  · cases ho : (w !s).phase with
    | closed => exact Or.inl ⟨!s, h.other_closed hp ho⟩
    | dropped | cancelled => exact Or.inr rfl
    | failed e =>
      rcases h.other_failed (by rw [hp]; rfl) ho with htimed | hdropped
      · exact Or.inl htimed
      · rw [hp] at hdropped
        cases hdropped
    | handshake | hello | session | draining | stopping =>
      rw [ho] at hgone
      cases hgone
  · exact Or.inl ⟨s, htimed⟩

theorem forall_update {P : Bool → Peer → Peer → Prop} {s : Bool} {p : Peer} (hme : P s p (w !s))
    (hother : P (!s) (w !s) p) (t : Bool) :
    P t (Function.update w s p t) (Function.update w s p (!t)) := by
  by_cases hts : t = s
  · subst hts
    rw [Function.update_self, Function.update_of_ne (by simp)]
    exact hme
  · obtain rfl : t = !s := by cases s <;> cases t <;> simp_all
    rw [Function.update_of_ne (by simp), Bool.not_not, Function.update_self]
    exact hother

theorem Inv.moves (h : Inv cfg w) {s : Bool} {p : Peer} (hmove : Moves cfg s (w s) (w !s) p) :
    Inv cfg (Function.update w s p) := by
  have hs := h.stream (!s)
  have ht := h.tidy (!s)
  have hheard := h.heard (!s)
  rw [Bool.not_not] at hs ht hheard
  have ht' : Tidy p (w !s) := hmove.tidy (h.tidy s)
  refine ⟨?_, ?_, ?_, ?_, ?_⟩
  · exact forall_update (P := fun _ p q => Stream p q) (hmove.stream (h.stream s))
      (hmove.stream_other hs (h.tidy s) ht')
  · exact forall_update (P := fun _ p q => Tidy p q) ht' (hmove.tidy_other ht)
  · exact forall_update (P := fun t p _ => Shape cfg t p) (hmove.shape (h.shape s) (h.shape (!s)))
      (h.shape (!s))
  · cases s with
    | false => exact hmove.agreed_server h.agreed
    | true =>
      exact hmove.agreed_client h.agreed (h.stream true)
        (excused_of_helloFails (h.stream true) hs (h.tidy true) ht (h.shape true) (h.shape false))
        (h.shape false) (h.shape true)
  · obtain ⟨n, k, m, hother⟩ := hheard
    obtain ⟨n', k', m', hme⟩ := h.heard s
    exact forall_update (P := fun _ p q => ∃ n k m, Heard cfg p q n k m)
      (hmove.heard hme (h.stream s) (h.shape s))
      ⟨n, k, m, hmove.heard_other hother (h.tidy s) ht'⟩

theorem Inv.step (h : Inv cfg w) {a : Bool × Act} (hstep : step cfg w a = some w') :
    Inv cfg w' := by
  obtain ⟨p, hp, rfl⟩ := Option.map_eq_some_iff.mp hstep
  exact h.moves (step_moves (h.stream a.1).read_le hp)

theorem inv_run (h : run (Quic.step cfg) start as = some w) : Inv cfg w :=
  run_invariant (fun _ _ _ hw hstep => hw.step hstep) h inv_start

/-- An end gets a session only where both keys were the expected ones and both hellos the same, and
the dialing end only after the accepting end. From then on the other end fails only where a
connection has timed out or the session was dropped. -/
theorem sessions_agree (h : run (Quic.step cfg) start as = some w) {s : Bool}
    (hheld : (w s).phase.held = true) :
    (∀ t, cfg.pinned t = true) ∧ cfg.alpn true = cfg.alpn false ∧ (w false).phase.held = true ∧
      ∀ e, (w !s).phase = .failed e →
        (∃ t, (w t).timedOut = true) ∨ (w s).phase = .dropped := by
  have hinv := inv_run h
  have hsv : (w false).phase.held = true := by
    cases s with
    | false => exact hheld
    | true => exact hinv.agreed.holds hheld
  obtain ⟨hpin, halpn, -, hread⟩ := (hinv.shape false).held hsv
  have hspoke : (w true).sent ≠ [] := by
    rintro hnil
    have hle := (hinv.stream false).read_le.trans (hinv.stream false).arrived_le
    rw [show (w !false).sent = [] from hnil, List.length_nil] at hle
    omega
  refine ⟨fun t => ?_, halpn, hsv, fun e hfailed => hinv.other_failed hheld hfailed⟩
  cases t with
  | false => exact hpin
  | true => exact (hinv.shape true).spoke hspoke

def sampleConfig : Config := ⟨fun _ => true, fun _ => [1], "refused", "connection lost"⟩

def sampleHello : List (Bool × Act) :=
  [(true, .connect), (false, .connect), (false, .arrive), (false, .expectHello), (true, .arrive),
    (true, .expectHello)]

/-- Each end sends one message, and the accepting end closes before it is read. -/
def sampleTalk : List (Bool × Act) :=
  sampleHello ++ [(true, .send [7]), (false, .send [8]), (false, .close), (true, .arrive),
    (true, .recv), (true, .arriveFin), (true, .recv)]

def sampleAfter (as : List (Bool × Act)) : Bool → Peer :=
  (run (Quic.step sampleConfig) start as).getD start

theorem run_talk :
    run (Quic.step sampleConfig) start sampleTalk = some (sampleAfter sampleTalk) := rfl

/-- The accepting end drops its session before its hello has come back. -/
def sampleDrop : List (Bool × Act) :=
  sampleHello.take 4 ++ [(false, .drop), (true, .lose), (true, .expectHello)]

theorem run_drop : run (Quic.step sampleConfig) start sampleDrop = some (sampleAfter sampleDrop) :=
  rfl

theorem sessions_agree_drop :
    (sampleAfter sampleDrop true).phase =
        .failed (.session s!"read length: {sampleConfig.gone}") ∧
      ((∃ t, (sampleAfter sampleDrop t).timedOut = true) ∨
        (sampleAfter sampleDrop false).phase = .dropped) := by
  refine ⟨rfl, ?_⟩
  exact (sessions_agree (s := false) run_drop rfl).2.2.2 _ rfl

/-- An end with a session keeps its connection until one times out or the other end is let go, and
the `close` of the other end does not return before that. What its `recv` returned is what the other
end sent behind its hello, in order. It hears that the channel is closed only when it has all of it,
and a lost connection is the last that it hears of. -/
theorem close_graceful (h : run (Quic.step cfg) start as = some w) {s : Bool}
    (hp : (w s).phase = .session) :
    ((w s).lost = true → (∃ t, (w t).timedOut = true) ∨ (w !s).phase.letGo = true) ∧
      ((w !s).phase = .closed → (w !s).timedOut = true) ∧
      ∃ k m, (w s).got = (((w !s).sent.take (w s).read).drop 1).map .ok ++
          List.replicate k closedByPeer ++ List.replicate m (connectionLost cfg) ∧
        (0 < k → (w !s).phase.closing = true ∧ (w s).read = (w !s).sent.length) ∧
        (0 < m → (w s).lost = true) := by
  have hinv := inv_run h
  obtain ⟨n, k, m, hgot, -, hend, hlost, hread, -⟩ := hinv.heard s
  obtain rfl := hread hp
  refine ⟨hinv.lost hp, hinv.other_closed hp, k, m, hgot, fun hk => ?_, hlost⟩
  obtain ⟨hfin, hall⟩ := hend hk
  have ht := hinv.tidy (!s)
  exact ⟨ht.fin ▸ hfin, hall⟩

theorem close_graceful_talk :
    (sampleAfter sampleTalk true).got = [.ok [8], closedByPeer] ∧
      ((sampleAfter sampleTalk true).lost = true →
        (∃ t, (sampleAfter sampleTalk t).timedOut = true) ∨
          (sampleAfter sampleTalk false).phase.letGo = true) :=
  ⟨rfl, (close_graceful (s := true) run_talk rfl).1⟩

/-! ## Both ends close -/

def Phase.rank : Phase → Nat
  | draining => 2
  | stopping => 1
  | _ => 0

/-- What an end that closes can still be told and can still do. -/
def left (me other : Peer) : Nat :=
  (other.sent.length - me.arrived) + (other.sent.length - me.read) + (1 - me.finArrived.toNat) +
    (1 - me.lost.toNat) + me.phase.rank

def remaining (w : Bool → Peer) : Nat := left (w true) (w false) + left (w false) (w true)

theorem Moves.left_lt {s : Bool} {me other me' : Peer} (hs : Stream me other)
    (hc : me.phase.closing = true) (hmove : Moves cfg s me other me') :
    left me' other < left me other ∧ left other me' = left other me := by
  have hle := hs.read_le.trans hs.arrived_le
  have hlen := hs.arrived_le
  refine ⟨?_, by unfold left; rw [(hmove.sent.2 hc).1]⟩
  cases hmove with
  | stays hp | refuses e hp | connects hp | fails e k hp | greets hp | sends msg hp
  | receives msg hp | ends hp | breaks hp | closes hp | drops hp =>
    rw [hp] at hc
    cases hc
  | cancels hp =>
    rcases hp with hp | hp <;> rw [hp] at hc <;> cases hc
  | discards hp hlt =>
    simp only [left]
    omega
  | drained hp | stops hp =>
    simp only [left, hp, Phase.rank]
    omega
  | arrives hlt =>
    simp only [left]
    omega
  | arrivesFin _ hnew | loses _ hnew | timesOut hnew =>
    simp only [left, hnew, Bool.toNat_true, Bool.toNat_false]
    omega

/-- Both have called `close`. -/
def Closing (w : Bool → Peer) : Prop := ∀ s, (w s).phase.closing = true

theorem remaining_step (h : Inv cfg w ∧ Closing w) {a : Bool × Act}
    (hstep : step cfg w a = some w') : (Inv cfg w' ∧ Closing w') ∧ remaining w' < remaining w := by
  obtain ⟨p, hp, rfl⟩ := Option.map_eq_some_iff.mp hstep
  have hmove := step_moves (h.1.stream a.1).read_le hp
  obtain ⟨hlt, heq⟩ := hmove.left_lt (h.1.stream a.1) (h.2 a.1)
  refine ⟨⟨h.1.moves hmove, ?_⟩, ?_⟩
  · exact forall_update (P := fun _ p _ => p.phase.closing = true) (hmove.sent.2 (h.2 a.1)).2
      (h.2 (!a.1))
  · obtain ⟨s, a⟩ := a
    cases s <;> simp only [remaining, Bool.not_true, Bool.not_false, Function.update_self, ne_eq,
      reduceCtorEq, not_false_eq_true, Function.update_of_ne] at hlt heq ⊢ <;> omega

/-- Nothing more can happen but that a connection times out whose other end has not. -/
def Stuck (cfg : Config) (w : Bool → Peer) : Prop :=
  ∀ s a, (a = .timeOut → (w !s).timedOut = true) → step cfg w (s, a) = none

theorem all_here (h : Inv cfg w) (hc : Closing w) (hstuck : Stuck cfg w) (s : Bool) :
    (w s).lost = true ∨ (w s).finArrived = true := by
  by_contra hnot
  rw [not_or, Bool.not_eq_true, Bool.not_eq_true] at hnot
  obtain ⟨hl, hf⟩ := hnot
  have hofin : (w !s).fin = true := (h.tidy (!s)).fin.trans (hc (!s))
  rcases Nat.lt_or_eq_of_le (h.stream s).arrived_le with hlt | heq
  · have := hstuck s .arrive (by simp)
    simp [step, Peer.step, hl, hlt] at this
  · have := hstuck s .arriveFin (by simp)
    simp [step, Peer.step, hl, hf, hofin, heq] at this

theorem find_ne_wait {me other : Peer} (hs : Stream me other)
    (hhere : me.lost = true ∨ me.finArrived = true) : me.find other ≠ .wait := by
  unfold Peer.find
  split
  · simp
  · rename_i hl
    split
    · rename_i hlt
      rw [List.getElem?_eq_getElem (Nat.lt_of_lt_of_le hlt hs.arrived_le)]
      simp
    · rw [if_pos (hhere.resolve_left hl)]
      simp

theorem closed_of_stuck (h : Inv cfg w) (hc : Closing w) (hstuck : Stuck cfg w) (s : Bool) :
    (w s).phase = .closed := by
  have hhere := all_here h hc hstuck
  have hs := h.stream (!s)
  have ht := h.tidy (!s)
  rw [Bool.not_not] at hs ht
  cases hp : (w s).phase with
  | closed => rfl
  | draining =>
    have hwait := find_ne_wait (h.stream s) (hhere s)
    have := hstuck s .drain (by simp)
    simp only [step, Peer.step, hp, if_true, Option.map_eq_none_iff] at this
    cases hf : (w s).find (w !s) <;> rw [hf] at this hwait
    case wait => exact absurd rfl hwait
    all_goals cases this
  | stopping =>
    have hall : (w s).lost = true ∨
        (w !s).arrived = (w s).sent.length ∧ (w !s).finArrived = true := by
      rcases hhere (!s) with hl | hf
      · rcases ht.lost hl with hgone | htimed
        · rw [hp] at hgone
          cases hgone
        · by_contra hnot
          have hlive := Bool.eq_false_of_not_eq_true (not_or.mp hnot).1
          have := hstuck s .timeOut fun _ => htimed
          simp [step, Peer.step, hlive] at this
      · exact Or.inr ⟨(hs.fin hf).2, hf⟩
    have := hstuck s .stopped (by simp)
    simp [step, Peer.step, hp, hall] at this
  | handshake | hello | session | dropped | cancelled | failed e =>
    have hclosing := hc s
    rw [hp] at hclosing
    cases hclosing

/-- Once both ends have called `close`, there is an end to what can happen, in whatever order it
happens, and then both calls have returned. They need no time-out for that, unless one has come to
the other end. -/
theorem close_converges (h : run (Quic.step cfg) start as = some w) (hc : Closing w)
    (h' : run (Quic.step cfg) w bs = some w') :
    bs.length ≤ remaining w ∧
      (Stuck cfg w' → ∀ s, (w' s).phase = .closed) := by
  have hlen := run_length_le (I := fun w => Inv cfg w ∧ Closing w)
    (fun _ _ _ hw hstep => remaining_step hw hstep) h' ⟨inv_run h, hc⟩
  have hlast : Inv cfg w' ∧ Closing w' :=
    run_invariant (I := fun w => Inv cfg w ∧ Closing w)
      (fun _ _ _ hw hstep => (remaining_step hw hstep).1) h' ⟨inv_run h, hc⟩
  exact ⟨by omega, fun hstuck s => closed_of_stuck hlast.1 hlast.2 hstuck s⟩

def sampleBye : List (Bool × Act) :=
  [(false, .arrive), (false, .drain), (false, .arriveFin), (false, .drain), (true, .drain),
    (false, .stopped), (true, .lose), (true, .stopped)]

def sampleBoth : List (Bool × Act) := sampleTalk ++ [(true, .close)]

theorem run_both_close :
    run (Quic.step sampleConfig) start sampleBoth = some (sampleAfter sampleBoth) := rfl

theorem run_bye : run (Quic.step sampleConfig) (sampleAfter sampleBoth) sampleBye =
    some (sampleAfter (sampleBoth ++ sampleBye)) := rfl

theorem close_converges_bye : (∀ s, (sampleAfter (sampleBoth ++ sampleBye) s).phase = .closed) ∧
    sampleBye.length ≤ remaining (sampleAfter sampleBoth) := by
  refine ⟨?_, (close_converges run_both_close ?_ run_bye).1⟩ <;> intro s <;> cases s <;> rfl

end Runs

end AtomVault.Live.Quic
