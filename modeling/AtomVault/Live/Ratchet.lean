import AtomVault.Lib.Machine
import AtomVault.Transfer.Framing

/-!
# When a session asks for new keys (`session.rs`, `tls.rs`)

Both kinds of session count what they have written, and ask the library for a key update once the
count is over an interval. QUIC has no answer to that. TLS can refuse.
-/

open Lib

namespace AtomVault.Live.Ratchet

open Transfer (Error MAX_FRAME_LEN Wire writeFrame)

def U64_MAX : Nat := 2 ^ 64 - 1

def DEFAULT_KEY_UPDATE_BYTES : Nat := 256 * 1024 * 1024

/-- What was counted between two updates, how many were refused in between, and the smallest and
the largest interval that was set. -/
structure Window where
  bytes : Nat
  refused : Nat
  least : Nat
  most : Nat
  deriving DecidableEq

structure Session where
  wire : Wire
  keyUpdateBytes : Nat
  bytesSinceUpdate : Nat
  keyUpdates : Nat
  past : List Window
  current : Window
  /-- What sends that failed have written. -/
  uncounted : Nat

/-- The window that begins with an update. -/
def Window.new (interval : Nat) : Window := ⟨0, 0, interval, interval⟩

def Session.new (wire : Wire) : Session where
  wire := wire
  keyUpdateBytes := DEFAULT_KEY_UPDATE_BYTES
  bytesSinceUpdate := 0
  keyUpdates := 0
  past := []
  current := .new DEFAULT_KEY_UPDATE_BYTES
  uncounted := 0

def Window.widen (w : Window) (interval : Nat) : Window :=
  { w with least := min w.least interval, most := max w.most interval }

def Session.setKeyUpdateInterval (s : Session) (bytes : UInt64) : Session :=
  { s with
    keyUpdateBytes := max bytes.toNat 1
    current := s.current.widen (max bytes.toNat 1) }

def saturatingAdd (a b : Nat) : Nat := min (a + b) U64_MAX

def Session.count (s : Session) (n : Nat) : Session :=
  { s with
    bytesSinceUpdate := saturatingAdd s.bytesSinceUpdate n
    current := { s.current with bytes := s.current.bytes + n } }

def Session.refuse (s : Session) : Session :=
  { s with current := { s.current with refused := s.current.refused + 1 } }

def Session.update (s : Session) : Session :=
  { s with
    bytesSinceUpdate := 0
    keyUpdates := s.keyUpdates + 1
    past := s.past ++ [s.current]
    current := .new s.keyUpdateBytes }

/-- `update` is what the library says to the update, if it is asked for one. -/
def accountSent (s : Session) (n : Nat) (update : Except String Unit) :
    Except Error Unit × Session :=
  if (s.count n).bytesSinceUpdate < s.keyUpdateBytes then (.ok (), s.count n)
  else
    match update with
    | .error e => (.error (.session s!"key update refused: {e}"), (s.count n).refuse)
    | .ok () => (.ok (), (s.count n).update)

/-- The wire after a send that failed. -/
def Session.fail (s : Session) (wire : Wire) : Session :=
  { s with
    wire := wire
    uncounted := s.uncounted + (wire.sent.length - s.wire.sent.length) }

def sendFrame (s : Session) (msg : Bytes) (flush update : Except String Unit) :
    Except Error Unit × Session :=
  match writeFrame msg s.wire with
  | .error e wire => (.error e, s.fail wire)
  | .ok n wire =>
    match flush with
    | .error e => (.error (.session s!"flush: {e}"), s.fail wire)
    | .ok () => accountSent { s with wire := wire } n update

namespace Quic

inductive Act
  | setInterval (bytes : UInt64)
  | send (msg : Bytes)

/-- `force_key_update` has no answer, and a QUIC stream needs no flush. -/
def sendFrame (s : Session) (msg : Bytes) : Except Error Unit × Session :=
  Ratchet.sendFrame s msg (.ok ()) (.ok ())

def step (s : Session) : Act → Option Session
  | .setInterval bytes => some (s.setKeyUpdateInterval bytes)
  | .send msg => some (sendFrame s msg).2

end Quic

namespace Tls

inductive Act
  | setInterval (bytes : UInt64)
  /-- With what the flush gives, and `refresh_traffic_keys`. -/
  | send (msg : Bytes) (flush refresh : Except String Unit)

def step (s : Session) : Act → Option Session
  | .setInterval bytes => some (s.setKeyUpdateInterval bytes)
  | .send msg flush refresh => some (sendFrame s msg flush refresh).2

end Tls

/-! ## What is written -/

/-- The largest frame. -/
def FRAME : Nat := 4 + MAX_FRAME_LEN

theorem length_writeAll {what : String} {b : Bytes} {w w' : Wire}
    (h : Wire.writeAll what b w = .ok () w') : w'.sent.length = w.sent.length + b.length := by
  unfold Wire.writeAll at h
  split at h <;> cases h
  exact List.length_append

theorem le_writeAll {what : String} {b : Bytes} {w w' : Wire} {e : Error}
    (h : Wire.writeAll what b w = .error e w') : w.sent.length ≤ w'.sent.length := by
  unfold Wire.writeAll at h
  split at h <;> cases h
  rw [List.length_append]
  exact Nat.le_add_right _ _

theorem writeFrame_eq_ok {msg : Bytes} {w w' : Wire} {n : Nat} (h : writeFrame msg w = .ok n w') :
    n ≤ FRAME ∧ w'.sent.length = w.sent.length + n := by
  unfold writeFrame at h
  split at h
  · cases h
  · rename_i hlen
    simp only [bind, EStateM.bind, pure, EStateM.pure] at h
    split at h
    · rename_i w₁ hfirst
      split at h
      · rename_i w₂ hsecond
        cases h
        rw [length_writeAll hsecond, length_writeAll hfirst, length_beBytes]
        unfold FRAME
        omega
      · cases h
    · cases h

theorem writeFrame_eq_error {msg : Bytes} {w w' : Wire} {e : Error}
    (h : writeFrame msg w = .error e w') : w.sent.length ≤ w'.sent.length := by
  unfold writeFrame at h
  split at h
  · cases h
    exact Nat.le_refl _
  · simp only [bind, EStateM.bind, pure, EStateM.pure] at h
    split at h
    · rename_i w₁ hfirst
      split at h
      · cases h
      · rename_i hsecond
        cases h
        have hgrown := length_writeAll hfirst
        have hmore := le_writeAll hsecond
        omega
    · rename_i hfirst
      cases h
      exact le_writeAll hfirst

/-! ## What a window has -/

structure Counted (s : Session) : Prop where
  pos : 0 < s.keyUpdateBytes
  u64 : s.keyUpdateBytes ≤ U64_MAX
  interval : s.current.least ≤ s.keyUpdateBytes ∧ s.keyUpdateBytes ≤ s.current.most
  since : s.bytesSinceUpdate = min s.current.bytes U64_MAX
  current : s.current.bytes < s.current.most + s.current.refused * FRAME
  full : 0 < s.current.refused → s.current.least ≤ s.current.bytes
  past : ∀ window ∈ s.past, window.least ≤ window.bytes ∧
    window.bytes < window.most + (window.refused + 1) * FRAME
  updates : s.keyUpdates = s.past.length
  wire : (s.past.map Window.bytes).sum + s.current.bytes + s.uncounted = s.wire.sent.length

section Counted

variable {s : Session}

theorem counted_new {wire : Wire} (hwire : wire.sent = []) : Counted (Session.new wire) where
  pos := show 0 < DEFAULT_KEY_UPDATE_BYTES by decide
  u64 := show DEFAULT_KEY_UPDATE_BYTES ≤ U64_MAX by decide
  interval := ⟨Nat.le_refl _, Nat.le_refl _⟩
  since := rfl
  current := show 0 < DEFAULT_KEY_UPDATE_BYTES + 0 * FRAME by decide
  full h := absurd h (Nat.lt_irrefl 0)
  past _ h := by cases h
  updates := rfl
  wire := by simp [Session.new, Window.new, hwire]

theorem Counted.setKeyUpdateInterval (h : Counted s) (bytes : UInt64) :
    Counted (s.setKeyUpdateInterval bytes) where
  pos := Nat.lt_of_lt_of_le Nat.zero_lt_one (Nat.le_max_right _ _)
  u64 := max_le (Nat.le_pred_of_lt bytes.toNat_lt) (by decide)
  interval := ⟨Nat.min_le_right _ _, Nat.le_max_right _ _⟩
  since := h.since
  current := by
    refine Nat.lt_of_lt_of_le h.current (Nat.add_le_add_right ?_ _)
    exact Nat.le_max_left _ _
  full hrefused := (Nat.min_le_left _ _).trans (h.full hrefused)
  past := h.past
  updates := h.updates
  wire := h.wire

theorem Counted.fail (h : Counted s) {wire : Wire}
    (hle : s.wire.sent.length ≤ wire.sent.length) : Counted (s.fail wire) where
  pos := h.pos
  u64 := h.u64
  interval := h.interval
  since := h.since
  current := h.current
  full := h.full
  past := h.past
  updates := h.updates
  wire := by
    have hwire := h.wire
    simp only [Session.fail]
    omega

theorem Counted.accountSent (h : Counted s) {wire : Wire} {n : Nat} (hn : n ≤ FRAME)
    (hwire : wire.sent.length = s.wire.sent.length + n) (update : Except String Unit) :
    Counted (accountSent { s with wire := wire } n update).2 := by
  obtain ⟨hpos, hu64, ⟨hleast, hmost⟩, hsince, hcurrent, hfull, hpast, hupdates, hsum⟩ := h
  have hbound : s.current.bytes + n < s.current.most + (s.current.refused + 1) * FRAME := by
    rw [Nat.add_mul, Nat.one_mul]
    omega
  have hcount : saturatingAdd s.bytesSinceUpdate n = min (s.current.bytes + n) U64_MAX := by
    unfold saturatingAdd
    omega
  have hon : (s.past.map Window.bytes).sum + (s.current.bytes + n) + s.uncounted =
      wire.sent.length := by
    omega
  unfold Ratchet.accountSent
  split
  · rename_i hlt
    have hlt : saturatingAdd s.bytesSinceUpdate n < s.keyUpdateBytes := hlt
    have hunder : s.current.bytes + n < s.keyUpdateBytes := by omega
    refine ⟨hpos, hu64, ⟨hleast, hmost⟩, hcount, ?_, fun hrefused => ?_, hpast, hupdates, hon⟩
    · exact Nat.lt_of_lt_of_le hunder (hmost.trans (Nat.le_add_right _ _))
    · exact (hfull hrefused).trans (Nat.le_add_right _ _)
  · rename_i hge
    have hge : ¬ saturatingAdd s.bytesSinceUpdate n < s.keyUpdateBytes := hge
    have hover : s.current.least ≤ s.current.bytes + n := by omega
    cases update with
    | error e =>
      exact ⟨hpos, hu64, ⟨hleast, hmost⟩, hcount, hbound, fun _ => hover, hpast, hupdates, hon⟩
    | ok u =>
      refine ⟨hpos, hu64, ⟨Nat.le_refl _, Nat.le_refl _⟩, rfl, ?_,
        fun hrefused => absurd hrefused (Nat.lt_irrefl 0), fun window hwindow => ?_, ?_, ?_⟩
      · exact Nat.lt_of_lt_of_le hpos (Nat.le_add_right _ _)
      · rcases List.mem_append.mp hwindow with hwindow | hwindow
        · exact hpast window hwindow
        · rw [List.mem_singleton.mp hwindow]
          exact ⟨hover, hbound⟩
      · show s.keyUpdates + 1 = (s.past ++ [_]).length
        rw [hupdates, List.length_append, List.length_singleton]
      · show ((s.past ++ [_]).map Window.bytes).sum + 0 + s.uncounted = wire.sent.length
        simp only [List.map_append, List.sum_append, List.map_singleton, List.sum_singleton]
        exact hon

theorem Counted.sendFrame (h : Counted s) (msg : Bytes) (flush update : Except String Unit) :
    Counted (sendFrame s msg flush update).2 := by
  unfold Ratchet.sendFrame
  split
  · rename_i e wire hwrite
    exact h.fail (writeFrame_eq_error hwrite)
  · rename_i n wire hwrite
    obtain ⟨hn, hwire⟩ := writeFrame_eq_ok hwrite
    cases flush with
    | error e => exact h.fail (by omega)
    | ok u => exact h.accountSent hn hwire update

end Counted

/-! ## QUIC -/

section Quic

/-- What QUIC is asked for is not refused. -/
def Granted (s : Session) : Prop := ∀ window ∈ s.past ++ [s.current], window.refused = 0

theorem Granted.sendFrame {s : Session} (h : Granted s) (msg : Bytes) :
    Granted (Quic.sendFrame s msg).2 := by
  have hpast : ∀ window ∈ s.past, window.refused = 0 :=
    fun window hwindow => h window (List.mem_append_left _ hwindow)
  have hcurrent : s.current.refused = 0 := h _ (List.mem_append_right _ List.mem_cons_self)
  unfold Quic.sendFrame Ratchet.sendFrame
  split
  · exact h
  · unfold accountSent
    dsimp only
    split
    · intro window hwindow
      rcases List.mem_append.mp hwindow with hwindow | hwindow
      · exact hpast window hwindow
      · rw [List.mem_singleton.mp hwindow]
        exact hcurrent
    · intro window hwindow
      rcases List.mem_append.mp hwindow with hwindow | hwindow
      · rcases List.mem_append.mp hwindow with hwindow | hwindow
        · exact hpast window hwindow
        · rw [List.mem_singleton.mp hwindow]
          exact hcurrent
      · rw [List.mem_singleton.mp hwindow]
        rfl

def bigMessage : Bytes := [1, 2, 3, 4]

end Quic

/-! ## TLS -/

section Tls

/-- A refused update leaves the count where it is, and the next message asks again unless the
interval is raised. What is written between two updates is less than the interval, one frame, and
one more for each refusal. -/
theorem tls_windows {s : Session} {as : List Tls.Act} {faults : Nat → Option (Nat × String)}
    (h : run Tls.step (Session.new ⟨[], faults, 0⟩) as = some s) :
    (∀ window ∈ s.past, window.least ≤ window.bytes ∧
      window.bytes < window.most + (window.refused + 1) * FRAME) ∧
      s.current.bytes < s.current.most + s.current.refused * FRAME ∧
      s.keyUpdates = s.past.length ∧
      (s.past.map Window.bytes).sum + s.current.bytes + s.uncounted = s.wire.sent.length ∧
      s.bytesSinceUpdate = min s.current.bytes U64_MAX ∧
      (0 < s.current.refused → s.current.least ≤ s.bytesSinceUpdate) := by
  have hcounted : Counted s := by
    refine run_invariant (I := Counted) (fun s a s' hs hstep => ?_) h (counted_new rfl)
    cases a with
    | setInterval bytes =>
      cases hstep
      exact hs.setKeyUpdateInterval bytes
    | send msg flush refresh =>
      cases hstep
      exact hs.sendFrame msg flush refresh
  have hsince := hcounted.since
  refine ⟨hcounted.past, hcounted.current, hcounted.updates, hcounted.wire, hsince,
    fun hrefused => ?_⟩
  have hfull := hcounted.full hrefused
  have hleast := hcounted.interval.1
  have hu64 := hcounted.u64
  omega

def sampleRefused : List Tls.Act :=
  [.setInterval 5, .send bigMessage (.ok ()) (.error "limit"), .send bigMessage (.ok ()) (.ok ()),
    .send [] (.ok ()) (.ok ()), .send [] (.error "reset") (.ok ())]

theorem tls_windows_sample : ∃ s,
    run Tls.step (Session.new ⟨[], fun _ => none, 0⟩) sampleRefused = some s ∧
      s.past = [⟨16, 1, 5, DEFAULT_KEY_UPDATE_BYTES⟩] ∧ s.keyUpdates = s.past.length ∧
      (s.past.map Window.bytes).sum + s.current.bytes + s.uncounted = s.wire.sent.length := by
  refine ⟨_, rfl, rfl, ?_⟩
  have hrun : run Tls.step (Session.new ⟨[], fun _ => none, 0⟩) sampleRefused = some _ := rfl
  obtain ⟨-, -, hupdates, hwire, -⟩ := tls_windows hrun
  exact ⟨hupdates, hwire⟩

end Tls

end AtomVault.Live.Ratchet
