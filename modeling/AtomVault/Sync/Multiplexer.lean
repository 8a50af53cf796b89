import AtomVault.Lib.Machine
import AtomVault.Lib.Mailbox

/-!
# The multiplexer task (`transport.rs`)

One task polls a Yamux connection. It serves the calls of `open_stream`, which come over one
bounded channel, and hands the inbound streams to a consumer over another.
-/

open Lib

namespace AtomVault.Sync.Multiplexer

/-- The capacity of both channels. -/
def CAPACITY : Nat := 32

inductive Poll (α : Type)
  | ready (a : α)
  | pending
  deriving DecidableEq

/-- What `open_stream` gets: what the connection gave for it, or a closed channel. -/
inductive Reply (S E : Type)
  | stream (s : S)
  | failed (e : E)
  | closed
  deriving DecidableEq

/-- Where the closure of `poll_fn` is. -/
inductive Phase
  | control
  | outbound
  | inbound
  | parked
  | ended
  deriving DecidableEq

/-- `R` stands for the calls of `open_stream`, `S` for the streams and `E` for Yamux errors. -/
structure Mux (R S E : Type) where
  phase : Phase
  /-- Every call of `open_stream`, in order. -/
  calls : List R
  /-- The calls that wait for room in the control channel. -/
  waiting : List R
  control : List R
  pendingOpens : List R
  answers : List (R × Reply S E)
  /-- What `poll_new_outbound` gave, in order. -/
  opened : List (Except E S)
  inbound : Mailbox S CAPACITY

inductive Act (R S E : Type)
  | openStream (r : R)
  | send
  | wake
  | pollRecv (polled : Poll Unit)
  | pollNewOutbound (polled : Poll (Except E S))
  | noneOpen
  | pollNextInbound (polled : Poll (Option (Except E S)))
  | recv
  | close

section Model

variable {R S E : Type}

def Reply.ofResult : Except E S → Reply S E
  | .ok s => .stream s
  | .error e => .failed e

def Reply.result : Reply S E → Option (Except E S)
  | stream s => some (.ok s)
  | failed e => some (.error e)
  | closed => none

def Mux.start : Mux R S E := ⟨.control, [], [], [], [], [], [], .empty⟩

/-- The task returns, and every sender it holds is dropped. -/
def Mux.finish (m : Mux R S E) : Mux R S E :=
  { m with
    phase := .ended
    answers := m.answers ++ (m.pendingOpens ++ m.control ++ m.waiting).map fun r => (r, .closed)
    waiting := []
    control := []
    pendingOpens := [] }

def step (m : Mux R S E) : Act R S E → Option (Mux R S E)
  | .openStream r =>
    if m.phase = .ended then
      some { m with calls := m.calls ++ [r], answers := m.answers ++ [(r, .closed)] }
    else some { m with calls := m.calls ++ [r], waiting := m.waiting ++ [r] }
  -- senders get into the channel in the order they came
  | .send =>
    match m.waiting with
    | r :: waiting =>
      if m.control.length < CAPACITY then
        some { m with waiting := waiting, control := m.control ++ [r] }
      else none
    | [] => none
  | .wake => if m.phase = .parked then some { m with phase := .control } else none
  -- a channel can be pending with messages in it, when the task has used up its budget
  | .pollRecv polled =>
    if m.phase = .control then
      match polled, m.control with
      | .ready (), r :: control =>
        some { m with control := control, pendingOpens := m.pendingOpens ++ [r] }
      | .ready (), [] => none
      | .pending, _ => some { m with phase := .outbound }
    else none
  | .pollNewOutbound polled =>
    if m.phase = .outbound then
      match m.pendingOpens, polled with
      | r :: pendingOpens, .ready result =>
        some { m with
          pendingOpens := pendingOpens
          answers := m.answers ++ [(r, .ofResult result)]
          opened := m.opened ++ [result] }
      | _ :: _, .pending => some { m with phase := .inbound }
      | [], _ => none
    else none
  | .noneOpen =>
    if m.phase = .outbound ∧ m.pendingOpens = [] then some { m with phase := .inbound } else none
  | .pollNextInbound polled =>
    if m.phase = .inbound then
      match polled with
      -- the result of `try_send` is dropped
      | .ready (some (.ok stream)) => some { m with inbound := m.inbound.trySend stream }
      | .ready (some (.error _)) => some m.finish
      | .ready none => some m.finish
      | .pending => some { m with phase := .parked }
    else none
  | .recv => m.inbound.recv.map fun inbound => { m with inbound := inbound }
  | .close => some { m with inbound := m.inbound.close }

end Model

/-! ## What is promised -/

section Promise

variable {R S E : Type} {m m' : Mux R S E}

/-- Every call is answered once, in order, with what the connection gave next. None is left open
when the task has ended. -/
structure Answered (m : Mux R S E) : Prop where
  order : m.calls = m.answers.map Prod.fst ++ (m.pendingOpens ++ m.control ++ m.waiting)
  given : m.answers.filterMap (fun answer => answer.2.result) = m.opened
  ended : m.phase = .ended → m.pendingOpens ++ m.control ++ m.waiting = []

/-- Every stream that was yielded has got to the consumer, or waits for it, in order. -/
def Delivered (m : Mux R S E) : Prop := m.inbound.listening = true → m.inbound.Intact

/-- There is room for a stream when it is yielded. -/
def Room (m : Mux R S E) : Act R S E → Prop
  | .pollNextInbound (.ready (some (.ok _))) => m.inbound.items.length < CAPACITY
  | _ => True

instance (m : Mux R S E) : ∀ a, Decidable (Room m a)
  | .pollNextInbound (.ready (some (.ok _))) =>
    inferInstanceAs (Decidable (m.inbound.items.length < CAPACITY))
  | .pollNextInbound (.ready (some (.error _))) => isTrue trivial
  | .pollNextInbound (.ready none) => isTrue trivial
  | .pollNextInbound .pending => isTrue trivial
  | .openStream _ => isTrue trivial
  | .send => isTrue trivial
  | .wake => isTrue trivial
  | .pollRecv _ => isTrue trivial
  | .pollNewOutbound _ => isTrue trivial
  | .noneOpen => isTrue trivial
  | .recv => isTrue trivial
  | .close => isTrue trivial

end Promise

/-! ## The calls -/

section Calls

variable {R S E : Type} {m m' : Mux R S E}

@[simp]
theorem result_ofResult (r : Except E S) : (Reply.ofResult r).result = some r := by
  cases r <;> rfl

theorem filterMap_closed (l : List R) :
    (l.map fun r => (r, (Reply.closed : Reply S E))).filterMap (fun answer => answer.2.result) =
      [] := by
  simp [Reply.result]

theorem answered_start : Answered (.start : Mux R S E) := ⟨rfl, rfl, fun _ => rfl⟩

theorem Answered.finish (h : Answered m) : Answered m.finish where
  order := by
    have horder := h.order
    simpa [Mux.finish, Function.comp_def] using horder
  given := by
    simp only [Mux.finish, List.filterMap_append, filterMap_closed, List.append_nil, h.given]
  ended _ := rfl

theorem Answered.moved (h : Answered m) (hcalls : m'.calls = m.calls)
    (hanswers : m'.answers = m.answers) (hopened : m'.opened = m.opened)
    (hopen : m'.pendingOpens ++ m'.control ++ m'.waiting =
      m.pendingOpens ++ m.control ++ m.waiting)
    (hended : m'.phase = .ended → m.phase = .ended) : Answered m' where
  order := by rw [hcalls, hanswers, hopen, h.order]
  given := by rw [hanswers, hopened, h.given]
  ended hphase := by rw [hopen, h.ended (hended hphase)]

theorem Answered.step (h : Answered m) {a : Act R S E} (hstep : step m a = some m') :
    Answered m' := by
  cases a with
  | openStream r =>
    simp only [Multiplexer.step] at hstep
    split at hstep
    · rename_i hphase
      cases hstep
      have hnone := h.ended hphase
      have horder := h.order
      rw [hnone] at horder
      refine ⟨?_, ?_, h.ended⟩
      · simpa [hnone] using horder
      · simpa [Reply.result] using h.given
    · rename_i hphase
      cases hstep
      refine ⟨?_, h.given, fun hended => absurd hended hphase⟩
      simp [h.order]
  | send =>
    simp only [Multiplexer.step] at hstep
    split at hstep
    · rename_i r waiting hwaiting
      split at hstep
      · cases hstep
        exact h.moved rfl rfl rfl (by simp [hwaiting]) id
      · cases hstep
    · cases hstep
  | wake =>
    simp only [Multiplexer.step] at hstep
    split at hstep
    · cases hstep
      exact h.moved rfl rfl rfl rfl (by simp)
    · cases hstep
  | pollRecv polled =>
    simp only [Multiplexer.step] at hstep
    split at hstep
    · split at hstep
      · rename_i r control hcontrol
        cases hstep
        exact h.moved rfl rfl rfl (by simp [hcontrol]) id
      · cases hstep
      · cases hstep
        exact h.moved rfl rfl rfl rfl (by simp)
    · cases hstep
  | pollNewOutbound polled =>
    simp only [Multiplexer.step] at hstep
    split at hstep
    · rename_i hphase
      split at hstep
      · rename_i r pendingOpens result hopens
        cases hstep
        refine ⟨?_, ?_, fun hended => ?_⟩
        · simp [h.order, hopens]
        · simp [h.given]
        · rw [hphase] at hended
          cases hended
      · cases hstep
        exact h.moved rfl rfl rfl rfl (by simp)
      · cases hstep
    · cases hstep
  | noneOpen =>
    simp only [Multiplexer.step] at hstep
    split at hstep
    · cases hstep
      exact h.moved rfl rfl rfl rfl (by simp)
    · cases hstep
  | pollNextInbound polled =>
    simp only [Multiplexer.step] at hstep
    split at hstep
    · split at hstep
      · cases hstep
        exact h.moved rfl rfl rfl rfl id
      · cases hstep
        exact h.finish
      · cases hstep
        exact h.finish
      · cases hstep
        exact h.moved rfl rfl rfl rfl (by simp)
    · cases hstep
  | recv =>
    obtain ⟨inbound, -, rfl⟩ := Option.map_eq_some_iff.mp hstep
    exact h.moved rfl rfl rfl rfl id
  | close =>
    cases hstep
    exact h.moved rfl rfl rfl rfl id

end Calls

/-! ## The streams -/

section Streams

variable {R S E : Type} {m m' : Mux R S E}

/-- What a step does to the mailbox: a stream is offered, or nothing is lost. -/
inductive Inbound (m : Mux R S E) (a : Act R S E) (m' : Mux R S E) : Prop
  | yields {stream : S} (hact : a = .pollNextInbound (.ready (some (.ok stream))))
    (hinbound : m'.inbound = m.inbound.trySend stream)
  | keeps (hroom : Room m a) (hlistening : m'.inbound.listening = true → m.inbound.listening = true)
    (hintact : m'.inbound.listening = true → (m'.inbound.Intact ↔ m.inbound.Intact))

theorem step_inbound {a : Act R S E} (hstep : step m a = some m') : Inbound m a m' := by
  have hsame : Room m a → m'.inbound = m.inbound → Inbound m a m' := by
    intro hroom hinbound
    refine .keeps hroom ?_ fun _ => ?_ <;> rw [hinbound]
    exact id
  cases a with
  | pollNextInbound polled =>
    simp only [step] at hstep
    split at hstep
    · split at hstep
      · cases hstep
        exact .yields rfl rfl
      · cases hstep
        exact hsame trivial rfl
      · cases hstep
        exact hsame trivial rfl
      · cases hstep
        exact hsame trivial rfl
    · cases hstep
  | recv =>
    obtain ⟨inbound, hrecv, rfl⟩ := Option.map_eq_some_iff.mp hstep
    obtain ⟨-, -, -, -, hlistening⟩ := Mailbox.recv_spec hrecv
    refine .keeps trivial ?_ fun _ => Mailbox.intact_recv_iff hrecv
    show inbound.listening = true → _
    rw [hlistening]
    exact id
  | close =>
    cases hstep
    exact .keeps trivial (by simp) (by simp)
  | openStream r =>
    simp only [step] at hstep
    split at hstep <;> cases hstep <;> exact hsame trivial rfl
  | send =>
    simp only [step] at hstep
    split at hstep
    · split at hstep <;> cases hstep
      exact hsame trivial rfl
    · cases hstep
  | wake =>
    simp only [step] at hstep
    split at hstep <;> cases hstep
    exact hsame trivial rfl
  | pollRecv polled =>
    simp only [step] at hstep
    split at hstep
    · split at hstep <;> cases hstep <;> exact hsame trivial rfl
    · cases hstep
  | pollNewOutbound polled =>
    simp only [step] at hstep
    split at hstep
    · split at hstep <;> cases hstep <;> exact hsame trivial rfl
    · cases hstep
  | noneOpen =>
    simp only [step] at hstep
    split at hstep <;> cases hstep
    exact hsame trivial rfl

theorem intact_iff_room {as : List (Act R S E)} (h : run step (.start : Mux R S E) as = some m) :
    m.inbound.listening = true → (m.inbound.Intact ↔ Allowed step Room .start as) := by
  induction as using List.reverseRecOn generalizing m with
  | nil =>
    cases h
    intro _
    exact iff_of_true rfl trivial
  | append_singleton as a ih =>
    obtain ⟨mid, hmid, hstep⟩ := run_concat_eq_some.mp h
    have ih := ih hmid
    rw [allowed_concat hmid]
    intro hlistening
    cases step_inbound hstep with
    | yields hact hinbound =>
      rw [hinbound, Mailbox.listening_trySend] at hlistening
      rw [hinbound, Mailbox.intact_trySend_iff hlistening, ih hlistening, hact]
      rfl
    | keeps hroom hkeep hintact =>
      rw [hintact hlistening, ih (hkeep hlistening)]
      exact (and_iff_left hroom).symm

/-- **The multiplexer.** Every call of `open_stream` is answered once and in order, and as long as
the consumer listens, no stream was lost just when there was room for every one that was yielded. -/
theorem multiplexed {as : List (Act R S E)} (h : run step (.start : Mux R S E) as = some m) :
    Answered m ∧
      (m.inbound.listening = true → (Delivered m ↔ Allowed step Room .start as)) := by
  refine ⟨run_invariant (fun m a m' hm hstep => hm.step hstep) h answered_start, ?_⟩
  intro hlistening
  rw [← intact_iff_room h hlistening]
  exact ⟨fun hdelivered => hdelivered hlistening, fun hintact _ => hintact⟩

end Streams

/-! ### A busy connection -/

/-- A call of `open_stream` is answered, and the task gets to the inbound streams. -/
def sampleOpen : List (Act Nat Nat Unit) :=
  [.openStream 0, .send, .pollRecv (.ready ()), .pollRecv .pending,
    .pollNewOutbound (.ready (.ok 7)), .noneOpen]

/-- The other side opens streams faster than the consumer takes them. -/
def sampleYields (n : Nat) : List (Act Nat Nat Unit) :=
  (List.range n).map fun stream => .pollNextInbound (.ready (some (.ok stream)))

theorem multiplexed_two : ∃ m, run step (.start : Mux Nat Nat Unit)
      (sampleOpen ++ sampleYields 2 ++ [.recv]) = some m ∧
    m.inbound.received = [0] ∧ Answered m ∧ Delivered m := by
  have hrun : (run step (.start : Mux Nat Nat Unit) (sampleOpen ++ sampleYields 2 ++ [.recv])).any
      (fun m => m.inbound.listening && decide (m.inbound.received = [0])) = true := by
    decide +kernel
  obtain ⟨m, hm, hsees⟩ := (Option.any_eq_true _ _).mp hrun
  simp only [Bool.and_eq_true, decide_eq_true_eq] at hsees
  have hallowed : Allowed step Room .start (sampleOpen ++ sampleYields 2 ++ [.recv]) := by
    decide +kernel
  obtain ⟨hanswered, hdelivered⟩ := multiplexed hm
  exact ⟨m, hm, hsees.2, hanswered, (hdelivered hsees.1).mpr hallowed⟩

/-- With 33 streams at once the last one is lost, though the consumer listens all the time. -/
theorem stream_lost : ∃ m, run step (.start : Mux Nat Nat Unit)
      (sampleOpen ++ sampleYields 33 ++ List.replicate 32 .recv) = some m ∧
    m.inbound.offered = List.range 33 ∧ m.inbound.received = List.range 32 ∧
    m.inbound.items = [] ∧ ¬ Delivered m := by
  have hrun : (run step (.start : Mux Nat Nat Unit)
      (sampleOpen ++ sampleYields 33 ++ List.replicate 32 .recv)).any
      (fun m => m.inbound.listening && decide (m.inbound.offered = List.range 33 ∧
        m.inbound.received = List.range 32 ∧ m.inbound.items = [])) = true := by
    decide +kernel
  obtain ⟨m, hm, hsees⟩ := (Option.any_eq_true _ _).mp hrun
  simp only [Bool.and_eq_true, decide_eq_true_eq] at hsees
  obtain ⟨hlistening, hoffered, hreceived, hitems⟩ := hsees
  refine ⟨m, hm, hoffered, hreceived, hitems, fun hdelivered => ?_⟩
  have hintact := hdelivered hlistening
  unfold Mailbox.Intact at hintact
  rw [hoffered, hreceived, hitems] at hintact
  exact absurd hintact (by decide)

end AtomVault.Sync.Multiplexer
