import AtomVault.Lib.Channel
import AtomVault.Lib.Machine
import AtomVault.Live.Auth

/-!
# Two peers prove themselves to each other

Both run `authenticate` over one session, in any order of their calls, and go on with a
transfer whose frames are their own affair.
-/

open Lib

namespace AtomVault.Live

inductive Who
  | one
  | two
  deriving DecidableEq

def Who.other : Who → Who
  | one => two
  | two => one

@[simp]
theorem Who.other_other (w : Who) : w.other.other = w := by
  cases w <;> rfl

theorem Who.other_ne (w : Who) : w.other ≠ w := by
  cases w <;> decide

theorem Who.eq_or_other (w v : Who) : v = w ∨ v = w.other := by
  cases w <;> cases v <;> decide

namespace Handshake

structure Setting (ml : MlDsa) where
  blake3 : Bytes → BundleId
  locals : Who → LocalBundle ml
  tickets : Who → Ticket
  exporter : List.Vector UInt8 EXPORTER_LEN

/-- One peer: its `authenticate` with the frames it sent and read and the calls it made, and
the frames its transfer sent and read afterwards. -/
structure Party where
  auth : Auth Bool
  proved : List Bytes
  checked : List Bytes
  calls : Nat
  sent : List Bytes
  got : List Bytes

/-- `wire w` is what `w` sends. -/
structure State where
  party : Who → Party
  wire : Who → Channel Bytes

inductive Act
  | go (w : Who) (rnd : Bytes)
  | transferSend (w : Who) (frame : Bytes)
  | transferRecv (w : Who)

section Model

variable {ml : MlDsa} (c : Setting ml)

/-- The pinned identity. -/
def pinned (w : Who) : IdentityBundle := (c.tickets w).identity

def side (w : Who) : Side := (roleFor c.blake3 (c.locals w) (c.tickets w)).side

def start : State where
  party w := ⟨authenticate c.blake3 (c.locals w) (pinned c w) (side c w), [], [], 0, [], []⟩
  wire _ := Channel.empty

def State.setParty (s : State) (w : Who) (p : Party) : State :=
  { s with party := Function.update s.party w p }

def State.setWire (s : State) (w : Who) (ch : Channel Bytes) : State :=
  { s with wire := Function.update s.wire w ch }

/-- The next call of `authenticate`. A `recv` waits while there is nothing to read. -/
def call (w : Who) (rnd : Bytes) (s : State) : Option State :=
  let p := { s.party w with calls := (s.party w).calls + 1 }
  match (s.party w).auth with
  | .done _ => none
  | .call (.exportKeyingMaterial _ _) next =>
    some (s.setParty w { p with auth := next c.exporter.toList })
  | .call (.signPq msg) next =>
    some (s.setParty w { p with
      auth := (Talk.call (.signPq msg) next).answer ((c.locals w).signPq msg rnd) })
  | .call (.send msg) next =>
    some ((s.setParty w { p with auth := next [], proved := p.proved ++ [msg] }).setWire w
      ((s.wire w).put (some msg)))
  | .call .recv next =>
    match (s.wire w.other).next with
    | none => none
    | some frame =>
      some ((s.setParty w { p with auth := next frame, checked := p.checked ++ [frame] }).setWire
        w.other (s.wire w.other).take)

def returned (p : Party) : Bool :=
  match p.auth with
  | .done (.ok _) => true
  | _ => false

def step (s : State) : Act → Option State
  | .go w rnd => call c w rnd s
  | .transferSend w frame =>
    if returned (s.party w) then
      some ((s.setParty w { s.party w with sent := (s.party w).sent ++ [frame] }).setWire w
        ((s.wire w).put (some frame)))
    else none
  | .transferRecv w =>
    if returned (s.party w) then
      match (s.wire w.other).next with
      | none => none
      | some frame =>
        some ((s.setParty w { s.party w with got := (s.party w).got ++ [frame] }).setWire
          w.other (s.wire w.other).take)
    else none

end Model

/-! ## What one call does -/

variable {ml : MlDsa} {c : Setting ml} {s s' : State}

/-- Both know each other, and they are not the same. -/
structure Setting.Paired (c : Setting ml) : Prop where
  knows : ∀ w, pinned c w = (c.locals w.other).bundle
  distinct : (c.locals .one).id c.blake3 ≠ (c.locals .two).id c.blake3

theorem Setting.Paired.roleFor_ne (h : c.Paired) (w : Who) :
    roleFor c.blake3 (c.locals w) (c.tickets w) ≠
      roleFor c.blake3 (c.locals w.other) (c.tickets w.other) := by
  have hne : (c.locals w).id c.blake3 ≠ (c.locals w.other).id c.blake3 := by
    cases w with
    | one => exact h.distinct
    | two => exact h.distinct.symm
  refine Live.roleFor_ne (h.knows w) ?_ hne
  have := h.knows w.other
  rwa [Who.other_other] at this

theorem Setting.Paired.side_other (h : c.Paired) (w : Who) : side c w.other = (side c w).peer := by
  have hne := h.roleFor_ne w
  unfold side
  revert hne
  cases roleFor c.blake3 (c.locals w) (c.tickets w) <;>
    cases roleFor c.blake3 (c.locals w.other) (c.tickets w.other) <;> simp [Role.side, Side.peer]

theorem Setting.Paired.pq_eq (h : c.Paired) (w : Who) :
    (pinned c w).pq = (c.locals w.other).pqPublic := by
  rw [h.knows]
  rfl

/-- What `w` signs. -/
def statement (c : Setting ml) (w : Who) : Bytes :=
  transcript c.blake3 c.exporter.toList (side c w) ((c.locals w).id c.blake3)
    ((pinned c w).id c.blake3)

theorem Setting.Paired.expected (h : c.Paired) (w : Who) :
    transcript c.blake3 c.exporter.toList (side c w).peer ((pinned c w).id c.blake3)
      ((c.locals w).id c.blake3) = statement c w.other := by
  unfold statement
  rw [h.side_other, h.knows w, h.knows w.other, Who.other_other]
  rfl

/-- What `w` has to send before it is done: nothing, or one proof. -/
def Proved (c : Setting ml) (w : Who) (proofs : List Bytes) : Prop :=
  match (c.locals w).pqPublic with
  | none => proofs = []
  | some key => ∃ proof, proofs = [proof] ∧ ml.verify key (statement c w) proof = true

def check (c : Setting ml) (w : Who) : Auth Bool :=
  checkProof c.blake3 (c.locals w) (pinned c w) (side c w) c.exporter.toList

theorem check_hybrid {w : Who} {key : PqPublicKey} (hkey : (pinned c w).pq = some key) :
    check c w = .call .recv fun proof =>
      if ml.verify key (transcript c.blake3 c.exporter.toList (side c w).peer
          ((pinned c w).id c.blake3) ((c.locals w).id c.blake3)) proof then .done (.ok true)
      else .done (.error (.identity ("the peer could not prove possession of its post-quantum key " ++
        "for this channel: the session is refused"))) := checkProof_hybrid hkey

/-- How far `authenticate` has come, with the frames it sent and read and the calls it made. -/
inductive Stage (c : Setting ml) (w : Who) : Auth Bool → List Bytes → List Bytes → Nat → Prop
  | start (h : (pinned c w).pq ≠ none ∨ (c.locals w).pqPublic ≠ none) :
    Stage c w (authenticate c.blake3 (c.locals w) (pinned c w) (side c w)) [] [] 0
  | signing {key : PqPublicKey} (h : (c.locals w).pqPublic = some key) :
    Stage c w (.call (.signPq (statement c w)) fun proof => .call (.send proof) fun _ => check c w)
      [] [] 1
  | sending {key : PqPublicKey} {proof : Bytes} (h : (c.locals w).pqPublic = some key)
    (hproof : ml.verify key (statement c w) proof = true) :
    Stage c w (.call (.send proof) fun _ => check c w) [] [] 2
  | checking {key : PqPublicKey} {proofs : List Bytes} {n : Nat} (h : (pinned c w).pq = some key)
    (hproofs : Proved c w proofs) (hn : n ≤ 3) : Stage c w (check c w) proofs [] n
  | finished {proofs read : List Bytes} {n : Nat} (hproofs : Proved c w proofs)
    (hread : read.length = ((pinned c w).pq.map fun _ => 1).getD 0) (hn : n ≤ 4) :
    Stage c w (.done (.ok (pinned c w).isHybrid)) proofs read n

theorem stage_check {w : Who} {proofs : List Bytes} {n : Nat} (hproofs : Proved c w proofs)
    (hn : n ≤ 3) : Stage c w (check c w) proofs [] n := by
  cases hp : (pinned c w).pq with
  | some key => exact .checking hp hproofs hn
  | none =>
    have hcheck : check c w = .done (.ok (pinned c w).isHybrid) := by
      unfold check
      rw [checkProof_classical hp, IdentityBundle.isHybrid, hp]
      rfl
    rw [hcheck]
    exact .finished hproofs (by simp [hp]) (by omega)

theorem stage_start (c : Setting ml) (w : Who) :
    Stage c w (authenticate c.blake3 (c.locals w) (pinned c w) (side c w)) [] [] 0 := by
  by_cases hp : (pinned c w).pq = none
  · by_cases hl : (c.locals w).pqPublic = none
    · have hdone : authenticate c.blake3 (c.locals w) (pinned c w) (side c w) =
          .done (.ok (pinned c w).isHybrid) := by
        rw [authenticate_classical hp hl, IdentityBundle.isHybrid, hp]
        rfl
      rw [hdone]
      exact .finished (by simp [Proved, hl]) (by simp [hp]) (by omega)
    · exact .start (Or.inr hl)
  · exact .start (Or.inl hp)

theorem Stage.proofs_eq {w : Who} {a : Auth Bool} {proofs read : List Bytes} {n : Nat}
    (h : Stage c w a proofs read n) : proofs = [] ∨ Proved c w proofs := by
  cases h with
  | start => exact Or.inl rfl
  | signing => exact Or.inl rfl
  | sending => exact Or.inl rfl
  | checking _ hproofs => exact Or.inr hproofs
  | finished hproofs => exact Or.inr hproofs

theorem Stage.calls_le {w : Who} {a : Auth Bool} {proofs read : List Bytes} {n : Nat}
    (h : Stage c w a proofs read n) : n ≤ 4 := by
  cases h <;> omega

theorem stage_exported (c : Setting ml) (w : Who) :
    Stage c w (sendProof c.blake3 (c.locals w) (pinned c w) (side c w) c.exporter.toList >>=
      fun _ => check c w) [] [] 1 := by
  cases hl : (c.locals w).pqPublic with
  | none =>
    unfold check
    rw [sendProof_classical hl]
    exact stage_check (by simp [Proved, hl]) (by omega)
  | some key =>
    unfold check
    rw [sendProof_hybrid hl]
    exact .signing hl

theorem call_cases (hml : ml.Correct) {w : Who} {rnd : Bytes} {p : Party} (hp : s.party w = p)
    (hstage : Stage c w p.auth p.proved p.checked p.calls) (h : call c w rnd s = some s') :
    (∃ a, s' = s.setParty w { p with auth := a, calls := p.calls + 1 } ∧
      Stage c w a p.proved p.checked (p.calls + 1)) ∨
    (∃ proof, p.proved = [] ∧ Stage c w (check c w) [proof] p.checked (p.calls + 1) ∧
      s' = (s.setParty w { p with
        auth := check c w, proved := [proof], calls := p.calls + 1 }).setWire w
          ((s.wire w).put (some proof))) ∨
    ∃ key next frame, (pinned c w).pq = some key ∧ Proved c w p.proved ∧ p.checked = [] ∧
      p.calls ≤ 3 ∧ check c w = .call .recv next ∧ (s.wire w.other).next = some frame ∧
      s' = (s.setParty w { p with
        auth := next frame, checked := [frame], calls := p.calls + 1 }).setWire w.other
          (s.wire w.other).take := by
  obtain ⟨auth, proved, checked, calls, sent, got⟩ := p
  unfold call at h
  simp only [hp] at h
  simp only at hstage
  cases hstage with
  | start hhybrid =>
    rw [authenticate_hybrid hhybrid] at h
    cases h
    exact Or.inl ⟨_, rfl, stage_exported c w⟩
  | signing hl =>
    obtain ⟨sig, hsig, hverify⟩ := LocalBundle.signPq_ok hml hl (statement c w) rnd
    simp only [hsig] at h
    cases h
    exact Or.inl ⟨_, rfl, .sending hl hverify⟩
  | sending hl hproof =>
    cases h
    refine Or.inr (Or.inl ⟨_, rfl, ?_, rfl⟩)
    exact stage_check (by simp [Proved, hl, hproof]) (le_refl 3)
  | checking hkey hproofs hn =>
    have hcheck := check_hybrid hkey
    rw [hcheck] at h
    simp only at h
    cases hnext : (s.wire w.other).next with
    | none =>
      rw [hnext] at h
      cases h
    | some frame =>
      rw [hnext] at h
      cases h
      exact Or.inr (Or.inr ⟨_, _, frame, hkey, hproofs, rfl, hn, hcheck, rfl, rfl⟩)
  | finished => cases h

/-! ## Every interleaving -/

structure Inv (c : Setting ml) (s : State) : Prop where
  stage : ∀ w, Stage c w (s.party w).auth (s.party w).proved (s.party w).checked (s.party w).calls
  sent : ∀ w, (s.wire w).sent = (s.party w).proved ++ (s.party w).sent
  taken : ∀ w, (s.wire w.other).taken = (s.party w).checked.length + (s.party w).got.length
  /-- The transfer starts after `authenticate`. -/
  later : ∀ w, returned (s.party w) = false → (s.party w).sent = [] ∧ (s.party w).got = []
  /-- The other's proofs are read by `authenticate`, all of them or none yet. -/
  aligned : ∀ w, (s.party w).checked = (s.party w.other).proved ∨
    (s.party w).checked = [] ∧ (s.party w).got = []
  got : ∀ w, (s.party w).got <+: (s.party w.other).sent

theorem Inv.taken_other {s : State} (h : Inv c s) (w : Who) : (s.wire w).taken =
    (s.party w.other).checked.length + (s.party w.other).got.length := by
  have htaken := h.taken w.other
  rwa [Who.other_other] at htaken

theorem Inv.aligned_other {s : State} (h : Inv c s) (w : Who) :
    (s.party w.other).checked = (s.party w).proved ∨
      (s.party w.other).checked = [] ∧ (s.party w.other).got = [] := by
  have haligned := h.aligned w.other
  rwa [Who.other_other] at haligned

theorem Inv.got_other {s : State} (h : Inv c s) (w : Who) :
    (s.party w.other).got <+: (s.party w).sent := by
  have hgot := h.got w.other
  rwa [Who.other_other] at hgot

theorem Stage.returned_eq {w : Who} {p : Party} (h : Stage c w p.auth p.proved p.checked p.calls)
    (hr : returned p = true) : p.auth = .done (.ok (pinned c w).isHybrid) ∧
      Proved c w p.proved ∧ p.checked.length = ((pinned c w).pq.map fun _ => 1).getD 0 := by
  obtain ⟨auth, proved, checked, calls, sent, got⟩ := p
  simp only at h
  unfold returned at hr
  cases h with
  | start h =>
    rw [authenticate_hybrid h] at hr
    cases hr
  | signing => cases hr
  | sending => cases hr
  | checking hkey =>
    rw [check_hybrid hkey] at hr
    cases hr
  | finished hproofs hread => exact ⟨rfl, hproofs, hread⟩

theorem Stage.result_eq {w : Who} {a : Auth Bool} {proofs read : List Bytes} {n : Nat}
    {r : Except Error Bool} (h : Stage c w a proofs read n) (ha : a = .done r) :
    r = .ok (pinned c w).isHybrid := by
  cases h with
  | start h =>
    rw [authenticate_hybrid h] at ha
    cases ha
  | signing => cases ha
  | sending => cases ha
  | checking hkey =>
    rw [check_hybrid hkey] at ha
    cases ha
  | finished =>
    cases ha
    rfl

theorem Proved.length_eq {w : Who} {proofs : List Bytes} (h : Proved c w proofs) :
    proofs.length = ((c.locals w).pqPublic.map fun _ => 1).getD 0 := by
  unfold Proved at h
  cases hl : (c.locals w).pqPublic with
  | none =>
    rw [hl] at h
    simp only at h
    simp [h]
  | some key =>
    rw [hl] at h
    obtain ⟨proof, rfl, -⟩ := h
    rfl

theorem inv_start (c : Setting ml) : Inv c (start c) where
  stage w := stage_start c w
  sent _ := rfl
  taken _ := rfl
  later _ _ := ⟨rfl, rfl⟩
  aligned _ := Or.inr ⟨rfl, rfl⟩
  got _ := List.prefix_refl _

theorem Inv.checked_eq (h : Inv c s) (hpair : c.Paired) {w : Who}
    (hr : returned (s.party w) = true) : (s.party w).checked = (s.party w.other).proved := by
  rcases h.aligned w with heq | ⟨hnil, -⟩
  · exact heq
  · obtain ⟨-, -, hlen⟩ := (h.stage w).returned_eq hr
    rw [hnil, hpair.pq_eq] at hlen
    rcases (h.stage w.other).proofs_eq with hp | hp
    · rw [hnil, hp]
    · have := hp.length_eq
      rw [← hlen] at this
      rw [hnil, List.eq_nil_of_length_eq_zero this]

section Updates

variable (s : State) (w : Who) (p : Party) (ch : Channel Bytes)

@[simp]
theorem setParty_self : (s.setParty w p).party w = p := by
  simp [State.setParty]

@[simp]
theorem setParty_other : (s.setParty w p).party w.other = s.party w.other := by
  simp [State.setParty, w.other_ne]

@[simp]
theorem setParty_wire : (s.setParty w p).wire = s.wire := rfl

@[simp]
theorem setWire_party : (s.setWire w ch).party = s.party := rfl

@[simp]
theorem setWire_self : (s.setWire w ch).wire w = ch := by
  simp [State.setWire]

@[simp]
theorem setWire_other : (s.setWire w ch).wire w.other = s.wire w.other := by
  simp [State.setWire, w.other_ne]

@[simp]
theorem setWire_other_self : (s.setWire w.other ch).wire w = s.wire w := by
  simp [State.setWire, w.other_ne.symm]

end Updates

theorem forall_who (w : Who) {P : Who → Prop} : (∀ v, P v) ↔ P w ∧ P w.other := by
  constructor
  · intro h
    exact ⟨h w, h w.other⟩
  · rintro ⟨h, h'⟩ v
    rcases w.eq_or_other v with rfl | rfl
    · exact h
    · exact h'

theorem not_returned_of_call {w : Who} {rnd : Bytes} (h : call c w rnd s = some s') :
    returned (s.party w) = false := by
  unfold returned
  unfold call at h
  split at h
  · cases h
  all_goals
    rename_i hauth
    rw [hauth]

theorem Inv.quiet (h : Inv c s) {w : Who} {a : Auth Bool} {n : Nat}
    (hr : returned (s.party w) = false)
    (hstage : Stage c w a (s.party w).proved (s.party w).checked n) :
    Inv c (s.setParty w { s.party w with auth := a, calls := n }) := by
  obtain ⟨hsent, hgot⟩ := h.later w hr
  constructor
  · rw [forall_who w]
    simpa using ⟨hstage, h.stage w.other⟩
  · rw [forall_who w]
    simpa using ⟨h.sent w, h.sent w.other⟩
  · rw [forall_who w]
    simpa using ⟨h.taken w, h.taken_other w⟩
  · rw [forall_who w]
    simpa [hsent, hgot] using h.later w.other
  · rw [forall_who w]
    simpa using ⟨h.aligned w, h.aligned_other w⟩
  · rw [forall_who w]
    simpa using ⟨h.got w, h.got_other w⟩

theorem Inv.prove (h : Inv c s) {w : Who} {proof : Bytes} {n : Nat}
    (hr : returned (s.party w) = false) (hnil : (s.party w).proved = [])
    (hstage : Stage c w (check c w) [proof] (s.party w).checked n) :
    Inv c ((s.setParty w { s.party w with
      auth := check c w, proved := [proof], calls := n }).setWire w
        ((s.wire w).put (some proof))) := by
  obtain ⟨hsent, hgot⟩ := h.later w hr
  have hwire : (s.wire w).sent = [] := by rw [h.sent, hnil, hsent]; rfl
  -- The other side has read nothing of this one yet.
  have hgot' : (s.party w.other).got = [] := by
    have hprefix := h.got_other w
    rw [hsent] at hprefix
    exact List.prefix_nil.mp hprefix
  have hchecked' : (s.party w.other).checked = [] := by
    rcases h.aligned_other w with heq | ⟨heq, -⟩
    · rw [heq, hnil]
    · exact heq
  have htaken := h.taken_other w
  constructor
  · rw [forall_who w]
    simpa using ⟨hstage, h.stage w.other⟩
  · rw [forall_who w]
    simpa [Channel.put, hwire, hsent] using h.sent w.other
  · rw [forall_who w]
    simpa [Channel.put] using ⟨h.taken w, htaken⟩
  · rw [forall_who w]
    simpa [hsent, hgot] using h.later w.other
  · rw [forall_who w]
    simpa [hgot', hchecked'] using h.aligned w
  · rw [forall_who w]
    simpa [hgot'] using h.got w

theorem Inv.frame_eq (h : Inv c s) (hpair : c.Paired) {w : Who} {key : PqPublicKey} {frame : Bytes}
    (hkey : (pinned c w).pq = some key) (hr : returned (s.party w) = false)
    (hnil : (s.party w).checked = []) (hnext : (s.wire w.other).next = some frame) :
    (s.party w.other).proved = [frame] ∧ ml.verify key (statement c w.other) frame = true := by
  have hlocal : (c.locals w.other).pqPublic = some key := by rw [← hpair.pq_eq, hkey]
  unfold Channel.next at hnext
  rw [h.taken, h.sent, hnil, (h.later w hr).2] at hnext
  rcases (h.stage w.other).proofs_eq with hp | hp
  · -- Without a proof it would be a frame of the transfer, which comes after the proof.
    rw [hp] at hnext
    have hret : returned (s.party w.other) = true := by
      by_contra hret
      rw [(h.later w.other (by simpa using hret)).1] at hnext
      cases hnext
    have := ((h.stage w.other).returned_eq hret).2.1
    rw [hp] at this
    unfold Proved at this
    rw [hlocal] at this
    obtain ⟨proof, hproof, -⟩ := this
    cases hproof
  · unfold Proved at hp
    rw [hlocal] at hp
    obtain ⟨proof, hproof, hverify⟩ := hp
    rw [hproof] at hnext
    cases hnext
    exact ⟨hproof, hverify⟩

theorem Inv.read (h : Inv c s) {w : Who} {frame : Bytes} {n : Nat} {a : Auth Bool}
    (hr : returned (s.party w) = false) (hnil : (s.party w).checked = [])
    (hproved : (s.party w.other).proved = [frame])
    (hstage : Stage c w a (s.party w).proved [frame] n) :
    Inv c ((s.setParty w { s.party w with
      auth := a, checked := [frame], calls := n }).setWire w.other (s.wire w.other).take) := by
  obtain ⟨hsent, hgot⟩ := h.later w hr
  have htaken := h.taken w
  rw [hnil, hgot] at htaken
  have htaken' := h.taken_other w
  have hgot' := h.got_other w
  have haligned := h.aligned_other w
  constructor
  · rw [forall_who w]
    simpa using ⟨hstage, h.stage w.other⟩
  · rw [forall_who w]
    simpa [Channel.take] using ⟨h.sent w, h.sent w.other⟩
  · rw [forall_who w]
    simpa [Channel.take, hgot, htaken] using htaken'
  · rw [forall_who w]
    simpa [hsent, hgot] using h.later w.other
  · rw [forall_who w]
    simpa [hproved] using haligned
  · rw [forall_who w]
    simpa using ⟨h.got w, hgot'⟩

theorem Inv.go (hml : ml.Correct) (hpair : c.Paired) (h : Inv c s) {w : Who} {rnd : Bytes}
    (hstep : call c w rnd s = some s') : Inv c s' := by
  have hr := not_returned_of_call hstep
  rcases call_cases hml rfl (h.stage w) hstep with ⟨a, rfl, hstage⟩ | ⟨proof, hnil, hstage, rfl⟩ |
    ⟨key, next, frame, hkey, hproofs, hnil, hn, hcheck, hnext, rfl⟩
  · exact h.quiet hr hstage
  · exact h.prove hr hnil hstage
  · obtain ⟨hproved, hverify⟩ := h.frame_eq hpair hkey hr hnil hnext
    refine h.read hr hnil hproved ?_
    have hdone : next frame = .done (.ok (pinned c w).isHybrid) := by
      have hsame := check_hybrid hkey
      rw [hcheck, Talk.call.injEq] at hsame
      rw [hsame.2, hpair.expected, IdentityBundle.isHybrid, hkey]
      exact if_pos hverify
    rw [hdone]
    exact .finished hproofs (by simp [hkey]) (by omega)

theorem Inv.transferSend (h : Inv c s) {w : Who} (hr : returned (s.party w) = true)
    (frame : Bytes) :
    Inv c ((s.setParty w { s.party w with sent := (s.party w).sent ++ [frame] }).setWire w
      ((s.wire w).put (some frame))) := by
  have hret : returned { s.party w with sent := (s.party w).sent ++ [frame] } = true := hr
  have htaken := h.taken_other w
  have haligned := h.aligned_other w
  have hgot := h.got_other w
  constructor
  · rw [forall_who w]
    simpa using ⟨h.stage w, h.stage w.other⟩
  · rw [forall_who w]
    simpa [Channel.put, h.sent w] using h.sent w.other
  · rw [forall_who w]
    simpa [Channel.put] using ⟨h.taken w, htaken⟩
  · rw [forall_who w]
    simpa [hret] using h.later w.other
  · rw [forall_who w]
    simpa using ⟨h.aligned w, haligned⟩
  · rw [forall_who w]
    simpa using ⟨h.got w, hgot.trans (List.prefix_append _ _)⟩

theorem concat_initial {α : Type} {l m : List α} {a : α} (h : l <+: m) (ha : m[l.length]? = some a) :
    l ++ [a] <+: m := by
  obtain ⟨t, rfl⟩ := h
  rw [List.getElem?_append_right (le_refl _), Nat.sub_self] at ha
  cases t with
  | nil => cases ha
  | cons b t =>
    cases ha
    exact ⟨t, by simp⟩

theorem Inv.transferRecv (h : Inv c s) (hpair : c.Paired) {w : Who}
    (hr : returned (s.party w) = true) {frame : Bytes} (hnext : (s.wire w.other).next = some frame) :
    Inv c ((s.setParty w { s.party w with got := (s.party w).got ++ [frame] }).setWire w.other
      (s.wire w.other).take) := by
  have hret : returned { s.party w with got := (s.party w).got ++ [frame] } = true := hr
  have hchecked := h.checked_eq hpair hr
  have hframe : (s.party w.other).sent[(s.party w).got.length]? = some frame := by
    unfold Channel.next at hnext
    rw [h.taken, h.sent, hchecked, List.getElem?_append_right (by omega),
      Nat.add_sub_cancel_left] at hnext
    exact hnext
  have htaken := h.taken_other w
  have haligned := h.aligned_other w
  have hgot := h.got_other w
  constructor
  · rw [forall_who w]
    simpa using ⟨h.stage w, h.stage w.other⟩
  · rw [forall_who w]
    simpa [Channel.take] using ⟨h.sent w, h.sent w.other⟩
  · rw [forall_who w]
    simpa [Channel.take, h.taken w, Nat.add_assoc] using htaken
  · rw [forall_who w]
    simpa [hret] using h.later w.other
  · rw [forall_who w]
    simpa [hchecked] using haligned
  · rw [forall_who w]
    simpa using ⟨concat_initial (h.got w) hframe, hgot⟩

theorem inv_step (hml : ml.Correct) (hpair : c.Paired) (s : State) (a : Act) (s' : State)
    (h : Inv c s) (hstep : step c s a = some s') : Inv c s' := by
  cases a with
  | go w rnd => exact h.go hml hpair hstep
  | transferSend w frame =>
    simp only [step] at hstep
    split at hstep
    · cases hstep
      exact h.transferSend (by assumption) frame
    · cases hstep
  | transferRecv w =>
    simp only [step] at hstep
    split at hstep
    · rename_i hr
      split at hstep
      · cases hstep
      · cases hstep
        exact h.transferRecv hpair hr (by assumption)
    · cases hstep

theorem Inv.go_or_waits (h : Inv c s) {w : Who} (hr : returned (s.party w) = false)
    (rnd : Bytes) : (∃ s', call c w rnd s = some s') ∨
      (s.wire w.other).next = none ∧ (∃ key, (pinned c w).pq = some key) ∧
        Proved c w (s.party w).proved ∧ (s.party w).checked = [] := by
  have hstage := h.stage w
  generalize hp : s.party w = p at hr hstage ⊢
  obtain ⟨auth, proved, checked, calls, sent, got⟩ := p
  unfold call
  simp only [hp]
  simp only at hstage
  cases hstage with
  | start hhybrid =>
    rw [authenticate_hybrid hhybrid]
    exact Or.inl ⟨_, rfl⟩
  | signing => exact Or.inl ⟨_, rfl⟩
  | sending => exact Or.inl ⟨_, rfl⟩
  | checking hkey hproofs =>
    rw [check_hybrid hkey]
    cases hnext : (s.wire w.other).next with
    | none => exact Or.inr ⟨rfl, ⟨_, hkey⟩, hproofs, rfl⟩
    | some frame => exact Or.inl ⟨_, rfl⟩
  | finished => cases hr

theorem Inv.other_goes (h : Inv c s) (hpair : c.Paired) {w : Who} {key : PqPublicKey}
    (hnext : (s.wire w.other).next = none) (hkey : (pinned c w).pq = some key)
    (hr : returned (s.party w) = false) (hnil : (s.party w).checked = []) :
    ¬ Proved c w.other (s.party w.other).proved := by
  intro hproofs
  have hlocal : (c.locals w.other).pqPublic = some key := by rw [← hpair.pq_eq, hkey]
  unfold Proved at hproofs
  rw [hlocal] at hproofs
  obtain ⟨proof, hproof, -⟩ := hproofs
  unfold Channel.next at hnext
  rw [h.taken, h.sent, hnil, (h.later w hr).2, hproof] at hnext
  cases hnext

/-- No deadlock. -/
theorem Inv.progress (h : Inv c s) (hpair : c.Paired) {w : Who}
    (hr : returned (s.party w) = false) (rnd : Bytes) :
    ∃ v s', step c s (.go v rnd) = some s' := by
  rcases h.go_or_waits hr rnd with ⟨s', hs'⟩ | ⟨hnext, ⟨key, hkey⟩, -, hnil⟩
  · exact ⟨w, s', hs'⟩
  · have hnot := h.other_goes hpair hnext hkey hr hnil
    have hr' : returned (s.party w.other) = false := by
      by_contra hret
      exact hnot ((h.stage w.other).returned_eq (by simpa using hret)).2.1
    rcases h.go_or_waits hr' rnd with ⟨s', hs'⟩ | ⟨-, -, hproofs, -⟩
    · exact ⟨w.other, s', hs'⟩
    · exact absurd hproofs hnot

/-- **Roles and authentication.** One dials and one accepts. However their calls interleave,
each `authenticate` makes at most four, one of them can go on as long as one has not
returned, it returns `Ok`, with `true` just where the pinned peer is hybrid, and reads every
proof the other sent, so that what a later transfer reads is what the other's transfer sent. -/
theorem authentication_agreement (c : Setting ml) (hml : ml.Correct) (hpair : c.Paired) :
    (∃ w, roleFor c.blake3 (c.locals w) (c.tickets w) = .dialer ∧
      roleFor c.blake3 (c.locals w.other) (c.tickets w.other) = .accepter) ∧
    ∀ acts s, run (step c) (start c) acts = some s →
      (∀ w, (s.party w).calls ≤ 4) ∧
      (∀ w, returned (s.party w) = false → ∀ rnd, ∃ v s', step c s (.go v rnd) = some s') ∧
      (∀ w r, (s.party w).auth = .done r → r = .ok (c.tickets w).identity.isHybrid) ∧
      (∀ w, (s.party w).got <+: (s.party w.other).sent) ∧
      ((∀ w, returned (s.party w) = true) →
        ∀ w, (s.party w).checked = (s.party w.other).proved) := by
  constructor
  · have hne := hpair.roleFor_ne .one
    cases hrole : roleFor c.blake3 (c.locals .one) (c.tickets .one) with
    | dialer =>
      refine ⟨.one, hrole, ?_⟩
      cases hrole' : roleFor c.blake3 (c.locals Who.one.other) (c.tickets Who.one.other) with
      | dialer => exact absurd (hrole.trans hrole'.symm) hne
      | accepter => rfl
    | accepter =>
      refine ⟨.two, ?_, hrole⟩
      cases hrole' : roleFor c.blake3 (c.locals .two) (c.tickets .two) with
      | dialer => rfl
      | accepter => exact absurd (hrole.trans hrole'.symm) hne
  · intro acts s hrun
    have h : Inv c s := run_invariant (inv_step hml hpair) hrun (inv_start c)
    refine ⟨fun w => (h.stage w).calls_le, fun w hr rnd => h.progress hpair hr rnd, ?_, h.got, ?_⟩
    · intro w r hdone
      exact (h.stage w).result_eq hdone
    · intro hall w
      exact h.checked_eq hpair (hall w)

/-- Two hybrid peers. -/
def sample : Setting sampleMlDsa where
  blake3 := sampleBlake3
  locals
    | .one => sampleHybrid 1
    | .two => sampleHybrid 2
  tickets
    | .one => ⟨(sampleHybrid 2).bundle, [], .livePq1, 0⟩
    | .two => ⟨(sampleHybrid 1).bundle, [], .livePq1, 0⟩
  exporter := List.Vector.replicate _ 7

theorem sample_paired : sample.Paired where
  knows w := by cases w <;> rfl
  distinct := by decide

/-- The second peer is done, and has begun its transfer, before the first has read its proof. -/
def sampleActs : List Act :=
  [.go .one [], .go .two [], .go .two [], .go .one [], .go .one [], .go .two [], .go .two [],
    .transferSend .two [9], .go .one [], .transferRecv .one]

theorem authentication_agreement_two_hybrids :
    ∃ s, run (step sample) (start sample) sampleActs = some s ∧
      (s.party .one).got = [[9]] ∧ (s.party .one).got <+: (s.party .two).sent ∧
      (s.party .one).checked = (s.party .two).proved := by
  have h : (run (step sample) (start sample) sampleActs).any (fun s =>
      returned (s.party .one) && returned (s.party .two) && (s.party .one).got == [[9]]) = true := by
    decide +kernel
  obtain ⟨s, hs, hret⟩ := (Option.any_eq_true _ _).mp h
  simp only [Bool.and_eq_true, beq_iff_eq] at hret
  obtain ⟨-, -, -, hgot, hchecked⟩ :=
    (authentication_agreement sample sampleMlDsa_correct sample_paired).2 sampleActs s hs
  refine ⟨s, hs, hret.2, hgot .one, hchecked ?_ .one⟩
  rintro (_ | _)
  · exact hret.1.1
  · exact hret.1.2

end Handshake

end AtomVault.Live
