import AtomVault.Lib.Machine
import AtomVault.Live.Auth

/-!
# Proofs on a hostile network

Any number of parties run `authenticate` any number of times. The attacker decides which
call comes next, sees every proof, and answers every `recv` with what it likes.
-/

open Lib

namespace AtomVault.Live.Network

/-- The parties whose keys the attacker does not have, and what each handshake exports. -/
structure World (ml : MlDsa) where
  blake3 : Bytes → BundleId
  parties : List (LocalBundle ml)
  exporter : Nat → List.Vector UInt8 EXPORTER_LEN

/-- One call of `authenticate`, on the session of a handshake: the proof it sent and the
frame it read. -/
structure Run (ml : MlDsa) where
  owner : LocalBundle ml
  peer : IdentityBundle
  side : Side
  session : Nat
  auth : Auth Bool
  proof : Option Bytes
  got : Option Bytes

/-- A signature that was made. -/
structure Signature where
  key : PqPublicKey
  msg : Bytes
  sig : Bytes

structure Net (ml : MlDsa) where
  runs : List (Run ml)
  signed : List Signature

inductive Act
  | start (party : Nat) (peer : IdentityBundle) (side : Side) (session : Nat)
  | exportKey (i : Nat)
  | sign (i : Nat) (rnd : Bytes)
  | send (i : Nat)
  | deliver (i : Nat) (frame : Bytes)
  | fail (i : Nat) (e : Error)

section Model

variable {ml : MlDsa} (w : World ml)

/-- What the run's call is answered with, if it makes this one. -/
def answer (r : Run ml) : Act → Option (Run ml × List Signature)
  | .exportKey _ =>
    match r.auth with
    | .call (.exportKeyingMaterial _ _) next =>
      some ({ r with auth := next (w.exporter r.session).toList }, [])
    | _ => none
  | .sign _ rnd =>
    match r.auth with
    | .call (.signPq msg) next =>
      match r.owner.signPq msg rnd with
      | .ok sig => some ({ r with auth := next sig },
          r.owner.pqPublic.toList.map fun key => ⟨key, msg, sig⟩)
      | .error e => some ({ r with auth := .done (.error e) }, [])
    | _ => none
  | .send _ =>
    match r.auth with
    | .call (.send msg) next => some ({ r with auth := next [], proof := some msg }, [])
    | _ => none
  | .deliver _ frame =>
    match r.auth with
    | .call .recv next => some ({ r with auth := next frame, got := some frame }, [])
    | _ => none
  | .fail _ e =>
    match r.auth with
    | .call _ _ => some ({ r with auth := .done (.error e) }, [])
    | .done _ => none
  | .start _ _ _ _ => none

def Act.run : Act → Nat
  | start _ _ _ _ => 0
  | exportKey i | sign i _ | send i | deliver i _ | fail i _ => i

def step (s : Net ml) : Act → Option (Net ml)
  | .start party peer side session => do
    let l ← w.parties[party]?
    some { s with runs := s.runs ++
      [⟨l, peer, side, session, authenticate w.blake3 l peer side, none, none⟩] }
  | a => do
    let r ← s.runs[a.run]?
    let (r', new) ← answer w r a
    some { runs := s.runs.set a.run r', signed := s.signed ++ new }

end Model

/-! ## What is assumed -/

variable {ml : MlDsa} {w : World ml} {s s' : Net ml}

/-- What a run signs. -/
def own (w : World ml) (r : Run ml) : Bytes :=
  transcript w.blake3 (w.exporter r.session).toList r.side (r.owner.id w.blake3) (r.peer.id w.blake3)

/-- What it expects the peer to have signed. -/
def expected (w : World ml) (r : Run ml) : Bytes :=
  transcript w.blake3 (w.exporter r.session).toList r.side.peer (r.peer.id w.blake3)
    (r.owner.id w.blake3)

/-- The key of a party. -/
def Held (w : World ml) (key : PqPublicKey) : Prop := ∃ l ∈ w.parties, l.pqPublic = some key

/-- Nothing verifies under the key of a party that the party did not sign. -/
def Unforgeable (w : World ml) (s : Net ml) : Act → Prop
  | .deliver _ frame => ∀ key, Held w key → ∀ msg, ml.verify key msg frame = true →
      ⟨key, msg, frame⟩ ∈ s.signed
  | _ => True

/-- The inputs of the hash: what a run signs and what it expects. -/
def hashed (w : World ml) (r : Run ml) : List Bytes :=
  [transcriptInput (w.exporter r.session).toList r.side (r.owner.id w.blake3) (r.peer.id w.blake3),
    transcriptInput (w.exporter r.session).toList r.side.peer (r.peer.id w.blake3)
      (r.owner.id w.blake3)]

/-- The primitives are ideal on what happened: no two inputs collide, no two bundles have one
id, no two handshakes one exporter value, and a signature is one of a single message. -/
structure Ideal (w : World ml) (s : Net ml) : Prop where
  collision_free : ∀ r ∈ s.runs, ∀ r' ∈ s.runs, ∀ a ∈ hashed w r, ∀ b ∈ hashed w r',
    w.blake3 a = w.blake3 b → a = b
  ids : ∀ r ∈ s.runs, ∀ r' ∈ s.runs, ∀ b ∈ [r.owner.bundle, r.peer],
    ∀ b' ∈ [r'.owner.bundle, r'.peer], b.id w.blake3 = b'.id w.blake3 → b = b'
  exporters : ∀ r ∈ s.runs, ∀ r' ∈ s.runs, w.exporter r.session = w.exporter r'.session →
    r.session = r'.session
  binding : ∀ e ∈ s.signed, ∀ e' ∈ s.signed, e.sig = e'.sig → e.msg = e'.msg

/-! ## What a run can have done -/

def check (w : World ml) (r : Run ml) : Auth Bool :=
  checkProof w.blake3 r.owner r.peer r.side (w.exporter r.session).toList

/-- The proof a run sent, if any, is one its owner signed for it. -/
def Proven (w : World ml) (log : List Signature) (r : Run ml) : Prop :=
  ∀ sig, r.proof = some sig → ∃ key, ⟨key, own w r, sig⟩ ∈ log

inductive Stage (w : World ml) (log : List Signature) (r : Run ml) : Prop
  | start (h : r.peer.pq ≠ none ∨ r.owner.pqPublic ≠ none) (hproof : r.proof = none)
    (hauth : r.auth = authenticate w.blake3 r.owner r.peer r.side)
  | signing {key : PqPublicKey} (h : r.owner.pqPublic = some key) (hproof : r.proof = none)
    (hauth : r.auth = .call (.signPq (own w r)) fun proof => .call (.send proof) fun _ => check w r)
  | sending {key : PqPublicKey} {sig : Bytes} (h : ⟨key, own w r, sig⟩ ∈ log)
    (hproof : r.proof = none) (hauth : r.auth = .call (.send sig) fun _ => check w r)
  | checking {key : PqPublicKey} (h : r.peer.pq = some key) (hproof : Proven w log r)
    (hauth : r.auth = check w r)
  | failed {e : Error} (hproof : Proven w log r) (hauth : r.auth = .done (.error e))
  | skipped (h : r.peer.pq = none) (hproof : Proven w log r) (hauth : r.auth = .done (.ok false))
  | accepted {key : PqPublicKey} {frame : Bytes} (h : r.peer.pq = some key)
    (hproof : Proven w log r) (hauth : r.auth = .done (.ok true)) (hgot : r.got = some frame)
    (hsigned : Held w key → ⟨key, expected w r, frame⟩ ∈ log)

theorem Proven.mono {log log' : List Signature} {r : Run ml} (h : Proven w log r)
    (hlog : log ⊆ log') : Proven w log' r := by
  intro sig hsig
  obtain ⟨key, hkey⟩ := h sig hsig
  exact ⟨key, hlog hkey⟩

theorem Proven.of_none {log : List Signature} {r : Run ml} (h : r.proof = none) :
    Proven w log r := by
  intro sig hsig
  rw [h] at hsig
  cases hsig

theorem Stage.mono {log log' : List Signature} {r : Run ml} (h : Stage w log r)
    (hlog : log ⊆ log') : Stage w log' r := by
  cases h with
  | start h hproof hauth => exact .start h hproof hauth
  | signing h hproof hauth => exact .signing h hproof hauth
  | sending h hproof hauth => exact .sending (hlog h) hproof hauth
  | checking h hproof hauth => exact .checking h (hproof.mono hlog) hauth
  | failed hproof hauth => exact .failed (hproof.mono hlog) hauth
  | skipped h hproof hauth => exact .skipped h (hproof.mono hlog) hauth
  | accepted h hproof hauth hgot hsigned =>
    exact .accepted h (hproof.mono hlog) hauth hgot fun hkey => hlog (hsigned hkey)

theorem stage_check {log : List Signature} {r : Run ml} (hproof : Proven w log r)
    (hauth : r.auth = check w r) : Stage w log r := by
  cases hp : r.peer.pq with
  | some key => exact .checking hp hproof hauth
  | none =>
    refine .skipped hp hproof ?_
    rw [hauth, check, checkProof_classical hp]

theorem stage_start (w : World ml) {log : List Signature} {r : Run ml} (hproof : r.proof = none)
    (hauth : r.auth = authenticate w.blake3 r.owner r.peer r.side) : Stage w log r := by
  by_cases h : r.peer.pq ≠ none ∨ r.owner.pqPublic ≠ none
  · exact .start h hproof hauth
  · push Not at h
    refine .skipped h.1 (Proven.of_none hproof) ?_
    rw [hauth, authenticate_classical h.1 h.2]

theorem Stage.proven {log : List Signature} {r : Run ml} (h : Stage w log r) : Proven w log r := by
  cases h with
  | start _ hproof => exact Proven.of_none hproof
  | signing _ hproof => exact Proven.of_none hproof
  | sending _ hproof => exact Proven.of_none hproof
  | checking _ hproof => exact hproof
  | failed hproof => exact hproof
  | skipped _ hproof => exact hproof
  | accepted _ hproof => exact hproof

/-- What does not change in a run. -/
structure Same (r r' : Run ml) : Prop where
  owner : r'.owner = r.owner
  peer : r'.peer = r.peer
  side : r'.side = r.side
  session : r'.session = r.session

/-- What one answered call leaves: the run itself, and what was signed for it. -/
structure Answered (w : World ml) (log new : List Signature) (r r' : Run ml) : Prop where
  same : Same r r'
  stage : Stage w (log ++ new) r'
  signed : ∀ e ∈ new, r.owner.pqPublic = some e.key ∧ e.msg = own w r

theorem answered_quiet {log : List Signature} {r r' : Run ml} (hsame : Same r r')
    (h : Stage w log r') : Answered w log [] r r' :=
  ⟨hsame, by rwa [List.append_nil], by simp⟩

theorem answered_failed {log : List Signature} {r : Run ml} (h : Stage w log r) (e : Error) :
    Answered w log [] r { r with auth := .done (.error e) } :=
  answered_quiet ⟨rfl, rfl, rfl, rfl⟩ (.failed h.proven rfl)

theorem stage_exported {log : List Signature} {r : Run ml} (hproof : r.proof = none)
    (hauth : r.auth = (sendProof w.blake3 r.owner r.peer r.side (w.exporter r.session).toList >>=
      fun _ => check w r)) : Stage w log r := by
  unfold check at hauth
  cases hl : r.owner.pqPublic with
  | none =>
    rw [sendProof_classical hl] at hauth
    exact stage_check (Proven.of_none hproof) hauth
  | some key =>
    rw [sendProof_hybrid hl] at hauth
    exact .signing hl hproof hauth

theorem stage_delivered {log : List Signature} {r : Run ml} {key : PqPublicKey} {frame : Bytes}
    (hkey : r.peer.pq = some key) (hproof : Proven w log r) (hgot : r.got = some frame)
    (hunf : Held w key → ∀ msg, ml.verify key msg frame = true → ⟨key, msg, frame⟩ ∈ log)
    (hauth : r.auth = if ml.verify key (expected w r) frame then .done (.ok true)
      else .done (.error (.identity ("the peer could not prove possession of its post-quantum key " ++
        "for this channel: the session is refused")))) : Stage w log r := by
  split at hauth
  · rename_i hverify
    exact .accepted hkey hproof hauth hgot fun hheld => hunf hheld _ hverify
  · exact .failed hproof hauth

theorem answered {log new : List Signature} {r r' : Run ml} {a : Act} (h : Stage w log r)
    (hunf : Unforgeable w ⟨[], log⟩ a) (hans : answer w r a = some (r', new)) :
    Answered w log new r r' := by
  have hfail := answered_failed h
  cases h with
  | start h hproof hauth =>
    rw [authenticate_hybrid h] at hauth
    cases a <;> simp only [answer, hauth, reduceCtorEq, Option.some.injEq, Prod.mk.injEq] at hans
    case exportKey =>
      obtain ⟨rfl, rfl⟩ := hans
      exact answered_quiet ⟨rfl, rfl, rfl, rfl⟩ (stage_exported hproof rfl)
    case fail e =>
      obtain ⟨rfl, rfl⟩ := hans
      exact hfail e
  | signing h hproof hauth =>
    cases a <;> simp only [answer, hauth, reduceCtorEq, Option.some.injEq, Prod.mk.injEq] at hans
    case sign rnd =>
      split at hans
      · rename_i sig hsig
        simp only [Option.some.injEq, Prod.mk.injEq, h, Option.toList_some, List.map_cons,
          List.map_nil] at hans
        obtain ⟨rfl, rfl⟩ := hans
        refine ⟨⟨rfl, rfl, rfl, rfl⟩, ?_, ?_⟩
        · exact .sending (List.mem_append_right _ (List.mem_singleton.mpr rfl)) hproof rfl
        · intro e he
          rw [List.mem_singleton.mp he]
          exact ⟨h, rfl⟩
      · simp only [Option.some.injEq, Prod.mk.injEq] at hans
        obtain ⟨rfl, rfl⟩ := hans
        exact hfail _
    case fail e =>
      obtain ⟨rfl, rfl⟩ := hans
      exact hfail e
  | sending h hproof hauth =>
    cases a <;> simp only [answer, hauth, reduceCtorEq, Option.some.injEq, Prod.mk.injEq] at hans
    case send =>
      obtain ⟨rfl, rfl⟩ := hans
      refine answered_quiet ⟨rfl, rfl, rfl, rfl⟩ (stage_check ?_ rfl)
      intro sig hsig
      cases hsig
      exact ⟨_, h⟩
    case fail e =>
      obtain ⟨rfl, rfl⟩ := hans
      exact hfail e
  | checking h hproof hauth =>
    rw [check, checkProof_hybrid h] at hauth
    cases a <;> simp only [answer, hauth, reduceCtorEq, Option.some.injEq, Prod.mk.injEq] at hans
    case deliver frame =>
      obtain ⟨rfl, rfl⟩ := hans
      exact answered_quiet ⟨rfl, rfl, rfl, rfl⟩
        (stage_delivered h hproof rfl (fun hheld => hunf _ hheld) rfl)
    case fail e =>
      obtain ⟨rfl, rfl⟩ := hans
      exact hfail e
  | failed _ hauth => cases a <;> simp [answer, hauth] at hans
  | skipped _ _ hauth => cases a <;> simp [answer, hauth] at hans
  | accepted _ _ hauth => cases a <;> simp [answer, hauth] at hans

/-! ## Every run of the network -/

structure Inv (w : World ml) (s : Net ml) : Prop where
  stage : ∀ r ∈ s.runs, Stage w s.signed r
  signer : ∀ e ∈ s.signed, ∃ r ∈ s.runs, r.owner.pqPublic = some e.key ∧ e.msg = own w r

theorem Same.own_eq {r r' : Run ml} (h : Same r r') : own w r' = own w r := by
  unfold own
  rw [h.owner, h.peer, h.side, h.session]

theorem exists_same {runs : List (Run ml)} {i : Nat} {r r' q : Run ml} (hi : runs[i]? = some r)
    (hsame : Same r r') (hq : q ∈ runs) : ∃ q' ∈ runs.set i r', Same q q' := by
  obtain ⟨j, hj⟩ := List.getElem?_of_mem hq
  by_cases hij : i = j
  · subst hij
    rw [hi] at hj
    cases hj
    have hlt := (List.getElem?_eq_some_iff.mp hi).1
    exact ⟨r', List.mem_set hlt r', hsame⟩
  · refine ⟨q, List.mem_of_getElem? (i := j) ?_, ⟨rfl, rfl, rfl, rfl⟩⟩
    rw [List.getElem?_set_ne hij, hj]

theorem inv_answered (h : Inv w s) {i : Nat} {r r' : Run ml} {new : List Signature}
    (hi : s.runs[i]? = some r) (hans : Answered w s.signed new r r') :
    Inv w ⟨s.runs.set i r', s.signed ++ new⟩ := by
  constructor
  · intro q hq
    rcases List.mem_or_eq_of_mem_set hq with hq | rfl
    · exact (h.stage q hq).mono (List.subset_append_left _ _)
    · exact hans.stage
  · intro e he
    have hold : ∃ q ∈ s.runs, q.owner.pqPublic = some e.key ∧ e.msg = own w q := by
      rcases List.mem_append.mp he with he | he
      · exact h.signer e he
      · exact ⟨r, List.mem_of_getElem? hi, hans.signed e he⟩
    obtain ⟨q, hq, hkey, hmsg⟩ := hold
    obtain ⟨q', hq', hsame⟩ := exists_same hi hans.same hq
    exact ⟨q', hq', by rw [hsame.owner, hkey], by rw [hsame.own_eq, hmsg]⟩

theorem inv_step (s : Net ml) (a : Act) (s' : Net ml) (h : Inv w s) (hunf : Unforgeable w s a)
    (hstep : step w s a = some s') : Inv w s' := by
  by_cases hstart : ∃ party peer side session, a = .start party peer side session
  · obtain ⟨party, peer, side, session, rfl⟩ := hstart
    simp only [step, Option.bind_eq_bind, Option.bind_eq_some_iff] at hstep
    obtain ⟨l, -, hs⟩ := hstep
    cases hs
    constructor
    · intro r hr
      rcases List.mem_append.mp hr with hr | hr
      · exact h.stage r hr
      · rw [List.mem_singleton.mp hr]
        exact stage_start w rfl rfl
    · intro e he
      obtain ⟨r, hr, hsigned⟩ := h.signer e he
      exact ⟨r, List.mem_append_left _ hr, hsigned⟩
  · have hother : ∃ r r' new, s.runs[a.run]? = some r ∧ answer w r a = some (r', new) ∧
        s' = ⟨s.runs.set a.run r', s.signed ++ new⟩ := by
      cases a with
      | start party peer side session => exact absurd ⟨party, peer, side, session, rfl⟩ hstart
      | _ =>
        simp only [step, Option.bind_eq_bind, Option.bind_eq_some_iff, Option.some.injEq,
          Prod.exists] at hstep
        obtain ⟨r, hr, r', new, hans, rfl⟩ := hstep
        exact ⟨r, r', new, hr, hans, rfl⟩
    obtain ⟨r, r', new, hr, hans, rfl⟩ := hother
    refine inv_answered h hr (answered (h.stage r (List.mem_of_getElem? hr)) ?_ hans)
    cases a with
    | deliver i frame => exact hunf
    | _ => trivial

theorem inv_run {acts : List Act} (hrun : run (step w) ⟨[], []⟩ acts = some s)
    (hunf : Allowed (step w) (Unforgeable w) ⟨[], []⟩ acts) : Inv w s := by
  refine run_allowed inv_step hrun hunf ⟨?_, ?_⟩
  · intro r hr
    cases hr
  · intro e he
    cases he

/-- The run that made the proof `r` accepts. -/
structure Matches (w : World ml) (r r' : Run ml) : Prop where
  owner : r'.owner.bundle = r.peer
  peer : r'.peer = r.owner.bundle
  side : r'.side = r.side.peer
  exporter : w.exporter r'.session = w.exporter r.session
  session : r'.session = r.session

/-- Only the matching run signs what `r` expects. -/
theorem Ideal.matches (h : Ideal w s) {r r' : Run ml} (hr : r ∈ s.runs) (hr' : r' ∈ s.runs)
    (heq : own w r' = expected w r) : Matches w r r' := by
  have hinput := h.collision_free r' hr' r hr _ List.mem_cons_self _
    (List.mem_cons_of_mem _ List.mem_cons_self) (List.Vector.eq _ _ heq)
  obtain ⟨hexp, hside, howner, hpeer⟩ := transcriptInput_injective hinput
  have hexp := List.Vector.eq _ _ hexp
  refine ⟨?_, ?_, hside, hexp, h.exporters r' hr' r hr hexp⟩
  · exact h.ids r' hr' r hr _ List.mem_cons_self _ (List.mem_cons_of_mem _ List.mem_cons_self) howner
  · exact h.ids r' hr' r hr _ (List.mem_cons_of_mem _ List.mem_cons_self) _ List.mem_cons_self hpeer

theorem Stage.ok_cases {log : List Signature} {r : Run ml} {b : Bool} (h : Stage w log r)
    (hok : r.auth = .done (.ok b)) : (b = false ∧ r.peer.pq = none) ∨
      ∃ key frame, r.peer.pq = some key ∧ r.got = some frame ∧ b = true ∧
        (Held w key → ⟨key, expected w r, frame⟩ ∈ log) := by
  cases h with
  | start h _ hauth =>
    rw [hauth, authenticate_hybrid h] at hok
    cases hok
  | signing _ _ hauth =>
    rw [hauth] at hok
    cases hok
  | sending _ _ hauth =>
    rw [hauth] at hok
    cases hok
  | checking h _ hauth =>
    rw [hauth, check, checkProof_hybrid h] at hok
    cases hok
  | failed _ hauth =>
    rw [hauth] at hok
    cases hok
  | skipped h _ hauth =>
    rw [hauth] at hok
    cases hok
    exact Or.inl ⟨rfl, h⟩
  | accepted h _ hauth hgot hsigned =>
    rw [hauth] at hok
    cases hok
    exact Or.inr ⟨_, _, h, hgot, rfl, hsigned⟩

/-- **Channel authentication.** Whatever the attacker delivers, and in whatever order: a run
that returns `Ok(true)` for a pinned party has a matching run of that party, on the same
handshake, from the other side, with the run's own party pinned. A proof of any run that
does not match, such as one of its own, of another session, for another peer or from the
same side, is never what it accepted. For a hybrid peer no run returns `Ok(false)`. -/
theorem channel_authentication {acts : List Act} (hrun : run (step w) ⟨[], []⟩ acts = some s)
    (hunf : Allowed (step w) (Unforgeable w) ⟨[], []⟩ acts) (hideal : Ideal w s) :
    ∀ r ∈ s.runs,
      (r.auth = .done (.ok true) → (∃ l ∈ w.parties, l.bundle = r.peer) →
        (∃ r' ∈ s.runs, Matches w r r') ∧ ∀ r' ∈ s.runs, r'.proof = r.got → Matches w r r') ∧
      (r.peer.isHybrid = true → r.auth ≠ .done (.ok false)) := by
  have hinv := inv_run hrun hunf
  intro r hr
  constructor
  · rintro hok ⟨l, hl, hpeer⟩
    rcases (hinv.stage r hr).ok_cases hok with ⟨h, -⟩ | ⟨key, frame, hkey, hgot, -, hsigned⟩
    · cases h
    · have hheld : Held w key := ⟨l, hl, by rw [← hkey, ← hpeer]; rfl⟩
      have hlog := hsigned hheld
      obtain ⟨r', hr', -, hmsg⟩ := hinv.signer _ hlog
      refine ⟨⟨r', hr', hideal.matches hr hr' hmsg.symm⟩, ?_⟩
      intro q hq hsame
      rw [hgot] at hsame
      obtain ⟨key', hlog'⟩ := (hinv.stage q hq).proven frame hsame
      exact hideal.matches hr hq (hideal.binding _ hlog' _ hlog rfl)
  · intro hhybrid hfalse
    unfold IdentityBundle.isHybrid at hhybrid
    rcases (hinv.stage r hr).ok_cases hfalse with ⟨-, h⟩ | ⟨_, _, -, -, h, -⟩
    · simp [h] at hhybrid
    · cases h

/-- Two parties on one handshake. -/
def sample : World sampleMlDsa where
  blake3 := sampleBlake3
  parties := [sampleHybrid 1, sampleHybrid 2]
  exporter i := List.Vector.replicate _ i.toUInt8

/-- Up to the moment both have sent their proofs. -/
def sampleActs : List Act :=
  [.start 0 (sampleHybrid 2).bundle .initiator 5, .start 1 (sampleHybrid 1).bundle .responder 5,
    .exportKey 1, .exportKey 0, .sign 0 [], .sign 1 [], .send 1, .send 0]

/-- The second party's proof. -/
def sampleProof : Bytes :=
  2 :: transcript sampleBlake3 (List.replicate 32 5) .responder ((sampleHybrid 2).id sampleBlake3)
    ((sampleHybrid 1).id sampleBlake3)

instance (w : World ml) (s : Net ml) : Decidable (Ideal w s) :=
  decidable_of_iff
    ((∀ r ∈ s.runs, ∀ r' ∈ s.runs, ∀ a ∈ hashed w r, ∀ b ∈ hashed w r',
        w.blake3 a = w.blake3 b → a = b) ∧
      (∀ r ∈ s.runs, ∀ r' ∈ s.runs, ∀ b ∈ [r.owner.bundle, r.peer],
        ∀ b' ∈ [r'.owner.bundle, r'.peer], b.id w.blake3 = b'.id w.blake3 → b = b') ∧
      (∀ r ∈ s.runs, ∀ r' ∈ s.runs, w.exporter r.session = w.exporter r'.session →
        r.session = r'.session) ∧
      ∀ e ∈ s.signed, ∀ e' ∈ s.signed, e.sig = e'.sig → e.msg = e'.msg)
    ⟨fun ⟨h1, h2, h3, h4⟩ => ⟨h1, h2, h3, h4⟩,
      fun h => ⟨h.collision_free, h.ids, h.exporters, h.binding⟩⟩

theorem sample_unforgeable :
    Allowed (step sample) (Unforgeable sample) ⟨[], []⟩ (sampleActs ++ [.deliver 0 sampleProof]) := by
  refine allowed_append (allowed_of_forall ?_) ?_
  · intro a ha s
    simp only [sampleActs, List.mem_cons, List.not_mem_nil, or_false] at ha
    rcases ha with rfl | rfl | rfl | rfl | rfl | rfl | rfl | rfl <;> trivial
  · intro s hs
    refine ⟨?_, fun _ _ => trivial⟩
    have hlog : (run (step sample) ⟨[], []⟩ sampleActs).all (fun s => s.signed.any fun e =>
        e.key == sampleKey 2 && e.msg == sampleProof.tail && e.sig == sampleProof) = true := by
      decide +kernel
    rw [hs] at hlog
    simp only [Option.all_some, List.any_eq_true, Bool.and_eq_true, beq_iff_eq] at hlog
    obtain ⟨⟨key', msg', sig'⟩, he, ⟨hkey', hmsg'⟩, hsig'⟩ := hlog
    simp only at hkey' hmsg' hsig'
    subst hkey' hmsg' hsig'
    rintro key ⟨l, hl, hkey⟩ msg hverify
    have hverify : sampleProof = key.toList.headD 0 :: msg := of_decide_eq_true hverify
    have hmsg : msg = sampleProof.tail := by rw [hverify]; rfl
    have hhead : key.toList.headD 0 = 2 := (List.cons.inj hverify).1.symm
    simp only [sample, List.mem_cons, List.not_mem_nil, or_false] at hl
    rcases hl with rfl | rfl
    · cases hkey
      rw [headD_sampleKey] at hhead
      cases hhead
    · cases hkey
      rw [hmsg]
      exact he

/-- Whether a run has accepted its peer's proof. -/
def Run.accepted {ml : MlDsa} (r : Run ml) : Bool :=
  match r.auth with
  | .done (.ok true) => true
  | _ => false

theorem Run.auth_of_accepted {ml : MlDsa} {r : Run ml} (h : r.accepted = true) :
    r.auth = .done (.ok true) := by
  unfold Run.accepted at h
  split at h
  · assumption
  · cases h

theorem channel_authentication_sample :
    ∃ s, run (step sample) ⟨[], []⟩ (sampleActs ++ [.deliver 0 sampleProof]) = some s ∧
      ∃ r ∈ s.runs, r.auth = .done (.ok true) ∧ ∃ r' ∈ s.runs, Matches sample r r' := by
  have h : (run (step sample) ⟨[], []⟩ (sampleActs ++ [.deliver 0 sampleProof])).any (fun s =>
      decide (Ideal sample s) && s.runs.any fun r =>
        r.accepted && r.peer == (sampleHybrid 2).bundle) = true := by
    decide +kernel
  obtain ⟨s, hs, hany⟩ := (Option.any_eq_true _ _).mp h
  simp only [Bool.and_eq_true, decide_eq_true_eq, List.any_eq_true, beq_iff_eq] at hany
  obtain ⟨hideal, r, hr, haccepted, hpeer⟩ := hany
  have hok := r.auth_of_accepted haccepted
  have hparty : ∃ l ∈ sample.parties, l.bundle = r.peer :=
    ⟨sampleHybrid 2, List.mem_cons_of_mem _ List.mem_cons_self, hpeer.symm⟩
  exact ⟨s, hs, r, hr, hok,
    ((channel_authentication hs sample_unforgeable hideal r hr).1 hok hparty).1⟩

end AtomVault.Live.Network
