import AtomVault.Lib.Talk
import AtomVault.Live.Ticket

/-!
# The post-quantum proof (`pq_auth.rs`, `rendezvous.rs`)

Once a session is up each hybrid side signs a value that names this channel, its side of it
and the two identities.
-/

open Lib

namespace AtomVault.Live

def EXPORTER_LABEL : Bytes := ascii "atom-vault/live/1 pq-auth"
def EXPORTER_CONTEXT : Bytes := ascii "atom-live-pq-auth-v1"
def TRANSCRIPT_DOMAIN : Bytes := ascii "atom-live-pq-auth-transcript-v1"
def EXPORTER_LEN : Nat := 32

inductive Side
  | initiator
  | responder
  deriving DecidableEq

def Side.label : Side → Bytes
  | initiator => ascii "initiator"
  | responder => ascii "responder"

def Side.peer : Side → Side
  | initiator => responder
  | responder => initiator

/-- What `authenticate` asks of the session and of the local key. -/
inductive Ask
  | exportKeyingMaterial (label context : Bytes)
  | signPq (message : Bytes)
  | send (msg : Bytes)
  | recv
  deriving DecidableEq

abbrev Auth := Talk Ask Bytes Error

section Model

variable (blake3 : Bytes → BundleId)

def transcriptInput (exporter : Bytes) (side : Side) (signer peer : BundleId) : Bytes :=
  TRANSCRIPT_DOMAIN ++ (side.label ++ (signer.toList ++ (peer.toList ++ exporter)))

def transcript (exporter : Bytes) (side : Side) (signer peer : BundleId) : Bytes :=
  (blake3 (transcriptInput exporter side signer peer)).toList

variable {ml : MlDsa} (l : LocalBundle ml) (peer : IdentityBundle) (side : Side)

def sendProof (exporter : Bytes) : Auth Unit :=
  if l.bundle.isHybrid then do
    let proof ← Talk.ask (.signPq (transcript blake3 exporter side (l.id blake3) (peer.id blake3)))
    let _ ← Talk.ask (.send proof)
    return ()
  else return ()

-- `required` is that the pinned bundle has a key, and the key is what `expect` unwraps.
def checkProof (exporter : Bytes) : Auth Bool :=
  match peer.pq with
  | none => return false
  | some key => do
    let proof ← Talk.ask .recv
    let expected := transcript blake3 exporter side.peer (peer.id blake3) (l.id blake3)
    if ml.verify key expected proof then return true
    else .done (.error (.identity ("the peer could not prove possession of its post-quantum key " ++
      "for this channel: the session is refused")))

def authenticate : Auth Bool :=
  if !peer.isHybrid && !l.bundle.isHybrid then return false
  else do
    let exporter ← Talk.ask (.exportKeyingMaterial EXPORTER_LABEL EXPORTER_CONTEXT)
    sendProof blake3 l peer side exporter
    checkProof blake3 l peer side exporter

/-! ## Roles -/

inductive Role
  | dialer
  | accepter
  deriving DecidableEq

def roleFor (t : Ticket) : Role :=
  if (l.id blake3).toList < (t.id blake3).toList then .dialer else .accepter

end Model

/-- The side `rendezvous_on` takes in a role. -/
def Role.side : Role → Side
  | dialer => .initiator
  | accepter => .responder

variable {blake3 : Bytes → BundleId}

theorem Side.length_label (s : Side) : s.label.length = 9 := by
  cases s <;> rfl

/-- The bytes that are hashed determine all four parts: the label is the only one of variable
text, and both labels have the same length. -/
theorem transcriptInput_injective {e e' : Bytes} {s s' : Side} {i i' p p' : BundleId}
    (h : transcriptInput e s i p = transcriptInput e' s' i' p') :
    e = e' ∧ s = s' ∧ i = i' ∧ p = p' := by
  unfold transcriptInput at h
  have h := List.append_cancel_left h
  obtain ⟨hlabel, h⟩ := List.append_inj h (by rw [Side.length_label, Side.length_label])
  obtain ⟨hsigner, h⟩ := List.append_inj h (by rw [i.toList_length, i'.toList_length])
  obtain ⟨hpeer, h⟩ := List.append_inj h (by rw [p.toList_length, p'.toList_length])
  refine ⟨h, ?_, List.Vector.eq _ _ hsigner, List.Vector.eq _ _ hpeer⟩
  revert hlabel
  cases s <;> cases s' <;> decide

theorem roleFor_ne {ml : MlDsa} {l l' : LocalBundle ml} {t t' : Ticket}
    (ht : t.identity = l'.bundle) (ht' : t'.identity = l.bundle)
    (hne : l.id blake3 ≠ l'.id blake3) : roleFor blake3 l t ≠ roleFor blake3 l' t' := by
  have hid : t.id blake3 = l'.id blake3 := by rw [Ticket.id, ht]; rfl
  have hid' : t'.id blake3 = l.id blake3 := by rw [Ticket.id, ht']; rfl
  unfold roleFor
  rw [hid, hid']
  by_cases h : (l.id blake3).toList < (l'.id blake3).toList
  · rw [if_pos h, if_neg (List.lt_asymm h)]
    decide
  · have hgt : (l'.id blake3).toList < (l.id blake3).toList := by
      by_contra h'
      exact hne (List.Vector.eq _ _ (List.le_antisymm h' h))
    rw [if_neg h, if_pos hgt]
    decide

/-! ## The calls `authenticate` makes -/

section Calls

variable {ml : MlDsa} {l : LocalBundle ml} {peer : IdentityBundle} {side : Side} {e : Bytes}
  {key : PqPublicKey}

theorem authenticate_classical (hp : peer.pq = none) (hl : l.pqPublic = none) :
    authenticate blake3 l peer side = .done (.ok false) := by
  unfold authenticate IdentityBundle.isHybrid LocalBundle.bundle
  simp [hp, hl]

theorem authenticate_hybrid (h : peer.pq ≠ none ∨ l.pqPublic ≠ none) :
    authenticate blake3 l peer side = .call (.exportKeyingMaterial EXPORTER_LABEL EXPORTER_CONTEXT)
      fun e => sendProof blake3 l peer side e >>= fun _ => checkProof blake3 l peer side e := by
  unfold authenticate IdentityBundle.isHybrid LocalBundle.bundle
  rw [if_neg]
  · rfl
  · simp only [Bool.and_eq_true, Bool.not_eq_true', Option.isSome_eq_false_iff,
      Option.isNone_iff_eq_none, not_and]
    rintro hp hl
    rcases h with h | h
    · exact h hp
    · exact h hl

theorem sendProof_classical (hl : l.pqPublic = none) :
    (sendProof blake3 l peer side e >>= fun _ => checkProof blake3 l peer side e) =
      checkProof blake3 l peer side e := by
  unfold sendProof IdentityBundle.isHybrid LocalBundle.bundle
  simp [hl]

theorem sendProof_hybrid (hl : l.pqPublic = some key) :
    (sendProof blake3 l peer side e >>= fun _ => checkProof blake3 l peer side e) =
      .call (.signPq (transcript blake3 e side (l.id blake3) (peer.id blake3))) fun proof =>
        .call (.send proof) fun _ => checkProof blake3 l peer side e := by
  unfold sendProof IdentityBundle.isHybrid LocalBundle.bundle
  simp [hl]

theorem checkProof_classical (hp : peer.pq = none) :
    checkProof blake3 l peer side e = .done (.ok false) := by
  unfold checkProof
  simp [hp]

theorem checkProof_hybrid (hp : peer.pq = some key) :
    checkProof blake3 l peer side e = .call .recv fun proof =>
      if ml.verify key (transcript blake3 e side.peer (peer.id blake3) (l.id blake3)) proof then
        .done (.ok true)
      else .done (.error (.identity ("the peer could not prove possession of its post-quantum key " ++
        "for this channel: the session is refused"))) := by
  unfold checkProof
  rw [hp]
  rfl

end Calls

/-! ## A scheme to run the model with -/

def sampleKey (b : UInt8) : PqPublicKey := List.Vector.replicate _ b

/-- The signature is the key's byte and the message. -/
def sampleMlDsa : MlDsa where
  publicKey pkcs8 := pkcs8.head?.map sampleKey
  sign pkcs8 msg _ := some (pkcs8.headD 0 :: msg)
  verify key msg sig := sig = key.toList.headD 0 :: msg

theorem headD_sampleKey (b : UInt8) : (sampleKey b).toList.headD 0 = b := by
  have h : ∀ n, (List.Vector.replicate (n + 1) b).toList.headD 0 = b := fun _ => rfl
  exact h 1951

theorem sampleMlDsa_correct : sampleMlDsa.Correct where
  sign_ok _ _ _ := rfl
  verify_sign := by
    intro pkcs8 key msg rnd sig hkey hsig
    cases pkcs8 with
    | nil => cases hkey
    | cons b bs =>
      cases hkey
      cases hsig
      simp only [sampleMlDsa, headD_sampleKey, List.headD_cons, decide_true]

/-- The first 32 bytes after the domain and the header of a bundle. -/
def sampleBlake3 (b : Bytes) : BundleId := ⟨(b.drop 31 ++ List.replicate 32 0).take 32, by simp⟩

def sampleHybrid (b : UInt8) : LocalBundle sampleMlDsa :=
  ⟨⟨[b]⟩, some [b], some (sampleKey b), rfl⟩

end AtomVault.Live
