import AtomVault.Lib.Bytes
import AtomVault.Vault.Crypto
import Mathlib.Data.Vector.Basic

/-!
# Identities (`bundle.rs`, `identity.rs`)

An identity is an Ed25519 key and, for a hybrid one, an ML-DSA-65 key. Its short form is a
hash of both.
-/

open Lib

namespace AtomVault.Live

/-- The errors of setting up a session. -/
inductive Error
  | identity (msg : String)
  | connect (msg : String)
  | session (msg : String)
  | ticket (msg : String)
  | pairing (msg : String)
  | discovery (msg : String)
  | io (msg : String)
  deriving DecidableEq

def Error.display : Error → String
  | identity msg => s!"identity error: {msg}"
  | connect msg => s!"connection error: {msg}"
  | session msg => s!"session error: {msg}"
  | ticket msg => s!"ticket error: {msg}"
  | pairing msg => s!"pairing error: {msg}"
  | discovery msg => s!"discovery error: {msg}"
  | io msg => s!"i/o error: {msg}"

/-! ## Public identities -/

def BUNDLE_ID_DOMAIN : Bytes := ascii "atom-live-identity-bundle-v1"
def BUNDLE_VERSION : UInt8 := 1
def ML_DSA_65_PUBLIC_KEY_LEN : Nat := 1952

structure PeerPublicKey where
  der : Bytes
  deriving DecidableEq

abbrev PqPublicKey := List.Vector UInt8 ML_DSA_65_PUBLIC_KEY_LEN

structure IdentityBundle where
  classical : PeerPublicKey
  pq : Option PqPublicKey
  deriving DecidableEq

abbrev BundleId := List.Vector UInt8 32

def PqPublicKey.fromBytes (bytes : Bytes) : Except Error PqPublicKey :=
  if h : bytes.length = ML_DSA_65_PUBLIC_KEY_LEN then .ok ⟨bytes, h⟩
  else .error (.identity
    s!"ML-DSA-65 public key must be {ML_DSA_65_PUBLIC_KEY_LEN} bytes, got {bytes.length}")

namespace IdentityBundle

def isHybrid (b : IdentityBundle) : Bool := b.pq.isSome

def pqBytes (b : IdentityBundle) : Bytes := (b.pq.map List.Vector.toList).getD []

-- `len() as u16` keeps the low two bytes, and so does `beBytes 2`.
def toBytes (b : IdentityBundle) : Bytes :=
  [BUNDLE_VERSION] ++ beBytes 2 b.classical.der.length ++ b.classical.der ++
    beBytes 2 b.pqBytes.length ++ b.pqBytes

/-- The closure that takes the next `n` bytes. -/
def take (n : Nat) : StateT Bytes (Except Error) Bytes :=
  takeOr (.identity "identity bundle is truncated") n

def fromBytes (bytes : Bytes) : Except Error IdentityBundle := do
  let (version, rest) ← take 1 bytes
  if version ≠ [BUNDLE_VERSION] then
    throw (.identity (s!"identity bundle version {ofBe version}, " ++
      s!"this build understands {BUNDLE_VERSION}"))
  let (classicalLen, rest) ← take 2 rest
  if ofBe classicalLen = 0 then throw (.identity "identity bundle has no classical key")
  let (classical, rest) ← take (ofBe classicalLen) rest
  let (pqLen, rest) ← take 2 rest
  let (pq, rest) ← if ofBe pqLen = 0 then pure (none, rest) else do
    let (pq, rest) ← take (ofBe pqLen) rest
    let pq ← PqPublicKey.fromBytes pq
    pure (some pq, rest)
  if rest ≠ [] then
    throw (.identity "trailing bytes after identity bundle — refusing an ambiguous encoding")
  return ⟨⟨classical⟩, pq⟩

def id (blake3 : Bytes → BundleId) (b : IdentityBundle) : BundleId :=
  blake3 (BUNDLE_ID_DOMAIN ++ b.toBytes)

end IdentityBundle

/-! ## The private half -/

/-- ML-DSA-65 as `aws-lc-rs` has it. Signing draws on randomness. -/
structure MlDsa where
  publicKey : (pkcs8 : Bytes) → Option PqPublicKey
  sign : (pkcs8 msg rnd : Bytes) → Option Bytes
  verify : (key : PqPublicKey) → (msg sig : Bytes) → Bool

/-- A key that loads signs, and what it signs verifies. -/
structure MlDsa.Correct (ml : MlDsa) : Prop where
  sign_ok : ∀ {pkcs8 key}, ml.publicKey pkcs8 = some key → ∀ msg rnd,
    (ml.sign pkcs8 msg rnd).isSome
  verify_sign : ∀ {pkcs8 key msg rnd sig}, ml.publicKey pkcs8 = some key →
    ml.sign pkcs8 msg rnd = some sig → ml.verify key msg sig = true

/-- Of the Ed25519 half only the public key is read here. -/
structure LocalBundle (ml : MlDsa) where
  classical : PeerPublicKey
  pqPkcs8 : Option Bytes
  pqPublic : Option PqPublicKey
  /-- The public key is always the one of the private key. -/
  paired : pqPkcs8.map ml.publicKey = pqPublic.map some

namespace LocalBundle

variable {ml : MlDsa} (l : LocalBundle ml)

def bundle : IdentityBundle := ⟨l.classical, l.pqPublic⟩

def id (blake3 : Bytes → BundleId) : BundleId := l.bundle.id blake3

def signPq (msg rnd : Bytes) : Except Error Bytes :=
  match l.pqPkcs8 with
  | none => .error (.identity "this identity has no post-quantum key")
  | some pkcs8 =>
    match ml.publicKey pkcs8 with
    | none => .error (.identity "could not load the ML-DSA key")
    | some _ =>
      match ml.sign pkcs8 msg rnd with
      | none => .error (.identity "ML-DSA signing failed")
      | some sig => .ok sig

variable {l}

theorem signPq_ok (hml : ml.Correct) {key : PqPublicKey} (h : l.pqPublic = some key)
    (msg rnd : Bytes) : ∃ sig, l.signPq msg rnd = .ok sig ∧ ml.verify key msg sig = true := by
  have hpair := l.paired
  rw [h] at hpair
  obtain ⟨pkcs8, hsecret, hkey⟩ := Option.map_eq_some_iff.mp hpair
  obtain ⟨sig, hsig⟩ := Option.isSome_iff_exists.mp (hml.sign_ok hkey msg rnd)
  refine ⟨sig, ?_, hml.verify_sign hkey hsig⟩
  simp [signPq, hsecret, hkey, hsig]

end LocalBundle

end AtomVault.Live
