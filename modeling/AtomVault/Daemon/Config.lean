import AtomVault.Live.Ticket
import AtomVault.Vault.Instance

/-!
# Encrypted configuration files (`config_crypto.rs`)

Every file under `~/.atom_vault` is written whole: it is opened with truncation, and then the
sealed bytes go in from the front.
-/

open Lib

namespace AtomVault.Daemon

open Live

def MAGIC : Bytes := ascii "ATOM" ++ [1]

/-- XChaCha20-Poly1305 under the key of the keyring. -/
structure ConfigCipher where
  encrypt : (nonce : List.Vector UInt8 24) → (plaintext : Bytes) → Bytes
  decrypt : (nonce ciphertext : Bytes) → Option Bytes

/-- What was sealed opens, and nothing shorter does. -/
structure ConfigCipher.Correct (c : ConfigCipher) : Prop where
  decrypt_encrypt : ∀ nonce p, c.decrypt nonce.toList (c.encrypt nonce p) = some p
  decrypt_take : ∀ nonce p k, k < (c.encrypt nonce p).length →
    c.decrypt nonce.toList ((c.encrypt nonce p).take k) = none

/-- How values of a type are written as JSON and read. -/
structure Json (α : Type) where
  write : α → Text
  read : Text → Except String α

structure Json.Correct {α : Type} (js : Json α) : Prop where
  read_write : ∀ a, js.read (js.write a) = .ok a

section Files

variable (c : ConfigCipher)

def encryptConfig (nonce : List.Vector UInt8 24) (plaintext : Bytes) : Bytes :=
  MAGIC ++ (nonce.toList ++ c.encrypt nonce plaintext)

def decryptConfig (data : Bytes) : Except String Bytes :=
  if data.take MAGIC.length ≠ MAGIC then .ok data
  else
    let payload := data.drop MAGIC.length
    if payload.length < 24 then
      .error "Encrypted config file is truncated — possible data corruption"
    else
      match c.decrypt (payload.take 24) (payload.drop 24) with
      | some plaintext => .ok plaintext
      | none => .error "Config decryption failed — corrupted file or keyring key mismatch"

/-- What is on disk when a save stops: before the file was opened, or after so many bytes. -/
def saved (old : Option Bytes) (data : Bytes) : Option Nat → Option Bytes
  | none => old
  | some k => some (data.take k)

variable {c} {nonce : List.Vector UInt8 24} {p : Bytes}

theorem length_magic : MAGIC.length = 5 := rfl

theorem length_encryptConfig :
    (encryptConfig c nonce p).length = 29 + (c.encrypt nonce p).length := by
  simp [encryptConfig, length_magic]
  omega

theorem decryptConfig_encryptConfig (hc : c.Correct) :
    decryptConfig c (encryptConfig c nonce p) = .ok p := by
  have hnonce : (nonce.toList ++ c.encrypt nonce p).take 24 = nonce.toList :=
    List.take_left' nonce.toList_length
  have hrest : (nonce.toList ++ c.encrypt nonce p).drop 24 = c.encrypt nonce p :=
    List.drop_left' nonce.toList_length
  unfold decryptConfig encryptConfig
  simp [hnonce, hrest, hc.decrypt_encrypt]

theorem decryptConfig_take_of_lt {k : Nat} (hk : k < 5) :
    decryptConfig c ((encryptConfig c nonce p).take k) = .ok (MAGIC.take k) := by
  have htake : (encryptConfig c nonce p).take k = MAGIC.take k := by
    unfold encryptConfig
    rw [List.take_append_of_le_length (by rw [length_magic]; omega)]
  rw [htake]
  unfold decryptConfig
  rw [if_pos]
  intro heq
  have hlen := congrArg List.length heq
  simp [length_magic] at hlen
  omega

theorem decryptConfig_take_of_le (hc : c.Correct) {k : Nat} (hk : 5 ≤ k)
    (hlt : k < (encryptConfig c nonce p).length) :
    ∃ e, decryptConfig c ((encryptConfig c nonce p).take k) = .error e := by
  rw [length_encryptConfig] at hlt
  have htake : (encryptConfig c nonce p).take k =
      MAGIC ++ (nonce.toList ++ c.encrypt nonce p).take (k - 5) := by
    unfold encryptConfig
    rw [List.take_append, List.take_of_length_le (by rw [length_magic]; omega), length_magic]
  rw [htake]
  unfold decryptConfig
  rw [if_neg (by simp)]
  simp only [List.drop_left, List.length_take, List.length_append, nonce.toList_length]
  by_cases hshort : k - 5 < 24
  · exact ⟨_, if_pos (by omega)⟩
  · rw [if_neg (by omega)]
    have hnonce : ((nonce.toList ++ c.encrypt nonce p).take (k - 5)).take 24 = nonce.toList := by
      rw [List.take_take, Nat.min_eq_left (by omega), List.take_left' nonce.toList_length]
    have hrest : ((nonce.toList ++ c.encrypt nonce p).take (k - 5)).drop 24 =
        (c.encrypt nonce p).take (k - 29) := by
      rw [List.take_append, List.take_of_length_le (by simp; omega), List.drop_left' (by simp)]
      simp
      rfl
    rw [hnonce, hrest, hc.decrypt_take nonce p _ (by omega)]
    exact ⟨_, rfl⟩

end Files

/-! ### Files to run the model with -/

/-- Each byte follows a one, and the tag is sixteen zeros. -/
def sampleSeal (p : Bytes) : Bytes := (p.flatMap fun x => [1, x]) ++ List.replicate 16 0

def sampleUnseal : Bytes → Option Bytes
  | 1 :: x :: b => (sampleUnseal b).map (x :: ·)
  | b => if b = List.replicate 16 0 then some [] else none

def sampleCipher : ConfigCipher := ⟨fun _ => sampleSeal, fun _ => sampleUnseal⟩

def sampleNonce : List.Vector UInt8 24 := List.Vector.replicate _ 0

theorem sampleSeal_cons (x : UInt8) (p : Bytes) : sampleSeal (x :: p) = 1 :: x :: sampleSeal p := rfl

theorem sampleUnseal_zeros {k : Nat} (hk : k < 16) :
    sampleUnseal (List.replicate k 0) = none := by
  have hne : List.replicate k (0 : UInt8) ≠ List.replicate 16 0 := by
    intro h
    have hlen := congrArg List.length h
    simp at hlen
    omega
  cases k with
  | zero => rfl
  | succ k =>
    unfold sampleUnseal
    rw [List.replicate_succ] at hne ⊢
    split
    · rename_i heq
      simp at heq
    · rw [if_neg hne]

theorem sampleCipher_correct : sampleCipher.Correct where
  decrypt_encrypt _ p := by
    show sampleUnseal (sampleSeal p) = some p
    induction p with
    | nil => rfl
    | cons x p ih => rw [sampleSeal_cons, sampleUnseal, ih, Option.map_some]
  decrypt_take _ p k h := by
    show sampleUnseal ((sampleSeal p).take k) = none
    replace h : k < (sampleSeal p).length := h
    induction p generalizing k with
    | nil =>
      have hk : k < 16 := h
      have htake : (sampleSeal []).take k = List.replicate k 0 := by
        show (List.replicate 16 (0 : UInt8)).take k = _
        rw [List.take_replicate, Nat.min_eq_left (by omega)]
      rw [htake]
      exact sampleUnseal_zeros hk
    | cons x p ih =>
      rw [sampleSeal_cons] at h ⊢
      match k with
      | 0 => rfl
      | 1 => rfl
      | k + 2 =>
        simp only [List.length_cons] at h
        rw [List.take_succ_cons, List.take_succ_cons, sampleUnseal, ih k (by omega),
          Option.map_none]

/-- A value in the bytes of a codec, one letter for each. -/
def Json.ofCodec {α : Type} (c : Codec α) : Json α where
  write a := (c.enc a).map fun b => Char.ofNat b.toNat
  read t :=
    match c.dec (t.map fun a => UInt8.ofNat a.toNat) with
    | some (a, []) => .ok a
    | _ => .error "expected value"

theorem Json.ofCodec_correct {α : Type} (c : Codec α) : (Json.ofCodec c).Correct where
  read_write a := by
    have hbyte : ∀ b : UInt8, UInt8.ofNat (Char.ofNat b.toNat).toNat = b := by
      have hall : ∀ n < 256, UInt8.ofNat (Char.ofNat n).toNat = UInt8.ofNat n := by
        decide +kernel
      intro b
      rw [hall b.toNat b.toNat_lt, UInt8.ofNat_toNat]
    have hback : ((c.enc a).map fun b => Char.ofNat b.toNat).map (fun a => UInt8.ofNat a.toNat) =
        c.enc a ++ [] := by
      simp [Function.comp_def, hbyte]
    unfold Json.ofCodec
    simp only [hback, c.dec_enc]

/-- Values in brackets. -/
def Json.inBrackets {α : Type} (js : Json α) : Json α where
  write a := '[' :: js.write a
  read
    | '[' :: t => js.read t
    | _ => .error "expected value"

theorem Json.inBrackets_correct {α : Type} {js : Json α} (h : js.Correct) :
    js.inBrackets.Correct where
  read_write a := h.read_write a

namespace Coding

open Bincode

def char : Codec Char :=
  (Codec.fixed 4).restrict
    (fun v => if (ofLe v.toList).isValidChar then some (Char.ofNat (ofLe v.toList)) else none)
    (fun a => vectorOf a.toNat 4)
    (by
      intro a
      have hlt : a.toNat < 256 ^ 4 := by
        have hbound := a.val.toNat_lt
        show a.val.toNat < 256 ^ 4
        omega
      have hof : ofLe (vectorOf a.toNat 4).toList = a.toNat := ofLe_leBytes 4 _ hlt
      rw [hof, if_pos (show a.toNat.isValidChar from a.valid), Char.ofNat_toNat])
    (by
      intro v a h
      split at h
      · rename_i hvalid
        cases h
        apply List.Vector.toList_injective
        have hto : (Char.ofNat (ofLe v.toList)).toNat = ofLe v.toList := by
          rw [Char.ofNat, dif_pos hvalid]
          rfl
        show leBytes 4 (Char.ofNat (ofLe v.toList)).toNat = v.toList
        rw [hto]
        have := leBytes_ofLe v.toList
        rwa [v.toList_length] at this
      · cases h)

def text : Codec Text := Codec.list count char

def string : Codec String := text.iso String.ofList String.toList
  (fun _ => String.ofList_toList) (fun _ => String.toList_ofList)

def option {α : Type} (c : Codec α) : Codec (Option α) :=
  (Codec.list count c).restrict
    (fun
      | [] => some none
      | [a] => some (some a)
      | _ => none)
    Option.toList
    (by
      intro a
      cases a <;> rfl)
    (by
      intro l a h
      match l, h with
      | [], h =>
        cases h
        rfl
      | [b], h =>
        cases h
        rfl)

end Coding

end AtomVault.Daemon
