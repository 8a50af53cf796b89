import AtomVault.Lib.Bytes
import Mathlib.Data.Vector.Basic

/-!
# The transfer's frames (`transfer.rs`, wire format)

One message is one frame: a tag, the content's length, the content, and zeros up to the
length all frames of a transfer have.
-/

open Lib

namespace AtomVault.Transfer

abbrev Hash := List.Vector UInt8 32

inductive Error
  | session (msg : String)
  | transfer (msg : String)
  | integrity (msg : String)
  | cancelled
  deriving DecidableEq

def HEADER_LEN : Nat := 5
def MAX_FRAME_LEN : Nat := 16 * 1024 * 1024

namespace Tag

def OFFER : UInt8 := 0x01
def RESUME : UInt8 := 0x02
def START : UInt8 := 0x03
def DATA : UInt8 := 0x04
def DONE : UInt8 := 0x05
def ACK : UInt8 := 0x06
def COVER : UInt8 := 0x07
def FINISH : UInt8 := 0x08

end Tag

/-- `{:02x}`. -/
def hexByte (b : UInt8) : String :=
  String.ofList [Nat.digitChar (b.toNat / 16), Nat.digitChar (b.toNat % 16)]

def hex (bytes : Bytes) : String := bytes.foldl (fun acc b => acc ++ hexByte b) ""

def frame (tag : UInt8) (content : Bytes) (frameLen : Nat) : Bytes :=
  tag :: (beBytes 4 content.length ++ content ++
    List.replicate (frameLen - (content.length + HEADER_LEN)) 0)

def parse (raw : Bytes) : Except Error (UInt8 × Bytes) :=
  if raw.length < HEADER_LEN then
    .error (.transfer s!"frame of {raw.length} bytes is too short to hold a header")
  else
    let len := ofBe (slice raw 1 4)
    if HEADER_LEN + len ≤ raw.length then .ok (raw.headD 0, slice raw HEADER_LEN len)
    else .error (.transfer s!"frame claims {len} content bytes it lacks")

/-- `expect`, on the frame that arrived. -/
def expect (raw : Bytes) (want : UInt8) : Except Error Bytes := do
  let (tag, content) ← parse raw
  if tag ≠ want then
    .error (.transfer s!"expected frame tag 0x{hexByte want}, got 0x{hexByte tag}")
  else .ok content

def fixed (content : Bytes) (len : Nat) (what : String) : Except Error Unit :=
  if content.length ≠ len then
    .error (.transfer s!"malformed {what}: {content.length} content bytes, expected {len}")
  else .ok ()

def decodeOffer (raw : Bytes) : Except Error Nat := do
  let (tag, content) ← parse raw
  if tag ≠ Tag.OFFER then .error (.transfer s!"expected OFFER, got tag 0x{hexByte tag}") else
    fixed content 8 "OFFER"
    return ofBe content

/-- The first 32 bytes, for contents whose length was checked. -/
def toHash (b : Bytes) : Hash := ⟨(b ++ List.replicate 32 0).take 32, by simp⟩

def decodeResume (content : Bytes) : Except Error (Nat × Hash) := do
  fixed content 40 "RESUME"
  return (ofBe (slice content 0 8), toHash (slice content 8 32))

def decodeStart (content : Bytes) : Except Error Nat := do
  fixed content 8 "START"
  return ofBe content

def decodeDone (content : Bytes) : Except Error Hash := do
  fixed content 32 "DONE"
  return toHash content

/-! ## Round trips -/

theorem length_frame (tag : UInt8) (content : Bytes) (frameLen : Nat) :
    (frame tag content frameLen).length = max frameLen (content.length + HEADER_LEN) := by
  unfold frame HEADER_LEN
  simp only [List.length_cons, List.length_append, length_beBytes, List.length_replicate]
  omega

theorem length_frame_of_le {tag : UInt8} {content : Bytes} {frameLen : Nat}
    (h : content.length + HEADER_LEN ≤ frameLen) : (frame tag content frameLen).length = frameLen := by
  rw [length_frame, max_eq_left h]

theorem parse_frame (tag : UInt8) {content : Bytes} (frameLen : Nat)
    (h : content.length < 2 ^ 32) : parse (frame tag content frameLen) = .ok (tag, content) := by
  have hlen := length_frame tag content frameLen
  have hcount : slice (frame tag content frameLen) 1 4 = beBytes 4 content.length := by
    have := slice_field [tag] (beBytes 4 content.length)
      (content ++ List.replicate (frameLen - (content.length + HEADER_LEN)) 0)
      (p := 1) (n := 4) rfl (length_beBytes 4 _)
    unfold frame
    rw [List.append_assoc]
    exact this
  have hcontent : slice (frame tag content frameLen) HEADER_LEN content.length = content := by
    have := slice_field (tag :: beBytes 4 content.length) content
      (List.replicate (frameLen - (content.length + HEADER_LEN)) 0)
      (p := HEADER_LEN) (n := content.length) (by simp [HEADER_LEN]) rfl
    unfold frame
    rw [List.append_assoc]
    exact this
  have hfits : HEADER_LEN + content.length ≤ (frame tag content frameLen).length := by
    rw [hlen]
    omega
  unfold parse
  rw [if_neg (by rw [hlen]; omega)]
  simp only [hcount, ofBe_beBytes 4 content.length (by simpa using h)]
  rw [if_pos hfits, hcontent]
  rfl

theorem decodeOffer_frame {total : Nat} (frameLen : Nat) (h : total < 2 ^ 64) :
    decodeOffer (frame Tag.OFFER (beBytes 8 total) frameLen) = .ok total := by
  unfold decodeOffer
  rw [parse_frame _ _ (by simp)]
  simp [bind, Except.bind, fixed, ofBe_beBytes 8 total (by simpa using h), pure, Except.pure]

theorem toHash_toList (h : Hash) : toHash h.toList = h := by
  apply List.Vector.toList_injective
  show (h.toList ++ List.replicate 32 0).take 32 = h.toList
  rw [List.take_left' h.toList_length]

theorem decodeResume_encode {n : Nat} (h : Hash) (hn : n < 2 ^ 64) :
    decodeResume (beBytes 8 n ++ h.toList) = .ok (n, h) := by
  have hfirst : slice (beBytes 8 n ++ h.toList) 0 8 = beBytes 8 n := by
    rw [slice_from_zero, List.take_left' (by simp)]
  have hlast : slice (beBytes 8 n ++ h.toList) 8 32 = h.toList := by
    have := slice_field (beBytes 8 n) h.toList [] (p := 8) (n := 32) (by simp) h.toList_length
    rwa [List.append_nil] at this
  unfold decodeResume
  simp [fixed, hfirst, hlast, toHash_toList, ofBe_beBytes 8 n (by simpa using hn), bind, Except.bind,
    pure, Except.pure]

theorem decodeStart_encode {n : Nat} (hn : n < 2 ^ 64) : decodeStart (beBytes 8 n) = .ok n := by
  simp [decodeStart, fixed, ofBe_beBytes 8 n (by simpa using hn), bind, Except.bind, pure,
    Except.pure]

theorem decodeDone_encode (h : Hash) : decodeDone h.toList = .ok h := by
  simp [decodeDone, fixed, toHash_toList, bind, Except.bind, pure, Except.pure]

end AtomVault.Transfer
