import Mathlib.Logic.Function.Basic
import AtomVault.Daemon.Friends

/-!
# The payload of a known vault (`daemon.rs`)

The sender streams a file, without its length. The daemon opens the local copy with truncation
and writes what comes until the stream ends.
-/

open Lib

namespace AtomVault.Daemon.Receive

/-- What the copy meets: bytes that are read and written, a read that fails, and a write that
fails after some of its bytes. The stream ends with the list. -/
inductive CopyEvent
  | chunk (b : Bytes)
  | readError (e : String)
  | writeError (b : Bytes) (written : Nat) (e : String)

/-- How a known vault's transfer goes, once it is accepted. -/
structure Arrival where
  reply : Except String Unit
  create : Except String Unit
  events : List CopyEvent

/-- What the daemon logs. -/
inductive Report
  | rejected
  | replyFailed (e : String)
  | cannotWrite (e : String)
  | success (bytes : Nat)
  | transferFailed (e : String)
  deriving DecidableEq

def copy (file : Bytes) (bytes : Nat) : List CopyEvent → Except String Nat × Bytes
  | [] => (.ok bytes, file)
  | .chunk b :: events => copy (file ++ b) (bytes + b.length) events
  | .readError e :: _ => (.error e, file)
  | .writeError b written e :: _ => (.error e, file ++ b.take written)

/-- The paths are those of the file system before and after. -/
def receive (vault : SharedVault) (x : Arrival) (files : String → Option Bytes) :
    Report × (String → Option Bytes) :=
  if vault.localPath = "" then (.rejected, files)
  else
    match x.reply with
    | .error e => (.replyFailed e, files)
    | .ok () =>
      match x.create with
      | .error e => (.cannotWrite e, files)
      | .ok () =>
        let (r, file) := copy [] 0 x.events
        (match r with
          | .ok bytes => .success bytes
          | .error e => .transferFailed e,
        Function.update files vault.localPath (some file))

/-! ## What arrives -/

/-- The bytes that reach the disk. -/
def landed : List CopyEvent → Bytes
  | [] => []
  | .chunk b :: events => b ++ landed events
  | .readError _ :: _ => []
  | .writeError b written _ :: _ => b.take written

/-- Whether the stream came to its end. -/
def ended : List CopyEvent → Bool
  | [] => true
  | .chunk _ :: events => ended events
  | _ :: _ => false

/-- The local copy is not lost: it is what it was or the sender's file, and the second if the
daemon reports success. -/
structure Safe (old content : Bytes) (report : Report) (after : Option Bytes) : Prop where
  kept : after = some old ∨ after = some content
  honest : ∀ bytes, report = .success bytes → after = some content

/-- The file is never opened, or the sender's bytes are all there, or the transfer fails just
when the bytes are those of the old copy. -/
def Harmless (vault : SharedVault) (x : Arrival) (old content : Bytes) : Prop :=
  vault.localPath = "" ∨ x.reply.isOk = false ∨ x.create.isOk = false ∨
    landed x.events = content ∨ (ended x.events = false ∧ landed x.events = old)

instance (vault : SharedVault) (x : Arrival) (old content : Bytes) :
    Decidable (Harmless vault x old content) :=
  inferInstanceAs (Decidable (_ ∨ _))

theorem copy_eq (events : List CopyEvent) (file : Bytes) (bytes : Nat) :
    (copy file bytes events).2 = file ++ landed events ∧
      (copy file bytes events).1.isOk = ended events := by
  induction events generalizing file bytes with
  | nil => simp [copy, landed, ended, Except.isOk, Except.toBool]
  | cons event events ih =>
    cases event with
    | chunk b =>
      obtain ⟨hfile, hok⟩ := ih (file ++ b) (bytes + b.length)
      refine ⟨?_, hok⟩
      unfold copy landed
      rw [hfile, List.append_assoc]
    | readError e => simp [copy, landed, ended, Except.isOk, Except.toBool]
    | writeError b written e => simp [copy, landed, ended, Except.isOk, Except.toBool]

theorem safe_unopened {old content : Bytes} {report : Report} {after : Option Bytes}
    (hold : after = some old) (hreport : ∀ bytes, report ≠ .success bytes) :
    Safe old content report after :=
  ⟨Or.inl hold, fun bytes h => absurd h (hreport bytes)⟩

theorem safe_copied_iff (old content : Bytes) (events : List CopyEvent) :
    Safe old content
      (match (copy [] 0 events).1 with
        | .ok bytes => .success bytes
        | .error e => .transferFailed e)
      (some (copy [] 0 events).2) ↔
        landed events = content ∨ (ended events = false ∧ landed events = old) := by
  obtain ⟨hfile, hok⟩ := copy_eq events [] 0
  rw [List.nil_append] at hfile
  rw [hfile]
  cases hr : (copy [] 0 events).1 with
  | ok bytes =>
    have hended : ended events = true := by
      rw [← hok, hr]
      rfl
    simp only [hended, Bool.true_eq_false, false_and, or_false]
    constructor
    · intro h
      exact Option.some.inj (h.honest bytes rfl)
    · intro h
      rw [h]
      exact ⟨Or.inr rfl, fun _ _ => rfl⟩
  | error e =>
    have hended : ended events = false := by
      rw [← hok, hr]
      rfl
    simp only [hended, true_and]
    constructor
    · intro h
      rcases h.kept with hold | hcontent
      · exact Or.inr (Option.some.inj hold)
      · exact Or.inl (Option.some.inj hcontent)
    · rintro (h | h)
      · exact ⟨Or.inr (congrArg some h), by simp⟩
      · exact ⟨Or.inl (congrArg some h), by simp⟩

/-- **A re-sync.** The local copy is safe just when the transfer is harmless. -/
theorem receive_safe_iff (vault : SharedVault) (x : Arrival) (files : String → Option Bytes)
    (old content : Bytes) (hold : files vault.localPath = some old) :
    Safe old content (receive vault x files).1 ((receive vault x files).2 vault.localPath) ↔
      Harmless vault x old content := by
  unfold receive Harmless
  by_cases hpath : vault.localPath = ""
  · simp only [hpath, if_true, true_or, iff_true]
    rw [hpath] at hold
    exact safe_unopened hold (by simp)
  · rw [if_neg hpath]
    cases hreply : x.reply with
    | error e =>
      simp only [Except.isOk, Except.toBool, true_or, or_true, iff_true]
      exact safe_unopened hold (by simp)
    | ok _ =>
      cases hcreate : x.create with
      | error e =>
        simp only [Except.isOk, Except.toBool, true_or, or_true, iff_true]
        exact safe_unopened hold (by simp)
      | ok _ =>
        simp only [hpath, Except.isOk, Except.toBool, Bool.true_eq_false, false_or,
          Function.update_self]
        exact safe_copied_iff old content x.events

def sampleShared : SharedVault := ⟨"v.atom", "Synced Vault", "/v.atom", 7⟩

/-- The copy of two bytes is there. -/
def sampleFiles (path : String) : Option Bytes := if path = "/v.atom" then some [1, 2] else none

/-- The sender goes away after the first of its three bytes. -/
def sampleCut : Arrival := ⟨.ok (), .ok (), [.chunk [7]]⟩

theorem receive_safe_iff_whole :
    Safe [1, 2] [7, 8, 9]
      (receive sampleShared ⟨.ok (), .ok (), [.chunk [7], .chunk [8, 9]]⟩ sampleFiles).1
      ((receive sampleShared ⟨.ok (), .ok (), [.chunk [7], .chunk [8, 9]]⟩ sampleFiles).2 "/v.atom") ∧
    Harmless sampleShared ⟨.ok (), .ok (), [.chunk [7], .chunk [8, 9]]⟩ [1, 2] [7, 8, 9] := by
  have hharmless : Harmless sampleShared ⟨.ok (), .ok (), [.chunk [7], .chunk [8, 9]]⟩
      [1, 2] [7, 8, 9] := by
    decide
  exact ⟨(receive_safe_iff sampleShared _ sampleFiles _ _ rfl).mpr hharmless, hharmless⟩

/-- The copy is gone, and the daemon reports a success. -/
theorem cut_transfer_loses_copy :
    ¬ Safe [1, 2] [7, 8, 9] (receive sampleShared sampleCut sampleFiles).1
      ((receive sampleShared sampleCut sampleFiles).2 "/v.atom") ∧
    (receive sampleShared sampleCut sampleFiles).1 = .success 1 := by
  refine ⟨?_, by decide⟩
  rintro ⟨hkept, -⟩
  have hafter : (receive sampleShared sampleCut sampleFiles).2 "/v.atom" = some [7] := by decide
  rw [hafter] at hkept
  simp at hkept

end AtomVault.Daemon.Receive
