import AtomVault.Transfer.Machine
import AtomVault.Lib.Channel
import Mathlib.Data.List.Induction
import Mathlib.Data.List.Infix

/-!
# The conversation of a transfer

The abstract protocol: what the sender of `src` says, message by message. Both ends
follow it, the receiver some messages behind.
-/

open Lib

namespace AtomVault.Transfer

inductive Msg
  | offer (total : Nat)
  | resume (held : Nat) (hash : Hash)
  | start (offset : Nat)
  | data (chunk : Bytes)
  | done (hash : Hash)
  | cover
  | finish
  | ack

namespace Msg

def tag : Msg → UInt8
  | offer _ => Tag.OFFER
  | resume _ _ => Tag.RESUME
  | start _ => Tag.START
  | data _ => Tag.DATA
  | done _ => Tag.DONE
  | cover => Tag.COVER
  | finish => Tag.FINISH
  | ack => Tag.ACK

def content : Msg → Bytes
  | offer total => beBytes 8 total
  | resume held hash => beBytes 8 held ++ hash.toList
  | start offset => beBytes 8 offset
  | data chunk => chunk
  | done hash => hash.toList
  | cover | finish | ack => []

def encode (frameLen : Nat) (m : Msg) : Bytes := frame m.tag m.content frameLen

/-- A message that a frame of `chunk` content bytes can carry. -/
def Fits (chunk : Nat) : Msg → Prop
  | offer n | resume n _ | start n => n ≤ maxLen
  | data b => b.length ≤ chunk
  | _ => True

variable {t : Transfer} {m : Msg}

theorem Fits.length_content (h : m.Fits t.chunkLen) (hchunk : 40 ≤ t.chunkLen) :
    m.content.length ≤ t.chunkLen := by
  cases m with
  | data b => exact h
  | offer | resume | start | done | cover | finish | ack => simp [content]; try omega

theorem Fits.length_encode (h : m.Fits t.chunkLen) (hchunk : 40 ≤ t.chunkLen) :
    (m.encode t.frameLen).length = t.frameLen := by
  have := h.length_content hchunk
  apply length_frame_of_le
  unfold frameLen
  omega

theorem Fits.parse_encode (h : m.Fits t.chunkLen) (hchunk : 40 ≤ t.chunkLen) :
    parse (m.encode t.frameLen) = .ok (m.tag, m.content) := by
  apply parse_frame
  have hle := h.length_content hchunk
  have hmax := t.chunk_le
  unfold MAX_FRAME_LEN HEADER_LEN at hmax
  omega

theorem Fits.expect_encode (h : m.Fits t.chunkLen) (hchunk : 40 ≤ t.chunkLen) :
    expect (m.encode t.frameLen) m.tag = .ok m.content := by
  simp [expect, h.parse_encode hchunk, bind, Except.bind]

theorem Fits.of_expect {want : UInt8} {content : Bytes} (h : m.Fits t.chunkLen)
    (hchunk : 40 ≤ t.chunkLen) (hexp : expect (m.encode t.frameLen) want = .ok content) :
    m.tag = want ∧ m.content = content := by
  simp only [expect, h.parse_encode hchunk, bind, Except.bind] at hexp
  split at hexp
  · cases hexp
  · rename_i htag
    cases hexp
    exact ⟨not_not.mp htag, rfl⟩

theorem tag_eq_resume (h : m.tag = Tag.RESUME) : ∃ held hash, m = resume held hash := by
  cases m with
  | resume held hash => exact ⟨held, hash, rfl⟩
  | offer | start | data | done | cover | finish | ack =>
    simp only [tag] at h
    exact absurd h (by decide)

theorem tag_eq_start (h : m.tag = Tag.START) : ∃ offset, m = start offset := by
  cases m with
  | start offset => exact ⟨offset, rfl⟩
  | offer | resume | data | done | cover | finish | ack =>
    simp only [tag] at h
    exact absurd h (by decide)

theorem tag_eq_ack (h : m.tag = Tag.ACK) : m = ack := by
  cases m with
  | ack => rfl
  | offer | resume | start | data | done | cover | finish =>
    simp only [tag] at h
    exact absurd h (by decide)

end Msg

/-! ## What the sender says -/

/-- How far the sender of a transfer has come. -/
inductive Stage
  | idle
  | offered
  | sending (offset sent : Nat)
  | ramp (offset cover : Nat)
  | finished (offset cover : Nat)
  deriving DecidableEq

section Conversation

variable (blake3 : Bytes → Hash) (src : Bytes) (chunk : Nat)

/-- The next message from a stage, if it is one the sender of `src` may send there. -/
def advance : Stage → Msg → Option Stage
  | .idle, .offer total => if total = src.length then some .offered else none
  | .offered, .start o => if o ≤ src.length then some (.sending o o) else none
  | .sending o n, .data b =>
    if b.length ≤ chunk ∧ b = slice src n b.length then some (.sending o (n + b.length)) else none
  | .sending o n, .done hash =>
    if n = src.length ∧ hash = blake3 src then some (.ramp o 0) else none
  | .ramp o k, .cover => some (.ramp o (k + 1))
  | .ramp o k, .finish => some (.finished o k)
  | _, _ => none

def follow (ms : List Msg) : Option Stage := ms.foldlM (advance blake3 src chunk) .idle

/-- Where a stage's `START` was, once it is out. -/
def Stage.offset : Stage → Option Nat
  | .idle | .offered => none
  | .sending o _ | .ramp o _ | .finished o _ => some o

/-- Where the sender starts, on an answer that says `held` bytes with this hash. -/
def startAt (held : Nat) (hash : Hash) : Nat :=
  if 0 < held ∧ held ≤ src.length ∧ blake3 (src.take held) = hash then held else 0

variable {blake3 src chunk} {q q' : Stage} {m : Msg} {ms ms' : List Msg}

theorem startAt_le (held : Nat) (hash : Hash) : startAt blake3 src held hash ≤ src.length := by
  unfold startAt
  split <;> omega

theorem advance_cases (h : advance blake3 src chunk q m = some q') :
    (q = .idle ∧ m = .offer src.length ∧ q' = .offered) ∨
    (∃ o ≤ src.length, q = .offered ∧ m = .start o ∧ q' = .sending o o) ∨
    (∃ o n b, b.length ≤ chunk ∧ b = slice src n b.length ∧ q = .sending o n ∧ m = .data b ∧
      q' = .sending o (n + b.length)) ∨
    (∃ o, q = .sending o src.length ∧ m = .done (blake3 src) ∧ q' = .ramp o 0) ∨
    (∃ o k, q = .ramp o k ∧ m = .cover ∧ q' = .ramp o (k + 1)) ∨
    (∃ o k, q = .ramp o k ∧ m = .finish ∧ q' = .finished o k) := by
  unfold advance at h
  split at h
  · split at h
    · rename_i htotal
      cases h
      exact Or.inl ⟨rfl, by rw [htotal], rfl⟩
    · cases h
  · split at h
    · rename_i o ho
      cases h
      exact Or.inr (Or.inl ⟨o, ho, rfl, rfl, rfl⟩)
    · cases h
  · split at h
    · rename_i o n b hb
      cases h
      exact Or.inr (Or.inr (Or.inl ⟨o, n, b, hb.1, hb.2, rfl, rfl, rfl⟩))
    · cases h
  · split at h
    · rename_i o n hash hn
      obtain ⟨rfl, rfl⟩ := hn
      cases h
      exact Or.inr (Or.inr (Or.inr (Or.inl ⟨o, rfl, rfl, rfl⟩)))
    · cases h
  · rename_i o k
    cases h
    exact Or.inr (Or.inr (Or.inr (Or.inr (Or.inl ⟨o, k, rfl, rfl, rfl⟩))))
  · rename_i o k
    cases h
    exact Or.inr (Or.inr (Or.inr (Or.inr (Or.inr ⟨o, k, rfl, rfl, rfl⟩))))
  · cases h

theorem advance_idle (h : advance blake3 src chunk .idle m = some q') :
    m = .offer src.length ∧ q' = .offered := by
  rcases advance_cases h with ⟨-, hm, hq⟩ | ⟨_, _, h, -⟩ | ⟨_, _, _, _, _, h, -⟩ | ⟨_, h, -⟩ |
    ⟨_, _, h, -⟩ | ⟨_, _, h, -⟩
  · exact ⟨hm, hq⟩
  all_goals cases h

theorem advance_offered (h : advance blake3 src chunk .offered m = some q') :
    ∃ o ≤ src.length, m = .start o ∧ q' = .sending o o := by
  rcases advance_cases h with ⟨h, -⟩ | ⟨o, ho, -, hm, hq⟩ | ⟨_, _, _, _, _, h, -⟩ | ⟨_, h, -⟩ |
    ⟨_, _, h, -⟩ | ⟨_, _, h, -⟩
  · cases h
  · exact ⟨o, ho, hm, hq⟩
  all_goals cases h

theorem advance_sending {o n : Nat} (h : advance blake3 src chunk (.sending o n) m = some q') :
    (∃ b, b.length ≤ chunk ∧ b = slice src n b.length ∧ m = .data b ∧
      q' = .sending o (n + b.length)) ∨
    n = src.length ∧ m = .done (blake3 src) ∧ q' = .ramp o 0 := by
  rcases advance_cases h with ⟨h, -⟩ | ⟨_, _, h, -⟩ | ⟨_, _, b, hb, hs, h, hm, hq⟩ |
    ⟨_, h, hm, hq⟩ | ⟨_, _, h, -⟩ | ⟨_, _, h, -⟩
  · cases h
  · cases h
  · cases h
    exact Or.inl ⟨b, hb, hs, hm, hq⟩
  · cases h
    exact Or.inr ⟨rfl, hm, hq⟩
  all_goals cases h

theorem advance_ramp {o k : Nat} (h : advance blake3 src chunk (.ramp o k) m = some q') :
    m = .cover ∧ q' = .ramp o (k + 1) ∨ m = .finish ∧ q' = .finished o k := by
  rcases advance_cases h with ⟨h, -⟩ | ⟨_, _, h, -⟩ | ⟨_, _, _, _, _, h, -⟩ | ⟨_, h, -⟩ |
    ⟨_, _, h, hm, hq⟩ | ⟨_, _, h, hm, hq⟩
  · cases h
  · cases h
  · cases h
  · cases h
  · cases h
    exact Or.inl ⟨hm, hq⟩
  · cases h
    exact Or.inr ⟨hm, hq⟩

theorem Fits_of_advance (hsrc : src.length ≤ maxLen)
    (h : advance blake3 src chunk q m = some q') : m.Fits chunk := by
  rcases advance_cases h with ⟨-, rfl, -⟩ | ⟨o, ho, -, rfl, -⟩ | ⟨o, n, b, hb, -, -, rfl, -⟩ |
    ⟨o, -, rfl, -⟩ | ⟨o, k, -, rfl, -⟩ | ⟨o, k, -, rfl, -⟩
  · exact hsrc
  · exact ho.trans hsrc
  · exact hb
  · trivial
  · trivial
  · trivial

theorem follow_append (h : follow blake3 src chunk ms = some q)
    (hm : advance blake3 src chunk q m = some q') :
    follow blake3 src chunk (ms ++ [m]) = some q' := by
  unfold follow at h ⊢
  rw [List.foldlM_append, h]
  simpa using hm

theorem follow_snoc (h : follow blake3 src chunk (ms ++ [m]) = some q') :
    ∃ q, follow blake3 src chunk ms = some q ∧ advance blake3 src chunk q m = some q' := by
  unfold follow at h ⊢
  rw [List.foldlM_append] at h
  cases hq : ms.foldlM (advance blake3 src chunk) .idle with
  | none => simp [hq] at h
  | some q => exact ⟨q, rfl, by simpa [hq] using h⟩

theorem follow_initial (hp : ms' <+: ms) (h : follow blake3 src chunk ms = some q) :
    ∃ q', follow blake3 src chunk ms' = some q' := by
  obtain ⟨rest, rfl⟩ := hp
  unfold follow at h ⊢
  rw [List.foldlM_append] at h
  cases hq : ms'.foldlM (advance blake3 src chunk) .idle with
  | none => simp [hq] at h
  | some q' => exact ⟨q', rfl⟩

theorem Fits_of_follow (hsrc : src.length ≤ maxLen)
    (h : follow blake3 src chunk ms = some q) : ∀ m ∈ ms, m.Fits chunk := by
  induction ms using List.reverseRecOn generalizing q with
  | nil =>
    intro m hm
    cases hm
  | append_singleton ms m ih =>
    obtain ⟨q₀, hq, hm⟩ := follow_snoc h
    intro m' hm'
    rcases List.mem_append.mp hm' with hm' | hm'
    · exact ih hq m' hm'
    · rw [List.mem_singleton.mp hm']
      exact Fits_of_advance hsrc hm

theorem follow_finished {o k : Nat} (hp : ms' <+: ms)
    (h' : follow blake3 src chunk ms' = some (.finished o k))
    (h : follow blake3 src chunk ms = some q) : ms' = ms := by
  obtain ⟨rest, rfl⟩ := hp
  cases rest with
  | nil => simp
  | cons m rest =>
    exfalso
    have heq : ms' ++ m :: rest = (ms' ++ [m]) ++ rest := by simp
    rw [heq] at h
    obtain ⟨q₁, hq₁⟩ := follow_initial (List.prefix_append _ _) h
    obtain ⟨q₀, hq₀, hm⟩ := follow_snoc hq₁
    rw [h'] at hq₀
    cases hq₀
    cases hm

theorem advance_offset {o : Nat} (h : advance blake3 src chunk q m = some q')
    (ho : q.offset = some o) : q'.offset = some o := by
  rcases advance_cases h with ⟨rfl, -, -⟩ | ⟨_, _, rfl, -, -⟩ | ⟨_, _, _, _, _, rfl, -, rfl⟩ |
    ⟨_, rfl, -, rfl⟩ | ⟨_, _, rfl, -, rfl⟩ | ⟨_, _, rfl, -, rfl⟩
  · cases ho
  · cases ho
  all_goals exact ho

theorem follow_offset {p : Stage} {o : Nat} (hp : ms' <+: ms)
    (h' : follow blake3 src chunk ms' = some p) (ho : p.offset = some o)
    (h : follow blake3 src chunk ms = some q) : q.offset = some o := by
  obtain ⟨rest, rfl⟩ := hp
  induction rest using List.reverseRecOn generalizing q with
  | nil =>
    rw [List.append_nil, h'] at h
    cases h
    exact ho
  | append_singleton rest m ih =>
    rw [← List.append_assoc] at h
    obtain ⟨q₀, hq₀, hm⟩ := follow_snoc h
    exact advance_offset hm (ih hq₀)

theorem follow_idle (h : follow blake3 src chunk ms = some .idle) : ms = [] := by
  cases ms using List.reverseRecOn with
  | nil => rfl
  | append_singleton ms m =>
    obtain ⟨q, -, hm⟩ := follow_snoc h
    rcases advance_cases hm with ⟨-, -, h⟩ | ⟨_, _, -, -, h⟩ | ⟨_, _, _, _, _, -, -, h⟩ |
      ⟨_, -, -, h⟩ | ⟨_, _, -, -, h⟩ | ⟨_, _, -, -, h⟩
    all_goals cases h

theorem follow_offered (h : follow blake3 src chunk ms = some .offered) : ms.length = 1 := by
  cases ms using List.reverseRecOn with
  | nil => cases h
  | append_singleton ms m =>
    obtain ⟨q, hq, hm⟩ := follow_snoc h
    rcases advance_cases hm with ⟨rfl, -, -⟩ | ⟨_, _, -, -, h⟩ | ⟨_, _, _, _, _, -, -, h⟩ |
      ⟨_, -, -, h⟩ | ⟨_, _, -, -, h⟩ | ⟨_, _, -, -, h⟩
    · rw [follow_idle hq]
      rfl
    all_goals cases h

theorem follow_started (h : follow blake3 src chunk ms = some q) (hlen : 2 ≤ ms.length) :
    ∃ o, q.offset = some o := by
  cases q with
  | idle =>
    rw [follow_idle h] at hlen
    simp at hlen
  | offered =>
    rw [follow_offered h] at hlen
    omega
  | sending o n => exact ⟨o, rfl⟩
  | ramp o k => exact ⟨o, rfl⟩
  | finished o k => exact ⟨o, rfl⟩

theorem startAt_le_held (held : Nat) (hash : Hash) : startAt blake3 src held hash ≤ held := by
  unfold startAt
  split <;> omega

end Conversation

end AtomVault.Transfer
