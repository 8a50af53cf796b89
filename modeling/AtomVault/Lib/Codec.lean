import AtomVault.Lib.Bytes
import Mathlib.Data.List.Infix
import Mathlib.Data.Vector.Basic

/-!
# Codecs

A codec reads one value from the front of a byte string and leaves the rest. It reads
back what it wrote, and reads nothing it would have written otherwise, so codecs put one
behind the other are a codec again.
-/

namespace Lib

structure Codec (α : Type) where
  enc : α → Bytes
  dec : Bytes → Option (α × Bytes)
  dec_enc : ∀ a r, dec (enc a ++ r) = some (a, r)
  enc_dec : ∀ {b a r}, dec b = some (a, r) → b = enc a ++ r

namespace Codec

variable {α β γ : Type}

/-- A fixed number of bytes. -/
def fixed (n : Nat) : Codec (List.Vector UInt8 n) where
  enc v := v.toList
  dec b := if h : n ≤ b.length then some (⟨b.take n, by simp [h]⟩, b.drop n) else none
  dec_enc v r := by
    have hlen := v.toList_length
    rw [dif_pos (by simp)]
    refine congrArg some (Prod.ext (List.Vector.toList_injective ?_) ?_)
    · show (v.toList ++ r).take n = v.toList
      rw [List.take_append_of_le_length (ge_of_eq hlen), List.take_of_length_le (le_of_eq hlen)]
    · show (v.toList ++ r).drop n = r
      rw [List.drop_append, List.drop_eq_nil_of_le (le_of_eq hlen), hlen]
      simp
  enc_dec := by
    intro b a r h
    split at h
    · cases h
      exact (List.take_append_drop n b).symm
    · cases h

/-- A value in other words. -/
def iso (c : Codec α) (f : α → β) (g : β → α) (hfg : ∀ b, f (g b) = b) (hgf : ∀ a, g (f a) = a) :
    Codec β where
  enc b := c.enc (g b)
  dec b := (c.dec b).map fun (a, r) => (f a, r)
  dec_enc b r := by simp [c.dec_enc, hfg]
  enc_dec := by
    intro b x r h
    obtain ⟨⟨a, r'⟩, ha, hx⟩ := Option.map_eq_some_iff.mp h
    obtain ⟨rfl, rfl⟩ : f a = x ∧ r' = r := by simpa using hx
    rw [hgf]
    exact c.enc_dec ha

/-- One behind the other. The second may depend on the value of the first. -/
def seq (c : Codec α) (d : α → Codec β) : Codec (α × β) where
  enc x := c.enc x.1 ++ (d x.1).enc x.2
  dec b := do
    let (a, r) ← c.dec b
    let (x, r) ← (d a).dec r
    return ((a, x), r)
  dec_enc x r := by simp [c.dec_enc, (d x.1).dec_enc]
  enc_dec := by
    rintro b ⟨a, x⟩ r h
    simp only [Option.bind_eq_bind, Option.bind_eq_some_iff, Option.pure_def, Option.some.injEq,
      Prod.mk.injEq, Prod.exists] at h
    obtain ⟨a', r', ha, x', r'', hx, ⟨rfl, rfl⟩, rfl⟩ := h
    rw [List.append_assoc, ← (d a').enc_dec hx]
    exact c.enc_dec ha

def decList (c : Codec α) : Nat → Bytes → Option (List α × Bytes)
  | 0, b => some ([], b)
  | n + 1, b => do
    let (a, r) ← c.dec b
    let (as, r) ← decList c n r
    return (a :: as, r)

theorem decList_enc (c : Codec α) (as : List α) (r : Bytes) :
    c.decList as.length (as.flatMap c.enc ++ r) = some (as, r) := by
  induction as with
  | nil => rfl
  | cons a as ih => simp [decList, c.dec_enc, ih]

theorem enc_decList (c : Codec α) : ∀ {n : Nat} {b : Bytes} {as : List α} {r : Bytes},
    c.decList n b = some (as, r) → b = as.flatMap c.enc ++ r ∧ as.length = n := by
  intro n
  induction n with
  | zero =>
    intro b as r h
    obtain ⟨rfl, rfl⟩ : [] = as ∧ b = r := by simpa [decList] using h
    exact ⟨rfl, rfl⟩
  | succ n ih =>
    intro b as r h
    simp only [decList, Option.bind_eq_bind, Option.bind_eq_some_iff, Option.pure_def,
      Option.some.injEq, Prod.mk.injEq, Prod.exists] at h
    obtain ⟨a, r', ha, as', r'', has, rfl, rfl⟩ := h
    obtain ⟨hr', hlen⟩ := ih has
    rw [List.flatMap_cons, List.append_assoc, ← hr', List.length_cons, hlen]
    exact ⟨c.enc_dec ha, rfl⟩

/-- A count, then that many values. -/
def list (count : Codec Nat) (c : Codec α) : Codec (List α) where
  enc as := count.enc as.length ++ as.flatMap c.enc
  dec b := do
    let (n, r) ← count.dec b
    c.decList n r
  dec_enc as r := by simp [count.dec_enc, decList_enc]
  enc_dec := by
    intro b as r h
    simp only [Option.bind_eq_bind, Option.bind_eq_some_iff, Prod.exists] at h
    obtain ⟨n, r', hn, has⟩ := h
    obtain ⟨hr', rfl⟩ := c.enc_decList has
    rw [List.append_assoc, ← hr']
    exact count.enc_dec hn

/-- A codec for the values that satisfy a test. -/
def restrict (c : Codec α) (f : α → Option β) (g : β → α) (hfg : ∀ b, f (g b) = some b)
    (hgf : ∀ {a b}, f a = some b → g b = a) : Codec β where
  enc b := c.enc (g b)
  dec b := do
    let (a, r) ← c.dec b
    let x ← f a
    return (x, r)
  dec_enc b r := by simp [c.dec_enc, hfg]
  enc_dec := by
    intro b x r h
    simp only [Option.bind_eq_bind, Option.bind_eq_some_iff, Option.pure_def, Option.some.injEq,
      Prod.mk.injEq, Prod.exists] at h
    obtain ⟨a, r', ha, x', hx, rfl, rfl⟩ := h
    rw [hgf hx]
    exact c.enc_dec ha

/-! ## A stream of values -/

/-- Two streams that begin with a value begin with the same one. -/
theorem enc_append_inj (c : Codec α) {a a' : α} {r r' : Bytes}
    (h : c.enc a ++ r = c.enc a' ++ r') : a = a' ∧ r = r' := by
  have hdec := c.dec_enc a r
  rw [h, c.dec_enc] at hdec
  obtain ⟨rfl, rfl⟩ := Prod.mk.inj (Option.some.inj hdec)
  exact ⟨rfl, rfl⟩

/-- What is read from the part of a stream that is there is the first value of the stream. -/
theorem dec_of_prefix (c : Codec α) {as : List α} {a : α} {b r : Bytes}
    (hne : c.enc a ≠ []) (hb : b <+: as.flatMap c.enc) (h : c.dec b = some (a, r)) :
    ∃ as', as = a :: as' ∧ r <+: as'.flatMap c.enc := by
  obtain ⟨more, hmore⟩ := hb
  rw [c.enc_dec h, List.append_assoc] at hmore
  cases as with
  | nil => exact absurd (List.append_eq_nil_iff.mp hmore).1 hne
  | cons a' as' =>
    obtain ⟨rfl, hr⟩ := c.enc_append_inj hmore
    exact ⟨as', rfl, ⟨more, hr⟩⟩

end Codec

end Lib
