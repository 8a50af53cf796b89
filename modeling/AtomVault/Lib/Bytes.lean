import Mathlib.Data.List.Basic
import Mathlib.Data.List.TakeDrop
import Mathlib.Data.Vector.Basic
import Mathlib.Tactic.Ring

/-!
# Byte strings

A file is a list of bytes. This module has the three ways a program changes one
(`patch`, `resize`, append), the one way it reads one (`slice`), and fixed-width
integers in both byte orders.
-/

namespace Lib

abbrev Bytes := List UInt8

/-! ## Reading and writing at a position -/

/-- The `n` bytes from `pos` on, or fewer at the end of the file. -/
def slice (f : Bytes) (pos n : Nat) : Bytes := (f.drop pos).take n

/-- Writes `b` at `pos`. A gap past the end of the file is filled with zeros. -/
def patch (f : Bytes) (pos : Nat) (b : Bytes) : Bytes :=
  f.take pos ++ List.replicate (pos - f.length) 0 ++ b ++ f.drop (pos + b.length)

/-- Cuts the file to `n` bytes, or grows it to `n` with zeros. -/
def resize (f : Bytes) (n : Nat) : Bytes := f.take n ++ List.replicate (n - f.length) 0

theorem length_slice (f : Bytes) (pos n : Nat) (h : pos + n ≤ f.length) :
    (slice f pos n).length = n := by
  simp [slice]; omega

theorem length_slice_le (f : Bytes) (pos n : Nat) : (slice f pos n).length ≤ n := by
  simp [slice]

@[simp]
theorem slice_zero (f : Bytes) (pos : Nat) : slice f pos 0 = [] := by simp [slice]

theorem slice_self (f : Bytes) : slice f 0 f.length = f := by simp [slice]

theorem slice_from_zero (f : Bytes) (n : Nat) : slice f 0 n = f.take n := by simp [slice]

theorem length_patch (f : Bytes) (pos : Nat) (b : Bytes) :
    (patch f pos b).length = max f.length (pos + b.length) := by
  simp [patch]; omega

theorem length_resize (f : Bytes) (n : Nat) : (resize f n).length = n := by
  simp [resize]; omega

theorem resize_eq_take (f : Bytes) (n : Nat) (h : n ≤ f.length) : resize f n = f.take n := by
  have : n - f.length = 0 := by omega
  simp [resize, this]

theorem patch_nil {f : Bytes} {pos : Nat} (h : pos ≤ f.length) : patch f pos [] = f := by
  simp [patch, Nat.sub_eq_zero_of_le h]

theorem patch_at_end (f : Bytes) (b : Bytes) : patch f f.length b = f ++ b := by
  simp [patch]

/-- Overwriting a file from the front, `k` bytes further. -/
theorem patch_replicate (x : UInt8) (p k : Nat) (rest : Bytes) :
    patch (List.replicate p x ++ rest) p (List.replicate k x) =
      List.replicate (p + k) x ++ rest.drop k := by
  have hgap : p - (List.replicate p x ++ rest).length = 0 := by simp
  have hdrop : (List.replicate p x ++ rest).drop (p + k) = rest.drop k := by
    rw [List.drop_append]
    simp
  unfold patch
  rw [hgap, List.take_left' (by simp), List.length_replicate, hdrop, List.replicate_zero,
    List.append_nil, List.replicate_append_replicate]

/-- Cutting a file where a write ended. -/
theorem resize_patch {f b : Bytes} {pos : Nat} (h : pos ≤ f.length) :
    resize (patch f pos b) (pos + b.length) = f.take pos ++ b := by
  rw [resize_eq_take _ _ (by rw [length_patch]; omega), patch, Nat.sub_eq_zero_of_le h,
    List.replicate_zero, List.append_nil, List.take_append_of_le_length (by simp [h]),
    List.take_of_length_le (by simp [h])]

/-- A write that goes on where the last one ended. -/
theorem patch_take {data : Bytes} {done n : Nat} (h : done + n ≤ data.length) :
    patch (data.take done) done (slice data done n) = data.take (done + n) := by
  have hlen : (data.take done).length = done := by simp; omega
  have hend := patch_at_end (data.take done) (slice data done n)
  rw [hlen] at hend
  rw [hend, slice, List.take_add]

/-- A write leaves every byte below it alone. -/
theorem take_patch (f : Bytes) (pos : Nat) (b : Bytes) (n : Nat) (h : n ≤ pos)
    (hn : n ≤ f.length) : (patch f pos b).take n = f.take n := by
  rw [patch, List.append_assoc, List.append_assoc, List.take_append_of_le_length (by simp; omega),
    List.take_take, min_eq_left h]

theorem slice_patch_self (f : Bytes) (pos : Nat) (b : Bytes) :
    slice (patch f pos b) pos b.length = b := by
  have hlen : (f.take pos ++ List.replicate (pos - f.length) 0).length = pos := by simp; omega
  rw [slice, patch, List.append_assoc _ b, List.drop_append_of_le_length (by omega),
    List.drop_eq_nil_of_le (by omega)]
  simp

/-- A write leaves every slice it does not touch alone. -/
theorem slice_patch_of_disjoint (f : Bytes) (pos : Nat) (b : Bytes) (p n : Nat)
    (h : p + n ≤ pos ∧ p + n ≤ f.length ∨ pos + b.length ≤ p) :
    slice (patch f pos b) p n = slice f p n := by
  rcases h with ⟨h, hn⟩ | h
  · have htake := take_patch f pos b (p + n) h hn
    have hcut : ∀ g : Bytes, slice g p n = (g.take (p + n)).drop p := by
      intro g
      rw [slice, List.drop_take]
      congr 1
      omega
    rw [hcut, hcut, htake]
  · have hlen : (f.take pos ++ List.replicate (pos - f.length) 0 ++ b).length = pos + b.length := by
      simp; omega
    rw [slice, slice, patch, List.drop_append, List.drop_eq_nil_of_le (by rw [hlen]; omega), hlen,
      List.drop_drop, List.nil_append]
    congr 2
    omega

theorem slice_take (f : Bytes) (p n k : Nat) (h : p + n ≤ k) : slice (f.take k) p n = slice f p n := by
  rw [slice, slice, List.drop_take, List.take_take]
  congr 1
  omega

theorem slice_append_left (f g : Bytes) (p n : Nat) (h : p + n ≤ f.length) :
    slice (f ++ g) p n = slice f p n := by
  rw [← slice_take (f ++ g) p n f.length h, List.take_left]

/-- Cutting a field out of a record. -/
theorem slice_field (a b c : Bytes) {p n : Nat} (ha : a.length = p) (hb : b.length = n) :
    slice (a ++ (b ++ c)) p n = b := by
  rw [slice, ← ha, List.drop_left, ← hb, List.take_left]

/-- Two neighbouring slices are one slice. -/
theorem slice_append_slice (f : Bytes) (p m n : Nat) :
    slice f p m ++ slice f (p + m) n = slice f p (m + n) := by
  rw [slice, slice, slice, ← List.drop_drop, List.take_add]

/-- `try_into` and its `expect`: a panic for another length. -/
def expectArray (n : Nat) (b : Bytes) : Option (List.Vector UInt8 n) :=
  if h : b.length = n then some ⟨b, h⟩ else none

theorem expectArray_of_length {n : Nat} {b : Bytes} (h : b.length = n) :
    expectArray n b = some ⟨b, h⟩ := by
  unfold expectArray
  rw [dif_pos h]

/-! ## Fixed-width integers -/

/-- The low `k` bytes of `n`, least significant first. -/
def leBytes : Nat → Nat → Bytes
  | 0, _ => []
  | k + 1, n => UInt8.ofNat (n % 256) :: leBytes k (n / 256)

def ofLe : Bytes → Nat
  | [] => 0
  | b :: bs => b.toNat + 256 * ofLe bs

/-- The low `k` bytes of `n`, most significant first. -/
def beBytes (k n : Nat) : Bytes := (leBytes k n).reverse

def ofBe (b : Bytes) : Nat := ofLe b.reverse

@[simp]
theorem length_leBytes (k n : Nat) : (leBytes k n).length = k := by
  induction k generalizing n with
  | zero => rfl
  | succ k ih => simp [leBytes, ih]

@[simp]
theorem length_beBytes (k n : Nat) : (beBytes k n).length = k := by simp [beBytes]

theorem ofLe_leBytes (k n : Nat) (h : n < 256 ^ k) : ofLe (leBytes k n) = n := by
  induction k generalizing n with
  | zero => simp at h; simp [leBytes, ofLe, h]
  | succ k ih =>
    have hdiv : n / 256 < 256 ^ k := by
      rw [Nat.div_lt_iff_lt_mul (by omega)]
      rwa [pow_succ] at h
    have hmod : (UInt8.ofNat (n % 256)).toNat = n % 256 := by
      simp [UInt8.toNat_ofNat']
    rw [leBytes, ofLe, ih _ hdiv, hmod]
    omega

theorem ofBe_beBytes (k n : Nat) (h : n < 256 ^ k) : ofBe (beBytes k n) = n := by
  rw [ofBe, beBytes, List.reverse_reverse, ofLe_leBytes k n h]

theorem leBytes_ofLe (b : Bytes) : leBytes b.length (ofLe b) = b := by
  induction b with
  | nil => rfl
  | cons x b ih =>
    have hx : x.toNat < 256 := x.toNat_lt
    have hmod : (x.toNat + 256 * ofLe b) % 256 = x.toNat := by omega
    have hdiv : (x.toNat + 256 * ofLe b) / 256 = ofLe b := by omega
    rw [List.length_cons, ofLe, leBytes, hmod, hdiv, ih, UInt8.ofNat_toNat]

theorem ofLe_lt (b : Bytes) : ofLe b < 256 ^ b.length := by
  induction b with
  | nil => simp [ofLe]
  | cons x xs ih =>
    have hx := x.toNat_lt
    rw [ofLe, List.length_cons, pow_succ]
    omega

theorem beBytes_ofBe (b : Bytes) : beBytes b.length (ofBe b) = b := by
  have h := leBytes_ofLe b.reverse
  rw [List.length_reverse] at h
  rw [beBytes, ofBe, h, List.reverse_reverse]

theorem ofBe_lt (b : Bytes) : ofBe b < 256 ^ b.length := by
  have h := ofLe_lt b.reverse
  rwa [List.length_reverse] at h

/-- As many bytes are the number that they say. -/
theorem beBytes_of_length {b : Bytes} {k : Nat} (h : b.length = k) : beBytes k (ofBe b) = b := by
  rw [← h, beBytes_ofBe]

theorem ofBe_lt_of_length {b : Bytes} {k : Nat} (h : b.length = k) : ofBe b < 256 ^ k := by
  rw [← h]
  exact ofBe_lt b

/-! ## Taking from the front -/

/-- The next `n` bytes and what is left, or `e` where there are too few. -/
def takeOr {ε : Type} (e : ε) (n : Nat) (b : Bytes) : Except ε (Bytes × Bytes) :=
  if n ≤ b.length then .ok (b.take n, b.drop n) else .error e

theorem takeOr_append {ε : Type} {e : ε} {n : Nat} {a b : Bytes} (h : a.length = n) :
    takeOr e n (a ++ b) = .ok (a, b) := by
  subst h
  simp [takeOr]

theorem takeOr_eq_ok {ε : Type} {e : ε} {n : Nat} {b x rest : Bytes}
    (h : takeOr e n b = .ok (x, rest)) : b = x ++ rest ∧ x.length = n := by
  unfold takeOr at h
  split at h
  · rename_i hn
    cases h
    exact ⟨(List.take_append_drop n b).symm, List.length_take_of_le hn⟩
  · cases h

end Lib
