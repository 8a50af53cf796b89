import AtomVault.Lib.Bytes
import Mathlib.Logic.Function.Basic

/-!
# Names and inodes

A name leads to one inode at most, and an inode has one name at most. An open file goes on
without its name.
-/

namespace Lib

structure Inodes (N : Type) where
  names : N → Option Nat
  files : Nat → Bytes
  next : Nat
  bounded : ∀ n i, names n = some i → i < next
  injective : ∀ n n' i, names n = some i → names n' = some i → n = n'

namespace Inodes

variable {N : Type}

def empty : Inodes N := ⟨fun _ => none, fun _ => [], 0, nofun, nofun⟩

def write (d : Inodes N) (i pos : Nat) (b : Bytes) : Inodes N :=
  { d with files := Function.update d.files i (patch (d.files i) pos b) }

section Writes

variable {d : Inodes N} {i j pos : Nat} {b : Bytes}

@[simp]
theorem write_names : (d.write i pos b).names = d.names := rfl

theorem write_files : (d.write i pos b).files i = patch (d.files i) pos b :=
  Function.update_self ..

theorem write_other (h : j ≠ i) : (d.write i pos b).files j = d.files j :=
  Function.update_of_ne h ..

end Writes

variable [DecidableEq N] (d : Inodes N) (n : N)

/-- Opens for writing: the file of that name without its bytes, or a new one. -/
def openTruncate : Nat × Inodes N :=
  match d.names n with
  | some i => (i, { d with files := Function.update d.files i [] })
  | none =>
    (d.next, {
      names := Function.update d.names n (some d.next)
      files := Function.update d.files d.next []
      next := d.next + 1
      bounded := by
        intro m j h
        by_cases hm : m = n
        · subst hm
          rw [Function.update_self] at h
          cases h
          exact Nat.lt_succ_self _
        · rw [Function.update_of_ne hm] at h
          exact Nat.lt_succ_of_lt (d.bounded m j h)
      injective := by
        have hnew : ∀ m j, m ≠ n → Function.update d.names n (some d.next) m = some j →
            d.names m = some j ∧ j ≠ d.next := by
          intro m j hm h
          rw [Function.update_of_ne hm] at h
          exact ⟨h, Nat.ne_of_lt (d.bounded m j h)⟩
        intro m m' j h h'
        by_cases hm : m = n
        · by_cases hm' : m' = n
          · rw [hm, hm']
          · subst hm
            rw [Function.update_self] at h
            exact absurd (Option.some.inj h).symm (hnew m' j hm' h').2
        · by_cases hm' : m' = n
          · subst hm'
            rw [Function.update_self] at h'
            exact absurd (Option.some.inj h').symm (hnew m j hm h).2
          · exact d.injective m m' j (hnew m j hm h).1 (hnew m' j hm' h').1 })

def unlink : Inodes N :=
  { d with
    names := Function.update d.names n none
    bounded := by
      intro m j h
      by_cases hm : m = n
      · subst hm
        rw [Function.update_self] at h
        cases h
      · rw [Function.update_of_ne hm] at h
        exact d.bounded m j h
    injective := by
      have hold : ∀ m j, Function.update d.names n none m = some j → d.names m = some j := by
        intro m j h
        by_cases hm : m = n
        · subst hm
          rw [Function.update_self] at h
          cases h
        · rwa [Function.update_of_ne hm] at h
      intro m m' j h h'
      exact d.injective m m' j (hold m j h) (hold m' j h') }

variable {d n} {m : N} {j : Nat}

theorem openTruncate_names : (d.openTruncate n).2.names n = some (d.openTruncate n).1 := by
  unfold openTruncate
  split
  · assumption
  · exact Function.update_self ..

theorem openTruncate_files : (d.openTruncate n).2.files (d.openTruncate n).1 = [] := by
  unfold openTruncate
  split <;> exact Function.update_self ..

/-- A file of another name keeps its name and its bytes. -/
theorem openTruncate_other (h : d.names m = some j) (hne : m ≠ n) :
    (d.openTruncate n).2.names m = some j ∧ (d.openTruncate n).2.files j = d.files j := by
  unfold openTruncate
  split
  · rename_i i hn
    refine ⟨h, Function.update_of_ne ?_ ..⟩
    rintro rfl
    exact hne (d.injective m n j h hn)
  · refine ⟨?_, Function.update_of_ne (Nat.ne_of_lt (d.bounded m j h)) ..⟩
    show Function.update d.names n (some d.next) m = some j
    rw [Function.update_of_ne hne, h]

@[simp]
theorem unlink_files : (d.unlink n).files = d.files := rfl

theorem unlink_other (h : m ≠ n) : (d.unlink n).names m = d.names m :=
  Function.update_of_ne h ..

end Inodes

end Lib
