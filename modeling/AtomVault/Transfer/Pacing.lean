import AtomVault.Lib.Prog
import AtomVault.Transfer.Wire
import Mathlib.Data.Nat.Log
import Mathlib.Tactic.Linarith

/-!
# How many frames a transfer emits (`pacing.rs`)

The clock of the pacer is left out: it decides when a frame leaves, not which.
-/

namespace AtomVault.Transfer

inductive Ladder
  | powerOfTwo
  | multiple (n : UInt64)
  | none
  deriving DecidableEq

structure Pacing where
  ladder : Ladder
  minFrames : UInt64
  jitterFrames : UInt64

/-- A `u64` that a checked operation of Rust returns. -/
def checked (n : Nat) : Option Nat := if n < 2 ^ 64 then some n else Option.none

def checkedNextPowerOfTwo (n : Nat) : Option Nat := checked (2 ^ Nat.clog 2 n)

/-- What the OS generator returns, and then its error. -/
structure Draws where
  values : List UInt64
  failure : String

/-- The rejection loop of `random_below`. -/
def draw (bound zone : Nat) (failure : String) : List UInt64 → Except Error Nat
  | [] => .error (.transfer s!"OS random number generator unavailable: {failure}")
  | v :: rest => if v.toNat < zone then .ok (v.toNat % bound) else draw bound zone failure rest

def randomBelow (bound : Nat) (draws : Draws) : Except Error Nat :=
  if bound ≤ 1 then .ok 0 else
    draw bound ((2 ^ 64 - 1) - (2 ^ 64 - 1) % bound) draws.failure draws.values

def divCeil (a b : Nat) : Nat := (a + b - 1) / b

def Ladder.quantise (ladder : Ladder) (realFrames : Nat) : Nat :=
  match ladder with
  | .powerOfTwo => (checkedNextPowerOfTwo realFrames).getD realFrames
  | .multiple n =>
    if 0 < n then (checked (divCeil realFrames n.toNat * n.toNat)).getD realFrames else realFrames
  | .none => realFrames

def Pacing.jitter (p : Pacing) (draws : Draws) : Except Error Nat :=
  if 0 < p.jitterFrames then randomBelow (p.jitterFrames + 1).toNat draws else .ok 0

def Pacing.plan (p : Pacing) (realFrames : Nat) (draws : Draws) : Except Error Nat := do
  let floored := max (p.ladder.quantise realFrames) p.minFrames.toNat
  let jitter ← p.jitter draws
  return max (min (floored + jitter) (2 ^ 64 - 1)) realFrames

theorem divCeil_sub {a c : Nat} (ha : 0 < a) (hc : 0 < c) :
    1 + divCeil (a - min a c) c = divCeil a c := by
  unfold divCeil
  rcases le_total a c with h | h
  · have hone : (a + c - 1) / c = 1 := Nat.div_eq_of_lt_le (by omega) (by omega)
    have hzero : (0 + c - 1) / c = 0 := Nat.div_eq_of_lt (by omega)
    rw [min_eq_left h, Nat.sub_self, hone, hzero]
  · have hsplit : a + c - 1 = (a - c + c - 1) + c := by omega
    rw [min_eq_right h, hsplit, Nat.add_div_right _ hc]
    omega

theorem Pacing.exists_jitter {p : Pacing} {realFrames planned : Nat} {draws : Draws}
    (h : p.plan realFrames draws = .ok planned) :
    ∃ jitter, p.jitter draws = .ok jitter ∧ planned =
      max (min (max (p.ladder.quantise realFrames) p.minFrames.toNat + jitter) (2 ^ 64 - 1))
        realFrames := by
  unfold Pacing.plan at h
  obtain ⟨jitter, hjitter, hplan⟩ := Lib.of_bind_eq_ok h
  exact ⟨jitter, hjitter, (Except.ok.inj hplan).symm⟩

theorem Pacing.le_plan {p : Pacing} {realFrames planned : Nat} {draws : Draws}
    (h : p.plan realFrames draws = .ok planned) : realFrames ≤ planned := by
  obtain ⟨jitter, -, rfl⟩ := p.exists_jitter h
  exact le_max_right _ _

theorem divCeil_le {a c : Nat} (hc : 0 < c) : divCeil a c ≤ a := by
  unfold divCeil
  rcases Nat.eq_zero_or_pos a with rfl | ha
  · rw [Nat.div_eq_of_lt (by omega)]
  · apply Nat.div_le_of_le_mul
    have hmul : a + c ≤ c * a + 1 := by nlinarith
    omega

theorem Pacing.plan_lt {p : Pacing} {realFrames planned : Nat} {draws : Draws}
    (h : p.plan realFrames draws = .ok planned) (hreal : realFrames < 2 ^ 64) :
    planned < 2 ^ 64 := by
  obtain ⟨jitter, -, rfl⟩ := p.exists_jitter h
  omega

end AtomVault.Transfer
