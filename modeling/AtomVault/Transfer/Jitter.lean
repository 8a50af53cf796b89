import AtomVault.Lib.Rejection
import AtomVault.Transfer.Pacing

/-!
# Jitter is unbiased (`pacing.rs`)

`random_below` once more, with the operations of Rust that panic: a difference below zero, a
remainder by zero.
-/

namespace AtomVault.Transfer

open Lib

def checkedSub (a b : Nat) : Option Nat := if b ≤ a then some (a - b) else Option.none

def checkedRem (a b : Nat) : Option Nat := if 0 < b then some (a % b) else Option.none

def zoneOrPanic (bound : Nat) : Option Nat := do
  checkedSub (2 ^ 64 - 1) (← checkedRem (2 ^ 64 - 1) bound)

def drawOrPanic (bound zone : Nat) (failure : String) : List UInt64 → Option (Except Error Nat)
  | [] => some (.error (.transfer s!"OS random number generator unavailable: {failure}"))
  | v :: rest =>
    if v.toNat < zone then (checkedRem v.toNat bound).map .ok
    else drawOrPanic bound zone failure rest

def randomBelowOrPanic (bound : Nat) (draws : Draws) : Option (Except Error Nat) := do
  if bound ≤ 1 then return .ok 0
  let zone ← zoneOrPanic bound
  drawOrPanic bound zone draws.failure draws.values

theorem zoneOrPanic_eq {bound : Nat} (hb : 0 < bound) :
    zoneOrPanic bound = some (Rejection.zone (2 ^ 64 - 1) bound) := by
  have hle : (2 ^ 64 - 1) % bound ≤ 2 ^ 64 - 1 := Nat.mod_le _ _
  unfold zoneOrPanic checkedRem
  rw [if_pos hb]
  exact if_pos hle

theorem drawOrPanic_eq {bound : Nat} (hb : 0 < bound) (zone : Nat) (failure : String)
    (values : List UInt64) :
    drawOrPanic bound zone failure values = some (draw bound zone failure values) := by
  induction values with
  | nil => rfl
  | cons v rest ih =>
    unfold drawOrPanic draw
    split
    · rw [checkedRem, if_pos hb]
      rfl
    · exact ih

theorem randomBelowOrPanic_eq (bound : Nat) (draws : Draws) :
    randomBelowOrPanic bound draws = some (randomBelow bound draws) := by
  unfold randomBelowOrPanic randomBelow
  split
  · rfl
  · rename_i hone
    have hb : 0 < bound := by omega
    rw [zoneOrPanic_eq hb]
    exact drawOrPanic_eq hb _ _ _

theorem draw_lt {bound zone : Nat} (hb : 0 < bound) {failure : String} {values : List UInt64}
    {n : Nat} (h : draw bound zone failure values = .ok n) : n < bound := by
  induction values with
  | nil => cases h
  | cons v rest ih =>
    unfold draw at h
    split at h
    · cases h
      exact Nat.mod_lt _ hb
    · exact ih h

theorem randomBelow_lt {bound : Nat} (hb : 0 < bound) {draws : Draws} {n : Nat}
    (h : randomBelow bound draws = .ok n) : n < bound := by
  unfold randomBelow at h
  split at h
  · cases h
    exact hb
  · exact draw_lt hb h

/-- Whatever is drawn after `v`, `random_below` returns `r`. -/
def AcceptsDraw (bound : Nat) (v : UInt64) (r : Nat) : Prop :=
  ∀ rest failure, randomBelowOrPanic bound ⟨v :: rest, failure⟩ = some (.ok r)

/-- `v` is as if it had not been drawn. -/
def RejectsDraw (bound : Nat) (v : UInt64) : Prop :=
  ∀ rest failure, randomBelowOrPanic bound ⟨v :: rest, failure⟩ =
    randomBelowOrPanic bound ⟨rest, failure⟩

/-- Every residue is as likely as another, and every draw has an even chance or better. -/
structure Unbiased (bound zone : Nat) : Prop where
  multiple : bound ∣ zone
  positive : 0 < zone
  fits : zone ≤ 2 ^ 64 - 1
  kept : ∀ v : UInt64, v.toNat < zone → AcceptsDraw bound v (v.toNat % bound)
  dropped : ∀ v : UInt64, ¬ v.toNat < zone → RejectsDraw bound v
  even : ∀ r < bound, {v : UInt64 | AcceptsDraw bound v r}.ncard = zone / bound
  half : 2 ^ 64 ≤ 2 * {v : UInt64 | ∃ r, AcceptsDraw bound v r}.ncard
  below : ∀ draws n, randomBelowOrPanic bound draws = some (.ok n) → n < bound

/-- The draws are the numbers below `2 ^ 64`. -/
def drawEquiv : UInt64 ≃ Fin (2 ^ 64 - 1 + 1) where
  toFun := UInt64.toFin
  invFun := UInt64.ofFin
  left_inv _ := rfl
  right_inv _ := rfl

section Draws

variable {bound : Nat} {v : UInt64}

theorem randomBelowOrPanic_cons (hb : 1 < bound) (v : UInt64) (rest : List UInt64)
    (failure : String) :
    randomBelowOrPanic bound ⟨v :: rest, failure⟩ =
      if v.toNat < Rejection.zone (2 ^ 64 - 1) bound then some (.ok (v.toNat % bound))
      else randomBelowOrPanic bound ⟨rest, failure⟩ := by
  have hnot : ¬ bound ≤ 1 := by omega
  rw [randomBelowOrPanic_eq, randomBelowOrPanic_eq]
  unfold randomBelow
  rw [if_neg hnot, if_neg hnot, draw]
  exact apply_ite some _ _ _

theorem accepts_of_lt (hb : 1 < bound) (h : v.toNat < Rejection.zone (2 ^ 64 - 1) bound) :
    AcceptsDraw bound v (v.toNat % bound) := by
  intro rest failure
  rw [randomBelowOrPanic_cons hb, if_pos h]

theorem rejects_of_le (hb : 1 < bound) (h : ¬ v.toNat < Rejection.zone (2 ^ 64 - 1) bound) :
    RejectsDraw bound v := by
  intro rest failure
  rw [randomBelowOrPanic_cons hb, if_neg h]

theorem accepts_iff (hb : 1 < bound) (v : UInt64) (r : Nat) :
    AcceptsDraw bound v r ↔ v.toNat < Rejection.zone (2 ^ 64 - 1) bound ∧ v.toNat % bound = r := by
  constructor
  · intro h
    by_cases hlt : v.toNat < Rejection.zone (2 ^ 64 - 1) bound
    · have heq := (accepts_of_lt hb hlt [] "").symm.trans (h [] "")
      exact ⟨hlt, by simpa using heq⟩
    · -- With no draw left the generator's error comes back.
      have heq := (rejects_of_le hb hlt [] "").symm.trans (h [] "")
      rw [randomBelowOrPanic_eq] at heq
      simp [randomBelow, draw, Nat.not_le.mpr hb] at heq
  · rintro ⟨hlt, rfl⟩
    exact accepts_of_lt hb hlt

end Draws

theorem unbiased {bound : Nat} (hb : 1 < bound) (hfits : bound < 2 ^ 64) :
    Unbiased bound (Rejection.zone (2 ^ 64 - 1) bound) where
  multiple := Rejection.dvd_zone _ _
  positive := (Nat.zero_lt_of_lt hb).trans_le
    (Rejection.le_zone (by omega) (Nat.le_pred_of_lt hfits))
  fits := Rejection.zone_le _ _
  kept v h := accepts_of_lt hb h
  dropped v h := rejects_of_le hb h
  even r hr := by
    simp only [accepts_iff hb]
    exact Rejection.ncard_residue drawEquiv hr
  half := by
    have hkept : {v : UInt64 | ∃ r, AcceptsDraw bound v r} =
        {v | (drawEquiv v).val < Rejection.zone (2 ^ 64 - 1) bound} := by
      ext v
      simp only [accepts_iff hb]
      exact ⟨fun ⟨_, h⟩ => h.1, fun h => ⟨_, h, rfl⟩⟩
    rw [hkept, Rejection.ncard_kept]
    exact Rejection.half_le (by omega) (Nat.le_pred_of_lt hfits)
  below draws n h := by
    rw [randomBelowOrPanic_eq, Option.some.injEq] at h
    exact randomBelow_lt (by omega) h

/-- `random_below` on every bound. -/
theorem random_below_is_unbiased (bound : UInt64) :
    (∀ draws, randomBelowOrPanic bound.toNat draws ≠ Option.none) ∧
      (1 < bound.toNat → ∃ zone, zoneOrPanic bound.toNat = some zone ∧
        Unbiased bound.toNat zone) := by
  constructor
  · intro draws
    simp [randomBelowOrPanic_eq]
  · intro hb
    exact ⟨_, zoneOrPanic_eq (by omega), unbiased hb bound.toNat_lt⟩

theorem random_below_is_unbiased_of_ten :
    ∃ zone, zoneOrPanic 10 = some zone ∧ Unbiased 10 zone :=
  (random_below_is_unbiased 10).2 (by decide)

end AtomVault.Transfer
