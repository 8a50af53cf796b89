import Mathlib.Data.Int.CardIntervalMod
import Mathlib.Data.Nat.Count
import Mathlib.Data.Set.Card
import Mathlib.Tactic.Linarith

/-!
# Rejection sampling

A word of `0 .. max` is reduced modulo a bound. Words from the last, incomplete block of `bound`
words on are rejected, so that every residue is hit equally often.
-/

namespace Lib.Rejection

/-- Where the whole blocks end. -/
def zone (max bound : Nat) : Nat := max - max % bound

variable {max bound r : Nat}

theorem zone_eq (max bound : Nat) : zone max bound = bound * (max / bound) := by
  have h := Nat.mod_add_div max bound
  unfold zone
  omega

theorem dvd_zone (max bound : Nat) : bound ∣ zone max bound := by
  rw [zone_eq]
  exact Nat.dvd_mul_right _ _

theorem zone_le (max bound : Nat) : zone max bound ≤ max := Nat.sub_le _ _

theorem le_zone (hb : 0 < bound) (h : bound ≤ max) : bound ≤ zone max bound :=
  Nat.le_of_dvd (by have := Nat.mod_lt max hb; unfold zone; omega) (dvd_zone max bound)

/-- At least half of the words are kept. -/
theorem half_le (hb : 0 < bound) (h : bound ≤ max) : max + 1 ≤ 2 * zone max bound := by
  have hle := le_zone hb h
  have hlt := Nat.mod_lt max hb
  unfold zone at hle ⊢
  omega

section Words

variable {α : Type} (e : α ≃ Fin (max + 1))

/-- Words are counted like the numbers that they stand for. -/
theorem ncard_words (bound : Nat) (P : Nat → Prop) [DecidablePred P] :
    {a : α | (e a).val < zone max bound ∧ P (e a).val}.ncard =
      Nat.count P (zone max bound) := by
  have himage : (fun a => (e a).val) '' {a : α | (e a).val < zone max bound ∧ P (e a).val} =
      ((Finset.range (zone max bound)).filter P : Finset Nat) := by
    ext n
    simp only [Set.mem_image, Set.mem_ofPred_eq, Finset.coe_filter, Finset.mem_range]
    constructor
    · rintro ⟨a, h, rfl⟩
      exact h
    · intro h
      have hn : n < max + 1 := Nat.lt_succ_of_lt (h.1.trans_le (zone_le max bound))
      exact ⟨e.symm ⟨n, hn⟩, by simpa using h, by simp⟩
  rw [← Set.ncard_image_of_injective _ (Fin.val_injective.comp e.injective)]
  change ((fun a => (e a).val) '' _).ncard = _
  rw [himage, Set.ncard_coe_finset, Nat.count_eq_card_filter_range]

theorem ncard_kept : {a : α | (e a).val < zone max bound}.ncard = zone max bound := by
  have h := ncard_words e bound (fun _ => True)
  simpa using h

/-- Every residue has one word in each whole block. -/
theorem ncard_residue (hr : r < bound) :
    {a : α | (e a).val < zone max bound ∧ (e a).val % bound = r}.ncard =
      zone max bound / bound := by
  have hb : 0 < bound := Nat.zero_lt_of_lt hr
  have hmod : ∀ n, (n % bound = r) = (n ≡ r [MOD bound]) := fun n => by
    rw [Nat.ModEq, Nat.mod_eq_of_lt hr]
  have hfull : zone max bound % bound = 0 := Nat.mod_eq_zero_of_dvd (dvd_zone max bound)
  rw [ncard_words e bound (fun n => n % bound = r)]
  simp only [hmod]
  rw [Nat.count_modEq_card (zone max bound) hb r]
  simp [hfull]

end Words

end Lib.Rejection
