import AtomVault.Lib.Bytes
import Mathlib.Data.Set.Basic

/-!
# Authenticated encryption, idealised

Nothing opens but what was sealed, under the key, the nonce and the associated data it was
sealed with. What was sealed so far is a set, so the assumption is about one moment of a run.
-/

namespace Lib

/-- One sealing, and the box that came out. -/
@[ext]
structure Sealing where
  key : Bytes
  nonce : Bytes
  aad : Bytes
  msg : Bytes
  box : Bytes
  deriving DecidableEq

/-- Both ways of an AEAD after the sealings in `made`. -/
structure IdealAead (encrypt decrypt : Bytes → Bytes → Bytes → Bytes → Option Bytes)
    (made : Set Sealing) : Prop where
  encrypted : ∀ x ∈ made, encrypt x.key x.nonce x.aad x.msg = some x.box
  opens_iff : ∀ key nonce aad msg box,
    decrypt key nonce aad box = some msg ↔ ⟨key, nonce, aad, msg, box⟩ ∈ made
  /-- No two sealings have one box. -/
  box_injective : ∀ x ∈ made, ∀ y ∈ made, x.box = y.box → x = y

namespace IdealAead

variable {encrypt decrypt : Bytes → Bytes → Bytes → Bytes → Option Bytes} {made : Set Sealing}
  {x : Sealing} {key nonce aad msg : Bytes}

theorem opens (h : IdealAead encrypt decrypt made) (hx : x ∈ made) :
    decrypt x.key x.nonce x.aad x.box = some x.msg :=
  (h.opens_iff _ _ _ _ _).mpr hx

/-- A box opens in one way only. -/
theorem eq_of_opens (h : IdealAead encrypt decrypt made) (hx : x ∈ made)
    (ho : decrypt key nonce aad x.box = some msg) :
    x.key = key ∧ x.nonce = nonce ∧ x.aad = aad ∧ x.msg = msg := by
  have hy := (h.opens_iff _ _ _ _ _).mp ho
  have heq := h.box_injective x hx _ hy rfl
  exact ⟨congrArg Sealing.key heq, congrArg Sealing.nonce heq, congrArg Sealing.aad heq,
    congrArg Sealing.msg heq⟩

end IdealAead

/-! ## A table -/

/-- Opens what is in the table. -/
def tableOpen (table : List Sealing) (key nonce aad box : Bytes) : Option Bytes :=
  (table.find? fun x => x.key = key ∧ x.nonce = nonce ∧ x.aad = aad ∧ x.box = box).map (·.msg)

theorem idealAead_table {encrypt : Bytes → Bytes → Bytes → Bytes → Option Bytes}
    {table : List Sealing}
    (hencrypt : ∀ x ∈ table, encrypt x.key x.nonce x.aad x.msg = some x.box)
    (hbox : ∀ x ∈ table, ∀ y ∈ table, x.box = y.box → x = y) :
    IdealAead encrypt (tableOpen table) {x | x ∈ table} where
  encrypted := hencrypt
  opens_iff key nonce aad msg box := by
    unfold tableOpen
    rw [Option.map_eq_some_iff]
    constructor
    · rintro ⟨x, hx, rfl⟩
      have hfound := List.find?_some hx
      rw [decide_eq_true_eq] at hfound
      obtain ⟨rfl, rfl, rfl, rfl⟩ := hfound
      exact List.mem_of_find?_eq_some hx
    · intro hmem
      have hsome : (table.find? fun x => x.key = key ∧ x.nonce = nonce ∧ x.aad = aad ∧
          x.box = box).isSome := by
        rw [List.find?_isSome]
        exact ⟨_, hmem, by simp⟩
      obtain ⟨x, hx⟩ := Option.isSome_iff_exists.mp hsome
      have hfound := List.find?_some hx
      rw [decide_eq_true_eq] at hfound
      have heq := hbox x (List.mem_of_find?_eq_some hx) _ hmem hfound.2.2.2
      exact ⟨x, hx, congrArg Sealing.msg heq⟩
  box_injective := hbox

end Lib
