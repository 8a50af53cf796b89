import Mathlib.Order.Basic

/-!
# A floor that only rises

Something takes one item after another and remembers the highest it took. It takes an item
only above what it remembers.
-/

namespace Lib

variable {α : Type} [Preorder α]

/-- From the floor `f`, the items `l` were taken in this order, and the floor is `g` then. -/
inductive Rises : Option α → List α → Option α → Prop
  | stay (f : Option α) : Rises f [] f
  | take {f g : Option α} {a : α} {l : List α} (above : ∀ b ∈ f, b < a)
      (rest : Rises (some a) l g) : Rises f (a :: l) g

namespace Rises

variable {f g k : Option α} {l m : List α} {a : α}

theorem one (above : ∀ b ∈ f, b < a) : Rises f [a] (some a) := take above (stay _)

theorem trans (h : Rises f l g) (h' : Rises g m k) : Rises f (l ++ m) k := by
  induction h with
  | stay => exact h'
  | take above _ ih => exact take above (ih h')

/-- Whatever is taken was above the floor. -/
theorem above (h : Rises f l g) : ∀ b ∈ f, ∀ a ∈ l, b < a := by
  induction h with
  | stay => simp
  | take above _ ih =>
    intro b hb a ha
    have hlt := above b hb
    rcases List.mem_cons.mp ha with rfl | ha
    · exact hlt
    · exact hlt.trans (ih _ rfl a ha)

/-- No item is taken after one that is not below it. -/
theorem pairwise (h : Rises f l g) : l.Pairwise (· < ·) := by
  induction h with
  | stay => exact List.Pairwise.nil
  | take _ rest ih => exact List.pairwise_cons.mpr ⟨rest.above _ rfl, ih⟩

/-- The floor never sinks. -/
theorem le (h : Rises f l g) : ∀ b ∈ f, ∃ c ∈ g, b ≤ c := by
  induction h with
  | stay => exact fun b hb => ⟨b, hb, le_refl b⟩
  | take above _ ih =>
    intro b hb
    obtain ⟨c, hc, hle⟩ := ih _ rfl
    exact ⟨c, hc, (above b hb).le.trans hle⟩

end Rises

end Lib
