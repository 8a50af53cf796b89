import Mathlib.Data.List.Nodup

/-!
# Lists with keys

Where every key stands once, the first entry under a key is the only one, and to change the first
one is to change all of them.
-/

namespace Lib

/-- `g` at every entry under `k`. -/
def change {α κ : Type} [DecidableEq κ] (key : α → κ) (k : κ) (g : α → α) (l : List α) : List α :=
  l.map fun a => if key a = k then g a else a

section First

variable {α : Type} {q : α → Bool} {g : α → α} {l : List α}

theorem modify_findIdx_of_eq (h : ∀ a ∈ l.find? q, g a = a) : l.modify (l.findIdx q) g = l := by
  induction l with
  | nil => rfl
  | cons a l ih =>
    by_cases ha : q a = true
    · have hg : g a = a := h a (by simp [ha])
      simp [List.findIdx_cons, ha, hg]
    · have hrest : ∀ b ∈ l.find? q, g b = b := fun b hb => h b (by simpa [ha] using hb)
      simp [List.findIdx_cons, ha, ih hrest]

theorem find?_modify (hg : ∀ a, q a = true → q (g a) = true) (l : List α) :
    (l.modify (l.findIdx q) g).find? q = (l.find? q).map g := by
  induction l with
  | nil => rfl
  | cons a l ih =>
    by_cases ha : q a = true
    · simp [List.findIdx_cons, ha, hg a ha]
    · simp only [Bool.not_eq_true] at ha
      simp [List.findIdx_cons, ha, ih]

/-- An entry of the list, or what became of the first one. -/
theorem mem_modify_findIdx {b : α} (h : b ∈ l.modify (l.findIdx q) g) :
    b ∈ l ∨ ∃ a ∈ l, q a = true ∧ b = g a := by
  induction l with
  | nil => exact Or.inl h
  | cons a l ih =>
    by_cases ha : q a = true
    · simp only [List.findIdx_cons, ha, cond_true, List.modify_zero_cons, List.mem_cons] at h
      rcases h with rfl | h
      · exact Or.inr ⟨a, List.mem_cons_self, ha, rfl⟩
      · exact Or.inl (List.mem_cons_of_mem _ h)
    · simp only [Bool.not_eq_true] at ha
      simp only [List.findIdx_cons, ha, cond_false, List.modify_succ_cons, List.mem_cons] at h
      rcases h with rfl | h
      · exact Or.inl List.mem_cons_self
      · rcases ih h with hb | ⟨c, hc, hq, rfl⟩
        · exact Or.inl (List.mem_cons_of_mem _ hb)
        · exact Or.inr ⟨c, List.mem_cons_of_mem _ hc, hq, rfl⟩

end First

section Keys

variable {α κ : Type} [DecidableEq κ] {key : α → κ} {k : κ} {g : α → α} {l : List α}

theorem change_of_not_mem (h : k ∉ l.map key) : change key k g l = l := by
  have hkept : ∀ a ∈ l, (if key a = k then g a else a) = a := by
    intro a ha
    rw [if_neg]
    rintro rfl
    exact h (List.mem_map.mpr ⟨a, ha, rfl⟩)
  unfold change
  exact (List.map_congr_left hkept).trans (List.map_id' l)

theorem modify_findIdx_eq_change (h : (l.map key).Nodup) :
    l.modify (l.findIdx fun a => key a = k) g = change key k g l := by
  induction l with
  | nil => rfl
  | cons a l ih =>
    rw [List.map_cons, List.nodup_cons] at h
    by_cases ha : key a = k
    · subst ha
      have hrest : change key (key a) g l = l := change_of_not_mem h.1
      unfold change at hrest ⊢
      simp [List.findIdx_cons, hrest]
    · have hrest := ih h.2
      unfold change at hrest ⊢
      simp [List.findIdx_cons, ha, hrest]

/-- What `g` leaves as it is stays as it is. -/
theorem map_change {β : Type} {f : α → β} (hg : ∀ a ∈ l, key a = k → f (g a) = f a) :
    (change key k g l).map f = l.map f := by
  unfold change
  rw [List.map_map]
  refine List.map_congr_left fun a ha => ?_
  show f (if key a = k then g a else a) = f a
  split
  · rename_i hk
    exact hg a ha hk
  · rfl

theorem mem_change {b : α} : b ∈ change key k g l ↔
    (∃ a ∈ l, key a = k ∧ b = g a) ∨ b ∈ l ∧ key b ≠ k := by
  unfold change
  rw [List.mem_map]
  constructor
  · rintro ⟨a, ha, rfl⟩
    split
    · rename_i hk
      exact .inl ⟨a, ha, hk, rfl⟩
    · rename_i hk
      exact .inr ⟨ha, hk⟩
  · rintro (⟨a, ha, hk, rfl⟩ | ⟨hb, hk⟩)
    · exact ⟨a, ha, if_pos hk⟩
    · exact ⟨b, hb, if_neg hk⟩

omit [DecidableEq κ] in
theorem nodup_map_append (h : (l.map key).Nodup) {a : α} (ha : key a ∉ l.map key) :
    ((l ++ [a]).map key).Nodup := by
  rw [List.map_append, List.nodup_append]
  refine ⟨h, List.nodup_singleton _, ?_⟩
  rintro k hk _ hlast rfl
  rw [List.map_singleton, List.mem_singleton] at hlast
  exact ha (hlast ▸ hk)

theorem find?_key_eq_none : l.find? (fun a => key a = k) = none ↔ k ∉ l.map key := by
  rw [List.find?_eq_none, List.mem_map]
  simp

theorem find?_key_eq_some (h : (l.map key).Nodup) {a : α} :
    l.find? (fun a => key a = k) = some a ↔ a ∈ l ∧ key a = k := by
  constructor
  · intro hfind
    exact ⟨List.mem_of_find?_eq_some hfind, by simpa using List.find?_some hfind⟩
  · rintro ⟨ha, rfl⟩
    cases hfind : l.find? fun b => key b = key a with
    | none => exact absurd (List.mem_map.mpr ⟨a, ha, rfl⟩) (find?_key_eq_none.mp hfind)
    | some b =>
      have hb : key b = key a := by simpa using List.find?_some hfind
      rw [List.inj_on_of_nodup_map h (List.mem_of_find?_eq_some hfind) ha hb]

end Keys

end Lib
