import Mathlib.Data.List.Induction
import Mathlib.Data.List.Perm.Basic
import Mathlib.Data.Option.Basic
import Mathlib.Logic.Function.Basic

/-!
# Runs of a state machine

A machine takes a state and an action to the next state, or to nothing where the action
cannot happen. A run is a list of actions, one after the other.
-/

namespace Lib

variable {σ α : Type}

/-- The state after a list of actions. There is none when one of them cannot happen. -/
def run (step : σ → α → Option σ) : σ → List α → Option σ
  | s, [] => some s
  | s, a :: as => step s a >>= fun s => run step s as

variable {step : σ → α → Option σ} {s s' : σ} {a : α} {as bs : List α}

@[simp]
theorem run_nil : run step s [] = some s := rfl

theorem run_cons_eq_some :
    run step s (a :: as) = some s' ↔ ∃ m, step s a = some m ∧ run step m as = some s' :=
  Option.bind_eq_some_iff

theorem run_append_eq_some :
    run step s (as ++ bs) = some s' ↔ ∃ m, run step s as = some m ∧ run step m bs = some s' := by
  induction as generalizing s with
  | nil => simp
  | cons a as ih =>
    simp only [List.cons_append, run_cons_eq_some, ih]
    constructor
    · rintro ⟨m, hm, n, hn, hs⟩
      exact ⟨n, ⟨m, hm, hn⟩, hs⟩
    · rintro ⟨n, ⟨m, hm, hn⟩, hs⟩
      exact ⟨m, hm, n, hn, hs⟩

theorem run_concat_eq_some :
    run step s (as ++ [a]) = some s' ↔ ∃ m, run step s as = some m ∧ step m a = some s' := by
  simp [run_append_eq_some, run_cons_eq_some]

/-- An invariant every action keeps. -/
theorem run_invariant {I : σ → Prop} (hstep : ∀ s a s', I s → step s a = some s' → I s')
    (h : run step s as = some s') (hs : I s) : I s' := by
  induction as generalizing s with
  | nil =>
    cases h
    exact hs
  | cons a as ih =>
    obtain ⟨m, hm, h⟩ := run_cons_eq_some.mp h
    exact ih h (hstep s a m hs hm)

/-- A run is no longer than what it uses up. -/
theorem run_length_le {I : σ → Prop} {μ : σ → Nat}
    (hstep : ∀ s a s', I s → step s a = some s' → I s' ∧ μ s' < μ s)
    (h : run step s as = some s') (hs : I s) : as.length + μ s' ≤ μ s := by
  induction as generalizing s with
  | nil =>
    cases h
    simp
  | cons a as ih =>
    obtain ⟨m, hm, h⟩ := run_cons_eq_some.mp h
    obtain ⟨hI, hlt⟩ := hstep s a m hs hm
    have hrest := ih h hI
    rw [List.length_cons]
    omega

/-- An invariant that speaks of the actions so far. -/
theorem run_history {I : List α → σ → Prop}
    (hstep : ∀ as s a s', I as s → step s a = some s' → I (as ++ [a]) s')
    (h : run step s as = some s') (hs : I [] s) : I as s' := by
  induction as using List.reverseRecOn generalizing s' with
  | nil =>
    cases h
    exact hs
  | append_singleton as a ih =>
    obtain ⟨m, hm, hs'⟩ := run_concat_eq_some.mp h
    exact hstep as m a s' (ih hm) hs'

/-- Every action of the run is one that `A` allows in the state it happens in. -/
def Allowed (step : σ → α → Option σ) (A : σ → α → Prop) : σ → List α → Prop
  | _, [] => True
  | s, a :: as => A s a ∧ ∀ m ∈ step s a, Allowed step A m as

instance decidableAllowed (A : σ → α → Prop) [∀ s a, Decidable (A s a)] :
    ∀ s as, Decidable (Allowed step A s as)
  | _, [] => .isTrue trivial
  | s, a :: as =>
    have : ∀ m, Decidable (Allowed step A m as) := fun m => decidableAllowed A m as
    inferInstanceAs (Decidable (A s a ∧ ∀ m ∈ step s a, Allowed step A m as))

/-- Actions that are allowed everywhere. -/
theorem allowed_of_forall {A : σ → α → Prop} (h : ∀ a ∈ as, ∀ s, A s a) : Allowed step A s as := by
  induction as generalizing s with
  | nil => trivial
  | cons a as ih =>
    refine ⟨h a List.mem_cons_self s, fun m _ => ?_⟩
    exact ih fun b hb => h b (List.mem_cons_of_mem _ hb)

theorem allowed_append {A : σ → α → Prop} (h : Allowed step A s as)
    (h' : ∀ m, run step s as = some m → Allowed step A m bs) : Allowed step A s (as ++ bs) := by
  induction as generalizing s with
  | nil => exact h' s rfl
  | cons a as ih =>
    refine ⟨h.1, fun m hm => ih (h.2 m hm) fun m' hm' => h' m' ?_⟩
    exact run_cons_eq_some.mpr ⟨m, hm, hm'⟩

/-- One more action has to be allowed where the run has come to. -/
theorem allowed_concat {A : σ → α → Prop} (h : run step s as = some s') :
    Allowed step A s (as ++ [a]) ↔ Allowed step A s as ∧ A s' a := by
  induction as generalizing s with
  | nil =>
    cases h
    simp [Allowed]
  | cons b as ih =>
    obtain ⟨m, hm, h⟩ := run_cons_eq_some.mp h
    simp only [List.cons_append, Allowed, hm, Option.mem_def, Option.some.injEq, forall_eq', ih h,
      and_assoc]

theorem Allowed.mono {A B : σ → α → Prop} (h : Allowed step A s as)
    (hAB : ∀ s, ∀ a ∈ as, A s a → B s a) : Allowed step B s as := by
  induction as generalizing s with
  | nil => trivial
  | cons a as ih =>
    refine ⟨hAB s a List.mem_cons_self h.1, fun m hm => ih (h.2 m hm) fun s b hb => ?_⟩
    exact hAB s b (List.mem_cons_of_mem _ hb)

/-- An invariant the allowed actions keep. -/
theorem run_allowed {I : σ → Prop} {A : σ → α → Prop}
    (hstep : ∀ s a s', I s → A s a → step s a = some s' → I s')
    (h : run step s as = some s') (hA : Allowed step A s as) (hs : I s) : I s' := by
  induction as generalizing s with
  | nil =>
    cases h
    exact hs
  | cons a as ih =>
    obtain ⟨m, hm, h⟩ := run_cons_eq_some.mp h
    exact ih h (hA.2 m hm) (hstep s a m hs hA.1 hm)

/-- A process that was there, or the one that was just started. -/
theorem getElem?_concat_eq_some {l : List α} {b : α} {k : Nat} :
    (l ++ [a])[k]? = some b ↔ l[k]? = some b ∨ k = l.length ∧ a = b := by
  rcases Nat.lt_trichotomy k l.length with hk | rfl | hk
  · rw [List.getElem?_append_left hk]
    simp [Nat.ne_of_lt hk]
  · simp
  · rw [List.getElem?_eq_none (by simp; omega), List.getElem?_eq_none (Nat.le_of_lt hk)]
    simp [Nat.ne_of_gt hk]

/-- The process that changed, or another one. -/
theorem getElem?_set_eq_some {l : List α} {b c : α} {k j : Nat} (h : (l.set k b)[j]? = some c) :
    j = k ∧ c = b ∨ j ≠ k ∧ l[j]? = some c := by
  by_cases hjk : j = k
  · subst hjk
    obtain ⟨hlt, hc⟩ := List.getElem?_eq_some_iff.mp h
    rw [List.getElem_set_self] at hc
    exact Or.inl ⟨rfl, hc.symm⟩
  · rw [List.getElem?_set_ne (Ne.symm hjk)] at h
    exact Or.inr ⟨hjk, h⟩

/-- What all processes but the one at `k` satisfy they satisfy when that one changes. -/
theorem others_set {P : α → Prop} {l : List α} {k : Nat} (h : ∀ j, j ≠ k → ∀ a ∈ l[j]?, P a)
    (b : α) : ∀ j, j ≠ k → ∀ a ∈ (l.set k b)[j]?, P a := by
  intro j hj a ha
  rw [List.getElem?_set_ne hj.symm] at ha
  exact h j hj a ha

theorem forall_set_of_others {P : α → Prop} {l : List α} {k : Nat}
    (h : ∀ j, j ≠ k → ∀ a ∈ l[j]?, P a) {b : α} (hb : P b) : ∀ a ∈ l.set k b, P a := by
  intro a ha
  obtain ⟨j, hj⟩ := List.getElem?_of_mem ha
  rcases getElem?_set_eq_some hj with ⟨-, rfl⟩ | ⟨hjk, hj⟩
  · exact hb
  · exact h j hjk a hj

/-- What the processes hold between them, before and after one of them changed. -/
theorem flatMap_set_perm {β : Type} (f : α → List β) {l : List α} {k : Nat} {b : α}
    (h : l[k]? = some a) : (f b ++ l.flatMap f).Perm (f a ++ (l.set k b).flatMap f) := by
  induction l generalizing k with
  | nil => simp at h
  | cons c l ih =>
    cases k with
    | zero =>
      cases h
      simp only [List.flatMap_cons, List.set_cons_zero]
      exact List.perm_append_comm_assoc _ _ _
    | succ k =>
      simp only [List.flatMap_cons, List.set_cons_succ]
      have hswap : (f b ++ (f c ++ l.flatMap f)).Perm (f c ++ (f b ++ l.flatMap f)) :=
        List.perm_append_comm_assoc _ _ _
      exact hswap.trans (((ih h).append_left _).trans (List.perm_append_comm_assoc _ _ _))

/-! ## Machines side by side -/

section Beside

variable {ι : Type} [DecidableEq ι]

/-- Machines that share nothing, and one of them moves. -/
def beside (step : ι → σ → α → Option σ) (w : ι → σ) (a : ι × α) : Option (ι → σ) :=
  (step a.1 (w a.1) a.2).map (Function.update w a.1)

/-- The actions of one of them. -/
def own (i : ι) (as : List (ι × α)) : List α := (as.filter fun a => a.1 = i).map Prod.snd

/-- A run of all is a run of each. -/
theorem run_beside {step : ι → σ → α → Option σ} {w w' : ι → σ} {as : List (ι × α)}
    (h : run (beside step) w as = some w') (i : ι) :
    run (step i) (w i) (own i as) = some (w' i) := by
  induction as generalizing w with
  | nil =>
    cases h
    rfl
  | cons a as ih =>
    obtain ⟨m, hm, h⟩ := run_cons_eq_some.mp h
    obtain ⟨t, ht, rfl⟩ := Option.map_eq_some_iff.mp hm
    have hrest := ih h
    by_cases hi : a.1 = i
    · subst hi
      rw [Function.update_self] at hrest
      have hown : own a.1 (a :: as) = a.2 :: own a.1 as := by simp [own]
      rw [hown]
      exact run_cons_eq_some.mpr ⟨t, ht, hrest⟩
    · rw [Function.update_of_ne (Ne.symm hi)] at hrest
      have hown : own i (a :: as) = own i as := by simp [own, hi]
      rw [hown]
      exact hrest

theorem mem_own {i : ι} {as : List (ι × α)} : a ∈ own i as ↔ (i, a) ∈ as := by
  simp [own]

end Beside

section Both

variable {τ β : Type} {step : σ → α → Option σ} {step' : τ → β → Option τ}

/-- Two machines of their own kinds, and one of them moves. -/
def both (step : σ → α → Option σ) (step' : τ → β → Option τ) (w : σ × τ) :
    α ⊕ β → Option (σ × τ)
  | .inl a => (step w.1 a).map fun s => (s, w.2)
  | .inr b => (step' w.2 b).map fun t => (w.1, t)

theorem run_both {w w' : σ × τ} {as : List (α ⊕ β)} (h : run (both step step') w as = some w') :
    run step w.1 (as.filterMap Sum.getLeft?) = some w'.1 ∧
      run step' w.2 (as.filterMap Sum.getRight?) = some w'.2 := by
  induction as generalizing w with
  | nil =>
    cases h
    exact ⟨rfl, rfl⟩
  | cons a as ih =>
    obtain ⟨m, hm, h⟩ := run_cons_eq_some.mp h
    cases a with
    | inl a =>
      obtain ⟨s, hs, rfl⟩ := Option.map_eq_some_iff.mp hm
      exact ⟨run_cons_eq_some.mpr ⟨s, hs, (ih h).1⟩, (ih h).2⟩
    | inr b =>
      obtain ⟨t, ht, rfl⟩ := Option.map_eq_some_iff.mp hm
      exact ⟨(ih h).1, run_cons_eq_some.mpr ⟨t, ht, (ih h).2⟩⟩

end Both

end Lib
