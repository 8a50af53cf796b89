import Mathlib.Tactic.Common

/-!
# Programs that return a value or an error, and keep their state either way

`EStateM` has the shape of a Rust function with `&mut` arguments and a `Result`: what
it wrote before the error stays written. `wp` is its weakest precondition, with one
postcondition for the value and one for the error.
-/

namespace Lib

variable {σ ε α β : Type}

/-- `Q` holds of the value and the state `x` ends in, or `E` of the error and the state. -/
def wp (x : EStateM ε σ α) (Q : α → σ → Prop) (E : ε → σ → Prop) (s : σ) : Prop :=
  match x s with
  | .ok a s' => Q a s'
  | .error e s' => E e s'

theorem wp_of_ok {x : EStateM ε σ α} {Q : α → σ → Prop} {E : ε → σ → Prop} {s s' : σ} {a : α}
    (h : wp x Q E s) (hx : x s = .ok a s') : Q a s' := by
  rw [wp, hx] at h; exact h

theorem wp_of_error {x : EStateM ε σ α} {Q : α → σ → Prop} {E : ε → σ → Prop} {s s' : σ} {e : ε}
    (h : wp x Q E s) (hx : x s = .error e s') : E e s' := by
  rw [wp, hx] at h; exact h

theorem wp_of_eq_ok {x : EStateM ε σ α} {Q : α → σ → Prop} {E : ε → σ → Prop} {s s' : σ} {a : α}
    (hx : x s = .ok a s') (h : Q a s') : wp x Q E s := by
  rw [wp, hx]; exact h

/-- A program whose errors are all excluded returns a value. -/
theorem ok_of_wp {x : EStateM ε σ α} {Q : α → σ → Prop} {s : σ} (h : wp x Q (fun _ _ => False) s) :
    ∃ a s', x s = .ok a s' ∧ Q a s' := by
  unfold wp at h
  split at h
  · exact ⟨_, _, by assumption, h⟩
  · exact h.elim

/-- A program whose values are all excluded returns an error. -/
theorem error_of_wp {x : EStateM ε σ α} {E : ε → σ → Prop} {s : σ}
    (h : wp x (fun _ _ => False) E s) : ∃ e s', x s = .error e s' ∧ E e s' := by
  unfold wp at h
  split at h
  · exact h.elim
  · exact ⟨_, _, by assumption, h⟩

theorem bind_eq_ok {x : EStateM ε σ α} {f : α → EStateM ε σ β} {s s'' : σ} {b : β}
    (h : (x >>= f) s = .ok b s'') : ∃ a s', x s = .ok a s' ∧ f a s' = .ok b s'' := by
  change EStateM.bind x f s = _ at h
  unfold EStateM.bind at h
  split at h
  · exact ⟨_, _, by assumption, h⟩
  · cases h

theorem wp_mono {x : EStateM ε σ α} {Q Q' : α → σ → Prop} {E E' : ε → σ → Prop} {s : σ}
    (h : wp x Q E s) (hQ : ∀ a s', Q a s' → Q' a s') (hE : ∀ e s', E e s' → E' e s') :
    wp x Q' E' s := by
  unfold wp at h ⊢
  split
  · rename_i hx
    rw [hx] at h
    exact hQ _ _ h
  · rename_i hx
    rw [hx] at h
    exact hE _ _ h

/-- Two results about one run. -/
theorem wp_and {x : EStateM ε σ α} {Q Q' : α → σ → Prop} {E E' : ε → σ → Prop} {s : σ}
    (h : wp x Q E s) (h' : wp x Q' E' s) :
    wp x (fun a s' => Q a s' ∧ Q' a s') (fun e s' => E e s' ∧ E' e s') s := by
  unfold wp at *
  split
  · rename_i hx
    rw [hx] at h h'
    exact ⟨h, h'⟩
  · rename_i hx
    rw [hx] at h h'
    exact ⟨h, h'⟩

@[simp]
theorem wp_pure (a : α) (Q : α → σ → Prop) (E : ε → σ → Prop) (s : σ) :
    wp (pure a) Q E s ↔ Q a s := Iff.rfl

@[simp]
theorem wp_throw (e : ε) (Q : α → σ → Prop) (E : ε → σ → Prop) (s : σ) :
    wp (throw e) Q E s ↔ E e s := Iff.rfl

@[simp]
theorem wp_get (Q : σ → σ → Prop) (E : ε → σ → Prop) (s : σ) : wp get Q E s ↔ Q s s := Iff.rfl

@[simp]
theorem wp_modify (f : σ → σ) (Q : PUnit → σ → Prop) (E : ε → σ → Prop) (s : σ) :
    wp (modify f) Q E s ↔ Q ⟨⟩ (f s) := Iff.rfl

@[simp]
theorem wp_bind (x : EStateM ε σ α) (f : α → EStateM ε σ β) (Q : β → σ → Prop) (E : ε → σ → Prop)
    (s : σ) : wp (x >>= f) Q E s ↔ wp x (fun a => wp (f a) Q E) E s := by
  show wp (EStateM.bind x f) Q E s ↔ _
  unfold wp EStateM.bind
  cases hx : x s <;> simp

@[simp]
theorem wp_tryCatch (x : EStateM ε σ α) (f : ε → EStateM ε σ α) (Q : α → σ → Prop)
    (E : ε → σ → Prop) (s : σ) :
    wp (tryCatch x f) Q E s ↔ wp x Q (fun e => wp (f e) Q E) s := by
  show wp (EStateM.tryCatch x f) Q E s ↔ _
  unfold wp EStateM.tryCatch
  cases hx : x s <;> simp [EStateM.Backtrackable.restore, EStateM.dummyRestore]

/-- The `?` of Rust: an error of another type goes through `f`. -/
def ofExcept {ε' : Type} (f : ε' → ε) : Except ε' α → EStateM ε σ α
  | .ok a => pure a
  | .error e => throw (f e)

theorem wp_ofExcept {ε' : Type} {f : ε' → ε} {x : Except ε' α} {Q : α → σ → Prop}
    {E : ε → σ → Prop} {s : σ} (hok : ∀ a, x = .ok a → Q a s)
    (herr : ∀ e, x = .error e → E (f e) s) : wp (ofExcept f x) Q E s := by
  cases x with
  | ok a => exact hok a rfl
  | error e => exact herr e rfl

def ofOption (e : ε) : Option α → EStateM ε σ α
  | some a => pure a
  | none => throw e

theorem wp_ofOption {e : ε} {x : Option α} {Q : α → σ → Prop} {E : ε → σ → Prop} {s : σ}
    (hok : ∀ a, x = some a → Q a s) (herr : x = none → E e s) : wp (ofOption e x) Q E s := by
  cases x with
  | some a => exact hok a rfl
  | none => exact herr rfl

/-- What `?` passes on in a function that only returns a value or an error. -/
theorem of_bind_eq_ok {m : Except ε α} {f : α → Except ε β} {b : β} (h : m >>= f = .ok b) :
    ∃ a, m = .ok a ∧ f a = .ok b := by
  cases m with
  | error e => cases h
  | ok a => exact ⟨a, rfl, h⟩

theorem mapM_eq_ok_iff {f : α → Except ε β} {l : List α} {r : List β} :
    l.mapM f = .ok r ↔ List.Forall₂ (fun a b => f a = .ok b) l r := by
  induction l generalizing r with
  | nil =>
    constructor
    · intro h
      cases h
      exact .nil
    · intro h
      cases h
      rfl
  | cons a l ih =>
    rw [List.mapM_cons]
    constructor
    · intro h
      obtain ⟨b, hb, h⟩ := of_bind_eq_ok h
      obtain ⟨bs, hbs, h⟩ := of_bind_eq_ok h
      cases h
      exact .cons hb (ih.mp hbs)
    · intro h
      obtain _ | ⟨hb, hbs⟩ := h
      rw [hb, ih.mpr hbs]
      rfl

/-- `wp` with the two postconditions that say what was computed is the computation. -/
theorem wp_iff (x : EStateM ε σ α) (Q : α → σ → Prop) (E : ε → σ → Prop) (s : σ) :
    wp x Q E s ↔ (∀ a s', x s = .ok a s' → Q a s') ∧ ∀ e s', x s = .error e s' → E e s' := by
  unfold wp
  cases x s <;> simp

end Lib
