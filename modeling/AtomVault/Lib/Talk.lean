import Mathlib.Tactic.Common

/-!
# Programs that make calls

A program returns, or makes a call and goes on with the answer. A call that fails ends the
program with its error, as `?` does. What answers the calls, and in which order the calls
of several programs are answered, is not said here.
-/

namespace Lib

inductive Talk (Q A ε α : Type)
  | done (r : Except ε α)
  | call (q : Q) (next : A → Talk Q A ε α)

namespace Talk

variable {Q A ε α β : Type}

def bind : Talk Q A ε α → (α → Talk Q A ε β) → Talk Q A ε β
  | done (.ok a), f => f a
  | done (.error e), _ => done (.error e)
  | call q next, f => call q fun a => (next a).bind f

instance : Monad (Talk Q A ε) where
  pure a := done (.ok a)
  bind := bind

def ask (q : Q) : Talk Q A ε A := call q fun a => done (.ok a)

@[simp]
theorem pure_eq (a : α) : (pure a : Talk Q A ε α) = done (.ok a) := rfl

@[simp]
theorem ok_bind (a : α) (f : α → Talk Q A ε β) : (done (.ok a) : Talk Q A ε α) >>= f = f a := rfl

@[simp]
theorem ask_bind (q : Q) (f : A → Talk Q A ε β) : (ask q : Talk Q A ε A) >>= f = call q f := rfl

@[simp]
theorem call_bind (q : Q) (next : A → Talk Q A ε α) (f : α → Talk Q A ε β) :
    call q next >>= f = call q fun a => next a >>= f := rfl

theorem bind_assoc {γ : Type} (m : Talk Q A ε α) (f : α → Talk Q A ε β) (g : β → Talk Q A ε γ) :
    m >>= f >>= g = m >>= fun a => f a >>= g := by
  induction m with
  | done r =>
    cases r with
    | ok a => rfl
    | error e => rfl
  | call q next ih =>
    simp only [call_bind]
    congr 1
    funext a
    exact ih a

/-- The call the program waits for. -/
def pending : Talk Q A ε α → Option Q
  | done _ => none
  | call q _ => some q

/-- The pending call returned `r`. -/
def answer : Talk Q A ε α → Except ε A → Talk Q A ε α
  | done r, _ => done r
  | call _ _, .error e => done (.error e)
  | call _ next, .ok a => next a

def result : Talk Q A ε α → Option (Except ε α)
  | done r => some r
  | call _ _ => none

end Talk

end Lib
