import Mathlib.Data.List.Basic

/-!
# A reliable channel

Everything that was ever sent, in order, and how much of it was received.
-/

namespace Lib

structure Channel (α : Type) where
  sent : List α
  taken : Nat

namespace Channel

variable {α : Type} (c : Channel α)

def empty : Channel α := ⟨[], 0⟩

/-- What the other side has got so far. -/
def received : List α := c.sent.take c.taken

/-- What the other side gets next. -/
def next : Option α := c.sent[c.taken]?

def take : Channel α := { c with taken := c.taken + 1 }

/-- At most one more message. -/
def put (m : Option α) : Channel α := { c with sent := c.sent ++ m.toList }

end Channel

end Lib
