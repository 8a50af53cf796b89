import AtomVault.Lib.Bytes
import AtomVault.Lib.Prog

/-!
# Reading from a buffer

`Reads x b a` says that `x` reads the bytes `b` as `a`, whatever stands before and after them.
-/

namespace Lib

structure Cursor where
  buf : Bytes
  pos : Nat

namespace Cursor

variable {ε α β : Type}

/-- The next `n` bytes. -/
def take (fail : Cursor → ε) (n : Nat) : EStateM ε Cursor Bytes := fun c =>
  if c.pos + n ≤ c.buf.length then .ok (slice c.buf c.pos n) { c with pos := c.pos + n }
  else .error (fail c) c

def atEnd (c : Cursor) : Bool := c.pos = c.buf.length

def Reads (x : EStateM ε Cursor α) (b : Bytes) (a : α) : Prop :=
  ∀ before after, x ⟨before ++ (b ++ after), before.length⟩ =
    .ok a ⟨before ++ (b ++ after), before.length + b.length⟩

theorem reads_pure (a : α) : Reads (pure a : EStateM ε Cursor α) [] a := fun _ _ => rfl

theorem Reads.bind {x : EStateM ε Cursor α} {f : α → EStateM ε Cursor β} {b b' : Bytes} {a : α}
    {a' : β} (hx : Reads x b a) (hf : Reads (f a) b' a') : Reads (x >>= f) (b ++ b') a' := by
  intro before after
  show EStateM.bind x f _ = _
  unfold EStateM.bind
  rw [List.append_assoc, hx before (b' ++ after)]
  have := hf (before ++ b) after
  simp only [List.append_assoc, List.length_append] at this ⊢
  rw [this, Nat.add_assoc]

/-- The last part of what is read, when nothing comes after it. -/
theorem Reads.bind_pure {x : EStateM ε Cursor α} {f : α → EStateM ε Cursor β} {b : Bytes} {a : α}
    {a' : β} (hx : Reads x b a) (hf : Reads (f a) [] a') : Reads (x >>= f) b a' := by
  have := hx.bind hf
  rwa [List.append_nil] at this

theorem reads_take (fail : Cursor → ε) (b : Bytes) : Reads (take fail b.length) b b := by
  intro before after
  unfold take
  rw [if_pos (by simp), slice_field before b after rfl rfl]

/-- After the bytes `b`, `x` goes on as `y` does. -/
def Leads (x : EStateM ε Cursor α) (b : Bytes) (y : EStateM ε Cursor α) : Prop :=
  ∀ before after, x ⟨before ++ (b ++ after), before.length⟩ =
    y ⟨before ++ (b ++ after), before.length + b.length⟩

theorem Leads.refl (x : EStateM ε Cursor α) : Leads x [] x := fun _ _ => rfl

theorem Reads.leads {x : EStateM ε Cursor α} {f : α → EStateM ε Cursor β} {b b' : Bytes} {a : α}
    {y : EStateM ε Cursor β} (hx : Reads x b a) (hf : Leads (f a) b' y) :
    Leads (x >>= f) (b ++ b') y := by
  intro before after
  show EStateM.bind x f _ = _
  unfold EStateM.bind
  rw [List.append_assoc, hx before (b' ++ after)]
  have := hf (before ++ b) after
  simp only [List.append_assoc, List.length_append] at this ⊢
  rw [this, Nat.add_assoc]

theorem Reads.leads_last {x : EStateM ε Cursor α} {f : α → EStateM ε Cursor β} {b : Bytes} {a : α}
    {y : EStateM ε Cursor β} (hx : Reads x b a) (hf : Leads (f a) [] y) : Leads (x >>= f) b y := by
  have := hx.leads hf
  rwa [List.append_nil] at this

theorem Leads.bind {x y : EStateM ε Cursor α} {b : Bytes} (h : Leads x b y)
    (f : α → EStateM ε Cursor β) : Leads (x >>= f) b (y >>= f) := by
  intro before after
  show EStateM.bind x f _ = EStateM.bind y f _
  unfold EStateM.bind
  rw [h before after]

theorem Leads.trans {x y z : EStateM ε Cursor α} {b b' : Bytes} (h : Leads x b y)
    (h' : Leads y b' z) : Leads x (b ++ b') z := by
  intro before after
  rw [List.append_assoc, h before (b' ++ after)]
  have := h' (before ++ b) after
  simp only [List.append_assoc, List.length_append] at this ⊢
  rw [this, Nat.add_assoc]

/-- A buffer that starts with `b`. -/
theorem Leads.start {x y : EStateM ε Cursor α} {b : Bytes} (h : Leads x b y) (after : Bytes) :
    x ⟨b ++ after, 0⟩ = y ⟨b ++ after, b.length⟩ := by
  have := h [] after
  simpa using this

/-- A buffer that holds nothing else. -/
theorem Reads.whole {x : EStateM ε Cursor α} {b : Bytes} {a : α} (h : Reads x b a) :
    x ⟨b, 0⟩ = .ok a ⟨b, b.length⟩ := by
  have := h [] []
  simpa using this

/-! ## What was read

A grammar says which bytes stand for what. A reader that scans a grammar reads nothing else, and
what it read once it reads anywhere.
-/

def Scans (x : EStateM ε Cursor α) (G : Bytes → α → Prop) : Prop :=
  ∀ before rest a c, x ⟨before ++ rest, before.length⟩ = .ok a c →
    ∃ b after, rest = b ++ after ∧ c = ⟨before ++ rest, before.length + b.length⟩ ∧ G b a ∧
      Reads x b a

theorem Scans.mono {x : EStateM ε Cursor α} {G H : Bytes → α → Prop} (hx : Scans x G)
    (h : ∀ b a, G b a → H b a) : Scans x H := by
  intro before rest a c hrun
  obtain ⟨b, after, hrest, hc, hg, hreads⟩ := hx before rest a c hrun
  exact ⟨b, after, hrest, hc, h b a hg, hreads⟩

theorem scans_pure (a : α) : Scans (pure a : EStateM ε Cursor α) fun b x => b = [] ∧ x = a := by
  intro before rest x c hrun
  cases hrun
  exact ⟨[], rest, rfl, rfl, ⟨rfl, rfl⟩, reads_pure a⟩

theorem scans_throw (e : ε) (G : Bytes → α → Prop) :
    Scans (throw e : EStateM ε Cursor α) G := by
  intro before rest x c hrun
  cases hrun

theorem Scans.bind {x : EStateM ε Cursor α} {f : α → EStateM ε Cursor β} {G : Bytes → α → Prop}
    {H : α → Bytes → β → Prop} (hx : Scans x G) (hf : ∀ a, Scans (f a) (H a)) :
    Scans (x >>= f) fun b y => ∃ b₁ a b₂, b = b₁ ++ b₂ ∧ G b₁ a ∧ H a b₂ y := by
  intro before rest y c hrun
  change EStateM.bind x f _ = _ at hrun
  unfold EStateM.bind at hrun
  split at hrun
  · rename_i a c₁ hrun₁
    obtain ⟨b₁, after₁, rfl, rfl, hg, hreads₁⟩ := hx _ _ _ _ hrun₁
    have hmid : (⟨before ++ (b₁ ++ after₁), before.length + b₁.length⟩ : Cursor) =
        ⟨(before ++ b₁) ++ after₁, (before ++ b₁).length⟩ := by
      rw [List.append_assoc, List.length_append]
    rw [hmid] at hrun
    obtain ⟨b₂, after₂, rfl, rfl, hh, hreads₂⟩ := hf a _ _ _ _ hrun
    refine ⟨b₁ ++ b₂, after₂, ?_, ?_, ⟨b₁, a, b₂, rfl, hg, hh⟩, hreads₁.bind hreads₂⟩
    · rw [List.append_assoc]
    · rw [List.append_assoc, List.length_append, List.length_append, Nat.add_assoc]
  · cases hrun

theorem scans_ite {p : Prop} [Decidable p] {x y : EStateM ε Cursor α} {G : Bytes → α → Prop}
    (hx : p → Scans x G) (hy : ¬p → Scans y G) : Scans (if p then x else y) G := by
  split
  · exact hx (by assumption)
  · exact hy (by assumption)

theorem scans_take (fail : Cursor → ε) (n : Nat) :
    Scans (take fail n) fun b a => b = a ∧ a.length = n := by
  intro before rest a c hrun
  unfold take at hrun
  split at hrun
  · rename_i hfits
    cases hrun
    simp only [List.length_append] at hfits
    have hn : n ≤ rest.length := by omega
    have hlen : (rest.take n).length = n := List.length_take_of_le hn
    have hslice : slice (before ++ rest) before.length n = rest.take n := by
      unfold slice
      rw [List.drop_left]
    have hreads : Reads (take fail n) (rest.take n) (rest.take n) := by
      have := reads_take fail (rest.take n)
      rwa [hlen] at this
    simp only [hslice]
    exact ⟨rest.take n, rest.drop n, (List.take_append_drop n rest).symm, by rw [hlen],
      ⟨rfl, hlen⟩, hreads⟩
  · cases hrun

theorem scans_ofExcept {ε' : Type} (f : ε' → ε) (r : Except ε' α) :
    Scans (ofExcept f r) fun b a => b = [] ∧ r = .ok a := by
  cases r with
  | error e => exact scans_throw _ _
  | ok a =>
    refine (scans_pure a).mono ?_
    rintro b x ⟨rfl, rfl⟩
    exact ⟨rfl, rfl⟩

theorem scans_ofOption (e : ε) (r : Option α) :
    Scans (ofOption e r) fun b a => b = [] ∧ r = some a := by
  cases r with
  | none => exact scans_throw _ _
  | some a =>
    refine (scans_pure a).mono ?_
    rintro b x ⟨rfl, rfl⟩
    exact ⟨rfl, rfl⟩

/-- A buffer that was read from its start. -/
theorem Scans.start {x : EStateM ε Cursor α} {G : Bytes → α → Prop} (hx : Scans x G) {buf : Bytes}
    {a : α} {c : Cursor} (hrun : x ⟨buf, 0⟩ = .ok a c) :
    ∃ b after, buf = b ++ after ∧ c = ⟨buf, b.length⟩ ∧ G b a ∧ Reads x b a := by
  obtain ⟨b, after, hrest, hc, hg, hreads⟩ := hx [] buf a c hrun
  exact ⟨b, after, hrest, by simpa using hc, hg, hreads⟩

/-- A buffer that was read to its end. -/
theorem Scans.whole {x : EStateM ε Cursor α} {G : Bytes → α → Prop} (hx : Scans x G) {buf : Bytes}
    {a : α} {c : Cursor} (hrun : x ⟨buf, 0⟩ = .ok a c) (hend : c.atEnd = true) :
    G buf a ∧ Reads x buf a := by
  obtain ⟨b, after, rfl, rfl, hg, hreads⟩ := hx.start hrun
  have hafter : after = [] := by
    simp only [atEnd, List.length_append, decide_eq_true_eq] at hend
    exact List.length_eq_zero_iff.mp (by omega)
  rw [hafter, List.append_nil]
  exact ⟨hg, hreads⟩

/-! ## Panics

A reader that checks its accesses has the error `none` where the program panics.
-/

/-- The range `start..stop`, which panics past the end. -/
def range (b : Bytes) (start stop : Nat) : Option Bytes :=
  if start ≤ stop ∧ stop ≤ b.length then some (slice b start (stop - start)) else none

/-- `take`, where counting what remains must not go below zero. -/
def takeOrPanic (fail : (pos remain : Nat) → ε) (n : Nat) : EStateM (Option ε) Cursor Bytes :=
  fun c =>
    if c.pos + n > c.buf.length then
      if c.pos ≤ c.buf.length then .error (some (fail c.pos (c.buf.length - c.pos))) c
      else .error none c
    else
      match range c.buf c.pos (c.pos + n) with
      | none => .error none c
      | some out => .ok out { c with pos := c.pos + n }

/-- From a place in its buffer `y` does what `x` does, and ends at another. -/
def NoPanic (y : EStateM (Option ε) Cursor α) (x : EStateM ε Cursor α) : Prop :=
  ∀ c, c.pos ≤ c.buf.length → match x c with
    | .ok a c' => y c = .ok a c' ∧ c'.pos ≤ c'.buf.length
    | .error e c' => y c = .error (some e) c'

/-- Both read a buffer from its start. -/
theorem NoPanic.start {y : EStateM (Option ε) Cursor α} {x : EStateM ε Cursor α} (h : NoPanic y x)
    (b : Bytes) : (∃ e c, x ⟨b, 0⟩ = .error e c ∧ y ⟨b, 0⟩ = .error (some e) c) ∨
      ∃ a c, x ⟨b, 0⟩ = .ok a c ∧ y ⟨b, 0⟩ = .ok a c := by
  have hstart := h ⟨b, 0⟩ (Nat.zero_le _)
  cases hrun : x ⟨b, 0⟩ with
  | error e c =>
    rw [hrun] at hstart
    exact Or.inl ⟨e, c, rfl, hstart⟩
  | ok a c =>
    rw [hrun] at hstart
    exact Or.inr ⟨a, c, rfl, hstart.1⟩

theorem noPanic_pure (a : α) :
    NoPanic (pure a : EStateM (Option ε) Cursor α) (pure a : EStateM ε Cursor α) :=
  fun _ hc => ⟨rfl, hc⟩

theorem noPanic_throw (e : ε) :
    NoPanic (throw (some e) : EStateM (Option ε) Cursor α) (throw e : EStateM ε Cursor α) :=
  fun _ _ => rfl

theorem NoPanic.bind {y : EStateM (Option ε) Cursor α} {x : EStateM ε Cursor α}
    {g : α → EStateM (Option ε) Cursor β} {f : α → EStateM ε Cursor β} (hx : NoPanic y x)
    (hf : ∀ a, NoPanic (g a) (f a)) : NoPanic (y >>= g) (x >>= f) := by
  intro c hc
  have hfirst := hx c hc
  change match EStateM.bind x f c with
    | .ok a c' => EStateM.bind y g c = .ok a c' ∧ c'.pos ≤ c'.buf.length
    | .error e c' => EStateM.bind y g c = .error (some e) c'
  unfold EStateM.bind
  cases hrun : x c with
  | error e c' =>
    rw [hrun] at hfirst
    simp only [hfirst]
  | ok a c' =>
    rw [hrun] at hfirst
    obtain ⟨hy, hc'⟩ := hfirst
    simp only [hy]
    exact hf a c' hc'

/-- What was taken has the length that was asked for. -/
theorem noPanic_take_bind {fail : (pos remain : Nat) → ε} {n : Nat}
    {g : Bytes → EStateM (Option ε) Cursor β} {f : Bytes → EStateM ε Cursor β}
    (hf : ∀ b, b.length = n → NoPanic (g b) (f b)) :
    NoPanic (takeOrPanic fail n >>= g)
      (take (fun c => fail c.pos (c.buf.length - c.pos)) n >>= f) := by
  intro c hc
  change match EStateM.bind _ f c with
    | .ok a c' => EStateM.bind _ g c = .ok a c' ∧ c'.pos ≤ c'.buf.length
    | .error e c' => EStateM.bind _ g c = .error (some e) c'
  unfold EStateM.bind take takeOrPanic
  by_cases hfits : c.pos + n ≤ c.buf.length
  · have hrange : range c.buf c.pos (c.pos + n) = some (slice c.buf c.pos n) := by
      unfold range
      rw [if_pos ⟨by omega, hfits⟩, Nat.add_sub_cancel_left]
    simp only [if_pos hfits, if_neg (not_lt.mpr hfits), hrange]
    exact hf _ (length_slice _ _ _ hfits) _ hfits
  · simp only [if_neg hfits, if_pos (not_le.mp hfits), if_pos hc]

theorem noPanic_take (fail : (pos remain : Nat) → ε) (n : Nat) :
    NoPanic (takeOrPanic fail n) (take (fun c => fail c.pos (c.buf.length - c.pos)) n) := by
  have h : NoPanic (takeOrPanic fail n >>= pure) (take _ n >>= pure) :=
    noPanic_take_bind fun b _ => noPanic_pure b
  rwa [bind_pure, bind_pure] at h

theorem noPanic_ite {p : Prop} [Decidable p] {y y' : EStateM (Option ε) Cursor α}
    {x x' : EStateM ε Cursor α} (h : p → NoPanic y x) (h' : ¬p → NoPanic y' x') :
    NoPanic (if p then y else y') (if p then x else x') := by
  split
  · exact h (by assumption)
  · exact h' (by assumption)

theorem noPanic_ofExcept {ε' : Type} (f : ε' → ε) (r : Except ε' α) :
    NoPanic (ofExcept (fun e => some (f e)) r) (ofExcept f r) := by
  cases r with
  | error e => exact noPanic_throw _
  | ok a => exact noPanic_pure a

theorem noPanic_ofOption (e : ε) (r : Option α) :
    NoPanic (ofOption (some e) r) (ofOption e r) := by
  cases r with
  | none => exact noPanic_throw _
  | some a => exact noPanic_pure a

end Cursor

/-! ### Without a cursor

An `ExceptT ε Option` panics where it is `none`.
-/

section Total

variable {ε α β : Type} {y : ExceptT ε Option α} {x : Except ε α} {g : α → ExceptT ε Option β}
  {f : α → Except ε β}

theorem run_bind_eq (hx : y.run = some x) (hf : ∀ a, x = .ok a → (g a).run = some (f a)) :
    (y >>= g).run = some (x >>= f) := by
  rw [ExceptT.run_bind, hx]
  cases x with
  | error e => rfl
  | ok a => exact hf a rfl

theorem run_lift_bind {r : Option α} {a : α} {x : Except ε β} (hr : r = some a)
    (hf : (g a).run = some x) : (ExceptT.lift r >>= g).run = some x := by
  rw [ExceptT.run_bind, hr]
  exact hf

theorem run_ite_eq {p q : Prop} [Decidable p] [Decidable q] (hpq : p ↔ q) {y y' : ExceptT ε Option α}
    {x x' : Except ε α} (h : q → y.run = some x) (h' : ¬q → y'.run = some x') :
    (if p then y else y').run = some (if q then x else x') := by
  by_cases hq : q
  · rw [if_pos (hpq.mpr hq), if_pos hq]
    exact h hq
  · rw [if_neg (mt hpq.mp hq), if_neg hq]
    exact h' hq

end Total

/-- Where nothing may come behind what was read, nothing shorter is read. -/
theorem error_of_take {ε α : Type} (read : Bytes → Except ε α)
    (hlonger : ∀ {x a ext}, read x = .ok a → ext ≠ [] → ∃ e, read (x ++ ext) = .error e) {x : Bytes}
    {a : α} (h : read x = .ok a) {n : Nat} (hn : n < x.length) : ∃ e, read (x.take n) = .error e := by
  cases hshort : read (x.take n) with
  | error e => exact ⟨e, rfl⟩
  | ok a' =>
    have hrest : x.drop n ≠ [] := by
      rw [← List.length_pos_iff, List.length_drop]
      omega
    obtain ⟨e, he⟩ := hlonger hshort hrest
    rw [List.take_append_drop, h] at he
    cases he

end Lib
